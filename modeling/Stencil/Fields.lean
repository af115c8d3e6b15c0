import Stencil.Record

/-!
# Fields in order

The fields of a record as a type. Each name is greater than the one before it, so fields out of
order, or two with one name, cannot be built (`ascending_toList`). `toList` gives them as pairs, and
a field is looked up there. `insert` puts an item in its place among fields, as `Record.insert` does
in a list of pairs (`toList_insert`). `ofPairs` takes pairs as they come, and from the pairs of a
record it makes that record (`ofPairs_toList`).
-/

set_option autoImplicit false

namespace Stencil

/-- Items under names in ascending order, each name once and above a bound. -/
inductive Fields (α : Type) : Option String → Type where
  | nil {bound : Option String} : Fields α bound
  | cons {bound : Option String} (name : String) (above : ∀ low ∈ bound, low < name) (item : α)
      (rest : Fields α (some name)) : Fields α bound

namespace Fields

variable {α : Type} {bound : Option String}

/-- The fields as pairs, in their order. -/
def toList : {bound : Option String} → Fields α bound → List (String × α)
  | _, .nil => []
  | _, .cons name _ item rest => (name, item) :: toList rest

/-- Puts an item under a name above the bound. -/
def insert (name : String) (item : α) : {bound : Option String} → Fields α bound →
    (∀ low ∈ bound, low < name) → Fields α bound
  | _, .nil, h => .cons name h item .nil
  | _, .cons other above x rest, h =>
    if before : name < other then
      .cons name h item (.cons other (fun _ same => Option.mem_some.mp same ▸ before) x rest)
    else if same : name = other then .cons other above item rest
    else
      .cons other above x (insert name item rest fun _ here => Option.mem_some.mp here ▸
        Std.lt_of_le_of_ne (String.not_lt.mp before) (Ne.symm same))

/-- The record of a list of pairs, of which the last with a name counts. -/
def ofPairs (pairs : List (String × α)) : Fields α none :=
  pairs.foldl (fun fields pair =>
    fields.insert pair.1 pair.2 fun _ h => absurd h (Option.not_mem_none _)) .nil

/-- Pairs stand for the record that they make. -/
instance : Coe (List (String × α)) (Fields α none) := ⟨ofPairs⟩

theorem toList_insert (name : String) (item : α) (fields : Fields α bound)
    (h : ∀ low ∈ bound, low < name) :
    (fields.insert name item h).toList = Record.insert name item fields.toList := by
  induction fields with
  | nil => rfl
  | cons other above x rest ih =>
    rw [insert, toList, Record.insert]
    split
    · rfl
    split
    · next same =>
      rw [toList, same]
    · rw [toList, ih]

theorem lt_of_mem_toList {low : String} (fields : Fields α (some low)) :
    ∀ field ∈ fields.toList, low < field.1 := by
  generalize hbound : some low = bound at fields
  induction fields generalizing low with
  | nil => exact fun _ h => absurd h List.not_mem_nil
  | cons name above item rest ih =>
    subst hbound
    have first : low < name := above low rfl
    rw [toList, List.forall_mem_cons]
    exact ⟨first, fun field h => String.lt_trans first (ih rfl field h)⟩

/-- The names ascend. -/
theorem ascending_toList (fields : Fields α bound) : Record.Ascending fields.toList := by
  induction fields with
  | nil => exact .nil
  | cons name above item rest ih =>
    refine .cons ?_ ih
    rw [List.forall_mem_map]
    exact rest.lt_of_mem_toList

/-- Fields are told by their pairs. -/
theorem toList_injective {fields others : Fields α bound} (h : fields.toList = others.toList) :
    fields = others := by
  induction fields with
  | nil =>
    cases others with
    | nil => rfl
    | cons => cases h
  | cons name above item rest ih =>
    cases others with
    | nil => cases h
    | cons name' above' item' rest' =>
      obtain ⟨first, later⟩ := List.cons.inj h
      obtain ⟨rfl, rfl⟩ := Prod.mk.inj first
      rw [ih later]

theorem toList_ofPairs (pairs : List (String × α)) :
    (ofPairs pairs).toList = Record.ofPairs pairs := by
  have added (fields : Fields α none) :
      (pairs.foldl (fun fields pair => fields.insert pair.1 pair.2
        fun _ h => absurd h (Option.not_mem_none _)) fields).toList =
      pairs.foldl (fun fields pair => Record.insert pair.1 pair.2 fields) fields.toList := by
    induction pairs generalizing fields with
    | nil => rfl
    | cons pair more ih => rw [List.foldl_cons, List.foldl_cons, ih, toList_insert]
  exact added .nil

/-- A record is what its pairs make. -/
theorem ofPairs_toList (fields : Fields α none) : ofPairs fields.toList = fields := by
  apply toList_injective
  rw [toList_ofPairs, Record.ofPairs_of_ascending fields.ascending_toList]

end Fields

end Stencil
