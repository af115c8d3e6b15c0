/-!
# Records

A record is a list of named items in ascending order of their names, each name once. `insert` keeps
the order and replaces an item of the same name (`get?_insert`), so that a record does not depend on
the order in which different names are put into it (`insert_comm`); `ofPairs` builds a record from
pairs of which the last with a name counts, and from the fields of a record the record itself
(`ofPairs_of_ascending`).
-/

set_option autoImplicit false

namespace Stencil.Record

variable {α : Type}

/-- Puts an item under a name. -/
def insert (name : String) (item : α) : List (String × α) → List (String × α)
  | [] => [(name, item)]
  | (other, x) :: rest =>
    if name < other then (name, item) :: (other, x) :: rest
    else if name = other then (name, item) :: rest
    else (other, x) :: insert name item rest

/-- The record of a list of pairs. -/
def ofPairs (pairs : List (String × α)) : List (String × α) :=
  pairs.foldl (fun fields pair => insert pair.1 pair.2 fields) []

/-- The item under a name. -/
def get? (fields : List (String × α)) (name : String) : Option α :=
  fields.lookup name

@[simp] theorem get?_cons (key name : String) (item : α) (rest : List (String × α)) :
    get? ((key, item) :: rest) name = if name = key then some item else get? rest name := by
  unfold get?
  by_cases h : name = key
  · simp [h]
  · rw [List.lookup_cons, beq_false_of_ne h, if_neg h]

/-- What is put under a name is found under it, and what is under other names stays. -/
theorem get?_insert (fields : List (String × α)) (name other : String) (item : α) :
    get? (insert name item fields) other =
      if other = name then some item else get? fields other := by
  induction fields with
  | nil => simp [insert]
  | cons pair rest ih =>
    obtain ⟨key, x⟩ := pair
    unfold insert
    split
    · simp
    split
    · next same => grind [get?_cons]
    · grind [get?_cons]

/-- Items under different names can be put in either order. -/
theorem insert_comm {name other : String} (h : name ≠ other) (item item' : α)
    (fields : List (String × α)) :
    insert name item (insert other item' fields) =
      insert other item' (insert name item fields) := by
  induction fields with
  | nil => grind [insert]
  | cons pair rest ih =>
    obtain ⟨key, x⟩ := pair
    grind [insert]

/-- A record has its names in ascending order, each once. -/
def Ascending (fields : List (String × α)) : Prop :=
  (fields.map Prod.fst).Pairwise (· < ·)

theorem insert_of_forall_lt {fields : List (String × α)} {name : String}
    (h : ∀ field ∈ fields, field.1 < name) (item : α) :
    insert name item fields = fields ++ [(name, item)] := by
  induction fields with
  | nil => rfl
  | cons field rest ih =>
    obtain ⟨first, hrest⟩ := List.forall_mem_cons.mp h
    have other : name ≠ field.1 := by
      rintro rfl
      exact String.lt_irrefl _ first
    rw [insert, if_neg (String.lt_asymm first), if_neg other, ih hrest]
    rfl

/-- A record is what its fields make. -/
theorem ofPairs_of_ascending {fields : List (String × α)} (h : Ascending fields) :
    ofPairs fields = fields := by
  have added (done more : List (String × α)) (h : Ascending (done ++ more)) :
      more.foldl (fun fields pair => insert pair.1 pair.2 fields) done = done ++ more := by
    induction more generalizing done with
    | nil => exact (List.append_nil done).symm
    | cons pair more ih =>
      have below : ∀ field ∈ done, field.1 < pair.1 := by
        intro field hfield
        rw [Ascending, List.map_append, List.pairwise_append] at h
        exact h.2.2 _ (List.mem_map_of_mem hfield) _ (List.mem_cons_self ..)
      rw [List.foldl_cons, insert_of_forall_lt below, ih _ (by simpa using h)]
      simp
  exact added [] fields h

end Stencil.Record
