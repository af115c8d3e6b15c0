import Stencil.Template.Listing

/-!
# Numbers of a listing

In a listing every number names a row: those of its own trees and those that its rows refer to
(`Listing.InBounds`, `Listing.ofTrees_inBounds`). More is true of the numbers that a row refers to,
which is what an induction over the trees carries: they stand before the row
(`Tree.rowsOf_descend`).

So the trees of a listing can be read back from its rows in one pass, each row from the trees of the
rows before it (`Listing.trees?`), and they are the trees that were listed
(`Listing.trees?_ofTrees`).
-/

set_option autoImplicit false

namespace Stencil

variable {α : Type}

/-- The numbers that a row refers to. -/
def Row.targets : Row α → List Nat
  | .leaf _ => []
  | .block _ _ body alternative _ => body ++ alternative.getD []

/-- Every number in a listing is that of a row. -/
structure Listing.InBounds (l : Listing α) : Prop where
  root : ∀ i ∈ l.root, i < l.rows.length
  targets : ∀ row ∈ l.rows, ∀ i ∈ row.targets, i < l.rows.length

namespace Tree

theorem size_pos (t : Tree α) : 0 < size t := by
  cases t with
  | leaf item => exact Nat.one_pos
  | block kind subject body alternative here =>
    cases alternative with
    | none => exact Nat.succ_pos _
    | some alternative => exact Nat.succ_pos _

mutual

@[simp] theorem length_rows (first : Nat) : (t : Tree α) → (rows first t).length = size t
  | .leaf _ => rfl
  | .block _ _ body none _ => by
    rw [rows, size, List.length_append, length_rowsOf first body, List.length_singleton]
  | .block _ _ body (some alternative) _ => by
    rw [rows, size, List.length_append, List.length_append, length_rowsOf first body,
      length_rowsOf _ alternative, List.length_singleton]

@[simp] theorem length_rowsOf (first : Nat) :
    (ts : List (Tree α)) → (rowsOf first ts).length = sizes ts
  | [] => rfl
  | t :: rest => by
    rw [rowsOf, sizes, List.length_append, length_rows first t, length_rowsOf _ rest]

end

/-- The numbers of trees are among those of their rows. -/
theorem mem_ids {first i : Nat} {ts : List (Tree α)} (h : i ∈ ids first ts) :
    first ≤ i ∧ i < first + sizes ts := by
  induction ts generalizing first with
  | nil => cases h
  | cons t rest ih =>
    have := size_pos t
    rw [ids, List.mem_cons] at h
    rw [sizes]
    rcases h with rfl | h
    · omega
    · have := ih h
      omega

/-- Rows of which the first has a number, each behind those it refers to. -/
def Descend (first : Nat) (rows : List (Row α)) : Prop :=
  ∀ (i : Nat) (row : Row α), rows[i]? = some row → ∀ j ∈ row.targets, j < first + i

theorem Descend.append {first : Nat} {as bs : List (Row α)} (ha : Descend first as)
    (hb : Descend (first + as.length) bs) : Descend first (as ++ bs) := by
  intro i row h j hj
  rw [List.getElem?_append] at h
  split at h
  · exact ha i row h j hj
  · have := hb _ row h j hj
    omega

theorem Descend.singleton {first : Nat} {row : Row α} (h : ∀ j ∈ row.targets, j < first) :
    Descend first [row] := by
  intro i row' hrow j hj
  have mem := List.mem_of_getElem? hrow
  rw [List.mem_singleton.mp mem] at hj
  exact Nat.lt_add_right i (h j hj)

mutual

theorem rows_descend (first : Nat) : (t : Tree α) → Descend first (rows first t)
  | .leaf _ => .singleton nofun
  | .block _ _ body none _ => by
    rw [rows]
    refine (rowsOf_descend first body).append (.singleton fun j hj => ?_)
    simp only [Row.targets, Option.getD_none, List.append_nil] at hj
    simpa using (mem_ids hj).2
  | .block _ _ body (some alternative) _ => by
    rw [rows]
    refine ((rowsOf_descend first body).append ?_).append (.singleton fun j hj => ?_)
    · rw [length_rowsOf]
      exact rowsOf_descend _ alternative
    · simp only [Row.targets, Option.getD_some, List.mem_append] at hj
      rw [List.length_append, length_rowsOf, length_rowsOf]
      rcases hj with hj | hj
      · have := mem_ids hj
        omega
      · have := mem_ids hj
        omega

/-- Every row stands behind the rows it refers to. -/
theorem rowsOf_descend (first : Nat) : (ts : List (Tree α)) → Descend first (rowsOf first ts)
  | [] => by
    rw [rowsOf]
    nofun
  | t :: rest => by
    rw [rowsOf]
    refine (rows_descend first t).append ?_
    rw [length_rows]
    exact rowsOf_descend _ rest

end

end Tree

/-- Every number in the listing of some trees is that of a row. -/
theorem Listing.ofTrees_inBounds (ts : List (Tree α)) : (Listing.ofTrees ts).InBounds where
  root i hi := by
    have := (Tree.mem_ids hi).2
    simpa [Listing.ofTrees] using this
  targets row hrow i hi := by
    obtain ⟨n, hn⟩ := List.getElem?_of_mem hrow
    have before := Tree.rowsOf_descend 0 ts n row hn i hi
    have bound := (List.getElem?_eq_some_iff.mp hn).1
    omega

/-! ## Reading back -/

/-- The trees with some numbers. -/
def Tree.pick? (done : List (Tree α)) (ids : List Nat) : Option (List (Tree α)) :=
  ids.mapM (done[·]?)

/-- The tree of a row, given those of the rows before it. -/
def Row.tree? (done : List (Tree α)) : Row α → Option (Tree α)
  | .leaf item => some (.leaf item)
  | .block kind subject body none here => do
    let body ← Tree.pick? done body
    pure (.block kind subject body none here)
  | .block kind subject body (some alternative) here => do
    let body ← Tree.pick? done body
    let alternative ← Tree.pick? done alternative
    pure (.block kind subject body (some alternative) here)

/-- The trees of rows, behind those of the rows before them. -/
def Row.trees? (done : List (Tree α)) : List (Row α) → Option (List (Tree α))
  | [] => some done
  | row :: rest => do
    let t ← row.tree? done
    Row.trees? (done ++ [t]) rest

/-- The trees that a listing is of. -/
def Listing.trees? (l : Listing α) : Option (List (Tree α)) := do
  let done ← Row.trees? [] l.rows
  Tree.pick? done l.root

theorem Row.trees?_append (done : List (Tree α)) (first second : List (Row α)) :
    Row.trees? done (first ++ second) =
      (Row.trees? done first).bind fun done => Row.trees? done second := by
  induction first generalizing done with
  | nil => rfl
  | cons row first ih =>
    rw [List.cons_append, Row.trees?, Row.trees?]
    cases row.tree? done with
    | none => rfl
    | some t => exact ih (done ++ [t])

namespace Tree

/-- Trees that are found in a list under their numbers are found there with more behind it. -/
theorem pick?_append {done ts : List (Tree α)} {ids : List Nat} (h : pick? done ids = some ts)
    (more : List (Tree α)) : pick? (done ++ more) ids = some ts := by
  unfold pick? at h ⊢
  induction ids generalizing ts with
  | nil => exact h
  | cons i ids ih =>
    rw [List.mapM_cons] at h ⊢
    obtain ⟨t, ht, h₁⟩ := Option.bind_eq_some_iff.mp h
    obtain ⟨rest, hrest, h₂⟩ := Option.bind_eq_some_iff.mp h₁
    rw [List.getElem?_append_left (List.getElem?_eq_some_iff.mp ht).1, ht, ih hrest]
    exact h₂

/-- What reading the rows of trees adds to the trees read before: as many trees as there are rows,
those that were listed under their numbers. -/
def ReadsTo (done : List (Tree α)) (ts : List (Tree α)) (more : List (Tree α)) : Prop :=
  Row.trees? done (rowsOf done.length ts) = some (done ++ more) ∧ more.length = sizes ts ∧
    pick? (done ++ more) (ids done.length ts) = some ts

mutual

/-- The last row of a tree is read as the tree. -/
theorem trees?_rows (done : List (Tree α)) : (t : Tree α) → ∃ inner,
    Row.trees? done (rows done.length t) = some (done ++ (inner ++ [t])) ∧
      inner.length + 1 = size t
  | .leaf item => ⟨[], rfl, rfl⟩
  | .block kind subject body none here => by
    obtain ⟨more, hrows, hlength, hpick⟩ := trees?_rowsOf done body
    refine ⟨more, ?_, by rw [hlength, size]⟩
    rw [rows, Row.trees?_append, hrows, Option.bind_some, Row.trees?, Row.tree?, hpick]
    simp [Row.trees?]
  | .block kind subject body (some alternative) here => by
    obtain ⟨more, hrows, hlength, hpick⟩ := trees?_rowsOf done body
    obtain ⟨other, hrows', hlength', hpick'⟩ := trees?_rowsOf (done ++ more) alternative
    -- the rows of the alternative stand behind those of the body
    have first : done.length + sizes body = (done ++ more).length := by
      rw [List.length_append, hlength]
    refine ⟨more ++ other, ?_, ?_⟩
    · rw [rows, Row.trees?_append, Row.trees?_append, hrows, Option.bind_some, first, hrows',
        Option.bind_some, Row.trees?, Row.tree?, pick?_append hpick other, hpick']
      simp [Row.trees?]
    · rw [List.length_append, hlength, hlength', size]

theorem trees?_rowsOf (done : List (Tree α)) : (ts : List (Tree α)) → ∃ more, ReadsTo done ts more
  | [] => ⟨[], by simp [rowsOf, Row.trees?], rfl, rfl⟩
  | t :: rest => by
    obtain ⟨inner, hrows, hlength⟩ := trees?_rows done t
    obtain ⟨more, hrows', hlength', hpick⟩ := trees?_rowsOf (done ++ (inner ++ [t])) rest
    have first : done.length + size t = (done ++ (inner ++ [t])).length := by
      rw [List.length_append, List.length_append, List.length_singleton, hlength]
    refine ⟨inner ++ [t] ++ more, ?_, ?_, ?_⟩
    · rw [rowsOf, Row.trees?_append, hrows, Option.bind_some, first, hrows', List.append_assoc]
    · rw [List.length_append, List.length_append, List.length_singleton, hlength, hlength', sizes]
    · have found : (done ++ (inner ++ [t] ++ more))[done.length + size t - 1]? = some t := by
        have last : done.length + size t - 1 = (done ++ inner).length := by
          rw [List.length_append]
          omega
        rw [last]
        simp
      rw [ids, pick?, List.mapM_cons, found, first]
      rw [List.append_assoc] at hpick
      rw [pick?] at hpick
      rw [hpick]
      rfl

end

end Tree

/-- The trees of a listing are those that were listed. -/
theorem Listing.trees?_ofTrees (ts : List (Tree α)) : (Listing.ofTrees ts).trees? = some ts := by
  obtain ⟨more, hrows, -, hpick⟩ := Tree.trees?_rowsOf [] ts
  unfold Listing.ofTrees Listing.trees?
  rw [List.length_nil] at hrows hpick
  rw [hrows]
  exact hpick

end Stencil
