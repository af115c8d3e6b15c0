import Stencil.Proofs.Template.Numbering

/-!
# The shape of a listing

The rows of a listing and the numbers in it make a proper forest (`Listing.Proper`): every row has
its number in exactly one place, which is the list of roots or a list of a row behind it, and the
numbers of each list ascend. All this is proved of trees listed from any first number on, by one
induction over trees and lists.

Because a row stands behind those it refers to, following the numbers ends (`Listing.walk`). Depth
first from the roots it meets the leaves in the order of the trees, which is also the order of their
rows (`Listing.walk_ofTrees`, `Listing.leaves_ofTrees`).
-/

set_option autoImplicit false

namespace Stencil

variable {α : Type}

/-- The lists of numbers in a row. -/
def Row.lists : Row α → List (List Nat)
  | .leaf _ => []
  | .block _ _ body none _ => [body]
  | .block _ _ body (some alternative) _ => [body, alternative]

theorem Row.flatten_lists (row : Row α) : row.lists.flatten = row.targets := by
  cases row with
  | leaf item => rfl
  | block kind subject body alternative here =>
    cases alternative with
    | none => simp [lists, targets]
    | some other => simp [lists, targets]

/-- The lists of numbers in a listing: its roots, and those of its rows. -/
def Listing.lists (l : Listing α) : List (List Nat) :=
  l.root :: l.rows.flatMap Row.lists

/-- The rows of a listing are the nodes of a forest, children before their parents. -/
structure Listing.Proper (l : Listing α) : Prop extends l.InBounds where
  /-- Every row has its number in one place. -/
  once : l.lists.flatten.Perm (List.range l.rows.length)
  /-- A row stands behind those it refers to. -/
  descend : ∀ (i : Nat) (row : Row α), l.rows[i]? = some row → ∀ j ∈ row.targets, j < i
  ascend : ∀ ids ∈ l.lists, ids.Pairwise (· < ·)

namespace Tree

/-! ## Each number once -/

/-- The numbers in some rows. -/
abbrev targetsOf (rows : List (Row α)) : List Nat := rows.flatMap Row.targets

theorem range'_size (first : Nat) (t : Tree α) :
    List.range' first (size t) =
      List.range' first (size t - 1) ++ [first + size t - 1] := by
  obtain ⟨n, hn⟩ := Nat.exists_eq_add_of_lt (size_pos t)
  rw [hn, Nat.zero_add, Nat.add_sub_cancel, List.range'_concat]
  congr 2
  omega

mutual

/-- In the rows of a tree stand their numbers, but for the last. -/
theorem targets_rows (first : Nat) : (t : Tree α) →
    (targetsOf (rows first t)).Perm (List.range' first (size t - 1))
  | .leaf _ => .refl _
  | .block kind subject body none here => by
    rw [rows, size, Nat.add_sub_cancel, targetsOf, List.flatMap_append, List.flatMap_singleton]
    simp only [Row.targets, Option.getD_none, List.append_nil]
    exact List.perm_append_comm.trans (targets_rowsOf first body)
  | .block kind subject body (some alternative) here => by
    rw [rows, size, Nat.add_sub_cancel, targetsOf, List.flatMap_append, List.flatMap_append,
      List.flatMap_singleton, ← List.range'_append_1]
    simp only [Row.targets, Option.getD_some]
    have moved : ((targetsOf (rowsOf first body) ++
        targetsOf (rowsOf (first + sizes body) alternative)) ++
          (ids first body ++ ids (first + sizes body) alternative)).Perm
        ((ids first body ++ targetsOf (rowsOf first body)) ++
          (ids (first + sizes body) alternative ++
            targetsOf (rowsOf (first + sizes body) alternative))) := by
      refine List.perm_iff_count.mpr fun i => ?_
      simp only [List.count_append]
      omega
    exact moved.trans
      ((targets_rowsOf first body).append (targets_rowsOf (first + sizes body) alternative))

/-- Among the numbers of trees and in their rows stand the numbers of these rows. -/
theorem targets_rowsOf (first : Nat) : (ts : List (Tree α)) →
    (ids first ts ++ targetsOf (rowsOf first ts)).Perm (List.range' first (sizes ts))
  | [] => .refl _
  | t :: rest => by
    rw [ids, rowsOf, sizes, targetsOf, List.flatMap_append, ← List.range'_append_1,
      range'_size first t]
    have moved : ((first + size t - 1) :: ids (first + size t) rest ++
          (targetsOf (rows first t) ++ targetsOf (rowsOf (first + size t) rest))).Perm
        ((targetsOf (rows first t) ++ [first + size t - 1]) ++
          (ids (first + size t) rest ++ targetsOf (rowsOf (first + size t) rest))) := by
      refine List.perm_iff_count.mpr fun i => ?_
      simp only [List.count_append, List.count_cons, List.count_nil]
      omega
    exact moved.trans (((targets_rows first t).append (.refl _)).append
      (targets_rowsOf (first + size t) rest))

end

/-! ## Ascending numbers -/

theorem ids_ascend (first : Nat) (ts : List (Tree α)) : (ids first ts).Pairwise (· < ·) := by
  induction ts generalizing first with
  | nil => exact .nil
  | cons t rest ih =>
    refine .cons (fun i hi => ?_) (ih _)
    have := size_pos t
    have := (mem_ids hi).1
    omega

mutual

theorem rows_ascend (first : Nat) : (t : Tree α) →
    ∀ row ∈ rows first t, ∀ ids ∈ row.lists, ids.Pairwise (· < ·)
  | .leaf _ => by
    rw [rows, List.forall_mem_singleton]
    nofun
  | .block kind subject body none here => by
    rw [rows, List.forall_mem_append, List.forall_mem_singleton]
    exact ⟨rowsOf_ascend first body, List.forall_mem_singleton.mpr (ids_ascend first body)⟩
  | .block kind subject body (some alternative) here => by
    rw [rows, List.forall_mem_append, List.forall_mem_append, List.forall_mem_singleton]
    refine ⟨⟨rowsOf_ascend first body, rowsOf_ascend _ alternative⟩, ?_⟩
    exact List.forall_mem_cons.mpr ⟨ids_ascend first body,
      List.forall_mem_singleton.mpr (ids_ascend _ alternative)⟩

theorem rowsOf_ascend (first : Nat) : (ts : List (Tree α)) →
    ∀ row ∈ rowsOf first ts, ∀ ids ∈ row.lists, ids.Pairwise (· < ·)
  | [] => by
    rw [rowsOf]
    nofun
  | t :: rest => by
    rw [rowsOf, List.forall_mem_append]
    exact ⟨rows_ascend first t, rowsOf_ascend _ rest⟩

end

end Tree

/-- The listing of some trees is a proper forest. -/
theorem Listing.ofTrees_proper (ts : List (Tree α)) : (Listing.ofTrees ts).Proper where
  toInBounds := Listing.ofTrees_inBounds ts
  once := by
    have flat : (Listing.ofTrees ts).lists.flatten =
        Tree.ids 0 ts ++ Tree.targetsOf (Tree.rowsOf 0 ts) := by
      rw [lists, List.flatten_cons, ← List.flatMap_id, List.flatMap_assoc]
      simp only [List.flatMap_id, Row.flatten_lists]
      rfl
    have all := Tree.targets_rowsOf 0 ts
    rw [flat, Listing.ofTrees, Tree.length_rowsOf, List.range_eq_range']
    exact all
  descend i row hrow j hj := by
    have before := Tree.rowsOf_descend 0 ts i row hrow j hj
    omega
  ascend := by
    refine List.forall_mem_cons.mpr ⟨Tree.ids_ascend 0 ts, fun ids hids => ?_⟩
    obtain ⟨row, hrow, hids⟩ := List.mem_flatMap.mp hids
    exact Tree.rowsOf_ascend 0 ts row hrow ids hids

/-! ## Walking a listing -/

/-- The leaf of a row, if it is one. -/
def Row.leaf? : Row α → Option α
  | .leaf item => some item
  | .block .. => none

/-- The leaves of a listing, in the order of its rows. -/
def Listing.leaves (l : Listing α) : List α :=
  l.rows.filterMap Row.leaf?

/-- The leaves that are met at a number, given those met at the numbers of a row. -/
def Row.meet (rows : List (Row α)) (deeper : List Nat → List α) (i : Nat) : List α :=
  match rows[i]? with
  | none => []
  | some (.leaf item) => [item]
  | some row => deeper row.targets

/-- The leaves that are met from some numbers, depth first and down to a depth. -/
def Row.walk (rows : List (Row α)) : Nat → List Nat → List α
  | 0, _ => []
  | depth + 1, ids => ids.flatMap (Row.meet rows (Row.walk rows depth))

/-- The leaves of a listing as a walk from its roots meets them, depth first. No way down is longer
than there are rows. -/
def Listing.walk (l : Listing α) : List α :=
  Row.walk l.rows l.rows.length l.root

namespace Tree

mutual

theorem leaf?_rows (first : Nat) : (t : Tree α) → (rows first t).filterMap Row.leaf? = leaves t
  | .leaf _ => rfl
  | .block kind subject body none here => by
    rw [rows, leaves, List.filterMap_append, leaf?_rowsOf first body]
    exact List.append_nil _
  | .block kind subject body (some alternative) here => by
    rw [rows, leaves, List.filterMap_append, List.filterMap_append, leaf?_rowsOf first body,
      leaf?_rowsOf _ alternative]
    exact List.append_nil _

theorem leaf?_rowsOf (first : Nat) :
    (ts : List (Tree α)) → (rowsOf first ts).filterMap Row.leaf? = leavesOf ts
  | [] => by
    rw [rowsOf, leavesOf, List.filterMap_nil]
  | t :: rest => by
    rw [rowsOf, leavesOf, List.filterMap_append, leaf?_rows first t, leaf?_rowsOf _ rest]

end

theorem walk_append (rows : List (Row α)) (depth : Nat) (first second : List Nat) :
    Row.walk rows depth (first ++ second) =
      Row.walk rows depth first ++ Row.walk rows depth second := by
  cases depth with
  | zero => rfl
  | succ depth => exact List.flatMap_append

mutual

/-- At the number of a tree its leaves are met, whatever rows stand around its own. -/
theorem meet_rows (before after : List (Row α)) (depth : Nat) : (t : Tree α) →
    size t ≤ depth + 1 →
      Row.meet (before ++ rows before.length t ++ after)
        (Row.walk (before ++ rows before.length t ++ after) depth)
          (before.length + size t - 1) = leaves t
  | .leaf item, _ => by
    rw [size, Nat.add_sub_cancel, Row.meet, rows]
    simp [leaves]
  | .block kind subject body none here, h => by
    rw [size] at h
    have last : before.length + size (.block kind subject body none here) - 1 =
        (before ++ rowsOf before.length body).length := by
      rw [size, List.length_append, length_rowsOf]
      omega
    have inner := walk_rowsOf before ([.block kind subject (ids before.length body) none here] ++
      after) depth body (by omega)
    rw [last, Row.meet, rows, leaves, ← inner]
    simp [Row.targets]
  | .block kind subject body (some alternative) here, h => by
    rw [size] at h
    have second : before.length + sizes body =
        (before ++ rowsOf before.length body).length := by
      rw [List.length_append, length_rowsOf]
    have last : before.length + size (.block kind subject body (some alternative) here) - 1 =
        (before ++ rowsOf before.length body ++
          rowsOf (before.length + sizes body) alternative).length := by
      rw [size, List.length_append, List.length_append, length_rowsOf, length_rowsOf]
      omega
    have inner := walk_rowsOf before (rowsOf (before.length + sizes body) alternative ++
      [.block kind subject (ids before.length body)
        (some (ids (before.length + sizes body) alternative)) here] ++ after) depth body (by omega)
    have other := walk_rowsOf (before ++ rowsOf before.length body)
      ([.block kind subject (ids before.length body)
        (some (ids (before.length + sizes body) alternative)) here] ++ after) depth alternative
      (by omega)
    rw [← second] at other
    rw [last, Row.meet, rows, leaves, ← inner, ← other]
    simp [Row.targets, walk_append]

/-- From the numbers of trees their leaves are met, whatever rows stand around their own. -/
theorem walk_rowsOf (before after : List (Row α)) (depth : Nat) : (ts : List (Tree α)) →
    sizes ts ≤ depth →
      Row.walk (before ++ rowsOf before.length ts ++ after) depth (ids before.length ts) =
        leavesOf ts
  | [], _ => by
    rw [ids, leavesOf]
    cases depth with
    | zero => rfl
    | succ depth => rfl
  | t :: rest, h => by
    rw [sizes] at h
    have := size_pos t
    obtain ⟨depth, rfl⟩ : ∃ d, depth = d + 1 := ⟨depth - 1, by omega⟩
    have first :=
      meet_rows before (rowsOf (before.length + size t) rest ++ after) depth t (by omega)
    have second : before.length + size t = (before ++ rows before.length t).length := by
      rw [List.length_append, length_rows]
    have others := walk_rowsOf (before ++ rows before.length t) after (depth + 1) rest (by omega)
    rw [← second] at others
    rw [ids, rowsOf, leavesOf, Row.walk, List.flatMap_cons, ← first, ← others, Row.walk]
    simp only [List.append_assoc]

end

end Tree

theorem Listing.leaves_ofTrees (ts : List (Tree α)) :
    (Listing.ofTrees ts).leaves = Tree.leavesOf ts :=
  Tree.leaf?_rowsOf 0 ts

/-- A walk through the listing of some trees meets their leaves in order. -/
theorem Listing.walk_ofTrees (ts : List (Tree α)) :
    (Listing.ofTrees ts).walk = Tree.leavesOf ts := by
  have walked := Tree.walk_rowsOf [] [] (Tree.sizes ts) ts (Nat.le_refl _)
  rw [List.nil_append, List.append_nil] at walked
  rw [walk, ofTrees, Tree.length_rowsOf]
  exact walked

end Stencil
