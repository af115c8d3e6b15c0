import Stencil.Template.Tree

/-!
# Listings

A listing numbers the trees of a list and writes them as rows: a leaf is one row, a block is the
rows of its body and its alternative followed by a row that refers to them by number. So numbers
ascend, and every row stands behind the rows it refers to.
-/

set_option autoImplicit false

namespace Stencil

/-- One row of a listing. -/
inductive Row (α : Type) where
  | leaf (item : α)
  | block (kind : BlockKind) (subject : Pipeline) (body : List Nat)
    (alternative : Option (List Nat)) (location : Location)

namespace Tree

variable {α : Type}

mutual

/-- The number of rows of a tree. -/
def size : Tree α → Nat
  | .leaf _ => 1
  | .block _ _ body none _ => sizes body + 1
  | .block _ _ body (some alternative) _ => sizes body + sizes alternative + 1

/-- The number of rows of a list of trees. -/
def sizes : List (Tree α) → Nat
  | [] => 0
  | t :: rest => size t + sizes rest

end

/-- The numbers of the trees of a list whose rows start at `first`. -/
def ids (first : Nat) : List (Tree α) → List Nat
  | [] => []
  | t :: rest => (first + size t - 1) :: ids (first + size t) rest

mutual

/-- The rows of a tree, the first of which has the number `first`. -/
def rows (first : Nat) : Tree α → List (Row α)
  | .leaf item => [.leaf item]
  | .block kind subject body none location =>
    rowsOf first body ++ [.block kind subject (ids first body) none location]
  | .block kind subject body (some alternative) location =>
    rowsOf first body ++ rowsOf (first + sizes body) alternative ++
      [.block kind subject (ids first body) (some (ids (first + sizes body) alternative)) location]

/-- The rows of a list of trees, the first of which has the number `first`. -/
def rowsOf (first : Nat) : List (Tree α) → List (Row α)
  | [] => []
  | t :: rest => rows first t ++ rowsOf (first + size t) rest

end

mutual

/-- The leaves of a tree, in order. -/
def leaves : Tree α → List α
  | .leaf item => [item]
  | .block _ _ body none _ => leavesOf body
  | .block _ _ body (some alternative) _ => leavesOf body ++ leavesOf alternative

/-- The leaves of a list of trees, in order. -/
def leavesOf : List (Tree α) → List α
  | [] => []
  | t :: rest => leaves t ++ leavesOf rest

end

end Tree

/-- A list of trees as rows and the numbers of its own trees. -/
structure Listing (α : Type) where
  rows : List (Row α)
  root : List Nat

/-- The listing of a list of trees. -/
def Listing.ofTrees {α : Type} (ts : List (Tree α)) : Listing α :=
  ⟨Tree.rowsOf 0 ts, Tree.ids 0 ts⟩

end Stencil
