import Stencil.Template.Pipeline
import Stencil.Template.Token

/-!
# Trees of a template

The body of a template is a list of trees. A leaf is what the template writes at a place; a block
has a pipeline as its subject, a body and perhaps an alternative. The leaves of a parsed template
are pieces (`Piece`); a compiled one has the same trees over other leaves.
-/

set_option autoImplicit false

namespace Stencil

/-- What a block does with the value of its subject. -/
inductive BlockKind where
  /-- Takes the body if the value counts as true. -/
  | cond
  /-- Takes the body once for each item of the value. -/
  | each
  /-- Takes the body with the value as the current one, if it counts as true. -/
  | within
deriving DecidableEq, Repr

/-- The keyword that opens a block. -/
def BlockKind.keyword : BlockKind → Keyword
  | .cond => .ifWord
  | .each => .rangeWord
  | .within => .withWord

/-- A leaf, or a block of trees. -/
inductive Tree (α : Type) where
  | leaf (item : α)
  | block (kind : BlockKind) (subject : Pipeline) (body : List (Tree α))
    (alternative : Option (List (Tree α))) (location : Location)

/-- What a template writes at a place. -/
inductive Piece where
  /-- Text as it stands. -/
  | text (content : String) (location : Location)
  /-- The value of a pipeline. -/
  | output (pipeline : Pipeline) (location : Location)
  /-- Another template, with the value of a pipeline as its data. -/
  | embed (name : String) (data : Option Pipeline) (location : Location)

/-- A parsed template. -/
structure Template where
  name : String
  body : List (Tree Piece)
  location : Location

/-- The templates of one source: the main one, and those defined in it in the order in which their
definitions end. -/
structure Source where
  main : Template
  defines : List Template

end Stencil
