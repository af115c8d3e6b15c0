import Stencil.Config
import Stencil.Error
import Stencil.Template.Listing

/-!
# Programs

A compiled template. A **variant** is one template as it is written at one place: the same trees,
with the escapers of each output and the variant of each embedded template. A **program** is the
variants that an entry reaches; their order is the one in which they were first needed.
-/

set_option autoImplicit false

namespace Stencil

open Markup (Context)

/-- What a compiled template writes at a place. -/
inductive Instruction where
  | text (content : String)
  | output (pipeline : Pipeline) (rules : List Escaper) (location : Location)
  /-- The variant with the number `target`. -/
  | embed (name : String) (target : Nat) (data : Option Pipeline) (location : Location)

/-- Where a template is written. -/
inductive Place where
  /-- In a context of a document. -/
  | markup (c : Context)
  /-- Outside of any document: outputs are not escaped. -/
  | verbatim
deriving DecidableEq, Repr

/-- A place as messages show it. -/
def Place.describe : Place → String
  | .markup c => c.describe
  | .verbatim => "verbatim"

/-- A template compiled for a place. -/
structure Variant where
  name : String
  place : Place
  body : List (Tree Instruction)

/-- A compiled template with all that it embeds. -/
structure Program where
  name : String
  variants : List Variant
  /-- The number of the variant to start with. -/
  entry : Nat
  config : Config

/-- Every output of a variant has escapers and every template it embeds is one of a number of
variants. -/
def Variant.check (v : Variant) (count : Nat) : Except Error Unit :=
  (Tree.leavesOf v.body).forM fun
    | .output _ [] here => .error (.ambiguous (.unescaped v.name) here)
    | .embed name target _ here => if target < count then pure () else .error (.undefined name here)
    | _ => pure ()

/-- A program whose variants pass their checks. -/
def Program.checked (p : Program) : Except Error Program := do
  p.variants.forM fun v => v.check p.variants.length
  pure p

end Stencil
