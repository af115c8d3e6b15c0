import Stencil.Json.Basic
import Stencil.Numeral.Natural

/-!
# Settings

What a caller can choose: what a path with a name that the data lacks stands for, how deeply
templates may embed one another, and whether outputs are escaped by context.
-/

set_option autoImplicit false

namespace Stencil

/-- What a path stands for when a record lacks one of its names. -/
inductive MissingKey where
  /-- An error. -/
  | refuse
  /-- Null, which prints as nothing. -/
  | empty
deriving DecidableEq, Repr

/-- The settings of a template set. -/
structure Config where
  missingKey : MissingKey
  /-- The number of templates that may be active inside one another, the entry not counted. -/
  maxDepth : Nat
  autoescape : Bool
deriving DecidableEq, Repr

namespace Config

/-- The settings of a caller who chooses nothing. -/
def standard : Config := ⟨.refuse, 64, true⟩

/-- Reads the setting for missing names. -/
def missingKey? : Json → Option MissingKey
  | .string "error" => some .refuse
  | .string "empty_string" => some .empty
  | _ => none

/-- Reads a depth, a word of 64 bits. -/
def depth? : Json → Option Nat
  | .int n => if 0 ≤ n ∧ n ≤ Numeral.maxWord then some n.toNat else none
  | _ => none

/-- Reads a truth value. -/
def flag? : Json → Option Bool
  | .bool b => some b
  | _ => none

/-- The setting under a name, or a default if the name is absent. -/
def setting {α : Type} (fields : List (String × Json)) (name : String) (read : Json → Option α)
    (default : α) : Option α :=
  match Record.get? fields name with
  | none => some default
  | some j => read j

/-- Reads settings from an object; names it does not know are ignored. -/
def ofJson? : Json → Option Config
  | .object fields => do
    let missingKey ← setting fields "missing_key" missingKey? standard.missingKey
    let maxDepth ← setting fields "max_include_depth" depth? standard.maxDepth
    let autoescape ← setting fields "autoescape" flag? standard.autoescape
    pure ⟨missingKey, maxDepth, autoescape⟩
  | _ => none

end Config

end Stencil
