import Stencil.Value.Basic
import Stencil.Template.Pipeline

/-!
# Stepping into values

One step of a path: from a record to the item under a name, from a list to the item at an index. An
index on a record is the name that spells it. A step that leads nowhere says why (`Miss`).
-/

set_option autoImplicit false

namespace Stencil

/-- Why a step leads nowhere. -/
inductive Miss where
  /-- The record has no such name. -/
  | missingKey
  /-- The list is shorter. -/
  | outOfRange (length : Nat)
  /-- The value is null. -/
  | nil
  /-- The value is a scalar, or a list asked for a name. -/
  | notIndexable (kind : Value.Kind)
deriving DecidableEq, Repr

namespace Value

/-- One step from a value. -/
def step (v : Value) (a : Accessor) : Except Miss Value :=
  match v, a with
  | .object fields, a =>
    match Record.get? fields.toList a.text with
    | some item => .ok item
    | none => .error .missingKey
  | .array items, .index i =>
    match items[i]? with
    | some item => .ok item
    | none => .error (.outOfRange items.length)
  | .null, _ => .error .nil
  | v, _ => .error (.notIndexable v.kind)

end Value

end Stencil
