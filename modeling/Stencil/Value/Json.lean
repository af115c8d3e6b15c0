import Stencil.Value.Basic
import Stencil.Json.Printer

/-!
# Values and JSON

A JSON value is read as a value with its whole numbers as words where they fit and as floats where
they do not (`ofJson`). A value is written as JSON with null for a float that is no finite number
(`toJson`). `ofPairs?` builds a record from pairs whose keys may be strings, numbers or truth
values.
-/

set_option autoImplicit false

namespace Stencil.Value

/-- A whole number as a value. -/
def ofInt (n : Int) : Value :=
  match Numeral.int64? n with
  | some word => .integer word
  | none => .float (Numeral.nearest (n < 0) n.natAbs 0)

mutual

/-- The value that a JSON value is. -/
def ofJson : Json → Value
  | .null => .null
  | .bool b => .bool b
  | .int n => ofInt n
  | .float x => .float x
  | .string s => .string s
  | .array items => .array (ofJsonItems items)
  | .object fields => .object (.ofPairs (ofJsonFields fields))

/-- The values of an array's items. -/
def ofJsonItems : List Json → List Value
  | [] => []
  | item :: rest => ofJson item :: ofJsonItems rest

/-- The values of an object's fields. -/
def ofJsonFields : List (String × Json) → List (String × Value)
  | [] => []
  | (name, item) :: rest => (name, ofJson item) :: ofJsonFields rest

end

mutual

/-- The JSON value that a value is; floats that are not finite become null. -/
def toJson : Value → Json
  | .null => .null
  | .bool b => .bool b
  | .integer n => .int n.toInt
  | .float x => if Numeral.isFinite x then .float x else .null
  | .string s => .string s
  | .array items => .array (toJsonItems items)
  | .object fields => .object (toJsonFields fields)

/-- The JSON values of a list's items. -/
def toJsonItems : List Value → List Json
  | [] => []
  | item :: rest => toJson item :: toJsonItems rest

/-- The JSON values of a record's fields. -/
def toJsonFields : {bound : Option String} → Fields Value bound → List (String × Json)
  | _, .nil => []
  | _, .cons name _ item rest => (name, toJson item) :: toJsonFields rest

end

theorem names_toJsonFields {low : Option String} (fields : Fields Value low) :
    (toJsonFields fields).map Prod.fst = fields.toList.map Prod.fst := by
  induction fields with
  | nil => rfl
  | cons name above item rest ih =>
    rw [toJsonFields, Fields.toList, List.map_cons, List.map_cons, ih]

/-- A record is read with its fields in their order. -/
theorem ofPairs_toJsonFields {low : Option String} (fields : Fields Value low) :
    Json.ofPairs (toJsonFields fields) = .object (toJsonFields fields) := by
  have ascending : Record.Ascending (toJsonFields fields) := by
    rw [Record.Ascending, names_toJsonFields]
    exact fields.ascending_toList
  rw [Json.ofPairs, Record.ofPairs_of_ascending ascending]

/-- The name that a JSON value is as a key. -/
def key? : Json → Option String
  | .string s => some s
  | .bool b => some (Json.text (.bool b))
  | .int n => some (Json.text (.int n))
  | .float x => if Numeral.isFinite x then some (Json.text (.float x)) else none
  | .null | .array _ | .object _ => none

/-- A pair with its key as a name. -/
def field? (pair : Json × Json) : Option (String × Json) :=
  (key? pair.1).map fun name => (name, pair.2)

/-- The record of a list of pairs, of which the last with a key counts; none if a key is no name. -/
def ofPairs? (pairs : List (Json × Json)) : Option Value :=
  (pairs.mapM field?).map fun fields => ofJson (Json.ofPairs fields)

end Stencil.Value
