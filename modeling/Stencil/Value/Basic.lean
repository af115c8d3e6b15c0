import Stencil.Fields

/-!
# Values

The data that a template is rendered with. A value is null, a scalar, a list or a record of values;
the fields of a record are in order by their type. Whole numbers are words of 64 bits with a sign.
`Value.isTruthy` is the reading of a value as a condition.
-/

set_option autoImplicit false

namespace Stencil

/-- A value that a template can print, test and step into. -/
inductive Value where
  | null
  | bool (b : Bool)
  | integer (n : Int64)
  | float (x : Float)
  | string (s : String)
  | array (items : List Value)
  | object (fields : Fields Value none)
deriving Inhabited

namespace Value

/-- The kinds of values, as messages name them. -/
inductive Kind where
  | nil
  | bool
  | int
  | float
  | string
  | array
  | map
deriving DecidableEq, Repr

/-- The word for a kind. -/
def Kind.name : Kind → String
  | .nil => "nil"
  | .bool => "bool"
  | .int => "int"
  | .float => "float"
  | .string => "string"
  | .array => "array"
  | .map => "map"

/-- The kind of a value. -/
def kind : Value → Kind
  | .null => .nil
  | .bool _ => .bool
  | .integer _ => .int
  | .float _ => .float
  | .string _ => .string
  | .array _ => .array
  | .object _ => .map

/-- Everything counts as true but null, false, zero and what is empty. -/
def isTruthy : Value → Bool
  | .null => false
  | .bool b => b
  | .integer n => n != 0
  | .float x => x != 0.0
  | .string s => s != ""
  | .array items => !items.isEmpty
  | .object fields => !fields.toList.isEmpty

/-- Whether a value is null. -/
def isNull : Value → Bool
  | .null => true
  | _ => false

end Value

end Stencil
