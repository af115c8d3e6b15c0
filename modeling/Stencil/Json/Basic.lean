import Stencil.Record
import Stencil.Numeral.Binary64

/-!
# JSON values

A JSON value keeps whole numbers and floats apart, as their texts do: `1` and `1.0` are two values.
An object is a list of fields; `ofPairs` makes one that has its names in ascending order, each once.
-/

set_option autoImplicit false

namespace Stencil

/-- A JSON value. -/
inductive Json where
  | null
  | bool (b : Bool)
  | int (n : Int)
  | float (x : Float)
  | string (s : String)
  | array (items : List Json)
  | object (fields : List (String × Json))
deriving Inhabited

namespace Json

/-- The object of a list of pairs, of which the last with a name counts. -/
def ofPairs (pairs : List (String × Json)) : Json :=
  .object (Record.ofPairs pairs)

/-- The value under a name of an object. -/
def get? (name : String) : Json → Option Json
  | .object fields => Record.get? fields name
  | _ => none

end Json

end Stencil
