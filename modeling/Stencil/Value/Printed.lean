import Stencil.Value.Basic
import Stencil.Numeral.Layout

/-!
# The printed form of a value

What a template writes for a value: scalars as themselves, a list between brackets with blanks
between its items, a record as `map[name:item name:item]`. Null prints as nothing on its own and as
`<nil>` inside a list or a record.
-/

set_option autoImplicit false

namespace Stencil.Value

/-- Printed floats: never an exponent, no fraction on a whole number, a tie goes up. -/
def floatLayout : Numeral.Layout where
  tie := .up
  positional := none
  keepsFraction := false
  notANumber := "NaN"
  positiveInfinity := "+Inf"
  negativeInfinity := "-Inf"

mutual

/-- The printed form of a value inside a list or a record. -/
def nestedChars : Value → List Char
  | .null => ['<', 'n', 'i', 'l', '>']
  | .bool true => ['t', 'r', 'u', 'e']
  | .bool false => ['f', 'a', 'l', 's', 'e']
  | .integer n => Numeral.integer n.toInt
  | .float x => floatLayout.spell x
  | .string s => s.toList
  | .array items => '[' :: itemChars items ++ [']']
  | .object fields => ['m', 'a', 'p', '['] ++ fieldChars fields ++ [']']

/-- The printed items of a list, with a blank between two. -/
def itemChars : List Value → List Char
  | [] => []
  | [item] => nestedChars item
  | item :: rest => nestedChars item ++ ' ' :: itemChars rest

/-- The printed fields of a record, with a blank between two. -/
def fieldChars : {bound : Option String} → Fields Value bound → List Char
  | _, .nil => []
  | _, .cons name _ item .nil => name.toList ++ ':' :: nestedChars item
  | _, .cons name _ item rest => name.toList ++ ':' :: nestedChars item ++ ' ' :: fieldChars rest

end

/-- The printed form of a value. -/
def chars : Value → List Char
  | .null => []
  | v => nestedChars v

/-- The printed form of a value, as a string. -/
def text (v : Value) : String :=
  String.ofList v.chars

end Stencil.Value
