import Stencil.Json.Basic
import Stencil.Numeral.Layout

/-!
# JSON texts

The compact text of a JSON value: no blanks, names in the record's order, the shortest digits that
read back for a float. A string escapes the quote, the backslash and the controls below the space,
and nothing else.
-/

set_option autoImplicit false

namespace Stencil.Json

/-- Floats in JSON: positional from `1e-5` to `1e15`, always with a fraction, and null for what JSON
has no number for. -/
def floatLayout : Numeral.Layout where
  tie := .even
  positional := some (-5, 15)
  keepsFraction := true
  notANumber := "null"
  positiveInfinity := "null"
  negativeInfinity := "null"

/-- A character inside a JSON string. -/
def escapeChar (c : Char) : List Char :=
  match c with
  | '"' => ['\\', '"']
  | '\\' => ['\\', '\\']
  | '\x08' => ['\\', 'b']
  | '\x0c' => ['\\', 'f']
  | '\n' => ['\\', 'n']
  | '\r' => ['\\', 'r']
  | '\t' => ['\\', 't']
  | c => if c.toNat < 0x20 then '\\' :: 'u' :: Numeral.hexadecimal 4 c.toNat else [c]

/-- A JSON string. -/
def quote (cs : List Char) : List Char :=
  '"' :: cs.flatMap escapeChar ++ ['"']

mutual

/-- The text of a value. -/
def chars : Json → List Char
  | .null => ['n', 'u', 'l', 'l']
  | .bool true => ['t', 'r', 'u', 'e']
  | .bool false => ['f', 'a', 'l', 's', 'e']
  | .int n => Numeral.integer n
  | .float x => floatLayout.spell x
  | .string s => quote s.toList
  | .array items => '[' :: charsItems items ++ [']']
  | .object fields => '\x7b' :: charsFields fields ++ ['\x7d']

/-- The texts of an array's items, separated by commas. -/
def charsItems : List Json → List Char
  | [] => []
  | [item] => chars item
  | item :: rest => chars item ++ ',' :: charsItems rest

/-- The texts of an object's fields, separated by commas. -/
def charsFields : List (String × Json) → List Char
  | [] => []
  | [(name, item)] => quote name.toList ++ ':' :: chars item
  | (name, item) :: rest => quote name.toList ++ ':' :: chars item ++ ',' :: charsFields rest

end

/-- The text of a value. -/
def text (j : Json) : String :=
  String.ofList (chars j)

end Stencil.Json
