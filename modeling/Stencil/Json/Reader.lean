import Stencil.Json.Basic
import Stencil.Numeral.Natural

/-!
# Reading JSON texts

`Json.read?` reads one JSON value with blanks around it. A number written without a fraction and
without an exponent is a whole number, except `-0`, which is a float; every other number is the
nearest float. Of two fields with one name the later counts.

Reading recurses on a bound on the number of steps, which `read?` takes from the text's length:
every second step consumes a character.
-/

set_option autoImplicit false

namespace Stencil.Json

open Stencil.Text Stencil.Numeral

/-- The blanks between the parts of a JSON text. -/
def skipBlanks (cs : List Char) : List Char :=
  cs.dropWhile isBlank

/-- Four digits of base sixteen, and what follows them. -/
def unit? : List Char → Option (Nat × List Char)
  | a :: b :: c :: d :: rest =>
    if [a, b, c, d].all isHexDigit then some (value 16 [a, b, c, d], rest) else none
  | _ => none

/-- The character written after a backslash, and what follows it. A character beyond the basic plane
is written as two units. -/
def escape? : List Char → Option (Char × List Char)
  | '"' :: rest => some ('"', rest)
  | '\\' :: rest => some ('\\', rest)
  | '/' :: rest => some ('/', rest)
  | 'b' :: rest => some ('\x08', rest)
  | 'f' :: rest => some ('\x0c', rest)
  | 'n' :: rest => some ('\n', rest)
  | 'r' :: rest => some ('\r', rest)
  | 't' :: rest => some ('\t', rest)
  | 'u' :: rest =>
    match unit? rest with
    | none => none
    | some (unit, rest) =>
      if 0xd800 ≤ unit ∧ unit < 0xdc00 then
        match rest with
        | '\\' :: 'u' :: rest =>
          match unit? rest with
          | none => none
          | some (second, rest) =>
            if 0xdc00 ≤ second ∧ second < 0xe000 then
              some (Char.ofNat (0x10000 + (unit - 0xd800) * 0x400 + (second - 0xdc00)), rest)
            else none
        | _ => none
      else if 0xdc00 ≤ unit ∧ unit < 0xe000 then none
      else some (Char.ofNat unit, rest)
  | _ => none

/-- The rest of a string after its opening quote, and what follows the closing one. -/
def string? : Nat → List Char → Option (List Char × List Char)
  | 0, _ => none
  | _ + 1, [] => none
  | _ + 1, '"' :: rest => some ([], rest)
  | bound + 1, '\\' :: rest => do
    let (c, rest) ← escape? rest
    let (cs, rest) ← string? bound rest
    pure (c :: cs, rest)
  | bound + 1, c :: rest => do
    if c.toNat < 0x20 then none
    let (cs, rest) ← string? bound rest
    pure (c :: cs, rest)

/-- A string with its quotes, and what follows it. -/
def quoted? : List Char → Option (String × List Char)
  | '"' :: rest => (string? (rest.length + 1) rest).map fun (s, rest) => (String.ofList s, rest)
  | _ => none

/-- A run of digits, which must not be empty, and what follows it. -/
def digits? (cs : List Char) : Option (List Char × List Char) :=
  let digits := cs.takeWhile isDigit
  if digits = [] then none else some (digits, cs.dropWhile isDigit)

/-- The fraction of a number, if it has one. -/
def fraction? : List Char → Option (List Char × List Char)
  | '.' :: rest => digits? rest
  | cs => some ([], cs)

/-- The exponent of a number, if it has one. -/
def exponent? : List Char → Option (Option Int × List Char)
  | c :: rest =>
    if c = 'e' ∨ c = 'E' then
      let (negative, rest) := match rest with
        | '-' :: rest => (true, rest)
        | '+' :: rest => (false, rest)
        | _ => (false, rest)
      (digits? rest).map fun (digits, rest) =>
        let n : Int := value 10 digits
        (some (if negative then -n else n), rest)
    else some (none, c :: rest)
  | [] => some (none, [])

/-- A number after its sign, and what follows it. -/
def number? (negative : Bool) (cs : List Char) : Option (Json × List Char) := do
  let (whole, rest) ← digits? cs
  if whole.length ≠ 1 ∧ whole.head? = some '0' then none
  let (fraction, rest) ← fraction? rest
  let (exponent, rest) ← exponent? rest
  let coefficient := value 10 (whole ++ fraction)
  if fraction = [] ∧ exponent = none ∧ ¬(negative ∧ coefficient = 0) then
    pure (.int (if negative then -coefficient else coefficient), rest)
  else
    let x := nearest negative coefficient (exponent.getD 0 - fraction.length)
    if isFinite x then pure (.float x, rest) else none

mutual

/-- A value, and what follows it. -/
def value? : Nat → List Char → Option (Json × List Char)
  | 0, _ => none
  | bound + 1, cs =>
    match skipBlanks cs with
    | 'n' :: 'u' :: 'l' :: 'l' :: rest => some (.null, rest)
    | 't' :: 'r' :: 'u' :: 'e' :: rest => some (.bool true, rest)
    | 'f' :: 'a' :: 'l' :: 's' :: 'e' :: rest => some (.bool false, rest)
    | '"' :: rest => (quoted? ('"' :: rest)).map fun (s, rest) => (.string s, rest)
    | '[' :: rest =>
      match skipBlanks rest with
      | ']' :: rest => some (.array [], rest)
      | rest => (items? bound rest).map fun (items, rest) => (.array items, rest)
    | '\x7b' :: rest =>
      match skipBlanks rest with
      | '\x7d' :: rest => some (.object [], rest)
      | rest => (fields? bound rest).map fun (pairs, rest) => (ofPairs pairs, rest)
    | '-' :: rest => number? true rest
    | rest => number? false rest

/-- The items of an array up to its closing bracket, and what follows it. -/
def items? : Nat → List Char → Option (List Json × List Char)
  | 0, _ => none
  | bound + 1, cs => do
    let (item, rest) ← value? bound cs
    match skipBlanks rest with
    | ']' :: rest => pure ([item], rest)
    | ',' :: rest =>
      let (items, rest) ← items? bound rest
      pure (item :: items, rest)
    | _ => none

/-- The fields of an object up to its closing brace, and what follows it. -/
def fields? : Nat → List Char → Option (List (String × Json) × List Char)
  | 0, _ => none
  | bound + 1, cs => do
    let (name, rest) ← quoted? (skipBlanks cs)
    match skipBlanks rest with
    | ':' :: rest =>
      let (item, rest) ← value? bound rest
      match skipBlanks rest with
      | '\x7d' :: rest => pure ([(name, item)], rest)
      | ',' :: rest =>
        let (fields, rest) ← fields? bound rest
        pure ((name, item) :: fields, rest)
      | _ => none
    | _ => none

end

/-- The value that a text is, with blanks around it. -/
def read? (cs : List Char) : Option Json :=
  match value? (2 * cs.length + 2) cs with
  | some (j, rest) => if skipBlanks rest = [] then some j else none
  | none => none

end Stencil.Json
