import Stencil.Escape.Markup
import Stencil.Numeral.Natural
import Stencil.Text.Cut

/-!
# Escaping for addresses

What cannot stand in an address is written as a percent sign and two digits for each byte of its
UTF-8 form. A whole address keeps its structure and the escapes it has; a value in a query keeps
only the characters without a meaning. An address with a scheme that could run code is refused.
-/

set_option autoImplicit false

namespace Stencil.Escape

open Stencil.Text

/-- The characters that mean the same everywhere in an address. -/
def isUnreserved (c : Char) : Bool :=
  isAlphanumeric c || c == '-' || c == '.' || c == '_' || c == '~'

/-- The characters that structure an address. -/
def isReserved (c : Char) : Bool :=
  ['!', '#', '$', '%', '&', '*', '+', ',', '/', ':', ';', '=', '?', '@', '[', ']'].contains c

/-- A byte as a percent sign and two digits. -/
def percent (b : UInt8) : List Char :=
  let upper (d : Nat) : Char := if d < 10 then Char.ofNat (48 + d) else Char.ofNat (55 + d)
  ['%', upper (b.toNat / 16), upper (b.toNat % 16)]

/-- Escapes the characters outside of a class of ASCII characters. -/
def percentEncode (keeps : Char → Bool) (cs : List Char) : List Char :=
  cs.flatMap fun c => if keeps c then [c] else (String.utf8EncodeChar c).flatMap percent

/-- An address, its structure and escapes kept. -/
def urlNormalize (cs : List Char) : List Char :=
  percentEncode (fun c => isUnreserved c || isReserved c) cs

/-- A value in the query of an address. -/
def urlQuery (cs : List Char) : List Char :=
  percentEncode isUnreserved cs

/-- The schemes that an address may have. -/
def safeSchemes : List String := ["http", "https", "mailto"]

/-- What stands before the first colon, if it can be the scheme of an address. -/
def scheme? (cs : List Char) : Option (List Char) :=
  match cut [':'] cs with
  | some (scheme, _) =>
    if scheme.any fun c => c == '/' || c == '?' || c == '#' then none else some scheme
  | none => none

/-- An address, or a stand-in if its scheme is not safe. -/
def urlFilter (cs : List Char) : List Char :=
  match scheme? cs with
  | some scheme =>
    if String.ofList ((trim isWhiteSpace scheme).map lower) ∈ safeSchemes then cs
    else '#' :: refused
  | none => cs

end Stencil.Escape
