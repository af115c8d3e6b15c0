import Stencil.Numeral.Natural
import Stencil.Text.Blank

/-!
# Character references

What an attribute's value is before a script, a style sheet or an address is read from it: numeric
references, with or without a semicolon, and the named references that matter to those grammars. A
reference to no character stands for the replacement character; an ampersand that starts no
reference stands for itself.
-/

set_option autoImplicit false

namespace Stencil.Markup

open Stencil.Text Stencil.Numeral

/-- The named references. -/
def namedReferences : List (String × Char) :=
  [("amp", '&'), ("apos", '\''), ("bsol", '\\'), ("colon", ':'), ("comma", ','), ("equals", '='),
   ("grave", '\x60'), ("gt", '>'), ("lpar", '('), ("lt", '<'), ("nbsp", '\u00a0'),
   ("NewLine", '\n'), ("num", '#'), ("period", '.'), ("quest", '?'), ("quot", '"'), ("rpar", ')'),
   ("semi", ';'), ("sol", '/'), ("Tab", '\t')]

/-- The character with a number, or the replacement character. -/
def charOfNumber (n : Nat) : Char :=
  if n.isValidChar then Char.ofNat n else '\ufffd'

/-- What follows a semicolon, if one is there. -/
def skipSemicolon : List Char → List Char
  | ';' :: rest => rest
  | cs => cs

/-- The character whose number is written in a base, and what follows the reference. -/
def numbered? (base : Nat) (inBase : Char → Bool) (cs : List Char) : Option (Char × List Char) :=
  let digits := cs.takeWhile inBase
  if digits = [] then none
  else some (charOfNumber (value base digits), skipSemicolon (cs.drop digits.length))

/-- A numeric reference after its number sign, and what follows it. -/
def numericReference? : List Char → Option (Char × List Char)
  | 'x' :: rest => numbered? 16 isHexDigit rest
  | 'X' :: rest => numbered? 16 isHexDigit rest
  | cs => numbered? 10 isDigit cs

/-- A named reference, which ends with a semicolon, and what follows it. -/
def namedReference? (cs : List Char) : Option (Char × List Char) :=
  let name := cs.takeWhile isAlphanumeric
  match cs.drop name.length with
  | ';' :: rest => (namedReferences.lookup (String.ofList name)).map fun c => (c, rest)
  | _ => none

/-- The reference after an ampersand, and what follows it. -/
def reference? : List Char → Option (Char × List Char)
  | '#' :: rest => numericReference? rest
  | cs => namedReference? cs

theorem length_skipSemicolon (cs : List Char) : (skipSemicolon cs).length ≤ cs.length := by
  unfold skipSemicolon
  split <;> simp

theorem length_of_numbered? {base : Nat} {inBase : Char → Bool} {cs rest : List Char} {c : Char}
    (h : numbered? base inBase cs = some (c, rest)) : rest.length ≤ cs.length := by
  unfold numbered? at h
  dsimp only at h
  split at h
  · cases h
  · cases h
    refine Nat.le_trans (length_skipSemicolon _) ?_
    simp

theorem length_of_numericReference? {cs rest : List Char} {c : Char}
    (h : numericReference? cs = some (c, rest)) : rest.length ≤ cs.length := by
  unfold numericReference? at h
  split at h
  · exact Nat.le_succ_of_le (length_of_numbered? h)
  · exact Nat.le_succ_of_le (length_of_numbered? h)
  · exact length_of_numbered? h

theorem length_of_namedReference? {cs rest : List Char} {c : Char}
    (h : namedReference? cs = some (c, rest)) : rest.length ≤ cs.length := by
  unfold namedReference? at h
  dsimp only at h
  split at h
  · next rest' heq =>
    obtain ⟨_, _, hc⟩ := Option.map_eq_some_iff.mp h
    cases hc
    have := congrArg List.length heq
    simp only [List.length_drop, List.length_cons] at this
    omega
  · cases h

theorem length_of_reference? {cs rest : List Char} {c : Char}
    (h : reference? cs = some (c, rest)) : rest.length ≤ cs.length := by
  unfold reference? at h
  split at h
  · have := length_of_numericReference? h
    simp only [List.length_cons]
    omega
  · exact length_of_namedReference? h

/-- A value with its character references replaced. -/
def decodeEntities : List Char → List Char
  | [] => []
  | c :: rest =>
    if c = '&' then
      match _found : reference? rest with
      | some (d, after) => d :: decodeEntities after
      | none => c :: decodeEntities rest
    else c :: decodeEntities rest
termination_by cs => cs.length
decreasing_by
  · have := length_of_reference? _found
    simp only [List.length_cons]
    omega
  · simp
  · simp

end Stencil.Markup
