import Stencil.Numeral.Natural
import Stencil.Text.Blank

/-!
# Strings and numbers inside actions

Readers for the literals of an action. Each is given the characters from the literal's first one on
and says what it read and how many characters that took, so the reader's result never depends on
where the literal stands.

A string between double quotes holds escapes and ends on its line; one between backquotes holds any
character but the backquote.
-/

set_option autoImplicit false

namespace Stencil.Literal

open Stencil.Text Stencil.Numeral

/-- Digits of base sixteen after a letter of an escape, as many as asked for. -/
def hexChar? (width : Nat) (cs : List Char) : Option Char :=
  let digits := cs.take width
  let code := value 16 digits
  if digits.length = width ∧ digits.all isHexDigit ∧ code.isValidChar then some (Char.ofNat code)
  else none

/-- The character that an escape denotes, given the letter after the backslash and what follows it,
and the number of characters taken after the letter. -/
def escape? (letter : Char) (rest : List Char) : Option (Char × Nat) :=
  match letter with
  | 'n' => some ('\n', 0)
  | 't' => some ('\t', 0)
  | 'r' => some ('\r', 0)
  | '0' => some ('\x00', 0)
  | '\\' => some ('\\', 0)
  | '"' => some ('"', 0)
  | '\'' => some ('\'', 0)
  | 'x' => (hexChar? 2 rest).bind fun c => if c.toNat < 128 then some (c, 2) else none
  | 'u' => (hexChar? 4 rest).map fun c => (c, 4)
  | _ => none

/-- Why a quoted string cannot be read. -/
inductive QuotedFault where
  | unterminated
  /-- No escape starts with this letter or its digits are wrong; `before` is the number of
  characters before the backslash. -/
  | escape (letter : Char) (before : Nat)
deriving DecidableEq, Repr

/-- The characters of a string between double quotes, given what follows the opening quote, and the
number of characters taken with the closing quote; `taken` counts those taken before. -/
def quoted (taken : Nat) : List Char → Except QuotedFault (List Char × Nat)
  | [] => .error .unterminated
  | '"' :: _ => .ok ([], taken + 1)
  | '\n' :: _ => .error .unterminated
  | '\\' :: [] => .error .unterminated
  | '\\' :: letter :: rest =>
    match escape? letter rest with
    | none => .error (.escape letter taken)
    | some (c, more) => do
      let (cs, taken) ← quoted (taken + 2 + more) (rest.drop more)
      pure (c :: cs, taken)
  | c :: rest => do
    let (cs, taken) ← quoted (taken + 1) rest
    pure (c :: cs, taken)
termination_by cs => cs.length
decreasing_by all_goals simp +arith

/-- The characters of a string between backquotes, given what follows the opening one; none if it is
not closed. -/
def raw? (cs : List Char) : Option (List Char) :=
  let content := cs.takeWhile (· != '\x60')
  if content.length < cs.length then some content else none

/-- A digit run with an optional fraction. -/
def unsigned (cs : List Char) : List Char :=
  let whole := cs.takeWhile isDigit
  match cs.drop whole.length with
  | '.' :: d :: rest => if isDigit d then whole ++ '.' :: (d :: rest).takeWhile isDigit else whole
  | _ => whole

/-- A number as written, with an optional sign. -/
def number : List Char → List Char
  | '-' :: rest => '-' :: unsigned rest
  | '+' :: rest => '+' :: unsigned rest
  | cs => unsigned cs

end Stencil.Literal
