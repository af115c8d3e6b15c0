import Stencil.Text.Blank

/-!
# Numerals of whole numbers

Whole numbers in bases up to sixteen, most significant digit first and without a leading zero
(`natural`), and their readers. `value_natural` says that a numeral in a base from two to sixteen
reads back.
-/

set_option autoImplicit false

namespace Stencil.Numeral

open Stencil.Text

/-- The digit that stands for a number below sixteen; letters are lower case. -/
def digit (d : Nat) : Char :=
  if d < 10 then Char.ofNat (48 + d) else Char.ofNat (87 + d)

/-- The number a digit stands for, with letters in either case. -/
def digitValue? (c : Char) : Option Nat :=
  if '0' ≤ c ∧ c ≤ '9' then some (c.toNat - 48)
  else if 'a' ≤ c ∧ c ≤ 'f' then some (c.toNat - 87)
  else if 'A' ≤ c ∧ c ≤ 'F' then some (c.toNat - 55)
  else none

/-- A digit of base sixteen, in either case. -/
def isHexDigit (c : Char) : Bool :=
  (digitValue? c).isSome

/-- The numeral of `n` in a base of at least two. -/
def natural (base n : Nat) : List Char :=
  if base ≤ 1 ∨ n < base then [digit n] else natural base (n / base) ++ [digit (n % base)]
termination_by n
decreasing_by
  rename_i h
  exact Nat.div_lt_self (by omega) (by omega)

/-- The decimal numeral of `n`. -/
def decimal (n : Nat) : List Char := natural 10 n

/-- The decimal numeral of `n`, as a string. -/
def text (n : Nat) : String := String.ofList (decimal n)

/-- The decimal numeral of an integer, with a minus sign when it is negative. -/
def integer (n : Int) : List Char :=
  if n < 0 then '-' :: decimal n.natAbs else decimal n.natAbs

/-- The numeral of `n` in base sixteen, filled up with zeros to a width. -/
def hexadecimal (width n : Nat) : List Char :=
  let digits := natural 16 n
  List.replicate (width - digits.length) '0' ++ digits

/-- The number that a run of digits stands for in a base. -/
def value (base : Nat) (digits : List Char) : Nat :=
  digits.foldl (fun n c => base * n + (digitValue? c).getD 0) 0

theorem digitValue?_digit {d : Nat} (h : d < 16) : digitValue? (digit d) = some d := by
  have : ∀ d : Fin 16, digitValue? (digit d) = some d.val := by decide
  exact this ⟨d, h⟩

theorem value_append_digit (base : Nat) (digits : List Char) (c : Char) :
    value base (digits ++ [c]) = base * value base digits + (digitValue? c).getD 0 := by
  simp [value, List.foldl_append]

/-- A numeral reads back. -/
theorem value_natural {base : Nat} (low : 2 ≤ base) (high : base ≤ 16) (n : Nat) :
    value base (natural base n) = n := by
  fun_induction natural base n with
  | case1 n h =>
    have : n < base := by omega
    simp [value, digitValue?_digit (show n < 16 by omega)]
  | case2 n h ih =>
    have : n % base < base := Nat.mod_lt _ (by omega)
    rw [value_append_digit, ih, digitValue?_digit (show n % base < 16 by omega)]
    simpa using Nat.div_add_mod n base

/-- Reads a non-empty run of decimal digits. -/
def decimal? (cs : List Char) : Option Nat :=
  if cs ≠ [] ∧ cs.all isDigit then some (value 10 cs) else none

/-- The greatest word of 64 bits. -/
def maxWord : Nat := 0xffffffffffffffff

/-- Reads a decimal numeral of a word of 64 bits, which may carry a plus sign. -/
def word? (cs : List Char) : Option Nat :=
  let digits := match cs with
    | '+' :: r => r
    | _ => cs
  (decimal? digits).filter (· ≤ maxWord)

/-- Reads a decimal numeral with an optional sign. -/
def integer? : List Char → Option Int
  | '-' :: r => (decimal? r).map fun n => -(n : Int)
  | '+' :: r => (decimal? r).map fun n => (n : Int)
  | cs => (decimal? cs).map fun n => (n : Int)

/-- The word of 64 bits, in two's complement, that an integer is, if it is one. -/
def int64? (n : Int) : Option Int64 :=
  if -0x8000000000000000 ≤ n ∧ n ≤ 0x7fffffffffffffff then some (Int64.ofInt n) else none

end Stencil.Numeral
