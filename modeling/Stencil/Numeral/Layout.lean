import Stencil.Numeral.Shortest

/-!
# Spellings of floats

A **layout** says how a float is written: which exponents are written positionally, whether a whole
number keeps a fraction, which way a tie between two shortest decimals goes, and the words for what
is not finite. `Layout.spell` applies one to a float.
-/

set_option autoImplicit false

namespace Stencil.Numeral

/-- The decisions of a format for floats. -/
structure Layout where
  /-- Which of two equally near shortest decimals is taken. -/
  tie : Tie
  /-- Exponents of the leading digit from the first to the second are written positionally; without
  bounds, all are. -/
  positional : Option (Int × Int)
  /-- A whole number in positional form ends in `.0`. -/
  keepsFraction : Bool
  notANumber : String
  positiveInfinity : String
  negativeInfinity : String

/-- Digits with a point after the digit of exponent zero. -/
def Layout.place (l : Layout) (digits : List Char) (exponent : Int) : List Char :=
  if exponent < 0 then
    '0' :: '.' :: List.replicate (-exponent - 1).toNat '0' ++ digits
  else
    let whole := exponent.toNat + 1
    let fraction := digits.drop whole
    let front := digits.take whole ++ List.replicate (whole - digits.length) '0'
    if fraction ≠ [] then front ++ '.' :: fraction
    else if l.keepsFraction then front ++ ['.', '0']
    else front

/-- Digits with a point after the first of them, and the exponent behind an `e`. -/
def Layout.scientific (digits : List Char) (exponent : Int) : List Char :=
  let sign := if exponent < 0 then '-' else '+'
  let mantissa := match digits with
    | d :: e :: rest => d :: '.' :: e :: rest
    | _ => digits
  mantissa ++ 'e' :: sign :: decimal exponent.natAbs

/-- The spelling of a number without a sign. -/
def Layout.magnitude (l : Layout) (mantissa : Nat) (exponent : Int) : List Char :=
  if mantissa = 0 then l.place ['0'] 0
  else
    let (coefficient, scale) := shortest l.tie mantissa exponent
    let (digits, exponent) := leading coefficient scale
    let isPositional := match l.positional with
      | none => true
      | some (first, last) => first ≤ exponent && exponent ≤ last
    if isPositional then l.place digits exponent else Layout.scientific digits exponent

/-- The spelling of a float. -/
def Layout.spell (l : Layout) (x : Float) : List Char :=
  match Binary64.ofFloat x with
  | .notANumber => l.notANumber.toList
  | .infinite negative => (if negative then l.negativeInfinity else l.positiveInfinity).toList
  | .finite negative mantissa exponent =>
    let magnitude := l.magnitude mantissa exponent
    if negative then '-' :: magnitude else magnitude

end Stencil.Numeral
