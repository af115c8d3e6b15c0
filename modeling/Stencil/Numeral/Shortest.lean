import Stencil.Numeral.Natural
import Stencil.Numeral.Binary64

/-!
# The fewest digits that read back

Every finite float is the nearest float to an interval of reals around it; the ends belong to the
interval when its mantissa is even. Of the decimals in the interval, the shortest is wanted, and of
two equally short ones the nearer. For one digit, two digits and so on, `shortest` looks at the two
neighbours of the float on the decimal grid with that many digits, in exact arithmetic; if a point
of a grid lies in the interval, so does one of these two.
-/

set_option autoImplicit false

namespace Stencil.Numeral

/-- Which of two equally near neighbours is taken. -/
inductive Tie where
  | up
  | even
deriving DecidableEq, Repr

/-- A number between two others, all three over one denominator. -/
structure Interval where
  low : Nat
  middle : Nat
  high : Nat
  denominator : Nat
  closed : Bool

/-- The reals whose nearest float is `mantissa * 2 ^ exponent`. -/
def Interval.around (mantissa : Nat) (exponent : Int) : Interval :=
  let below := if mantissa = hiddenBit ∧ -1074 < exponent then 1 else 2
  let up := Nat.pow 2 (exponent - 2).toNat
  ⟨(4 * mantissa - below) * up, 4 * mantissa * up, (4 * mantissa + 2) * up,
    Nat.pow 2 (2 - exponent).toNat, mantissa % 2 = 0⟩

/-- The number of digits before the point of a number, less one: the exponent of its leading
digit. -/
def Interval.magnitude (i : Interval) : Int :=
  (decimal (i.middle * Nat.pow 10 340 / i.denominator)).length - 341

/-- The point of the grid of multiples of `10 ^ scale` nearest to the middle, among those of the two
neighbours that lie in the interval. -/
def Interval.onGrid? (i : Interval) (tie : Tie) (scale : Int) : Option Nat :=
  let down := Nat.pow 10 (-scale).toNat
  let unit := i.denominator * Nat.pow 10 scale.toNat
  let inside (point : Nat) : Bool :=
    let x := point * unit
    if i.closed then i.low * down ≤ x && x ≤ i.high * down
    else i.low * down < x && x < i.high * down
  let floor := i.middle * down / unit
  let rest := 2 * (i.middle * down % unit)
  let upper : Bool := unit < rest || (unit == rest && (tie == .up || floor % 2 == 1))
  match inside floor, inside (floor + 1) with
  | true, true => some (if upper then floor + 1 else floor)
  | true, false => some floor
  | false, true => some (floor + 1)
  | false, false => none

/-- The shortest decimal `(coefficient, scale)`, standing for `coefficient * 10 ^ scale`, that reads
back as `mantissa * 2 ^ exponent`, where `mantissa` is positive. Seventeen digits always do. -/
def shortest (tie : Tie) (mantissa : Nat) (exponent : Int) : Nat × Int :=
  let i := Interval.around mantissa exponent
  let top := i.magnitude
  let found := (List.range 17).findSome? fun (n : Nat) =>
    let scale : Int := top - n
    (i.onGrid? tie scale).map fun point => (point, scale)
  found.getD (0, 0)

/-- The digits of a decimal without trailing zeros, and the exponent of the first of them. -/
def leading (coefficient : Nat) (scale : Int) : List Char × Int :=
  let digits := decimal coefficient
  ((digits.reverse.dropWhile (· == '0')).reverse, scale + digits.length - 1)

end Stencil.Numeral
