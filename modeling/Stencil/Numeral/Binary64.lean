/-!
# Binary floating point of 64 bits

A float is not a number, an infinity, or an exact multiple of a power of two (`Binary64.ofFloat`).
Reading goes the other way: `nearest` gives the float nearest to a quotient of two whole numbers,
with a half going to the even neighbour, computed in exact arithmetic.
-/

set_option autoImplicit false

namespace Stencil.Numeral

/-- The bit of a mantissa that the bits of a float leave out, `2 ^ 52`. -/
def hiddenBit : Nat := 0x10000000000000

/-- The bit of the sign, `2 ^ 63`. -/
def signBit : Nat := 0x8000000000000000

/-- The bits of the positive infinity. -/
def infinityBits : Nat := 0x7ff0000000000000

/-- What a float stands for; a finite one stands for `mantissa * 2 ^ exponent`, with its sign. -/
inductive Binary64 where
  | notANumber
  | infinite (negative : Bool)
  | finite (negative : Bool) (mantissa : Nat) (exponent : Int)
deriving DecidableEq, Repr

/-- The number that a float's bits encode. -/
def Binary64.ofFloat (x : Float) : Binary64 :=
  let bits : Nat := x.toBits.toNat
  let negative := bits / signBit == 1
  let biased : Nat := bits / hiddenBit % 2048
  let fraction : Nat := bits % hiddenBit
  if biased = 2047 then
    if fraction = 0 then .infinite negative else .notANumber
  else if biased = 0 then .finite negative fraction (-1074)
  else .finite negative (fraction + hiddenBit) ((biased : Int) - 1075)

/-- Whether a float is a number other than the infinities. -/
def isFinite (x : Float) : Bool :=
  match Binary64.ofFloat x with
  | .finite .. => true
  | _ => false

/-- `num / den` rounded to a whole number, a half going to the even neighbour. -/
def roundEven (num den : Nat) : Nat :=
  let floor := num / den
  let twice := 2 * (num % den)
  if twice < den ∨ (twice = den ∧ floor % 2 = 0) then floor else floor + 1

/-- The bits of the float nearest to `num / den`, where `den` is positive. -/
def nearestBits (num den : Nat) : Nat :=
  if num = 0 then 0
  else
    let guess : Int := (num.log2 : Int) - den.log2 - 52
    let reached : Bool :=
      if 0 ≤ guess then hiddenBit * den * Nat.pow 2 guess.toNat ≤ num
      else hiddenBit * den ≤ num * Nat.pow 2 (-guess).toNat
    let exponent := max (if reached then guess else guess - 1) (-1074)
    let mantissa :=
      if 0 ≤ exponent then roundEven num (den * Nat.pow 2 exponent.toNat)
      else roundEven (num * Nat.pow 2 (-exponent).toNat) den
    if mantissa < hiddenBit then mantissa
    else
      let (mantissa, exponent) :=
        if mantissa = 2 * hiddenBit then (hiddenBit, exponent + 1) else (mantissa, exponent)
      if 971 < exponent then infinityBits
      else (exponent + 1075).toNat * hiddenBit + (mantissa - hiddenBit)

/-- The float nearest to `coefficient * 10 ^ scale`, with a sign. Powers of ten far outside the
range of floats are not computed. -/
def nearest (negative : Bool) (coefficient : Nat) (scale : Int) : Float :=
  let digits : Int := coefficient.log2 / 3
  let bits :=
    if coefficient = 0 ∨ scale + digits + 1 < -400 then 0
    else if 400 < scale then infinityBits
    else if 0 ≤ scale then nearestBits (coefficient * Nat.pow 10 scale.toNat) 1
    else nearestBits coefficient (Nat.pow 10 (-scale).toNat)
  Float.ofBits (UInt64.ofNat (if negative then signBit + bits else bits))

end Stencil.Numeral
