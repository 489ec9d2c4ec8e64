import IntentPlane.Json.Basic

/-!
# Numbers of 64-bit floating point in decimal text

A decimal number is read as the nearest double, a tie going to the even neighbour. A finite double
is written exactly, as a whole number or a whole number over a power of ten, so reading gives it
back.
-/

namespace IntentPlane.Double

/-- The nearest whole number to `num / den`, a tie going to the even neighbour. -/
def roundDiv (num den : Nat) : Nat :=
  let q := num / den
  let r := num % den
  if 2 * r < den then q
  else if den < 2 * r then q + 1
  else q + q % 2

/-- The quotient `num / den * base ^ e`, by its two parts. -/
def scale (num den base : Nat) (e : Int) : Nat × Nat :=
  (num * Nat.pow base e.toNat, den * Nat.pow base (-e).toNat)

/-- Whether `2 ^ e ≤ num / den`. -/
def powLe (num den : Nat) (e : Int) : Bool :=
  let (num, den) := scale num den 2 (-e)
  den ≤ num

/-- The exponent of the power of two next below `num / den`. -/
def magnitude (num den : Nat) : Int :=
  let guess : Int := (num.log2 : Int) - den.log2
  if powLe num den guess then guess else guess - 1

/-- The exponent of the smallest positive double. -/
def minExponent : Int := -1074

/-- The bits below the exponent field count up to `2 ^ 52`. -/
def fractionSize : Nat := 0x10000000000000

/-- The bits of the double nearest to the positive quotient `num / den`; `infinityBits` or more when
it is out of range. The significand counts in units of `2 ^ e`, and the bit pattern goes on counting
across the exponent field, so a significand rounded up to `2 ^ 53` needs no special case. -/
def nearestBits (num den : Nat) : Nat :=
  let e := max (magnitude num den - 52) minExponent
  let (num, den) := scale num den 2 (-e)
  (e - minExponent).toNat * fractionSize + roundDiv num den

def infinityBits : Nat := 0x7FF0000000000000

/-- The sign bit of a double. -/
def signBit : Nat := 0x8000000000000000

/-- The double nearest to `± mantissa * 10 ^ exponent`, or none when it is out of range. The two
tests on the exponent only spare the work on powers of ten that are far out of range. -/
def ofDecimal? (negative : Bool) (mantissa : Nat) (exponent : Int) : Option Float :=
  let bits :=
    if mantissa = 0 ∨ exponent < -(400 + mantissa.log2 : Int) then 0
    else if 400 < exponent then infinityBits
    else
      let (num, den) := scale mantissa 1 10 exponent
      nearestBits num den
  if infinityBits ≤ bits then none
  else some (Float.ofBits (.ofNat (bits + if negative then signBit else 0)))

/-- The double nearest to a whole number within the range of JSON integers. -/
def ofInt (n : Int) : Float :=
  (ofDecimal? (n < 0) n.natAbs 0).getD 0

/-- The size of a double: its bits without the sign. -/
def magnitudeBits (x : Float) : Nat := x.toBits.toNat % signBit

def isNegative (x : Float) : Bool := signBit ≤ x.toBits.toNat

def isFinite (x : Float) : Bool := magnitudeBits x < infinityBits

def isNaN (x : Float) : Bool := infinityBits < magnitudeBits x

/-- The significand and exponent of a finite double's size. -/
def parts (x : Float) : Nat × Int :=
  let field : Nat := magnitudeBits x / fractionSize
  let fraction := magnitudeBits x % fractionSize
  if field = 0 then (fraction, minExponent)
  else (fractionSize + fraction, minExponent + field - 1)

/-- Halves `m` and lowers `k` together while `m` is even, which keeps `m / 2 ^ k`. -/
def reduce (m : Nat) : Nat → Nat × Nat
  | 0 => (m, 0)
  | k + 1 => if m % 2 = 0 then reduce (m / 2) k else (m, k + 1)

/-- The exact decimal text of a finite double. -/
def write (x : Float) : List Char :=
  let (significand, exponent) := parts x
  let (m, k) := reduce (significand * Nat.pow 2 exponent.toNat) (-exponent).toNat
  let size :=
    if k = 0 then Nat.toDigits 10 m ++ ['.', '0']
    else Nat.toDigits 10 (m * Nat.pow 5 k) ++ 'e' :: '-' :: Nat.toDigits 10 k
  if isNegative x then '-' :: size else size

/-- The place of a double in the total order: negative below positive, `-0` just below `+0`, and the
infinities at the ends. -/
def rank (x : Float) : Int :=
  if isNegative x then -(magnitudeBits x : Int) - 1 else magnitudeBits x

end IntentPlane.Double
