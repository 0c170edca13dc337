/-!
# Binary floating point numbers

A double is its 64 bits: a sign, eleven bits of exponent and fifty-two of
fraction. Everything here is done on those bits in exact integer arithmetic, so
that a closed statement about doubles is decided by computation: a finite double
is a whole number times a power of two, and a ratio is turned into a double by
rounding it to the nearest one, a tie going to the even neighbour.
-/

namespace Whittle

/-- A binary64 number, given by its bits. -/
structure Double where
  bits : UInt64
deriving DecidableEq

/-- Quotient of two naturals rounded to the nearest natural, ties to even. -/
def roundDiv (num den : Nat) : Nat :=
  let q := num / den
  let r := num % den
  if 2 * r < den then q
  else if 2 * r = den then q + q % 2
  else q + 1

/-- `m · 2 ^ k` as a ratio of naturals. -/
def scaleBinary (m : Nat) (k : Int) : Nat × Nat :=
  if 0 ≤ k then (m * Nat.pow 2 k.toNat, 1) else (m, Nat.pow 2 (-k).toNat)

/-- `m · 10 ^ k` as a ratio of naturals. -/
def scaleDecimal (m : Nat) (k : Int) : Nat × Nat :=
  if 0 ≤ k then (m * Nat.pow 10 k.toNat, 1) else (m, Nat.pow 10 (-k).toNat)

namespace Double

/-- Whether the sign bit is set. -/
def isNegative (x : Double) : Bool :=
  x.bits.toNat / Nat.pow 2 63 == 1

/-- The bits without the sign; they grow with the absolute value. -/
def magnitudeBits (x : Double) : Nat :=
  x.bits.toNat % Nat.pow 2 63

/-- The bits of infinity; larger ones are no numbers. -/
def infinityBits : Nat := 2047 * Nat.pow 2 52

/-- A double with the given sign and magnitude bits. -/
def ofBits (negative : Bool) (magnitude : Nat) : Double :=
  ⟨(if negative then Nat.pow 2 63 + magnitude else magnitude).toUInt64⟩

/-- A zero of either sign. -/
def zero (negative : Bool) : Double := ofBits negative 0

/-- An infinity of either sign. -/
def infinity (negative : Bool) : Double := ofBits negative infinityBits

/-- The value that is not a number. -/
def nan : Double := ofBits false (infinityBits + Nat.pow 2 51)

def isNaN (x : Double) : Bool :=
  infinityBits < x.magnitudeBits

def isInfinite (x : Double) : Bool :=
  x.magnitudeBits == infinityBits

def isFinite (x : Double) : Bool :=
  x.magnitudeBits < infinityBits

def isZero (x : Double) : Bool :=
  x.magnitudeBits == 0

/-- The whole number and the power of two whose product is the absolute value of
a finite double. -/
def significand (x : Double) : Nat × Int :=
  let exponent : Nat := x.magnitudeBits / Nat.pow 2 52
  let fraction : Nat := x.magnitudeBits % Nat.pow 2 52
  if exponent = 0 then (fraction, -1074)
  else (fraction + Nat.pow 2 52, (exponent : Int) - 1075)

/-- The absolute value of a finite double as a ratio. -/
def ratio (x : Double) : Nat × Nat :=
  scaleBinary x.significand.1 x.significand.2

/-- The power of two in whose multiples a ratio is rounded: the one that leaves
fifty-three bits, or the least one there is. -/
def unitExponent (num den : Nat) : Int :=
  let rough := max ((Nat.log2 num : Int) - Nat.log2 den - 53) (-1074)
  let scaled := scaleBinary den rough
  if num * scaled.2 / scaled.1 < Nat.pow 2 53 then rough else rough + 1

/-- The double nearest to a ratio, ties to the even neighbour, and an infinity
beyond the largest. -/
def ofRatio (negative : Bool) (num den : Nat) : Double :=
  if num = 0 then zero negative
  else
    let unit := unitExponent num den
    let scaled := scaleBinary den unit
    let m := roundDiv (num * scaled.2) scaled.1
    ofBits negative (min ((unit + 1074).toNat * Nat.pow 2 52 + m) infinityBits)

/-- The double nearest to `digits · 10 ^ exponent`. Exponents far outside the
range are answered without forming the power of ten. -/
def ofDecimal (negative : Bool) (digits : Nat) (exponent : Int) : Double :=
  if digits = 0 then zero negative
  else if 400 < exponent then infinity negative
  else if exponent + Nat.log2 digits < -400 then zero negative
  else
    let r := scaleDecimal digits exponent
    ofRatio negative r.1 r.2

/-- The double nearest to a natural number. -/
def ofNat (n : Nat) : Double := ofRatio false n 1

/-- A finite double as a signed ratio; a zero has no sign. -/
def signedRatio? (x : Double) : Option (Int × Nat) :=
  if x.isFinite then
    let r := x.ratio
    some (if x.isNegative then -(r.1 : Int) else r.1, r.2)
  else none

/-- Numerical equality: no number equals a value that is not a number, and the
two zeros are equal. -/
def equals (x y : Double) : Bool :=
  !x.isNaN && !y.isNaN && (x.bits == y.bits || x.isZero && y.isZero)

/-- Equality with a whole number. -/
def equalsInt (x : Double) (i : Int) : Bool :=
  match x.signedRatio? with
  | some (num, den) => num == i * den
  | none => false

/-- Strict order of finite doubles; a value that is not finite is not below or
above anything here. -/
def less (x y : Double) : Bool :=
  match x.signedRatio?, y.signedRatio? with
  | some (a, b), some (c, d) => a * d < c * b
  | _, _ => false

/-- Whether a number is below zero. Minus infinity is; the negative zero is not. -/
def belowZero (x : Double) : Bool :=
  x.isNegative && !x.isNaN && !x.isZero

/-- The whole number that a finite double equals, if it equals one. -/
def toInt? (x : Double) : Option Int :=
  match x.signedRatio? with
  | some (num, den) => if num % den == 0 then some (num / den) else none
  | none => none

/-- Product with a natural number, correctly rounded. -/
def scale (x : Double) (n : Nat) : Double :=
  if x.isFinite then ofRatio x.isNegative (x.ratio.1 * n) x.ratio.2 else x

/-- A finite double rounded to a number of decimal places: the exact value is
rounded, ties to even, and the result is the nearest double. -/
def roundPlaces (x : Double) (places : Nat) : Double :=
  if x.isFinite then
    ofRatio x.isNegative (roundDiv (x.ratio.1 * Nat.pow 10 places) x.ratio.2) (Nat.pow 10 places)
  else x

end Double

end Whittle
