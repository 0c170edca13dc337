import Whittle.Decimal.Shortest

/-!
# Numerals

How numbers are written: whole numbers in full, doubles by their shortest
decimal, positional for middling sizes and with an exponent beyond them.
-/

namespace Whittle.Decimal

/-- The decimal digits of a natural number. -/
def natText (n : Nat) : String := toString n

/-- A whole number, with a minus sign if it is negative. -/
def intText (i : Int) : String :=
  if i < 0 then "-" ++ natText i.natAbs else natText i.natAbs

/-- The choices in writing doubles. -/
structure NumeralStyle where
  /-- The least and the largest place of the leading digit that is still written
  without an exponent. -/
  leastPlace : Int
  largestPlace : Int
  /-- The fewest digits of an exponent. -/
  exponentDigits : Nat
  notANumber : String
  infinite : String

/-- Positional from one ten-thousandth up to ten to the sixteenth, and two digits
of exponent at least. -/
def plainStyle : NumeralStyle where
  leastPlace := -4
  largestPlace := 15
  exponentDigits := 2
  notANumber := "nan"
  infinite := "inf"

/-- `n` zeros. -/
def zeros (n : Nat) : String := String.ofList (List.replicate n '0')

/-- A numeral padded with zeros on the left. -/
def padded (width : Nat) (n : Nat) : String :=
  let s := natText n
  zeros (width - s.length) ++ s

/-- The digits without an exponent, always with a point and a digit after it. -/
def positional (digits : String) (place : Int) : String :=
  let n := digits.length
  if place < 0 then "0." ++ zeros (-place - 1).toNat ++ digits
  else
    let whole := place.toNat + 1
    if n ≤ whole then digits ++ zeros (whole - n) ++ ".0"
    else String.ofList (digits.toList.take whole) ++ "." ++
      String.ofList (digits.toList.drop whole)

/-- One digit before the point and an exponent with a sign. -/
def scientific (f : NumeralStyle) (digits : String) (place : Int) : String :=
  let mantissa := match digits.toList with
    | [] => ""
    | [d] => String.ofList [d]
    | d :: rest => String.ofList (d :: '.' :: rest)
  mantissa ++ (if place < 0 then "e-" else "e+") ++ padded f.exponentDigits place.natAbs

/-- The absolute value of a finite double other than zero. -/
def magnitudeText (f : NumeralStyle) (x : Double) : String :=
  let d := shortest x
  let digits := natText d.digits
  let place := d.exponent + digits.length - 1
  if f.leastPlace ≤ place && place ≤ f.largestPlace then positional digits place
  else scientific f digits place

/-- A double in the given style. A zero keeps its sign. -/
def doubleText (f : NumeralStyle) (x : Double) : String :=
  if x.isNaN then f.notANumber
  else
    (if x.isNegative then "-" else "") ++
      (if x.isInfinite then f.infinite
       else if x.isZero then "0.0"
       else magnitudeText f x)

/-- The value of a text of ASCII digits; the empty text has the value zero. -/
def natOfDigits (digits : List Char) : Nat :=
  digits.foldl (fun n c => 10 * n + (c.toNat - '0'.toNat)) 0

end Whittle.Decimal
