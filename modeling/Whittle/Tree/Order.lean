import Whittle.Tree

/-!
# Order of values

Numbers come in order of size, texts in order of their characters, and lists in the order
of the first items in which they differ, a list before its continuations. Two values of
other sorts, or of different ones, are not ordered.
-/

namespace Whittle

namespace Double

/-- The place of a double among all that are numbers; the two zeros share one. -/
def rank (x : Double) : Int :=
  if x.isNegative then -(x.magnitudeBits : Int) else x.magnitudeBits

/-- Whether one double is below another, infinities included. -/
def below (x y : Double) : Bool :=
  !x.isNaN && !y.isNaN && decide (x.rank < y.rank)

/-- Whether a double is below a whole number. -/
def belowInt (x : Double) (i : Int) : Bool :=
  match x.signedRatio? with
  | some (num, den) => decide (num < i * den)
  | none => x.isInfinite && x.isNegative

/-- Whether a double is above a whole number. -/
def aboveInt (x : Double) (i : Int) : Bool :=
  match x.signedRatio? with
  | some (num, den) => decide (i * den < num)
  | none => x.isInfinite && !x.isNegative

/-- The double of the other sign. -/
def negated (x : Double) : Double := ofBits (!x.isNegative) x.magnitudeBits

end Double

namespace Tree

/-- The order of two values neither of which is a list. -/
def leafPrecedes : Tree → Tree → Bool
  | .str a, .str b => decide (a < b)
  | .float x, .float y => x.below y
  | .float x, t => t.wholeNumber?.any x.belowInt
  | t, .float y => t.wholeNumber?.any y.aboveInt
  | a, b =>
    match a.wholeNumber?, b.wholeNumber? with
    | some i, some j => decide (i < j)
    | _, _ => false

mutual
/-- Whether a value comes before another one. -/
def precedes : Tree → Tree → Bool
  | .list as, .list bs => precedesAll as bs
  | a, b => leafPrecedes a b

/-- Whether a list of values comes before another one. -/
def precedesAll : List Tree → List Tree → Bool
  | [], bs => !bs.isEmpty
  | _ :: _, [] => false
  | a :: as, b :: bs => if a.equals b then precedesAll as bs else precedes a b
end

instance : LT Tree := ⟨fun a b => a.precedes b = true⟩

instance : DecidableLT Tree := fun a b => inferInstanceAs (Decidable (a.precedes b = true))

end Tree

end Whittle
