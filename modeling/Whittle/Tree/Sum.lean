import Whittle.Tree

/-!
# Sums of values

Two values that stand side by side are put together: texts and lists are joined, numbers
are added. A truth value counts as the number one or zero. Other values have no sum.
-/

namespace Whittle

/-- The double nearest to a whole number, if there is a finite one. -/
def Double.ofInt? (i : Int) : Option Double :=
  let x := Double.ofRatio (decide (i < 0)) i.natAbs 1
  if x.isFinite then some x else none

/-- The sum of two finite doubles, correctly rounded. A sum of zero is negative only if
both of them are. -/
def Double.addFinite (x y : Double) : Double :=
  match x.signedRatio?, y.signedRatio? with
  | some (a, b), some (c, d) =>
    let n := a * d + c * b
    if n = 0 then Double.zero (x.isNegative && y.isNegative)
    else Double.ofRatio (decide (n < 0)) n.natAbs (b * d)
  | _, _ => Double.nan

/-- The sum of two doubles. Infinities of different signs have none. -/
def Double.add (x y : Double) : Double :=
  if x.isNaN || y.isNaN then Double.nan
  else if x.isInfinite then
    if y.isInfinite && x.isNegative != y.isNegative then Double.nan else x
  else if y.isInfinite then y
  else x.addFinite y

namespace Tree

/-- The double that a number is taken for in a sum with a double. -/
def double? : Tree → Option Double
  | .float x => some x
  | t => do Double.ofInt? (← t.wholeNumber?)

/-- The sum of two values, if they have one. -/
def sum? (a b : Tree) : Option Tree :=
  match a, b with
  | .str s, .str t => some (.str (s ++ t))
  | .list as, .list bs => some (.list (as ++ bs))
  | .float x, t => do return .float (x.add (← t.double?))
  | s, .float y => do return .float ((← s.double?).add y)
  | s, t => do return .int ((← s.wholeNumber?) + (← t.wholeNumber?))

/-- Texts are joined. -/
@[simp] theorem sum?_str (s t : String) : sum? (.str s) (.str t) = some (.str (s ++ t)) := rfl

/-- Lists are joined. -/
@[simp] theorem sum?_list (as bs : List Tree) :
    sum? (.list as) (.list bs) = some (.list (as ++ bs)) := rfl

end Tree

end Whittle
