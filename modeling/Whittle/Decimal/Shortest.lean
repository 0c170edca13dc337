import Whittle.Double

/-!
# Shortest decimals

The decimal of a positive finite double: the fewest digits that read back as the
same double, and of those the decimal nearest to it. The grids of one, two, three
digits and so on are tried in turn; on each grid only the two neighbours of the
value can read back if any point of the grid does.
-/

namespace Whittle.Decimal

/-- A natural number scaled by a power of ten: `digits · 10 ^ exponent`. -/
structure Scaled where
  digits : Nat
  exponent : Int
deriving DecidableEq

/-- The place of the leading digit of a positive ratio: the largest `e` with
`10 ^ e ≤ num / den`. The guess from the binary length is off by one at most. -/
def leadingPlace (num den : Nat) : Int :=
  let guess := ((Nat.log2 num : Int) - Nat.log2 den) * 30103 / 100000
  let reaches (e : Int) : Bool :=
    let r := scaleDecimal 1 e
    r.1 * den ≤ num * r.2
  if reaches (guess + 1) then guess + 1
  else if reaches guess then guess
  else guess - 1

/-- Whether a decimal reads back as the given double. -/
def Scaled.readsAs (d : Scaled) (x : Double) : Bool :=
  Double.ofDecimal x.isNegative d.digits d.exponent == x

/-- The point of the grid `10 ^ unit` that reads back as `x` and is nearest to it,
an even number of units being preferred in a tie. -/
def onGrid? (x : Double) (unit : Int) : Option Scaled :=
  let r := x.ratio
  let step := scaleDecimal 1 unit
  let num := r.1 * step.2
  let den := r.2 * step.1
  let below : Scaled := ⟨num / den, unit⟩
  let above : Scaled := ⟨num / den + 1, unit⟩
  match below.readsAs x, above.readsAs x with
  | true, true => some ⟨roundDiv num den, unit⟩
  | true, false => some below
  | false, true => some above
  | false, false => none

/-- The first grid of at most seventeen digits with a point that reads back. -/
def shortest? (x : Double) : Option Scaled :=
  let place := leadingPlace x.ratio.1 x.ratio.2
  (List.range 17).findSome? fun (k : Nat) => onGrid? x (place - k)

/-- The value itself: a binary fraction with `k` places is a decimal fraction with
`k` places. -/
def exact (x : Double) : Scaled :=
  let (m, k) := x.significand
  if 0 ≤ k then ⟨m * Nat.pow 2 k.toNat, 0⟩ else ⟨m * Nat.pow 5 (-k).toNat, k⟩

/-- The same decimal with a final zero moved into the exponent. -/
def Scaled.trimmed (d : Scaled) : Scaled :=
  if d.digits % 10 = 0 then ⟨d.digits / 10, d.exponent + 1⟩ else d

/-- The shortest decimal of a positive finite double. Seventeen digits are always
enough; were they not, the exact value would be given. The neighbour above the
value may be a power of ten, so a final zero is moved into the exponent. -/
def shortest (x : Double) : Scaled :=
  ((shortest? x).getD (exact x)).trimmed

end Whittle.Decimal
