import Whittle.Double

/-!
# Random sources

A random source answers two requests: a double from zero up to but not including one, and
a natural number up to a given one. The second answer carries the proof of its bound, so
whatever is picked with it exists.
-/

namespace Whittle.Sample

/-- A source of random answers with a state `σ`. -/
structure RandomSource (σ : Type) where
  /-- A double that is at least zero and less than one. -/
  unit : σ → Double × σ
  /-- A number up to `n`, `n` included. -/
  upTo : (n : Nat) → σ → Fin (n + 1) × σ

/-- A state from which one number at a time is drawn, and how many have been drawn. -/
structure Drawn (σ : Type) where
  state : σ
  count : Nat

/-- The remainder that makes any number one up to `n`. -/
def wrap (n : Nat) (i : Int) : Fin (n + 1) :=
  Fin.ofNat (n + 1) (i % (n + 1 : Nat)).toNat

/-- A source that answers by the numbers of a list, and by zeros after its end. A number
counts in thousandths for doubles. -/
def listed : RandomSource (Drawn (List Int)) where
  unit s := (Double.ofRatio false (s.state.headD 0 % 1000).toNat 1000,
    ⟨s.state.tail, s.count + 1⟩)
  upTo n s := (wrap n (s.state.headD 0), ⟨s.state.tail, s.count + 1⟩)

/-- The next state of a seeded source. -/
def advanceSeed (s : UInt64) : UInt64 := s + 0x9e3779b97f4a7c15

/-- The number that a state of a seeded source stands for. -/
def mixed (s : UInt64) : UInt64 :=
  let z := (s ^^^ (s >>> 30)) * 0xbf58476d1ce4e5b9
  let z := (z ^^^ (z >>> 27)) * 0x94d049bb133111eb
  z ^^^ (z >>> 31)

/-- A source that mixes the multiples of a constant, counted from a seed. Doubles have the
upper fifty-three bits of a number. -/
def seeded : RandomSource (Drawn UInt64) where
  unit s :=
    let z := advanceSeed s.state
    (Double.ofRatio false (mixed z >>> 11).toNat (Nat.pow 2 53), ⟨z, s.count + 1⟩)
  upTo n s :=
    let z := advanceSeed s.state
    (Fin.ofNat (n + 1) (mixed z).toNat, ⟨z, s.count + 1⟩)

/-- The state of a seeded source at its beginning. -/
def seed (n : Int) : Drawn UInt64 := ⟨(n % Nat.pow 2 64).toNat.toUInt64, 0⟩

/-- The state of a listed source at its beginning. -/
def draws (ns : List Int) : Drawn (List Int) := ⟨ns, 0⟩

end Whittle.Sample
