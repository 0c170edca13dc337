import Whittle.Node
import Whittle.Sample.Source
import Whittle.Validity.Violation

/-!
# Generators

A generator draws from a random source, hands out fresh names, and makes nodes with
checks. The *scene* of a generator says what may be placed where it is at work.
-/

namespace Whittle.Sample

/-- What generators share: the state of the source, and how many names were handed out. -/
structure Stock (σ : Type) where
  source : σ
  names : Nat

/-- A generator. -/
abbrev Gen (σ : Type) := ExceptT NodeError (StateM (Stock σ))

/-- What may be placed where a generator is at work. -/
structure Scene where
  inFunction : Bool := false
  isAsync : Bool := false
  isGenerator : Bool := false
  inLoop : Bool := false
  inSwitch : Bool := false
  /-- The labels around, outermost first, each with whether it labels a loop. -/
  labels : List (String × Bool) := []
  superProperty : Bool := false
  superCall : Bool := false
  strict : Bool := false

/-- A number of hundredths. -/
def hundredths (n : Nat) : Double := Double.ofRatio false n 100

section

variable {σ : Type}

/-- A checked node with the given fields. -/
def node (k : Kind) (fields : List Tree) : Gen σ Tree := fun s => (Node.make k fields, s)

/-- A fresh name: the given letter and a number. -/
def fresh (letter : String) : Gen σ String := fun s =>
  (.ok (letter ++ Decimal.natText s.names), { s with names := s.names + 1 })

/-- A fresh binding. -/
def binding : Gen σ Tree := do node .bindingIdentifier [.str (← fresh "v")]

end

variable {σ : Type} (rs : RandomSource σ)

/-- A double from the source. -/
def roll : Gen σ Double := fun s =>
  let (x, source) := rs.unit s.source
  (.ok x, { s with source })

/-- A number up to `n` from the source. -/
def upTo (n : Nat) : Gen σ (Fin (n + 1)) := fun s =>
  let (i, source) := rs.upTo n s.source
  (.ok i, { s with source })

/-- True in so many of a hundred cases. -/
def chance (percent : Nat) : Gen σ Bool := do
  return (← roll rs).less (hundredths percent)

/-- One of several things. -/
def choose {α : Type} (first : α) (others : List α) : Gen σ α := do
  let i ← upTo rs others.length
  return (first :: others)[i]

/-- One of several texts. -/
def chooseText (first : String) (others : List String) : Gen σ Tree := do
  return .str (← choose rs first others)

/-- One of the generators, run. -/
def chooseGen {α : Type} (first : Gen σ α) (others : List (Gen σ α)) : Gen σ α := do
  (← choose rs first others)

/-- So many things, one after the other. -/
def times {α : Type} (g : Gen σ α) : Nat → Gen σ (List α)
  | 0 => return []
  | n + 1 => do
    let a ← g
    return a :: (← times g n)

/-- Up to `most` things; their number is drawn first. -/
def several {α : Type} (most : Nat) (g : Gen σ α) : Gen σ (List α) := do
  times g (← upTo rs most)

/-- A tree in so many of a hundred cases, and an absent value otherwise. -/
def perhaps (percent : Nat) (g : Gen σ Tree) : Gen σ Tree := do
  if ← chance rs percent then g else return .absent

/-- A truth value that is true in so many of a hundred cases. -/
def flag (percent : Nat) : Gen σ Tree := do
  return .bool (← chance rs percent)

/-- A text of up to `most` characters. -/
def letters (most : Nat) (first : Char) (others : List Char) : Gen σ Tree := do
  return .str (String.ofList (← several rs most (choose rs first others)))

end Whittle.Sample
