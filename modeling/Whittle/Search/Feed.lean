/-!
# Feeds

A sequence whose items depend on answers from outside. At any moment it has come to
its end, has failed, yields an item, or asks a question and goes on by the answer. A
feed is consumed step by step, and nothing is asked before the consumer has got there.
-/

namespace Whittle.Search

/-- A sequence of `α`s that asks questions `ρ` and may fail with an `ε`. -/
inductive Feed (ρ ε α : Type) where
  | done
  | failed (e : ε)
  | yield (a : α) (rest : Feed ρ ε α)
  | ask (question : ρ) (next : Bool → Feed ρ ε α)

namespace Feed

variable {ρ ε α : Type}

/-- The feed of a list that asks before each item; the answers do not matter. -/
def ofList : List α → Feed Unit ε α
  | [] => .done
  | a :: as => .ask () fun _ => .yield a (ofList as)

/-- The items of a feed whose questions are all answered with yes, each with the number
of questions asked before it, counted on from `asked`. -/
def timed (asked : Nat) : Feed ρ ε α → List (α × Nat)
  | .done => []
  | .failed _ => []
  | .yield a rest => (a, asked) :: timed asked rest
  | .ask _ next => timed (asked + 1) (next true)

end Feed

end Whittle.Search
