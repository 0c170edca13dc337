import Whittle.Search.Feed

/-!
# Windows

Smallest first within a window. Items are taken from a feed until the window is full;
then the smallest is yielded and one more is taken, and so on to the end. Items of equal
size keep their order. The same items come out, and a window of one changes nothing.
-/

namespace Whittle.Search

variable {ρ ε α κ : Type} [LT κ] [DecidableLT κ]

/-- The items waiting in the window with their keys, the smallest first; of equal keys the
one that came first. -/
abbrev Waiting (κ α : Type) := List (κ × α)

/-- A new item behind all that are not larger. -/
def Waiting.insert (key : κ) (a : α) : Waiting κ α → Waiting κ α
  | [] => [(key, a)]
  | e :: es => if key < e.1 then (key, a) :: e :: es else e :: insert key a es

/-- The waiting items, yielded in order. -/
def Waiting.drain : Waiting κ α → Feed ρ ε α
  | [] => .done
  | e :: es => .yield e.2 (drain es)

/-- The feed reordered, when `missing` items are still to be taken before the next one is
yielded. -/
def reorderFrom (key : α → κ) (missing : Nat) (waiting : Waiting κ α) :
    Feed ρ ε α → Feed ρ ε α
  | .done => waiting.drain
  | .failed e => .failed e
  | .ask q next => .ask q fun b => reorderFrom key missing waiting (next b)
  | .yield a rest =>
    match missing, waiting.insert (key a) a with
    | m + 2, waiting => reorderFrom key (m + 1) waiting rest
    | _, e :: waiting => .yield e.2 (reorderFrom key 1 waiting rest)
    | _, [] => .done

/-- The feed reordered within a window. -/
def reorder (key : α → κ) (window : Nat) (feed : Feed ρ ε α) : Feed ρ ε α :=
  reorderFrom key window [] feed

/-- A window is a positive number. -/
def window? (n : Int) : Option Nat :=
  if n < 1 then none else some n.toNat

end Whittle.Search
