import Whittle.Edit.Weight
import Whittle.Search.Collect
import Whittle.Search.Window
import Whittle.Validity

/-!
# Reduction

A tree is reduced as long as a predicate keeps holding. Each pass goes through the
candidates of the best tree so far and adopts the first one for which the predicate
holds; a pass that adopts none ends the search, so the result is a local minimum.

Every improvement of a well-typed tree is lighter than the tree before. In a tree that is
not, `null` may also give way to the empty statement or the other way round, but what has
come to stand where it belongs stays. So the weight of the first tree bounds the number
of passes.
-/

namespace Whittle.Search

/-- The outside world of a search. Everything may keep a state and may raise. -/
structure Hooks (σ ε : Type) where
  /-- Whether a tree still has the property that matters. -/
  predicate : Tree → Asking σ ε Bool
  /-- Whether a tree may be tried at all. -/
  isValid : Tree → Asking σ ε Bool
  /-- Told about each candidate before it is tested. -/
  onCandidate : Tree → Asking σ ε Unit
  /-- Told about each candidate that is adopted. -/
  onImproved : Tree → Asking σ ε Unit

/-- Why a search ends without a result. -/
inductive SearchError (ε : Type) where
  /-- The first tree does not have the property. -/
  | precondition
  | path (e : PathError)
  /-- A window has to be positive. -/
  | window (size : Int)
  | fault (f : EditFault)
  /-- A hook raised. -/
  | raised (e : ε)
  /-- More passes than the weight of the first tree allows. -/
  | exhausted

/-- The sentence about a window that is not positive. -/
def windowMessage (size : Int) : String :=
  "window must be at least 1, got " ++ Decimal.intText size

/-- The sentence about a first tree without the property. -/
def preconditionMessage : String := "input tree does not satisfy the predicate"

/-- What a search has done so far; the log is kept last line first. -/
structure Progress (σ : Type) where
  improvements : Nat
  tested : Nat
  passes : Nat
  log : List LogLine
  world : σ

/-- A step of a search. -/
abbrev Searching (σ ε : Type) := ExceptT (SearchError ε) (StateM (Progress σ))

variable {σ ε : Type}

/-- Something that the outside world does. -/
def ofWorld {α : Type} (act : Asking σ ε α) : Searching σ ε α := fun p =>
  match act p.world with
  | (.ok a, w) => (.ok a, { p with world := w })
  | (.error e, w) => (.error (.raised e), { p with world := w })

/-- A line for the log. -/
def report (line : LogLine) : Searching σ ε Unit :=
  modify fun p => { p with log := line :: p.log }

/-- The first candidate of a feed that is adopted. -/
def firstImprovement (h : Hooks σ ε) : Feed Tree EditFault Tree → Searching σ ε (Option Tree)
  | .done => return none
  | .failed f => throw (.fault f)
  | .ask t next => do
    let accepted ← ofWorld (h.isValid t)
    firstImprovement h (next accepted)
  | .yield c rest => do
    ofWorld (h.onCandidate c)
    modify fun p => { p with tested := p.tested + 1 }
    if ← ofWorld (h.predicate c) then
      modify fun p => { p with improvements := p.improvements + 1 }
      let p ← get
      report (.improvement p.improvements p.tested)
      ofWorld (h.onImproved c)
      return some c
    else firstImprovement h rest

/-- The candidates of a pass in the order in which they are tried. -/
def passFeed (path : Path) (window : Option Int) (best : Tree) :
    Searching σ ε (Feed Tree EditFault Tree) := do
  let feed ← match candidates best path with
    | .ok feed => pure feed
    | .error e => throw (.path e)
  match window with
  | none => return feed
  | some n =>
    match window? n with
    | some w => return reorder Tree.size w feed
    | none => throw (.window n)

/-- Passes from the best tree on, until one adopts nothing. -/
def passesFrom (h : Hooks σ ε) (path : Path) (window : Option Int) :
    (fuel : Nat) → Tree → Searching σ ε Tree
  | 0, _ => throw .exhausted
  | fuel + 1, best => do
    modify fun p => { p with passes := p.passes + 1 }
    let feed ← passFeed path window best
    report (.pass (← get).passes)
    match ← firstImprovement h feed with
    | some better => passesFrom h path window fuel better
    | none => return best

/-- The last line of the log. -/
def summary (p : Progress σ) : LogLine :=
  if p.improvements = 0 then .notImproved p.tested
  else .finished p.improvements p.tested p.passes

/-- A number of passes that suffices for a search from a tree. -/
def passBound (t : Tree) : Nat := 3 * t.weight + 1

/-- The search as a whole. -/
def search (h : Hooks σ ε) (path : Path) (window : Option Int) (t : Tree) :
    Searching σ ε Tree := do
  if ← ofWorld (h.predicate t) then
    report (.started t.sort path)
    let best ← passesFrom h path window (passBound t) t
    report (summary (← get))
    return best
  else throw .precondition

/-- What became of a search: its result, the outside world, and the log in order. -/
structure Outcome (σ ε : Type) where
  result : Except (SearchError ε) Tree
  improvements : Nat
  world : σ
  log : List LogLine

/-- Reduces a tree below a path as long as the predicate holds. With `window` each pass
tries its candidates smallest first within a window of that size. -/
def reduce (h : Hooks σ ε) (path : Path) (window : Option Int) (t : Tree) (world : σ) :
    Outcome σ ε :=
  let (result, p) := search h path window t ⟨0, 0, 0, [], world⟩
  ⟨result, p.improvements, p.world, p.log.reverse⟩

end Whittle.Search
