import Whittle.Search.Candidates
import Whittle.Search.Log

/-!
# Collecting candidates

Candidates are taken from a feed until it ends, fails, or enough have been taken. The
judge may keep a state of its own and may raise. Its answers are counted, and once the
feed has been started the log gets one line with the counts, however it was left.
-/

namespace Whittle.Search

/-- An effect that may raise an `ε` and keeps a state `σ`, also when it raises. -/
abbrev Asking (σ ε : Type) := ExceptT ε (StateM σ)

/-- How the taking of candidates came to an end. -/
inductive Ending (ε : Type) where
  | finished
  /-- Enough were taken. -/
  | closed
  | failed (fault : EditFault)
  | raised (e : ε)

/-- Candidates taken, how it ended, and the judge's calls and refusals. -/
structure Harvest (ε : Type) where
  items : List Tree
  ending : Ending ε
  produced : Nat
  rejected : Nat

namespace Harvest

variable {ε : Type}

/-- A harvest without items. -/
def bare (ending : Ending ε) : Harvest ε := ⟨[], ending, 0, 0⟩

/-- One more candidate before the others. -/
def withItem (t : Tree) (h : Harvest ε) : Harvest ε := { h with items := t :: h.items }

/-- One more call of the judge before the others. -/
def withCall (accepted : Bool) (h : Harvest ε) : Harvest ε :=
  { h with
    produced := h.produced + 1
    rejected := if accepted then h.rejected else h.rejected + 1 }

end Harvest

variable {σ ε : Type}

/-- Takes candidates, at most `limit` of them if there is a limit. -/
def collect (judge : Tree → Asking σ ε Bool) (limit : Option Nat) :
    Feed Tree EditFault Tree → σ → Harvest ε × σ
  | .done, s => (.bare (if limit = some 0 then .closed else .finished), s)
  | .failed f, s => (.bare (if limit = some 0 then .closed else .failed f), s)
  | .yield t rest, s =>
    if limit = some 0 then (.bare .closed, s)
    else
      let (h, s) := collect judge (limit.map (· - 1)) rest s
      (h.withItem t, s)
  | .ask t next, s =>
    if limit = some 0 then (.bare .closed, s)
    else
      match judge t s with
      | (.ok accepted, s) =>
        let (h, s) := collect judge limit (next accepted) s
        (h.withCall accepted, s)
      | (.error e, s) => ({ Harvest.bare (.raised e) with produced := 1 }, s)

/-- The line that the log gets about a harvest, unless nothing was asked for. -/
def harvestLog (path : Path) (limit : Option Nat) (h : Harvest ε) : List LogLine :=
  if limit = some 0 then [] else [.enumerated h.produced path h.rejected]

end Whittle.Search
