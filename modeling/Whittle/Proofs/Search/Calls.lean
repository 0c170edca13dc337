import Whittle.Proofs.Search.Passes

/-!
# Calls of a search

What a search is seen to do from outside: which hooks it calls, with which trees, and what
comes back. Hooks can be made to note their calls beside their state, and a search does not
notice. So whatever holds of the calls that are noted holds of the search itself; above all, a
search within a window of one makes the calls of a search without a window.
-/

namespace Whittle.Search

variable {σ τ ε α : Type}

/-! ## Worlds that are seen through a view -/

section Seen

variable {π : τ → σ} {h : Hooks τ ε} {seen : Hooks σ ε}

end Seen

/-! ## Hooks that note their calls -/

/-- A call of a hook: the tree that it is about, and what came back. -/
inductive Call (ε : Type) where
  | predicate (t : Tree) (answer : Except ε Bool)
  | isValid (t : Tree) (answer : Except ε Bool)
  | candidate (t : Tree) (answer : Except ε Unit)
  | improved (t : Tree) (answer : Except ε Unit)

namespace Call

/-- What the call raised. -/
def fault? : Call ε → Option ε
  | predicate _ (.error e) | isValid _ (.error e) => some e
  | candidate _ (.error e) | improved _ (.error e) => some e
  | _ => none

/-- The tree that the predicate is asked about. -/
def predicate? : Call ε → Option Tree
  | predicate t _ => some t
  | _ => none

/-- The tree that is announced as a candidate. -/
def candidate? : Call ε → Option Tree
  | candidate t _ => some t
  | _ => none

/-- The tree that is announced as an improvement. -/
def improved? : Call ε → Option Tree
  | improved t _ => some t
  | _ => none

end Call

/-- An act that is noted as a call. -/
def noting (call : Except ε α → Call ε) (act : Asking σ ε α) :
    Asking (σ × List (Call ε)) ε α := fun w =>
  let (answer, s) := act w.1
  (answer, s, w.2 ++ [call answer])

namespace Hooks

/-- The same hooks, which note their calls beside their state. -/
def noted (h : Hooks σ ε) : Hooks (σ × List (Call ε)) ε where
  predicate t := noting (.predicate t) (h.predicate t)
  isValid t := noting (.isValid t) (h.isValid t)
  onCandidate t := noting (.candidate t) (h.onCandidate t)
  onImproved t := noting (.improved t) (h.onImproved t)

/-- The calls of a search, in order. -/
def calls (h : Hooks σ ε) (path : Path) (window : Option Int) (t : Tree) (world : σ) :
    List (Call ε) :=
  (reduce h.noted path window t (world, [])).world.2

end Hooks

/-! ## A window of one -/

theorem passFeed_one (path : Path) (best : Tree) :
    (passFeed path (some 1) best : Searching σ ε _) = passFeed path none best := by
  simp only [passFeed, show window? 1 = some 1 from rfl, reorder_one]

theorem passesFrom_one (h : Hooks σ ε) (path : Path) (fuel : Nat) (best : Tree) :
    passesFrom h path (some 1) fuel best = passesFrom h path none fuel best := by
  induction fuel generalizing best with
  | zero => rfl
  | succ fuel ih => simp only [passesFrom, passFeed_one, ih]

/-- A search within a window of one makes the calls of a search without a window, at the same
moments, and comes to the same. -/
theorem reduce_window_one (h : Hooks σ ε) (path : Path) (t : Tree) (world : σ) :
    h.calls path (some 1) t world = h.calls path none t world ∧
    reduce h path (some 1) t world = reduce h path none t world := by
  have hreduce : ∀ {τ : Type} (h : Hooks τ ε) (world : τ),
      reduce h path (some 1) t world = reduce h path none t world := fun h world => by
    simp only [reduce, search, passesFrom_one]
  exact ⟨by rw [Hooks.calls, hreduce, Hooks.calls], hreduce h world⟩

end Whittle.Search
