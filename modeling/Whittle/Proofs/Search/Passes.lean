import Whittle.Proofs.Search.Feeds
import Whittle.Search.Reduction

/-!
# Passes of a search

What one pass of a search comes to, and from it what all passes together come to. A search
whose candidates keep an invariant and get lighter ends, unless the outside world raises;
a search whose outside world answers by two tests ends at a tree that no candidate improves
on.
-/

namespace Whittle.Search

variable {σ ε α β : Type}

/-! ## Steps of a search -/

namespace Searching

theorem bind_apply (x : Searching σ ε α) (f : α → Searching σ ε β) (p : Progress σ) :
    (x >>= f) p = (match x p with
      | (.ok a, p') => f a p'
      | (.error e, p') => (.error e, p')) := by
  simp only [bind, ExceptT.bind, ExceptT.mk, StateT.bind, ExceptT.bindCont]
  rcases x p with ⟨_ | _, p'⟩ <;> rfl

theorem modify_apply (f : Progress σ → Progress σ) (p : Progress σ) :
    (modify f : Searching σ ε Unit) p = (.ok (), f p) := rfl

theorem get_apply (p : Progress σ) :
    (get : Searching σ ε (Progress σ)) p = (.ok p, p) := rfl

theorem report_apply (line : LogLine) (p : Progress σ) :
    (report line : Searching σ ε Unit) p = (.ok (), { p with log := line :: p.log }) := rfl

end Searching

open Searching

/-- The progress after a candidate has been tested and adopted. -/
def Progress.adopt (p : Progress σ) : Progress σ :=
  { p with
    improvements := p.improvements + 1
    tested := p.tested + 1
    log := .improvement (p.improvements + 1) (p.tested + 1) :: p.log }

theorem firstImprovement_ask (h : Hooks σ ε) (t : Tree)
    (next : Bool → Feed Tree EditFault Tree) (p : Progress σ) :
    firstImprovement h (.ask t next) p =
      (match h.isValid t p.world with
      | (.ok b, w) => firstImprovement h (next b) { p with world := w }
      | (.error e, w) => (.error (.raised e), { p with world := w })) := by
  rw [firstImprovement, bind_apply, ofWorld]
  rcases h.isValid t p.world with ⟨_ | _, w⟩ <;> rfl

theorem firstImprovement_yield (h : Hooks σ ε) (c : Tree) (rest : Feed Tree EditFault Tree)
    (p : Progress σ) :
    firstImprovement h (.yield c rest) p =
      (match h.onCandidate c p.world with
      | (.error e, w) => (.error (.raised e), { p with world := w })
      | (.ok _, w) =>
        match h.predicate c w with
        | (.error e, w) =>
          (.error (.raised e), { p with world := w, tested := p.tested + 1 })
        | (.ok false, w) =>
          firstImprovement h rest { p with world := w, tested := p.tested + 1 }
        | (.ok true, w) =>
          match h.onImproved c w with
          | (.error e, w) => (.error (.raised e), { p.adopt with world := w })
          | (.ok _, w) => (.ok (some c), { p.adopt with world := w })) := by
  rw [firstImprovement, bind_apply, ofWorld]
  rcases h.onCandidate c p.world with ⟨_ | _, w⟩
  · rfl
  · simp only [bind_apply, modify_apply, ofWorld]
    rcases h.predicate c w with ⟨_ | _ | _, w'⟩
    · rfl
    · rfl
    · simp only [if_true, bind_apply, modify_apply, get_apply, report_apply, ofWorld]
      rcases h.onImproved c w' with ⟨_ | _, w''⟩ <;> rfl

theorem passesFrom_succ (h : Hooks σ ε) (path : Path) (window : Option Int) (fuel : Nat)
    (best : Tree) (p : Progress σ) :
    passesFrom h path window (fuel + 1) best p =
      (match passFeed path window best { p with passes := p.passes + 1 } with
      | (.error e, p) => (.error e, p)
      | (.ok feed, p) =>
        match firstImprovement h feed { p with log := .pass p.passes :: p.log } with
        | (.error e, p) => (.error e, p)
        | (.ok none, p) => (.ok best, p)
        | (.ok (some better), p) => passesFrom h path window fuel better p) := by
  rw [passesFrom]
  simp only [bind_apply, modify_apply]
  rcases passFeed path window best _ with ⟨_ | _, p'⟩
  · rfl
  · simp only [get_apply, report_apply]
    rcases firstImprovement h _ _ with ⟨_ | _ | _, p''⟩ <;> rfl

theorem search_apply (h : Hooks σ ε) (path : Path) (window : Option Int) (t : Tree)
    (p : Progress σ) :
    search h path window t p =
      (match h.predicate t p.world with
      | (.error e, w) => (.error (.raised e), { p with world := w })
      | (.ok false, w) => (.error .precondition, { p with world := w })
      | (.ok true, w) =>
        match passesFrom h path window (passBound t) t
          { p with world := w, log := .started t.sort path :: p.log } with
        | (.error e, p) => (.error e, p)
        | (.ok r, p) => (.ok r, { p with log := summary p :: p.log })) := by
  rw [search, bind_apply, ofWorld]
  rcases h.predicate t p.world with ⟨_ | _ | _, w⟩
  · rfl
  · rfl
  · simp only [if_true, bind_apply, report_apply]
    rcases passesFrom h path window (passBound t) t _ with ⟨_ | _, p'⟩ <;> rfl

/-- The candidates in the order in which a pass tries them. -/
def ordered (window : Option Int) (f : Feed Tree EditFault Tree) : Feed Tree EditFault Tree :=
  match window.bind window? with
  | none => f
  | some w => reorder Tree.size w f

/-- A window that a search accepts. -/
def WindowOk (window : Option Int) : Prop := ∀ n ∈ window, 1 ≤ n

theorem passFeed_of_ok {path : Path} {window : Option Int} {best : Tree}
    {f : Feed Tree EditFault Tree} (hf : candidates best path = .ok f)
    (hw : WindowOk window) (p : Progress σ) :
    (passFeed path window best : Searching σ ε _) p = (.ok (ordered window f), p) := by
  cases window with
  | none => simp only [passFeed, hf]; rfl
  | some n =>
    have hn : ¬ n < 1 := by simpa using hw n rfl
    simp only [passFeed, hf, ordered, Option.bind_some, window?, hn, if_false]
    rfl

theorem passFeed_eq_ok {path : Path} {window : Option Int} {best : Tree}
    {feed : Feed Tree EditFault Tree} {p p' : Progress σ}
    (h : (passFeed path window best : Searching σ ε _) p = (.ok feed, p')) :
    WindowOk window ∧ p' = p ∧
      ∃ f, candidates best path = .ok f ∧ feed = ordered window f := by
  simp only [passFeed] at h
  cases hc : candidates best path with
  | error e => simp only [hc] at h; cases h
  | ok f =>
    simp only [hc] at h
    cases window with
    | none => cases h; exact ⟨by simp [WindowOk], rfl, feed, rfl, rfl⟩
    | some n =>
      by_cases hn : n < 1
      · have hnone : window? n = none := by simp [window?, hn]
        simp only [hnone] at h
        cases h
      · have hsome : window? n = some n.toNat := by simp [window?, hn]
        simp only [hsome] at h
        cases h
        refine ⟨?_, rfl, f, rfl, by simp [ordered, hsome]⟩
        intro m hm
        cases hm
        omega

/-! ## Invariants of a search -/

theorem throughout_ordered {P : Tree → Prop} {f : Feed Tree EditFault Tree}
    (hf : f.Throughout P) (window : Option Int) : (ordered window f).Throughout P := by
  unfold ordered
  split
  · exact hf
  · exact hf.reorder Tree.size _

theorem most_ordered_le (window : Option Int) (f : Feed Tree EditFault Tree) :
    (ordered window f).most ≤ f.most := by
  unfold ordered
  split
  · exact Nat.le_refl _
  · exact most_reorder_le ..

/-- How a pass may end when all candidates have a property: nothing is adopted, one of them
is, or the outside world raises, perhaps when it is told of an adopted one. There have been
`n` improvements before the pass. -/
inductive PassEnd (P : Tree → Prop) (n : Nat) :
    Except (SearchError ε) (Option Tree) → Progress σ → Prop
  | nothing {r : Progress σ} (h : r.improvements = n) : PassEnd P n (.ok none) r
  | adopted {r : Progress σ} (c : Tree) (hc : P c) (h : r.improvements = n + 1) :
      PassEnd P n (.ok (some c)) r
  | raised {r : Progress σ} (e : ε) (h : r.improvements = n) :
      PassEnd P n (.error (.raised e)) r
  | raisedAfter {r : Progress σ} (e : ε) (c : Tree) (hc : P c) (h : r.improvements = n + 1) :
      PassEnd P n (.error (.raised e)) r

theorem firstImprovement_end (h : Hooks σ ε) {P : Tree → Prop}
    {f : Feed Tree EditFault Tree} (hf : f.Throughout P) (p : Progress σ) :
    PassEnd P p.improvements (firstImprovement h f p).1 (firstImprovement h f p).2 := by
  induction f generalizing p with
  | done => exact .nothing rfl
  | failed e => exact hf.elim
  | ask t next ih =>
    rw [firstImprovement_ask]
    rcases h.isValid t p.world with ⟨e | b, w⟩
    · exact .raised e rfl
    · exact ih b (hf b) { p with world := w }
  | yield c rest ih =>
    rw [firstImprovement_yield]
    rcases h.onCandidate c p.world with ⟨e | _, w⟩
    · exact .raised e rfl
    · dsimp only
      rcases h.predicate c w with ⟨e | _ | _, w'⟩
      · exact .raised e rfl
      · exact ih hf.2 { p with world := w', tested := p.tested + 1 }
      · dsimp only
        rcases h.onImproved c w' with ⟨e | _, w''⟩
        · exact .raisedAfter e c hf.1 rfl
        · exact .adopted c hf.1 rfl

/-- A pass tests no more candidates than its feed can yield. -/
theorem firstImprovement_tested_le (h : Hooks σ ε) (f : Feed Tree EditFault Tree)
    (p : Progress σ) : (firstImprovement h f p).2.tested ≤ p.tested + f.most := by
  induction f generalizing p with
  | done => exact Nat.le_add_right ..
  | failed e => exact Nat.le_add_right ..
  | ask t next ih =>
    rw [firstImprovement_ask]
    rcases h.isValid t p.world with ⟨e | b, w⟩
    · exact Nat.le_add_right ..
    · have hle := ih b { p with world := w }
      have hmost := Feed.most_next_le t next b
      exact hle.trans (Nat.add_le_add_left hmost _)
  | yield c rest ih =>
    rw [firstImprovement_yield, Feed.most]
    rcases h.onCandidate c p.world with ⟨e | _, w⟩
    · exact Nat.le_add_right ..
    · dsimp only
      rcases h.predicate c w with ⟨e | _ | _, w'⟩
      · simp only; omega
      · have := ih { p with world := w', tested := p.tested + 1 }
        simp only at this ⊢
        omega
      · dsimp only
        rcases h.onImproved c w' with ⟨e | _, w''⟩
        · simp only [Progress.adopt]; omega
        · simp only [Progress.adopt]; omega

/-- Every candidate for a tree with the invariant has it too and is lighter, and no
candidate fails to come about. -/
def Descends (Inv : Tree → Prop) (path : Path) : Prop :=
  ∀ s, Inv s → ∃ f, candidates s path = .ok f ∧
    f.Throughout fun c => Inv c ∧ c.weight < s.weight

/-- Passes from a tree with such an invariant end before the fuel does, with a tree that has
the invariant or because the outside world raises; each improvement costs weight. -/
theorem passesFrom_end (h : Hooks σ ε) {Inv : Tree → Prop} {path : Path}
    (hInv : Descends Inv path) {window : Option Int} (hw : WindowOk window) (fuel : Nat)
    {best : Tree} (hbest : Inv best) (hfuel : best.weight < fuel) (p : Progress σ) :
    ((∃ r, (passesFrom h path window fuel best p).1 = .ok r ∧ Inv r) ∨
      ∃ e, (passesFrom h path window fuel best p).1 = .error (.raised e)) ∧
    (passesFrom h path window fuel best p).2.improvements ≤ p.improvements + best.weight := by
  induction fuel generalizing best p with
  | zero => omega
  | succ fuel ih =>
    obtain ⟨f, hcand, hf⟩ := hInv best hbest
    rw [passesFrom_succ, passFeed_of_ok hcand hw]
    have hend := firstImprovement_end h (throughout_ordered hf window)
      { p with passes := p.passes + 1, log := .pass (p.passes + 1) :: p.log }
    simp only at hend ⊢
    generalize firstImprovement h (ordered window f) _ = result at hend ⊢
    obtain ⟨r, p'⟩ := result
    cases hend with
    | nothing himp =>
      simp only at himp
      exact ⟨.inl ⟨best, rfl, hbest⟩, by simp only; omega⟩
    | adopted c hc himp =>
      simp only at himp
      obtain ⟨hout, himp'⟩ := ih hc.1 (by omega) p'
      exact ⟨hout, by simp only; omega⟩
    | raised e himp =>
      simp only at himp
      exact ⟨.inr ⟨e, rfl⟩, by simp only; omega⟩
    | raisedAfter e c hc himp =>
      simp only at himp
      exact ⟨.inr ⟨e, rfl⟩, by simp only; omega⟩

/-! ## Searches that are answered by tests -/

/-- The outside world answers by two tests, whatever its state. -/
structure Hooks.Answers (h : Hooks σ ε) (V P : Tree → Bool) : Prop where
  isValid : ∀ t w, (h.isValid t w).1 = .ok (V t)
  predicate : ∀ t w, (h.predicate t w).1 = .ok (P t)

/-- What the outcome of a pass says about the candidates of the pass. -/
def Found (P : Tree → Bool) (s : Series EditFault Tree) : Option Tree → Prop
  | none => s.fault = none ∧ ∀ c ∈ s.items, P c = false
  | some c => c ∈ s.items ∧ P c = true

/-- A candidate that is adopted is accepted by the predicate, and none is adopted only if
none is accepted. -/
theorem firstImprovement_answers {h : Hooks σ ε} {V P : Tree → Bool} (hVP : h.Answers V P)
    {f : Feed Tree EditFault Tree} {p p' : Progress σ} {r : Option Tree}
    (hr : firstImprovement h f p = (.ok r, p')) :
    Found P (f.answered V) r := by
  induction f generalizing p with
  | done => cases hr; exact ⟨rfl, by simp [Feed.answered]⟩
  | failed e => cases hr
  | ask t next ih =>
    rw [firstImprovement_ask] at hr
    have hv := hVP.isValid t p.world
    rcases hw : h.isValid t p.world with ⟨e | b, w⟩
    · rw [hw] at hr; cases hr
    · rw [hw] at hv hr
      cases hv
      exact ih (V t) hr
  | yield c rest ih =>
    rw [firstImprovement_yield] at hr
    rcases hc : h.onCandidate c p.world with ⟨e | _, w⟩
    · rw [hc] at hr; cases hr
    · rw [hc] at hr
      have hp := hVP.predicate c w
      simp only at hr
      rcases hw : h.predicate c w with ⟨e | _ | _, w'⟩
      · rw [hw] at hr; cases hr
      · rw [hw] at hr hp
        have hp : P c = false := by simpa using hp.symm
        have hrest := ih hr
        cases r with
        | none => exact ⟨hrest.1, List.forall_mem_cons.2 ⟨hp, hrest.2⟩⟩
        | some d => exact ⟨List.mem_cons_of_mem _ hrest.1, hrest.2⟩
      · rw [hw] at hr hp
        have hp : P c = true := by simpa using hp.symm
        simp only at hr
        rcases hi : h.onImproved c w' with ⟨e | _, w''⟩
        · rw [hi] at hr; cases hr
        · rw [hi] at hr
          cases hr
          exact ⟨List.mem_cons_self, hp⟩

/-- A candidate below a path that both tests accept. -/
def Adopts (V P : Tree → Bool) (path : Path) (s c : Tree) : Prop :=
  ∃ f, candidates s path = .ok f ∧ c ∈ (f.answered V).items ∧ P c = true

/-- No candidate below a path is accepted by both tests, and all of them come about. -/
def LocalMinimum (V P : Tree → Bool) (path : Path) (r : Tree) : Prop :=
  ∃ f, candidates r path = .ok f ∧ (f.answered V).fault = none ∧
    ∀ c ∈ (f.answered V).items, P c = false

theorem mem_answered_of_ordered {V : Tree → Bool} {window : Option Int}
    {f : Feed Tree EditFault Tree} {c : Tree}
    (h : c ∈ ((ordered window f).answered V).items) : c ∈ (f.answered V).items := by
  unfold ordered at h
  split at h
  · exact h
  · exact mem_of_mem_answered_reorder V Tree.size _ f h

theorem answered_ordered (V : Tree → Bool) (window : Option Int)
    (f : Feed Tree EditFault Tree) :
    ((ordered window f).answered V).fault = (f.answered V).fault ∧
    ((f.answered V).fault = none →
      ((ordered window f).answered V).items.Perm (f.answered V).items) := by
  unfold ordered
  split
  · exact ⟨rfl, fun _ => List.Perm.refl _⟩
  · exact answered_reorder V Tree.size _ f

/-- Passes that come to an end have adopted one accepted candidate after the other, and the
tree they end with is a local minimum. -/
theorem passesFrom_answers {h : Hooks σ ε} {V P : Tree → Bool} (hVP : h.Answers V P)
    {path : Path} {window : Option Int} {fuel : Nat} {best r : Tree} {p p' : Progress σ}
    (hr : passesFrom h path window fuel best p = (.ok r, p')) :
    Relation.ReflTransGen (Adopts V P path) best r ∧ LocalMinimum V P path r := by
  induction fuel generalizing best p with
  | zero => cases hr
  | succ fuel ih =>
    rw [passesFrom_succ] at hr
    rcases hfeed : (passFeed path window best : Searching σ ε _) _ with ⟨e | feed, q⟩
    · rw [hfeed] at hr; cases hr
    · obtain ⟨-, rfl, f, hf, rfl⟩ := passFeed_eq_ok hfeed
      rw [hfeed] at hr
      simp only at hr
      rcases hfirst : firstImprovement h (ordered window f) _ with ⟨e | _ | c, q⟩
      · rw [hfirst] at hr; cases hr
      · rw [hfirst] at hr
        cases hr
        obtain ⟨hfault, hnone⟩ := firstImprovement_answers hVP hfirst
        obtain ⟨hfault', hperm⟩ := answered_ordered V window f
        rw [hfault'] at hfault
        exact ⟨.refl, f, hf, hfault, fun c hc => hnone c ((hperm hfault).symm.subset hc)⟩
      · rw [hfirst] at hr
        obtain ⟨hmem, hP⟩ := firstImprovement_answers hVP hfirst
        obtain ⟨hreach, hmin⟩ := ih hr
        exact ⟨.head ⟨f, hf, mem_answered_of_ordered hmem, hP⟩ hreach, hmin⟩

end Whittle.Search
