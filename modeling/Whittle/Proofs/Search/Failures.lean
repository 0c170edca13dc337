import Whittle.Proofs.Search.Calls
import Whittle.Proofs.Search.Termination

/-!
# How searches fail

A search whose hooks do not raise may fail at its beginning only: because the first tree does not
have the property, because the path leads to no position of it, or because the window is not
positive. Once the first candidate is asked for, nothing is left that could fail, whatever the
hooks answer.
-/

namespace Whittle.Search

variable {σ ε : Type}

/-! ## Before the first candidate -/

theorem candidates_eq_error {t : Tree} {path : Path} {e : PathError} :
    candidates t path = .error e ↔ resolve t path = .error e := by
  unfold candidates
  cases resolve t path <;> simp [bind, Except.bind, pure, Except.pure]

/-- Why a pass may fail before it has a candidate: because of its path, and then because of its
window. -/
theorem passFeed_apply (path : Path) (window : Option Int) (best : Tree) (p : Progress σ) :
    (passFeed path window best : Searching σ ε _) p = (match candidates best path with
      | .error e => (.error (.path e), p)
      | .ok f => match window with
        | none => (.ok f, p)
        | some n => if n < 1 then (.error (.window n), p)
            else (.ok (reorder Tree.size n.toNat f), p)) := by
  simp only [passFeed]
  cases candidates best path with
  | error e => rfl
  | ok f =>
    cases window with
    | none => rfl
    | some n =>
      by_cases hn : n < 1
      · simp only [window?, if_pos hn]
        rfl
      · simp only [window?, if_neg hn]
        rfl

theorem passFeed_ne_raised (path : Path) (window : Option Int) (best : Tree) (p : Progress σ)
    (e : ε) : ((passFeed path window best : Searching σ ε _) p).1 ≠ .error (.raised e) := by
  rw [passFeed_apply]
  cases candidates best path with
  | error f => simp
  | ok f =>
    cases window with
    | none => simp
    | some n => by_cases hn : n < 1 <;> simp [hn]

/-! ## Hooks that do not raise -/

/-- No hook ever raises. -/
structure Hooks.Quiet (h : Hooks σ ε) : Prop where
  predicate : ∀ t w, ∃ b w', h.predicate t w = (.ok b, w')
  isValid : ∀ t w, ∃ b w', h.isValid t w = (.ok b, w')
  onCandidate : ∀ t w, ∃ w', h.onCandidate t w = (.ok (), w')
  onImproved : ∀ t w, ∃ w', h.onImproved t w = (.ok (), w')

variable {h : Hooks σ ε}

theorem firstImprovement_ne_raised (hq : h.Quiet) (f : Feed Tree EditFault Tree)
    (p : Progress σ) (e : ε) : (firstImprovement h f p).1 ≠ .error (.raised e) := by
  induction f generalizing p with
  | done => rintro ⟨⟩
  | failed f => rintro ⟨⟩
  | ask t next ih =>
    obtain ⟨b, w, hw⟩ := hq.isValid t p.world
    rw [firstImprovement_ask, hw]
    exact ih b _
  | yield c rest ih =>
    obtain ⟨w, hw⟩ := hq.onCandidate c p.world
    obtain ⟨b, w', hw'⟩ := hq.predicate c w
    rw [firstImprovement_yield, hw]
    simp only [hw']
    cases b with
    | false => exact ih _
    | true =>
      obtain ⟨w'', hw''⟩ := hq.onImproved c w'
      simp [hw'']

theorem passesFrom_ne_raised (hq : h.Quiet) (path : Path) (window : Option Int) (fuel : Nat)
    (best : Tree) (p : Progress σ) (e : ε) :
    (passesFrom h path window fuel best p).1 ≠ .error (.raised e) := by
  induction fuel generalizing best p with
  | zero => rintro ⟨⟩
  | succ fuel ih =>
    rw [passesFrom_succ]
    have hfeed := @passFeed_ne_raised σ ε path window best { p with passes := p.passes + 1 } e
    generalize (passFeed path window best : Searching σ ε _) _ = out at hfeed ⊢
    obtain ⟨e' | feed, q⟩ := out
    · simpa using hfeed
    have hfirst := firstImprovement_ne_raised hq feed { q with log := .pass q.passes :: q.log } e
    dsimp only
    generalize firstImprovement h feed _ = out at hfirst ⊢
    obtain ⟨e' | _ | better, q'⟩ := out
    · simpa using hfirst
    · rintro ⟨⟩
    · exact ih better q'

/-! ## Passes that fail -/

theorem passesFrom_noPath {path : Path} {best : Tree} {e : PathError}
    (hpath : resolve best path = .error e) (window : Option Int) {fuel : Nat} (hfuel : 0 < fuel)
    (p : Progress σ) : (passesFrom h path window fuel best p).1 = .error (.path e) := by
  obtain ⟨fuel, rfl⟩ := Nat.exists_eq_add_one.2 hfuel
  rw [passesFrom_succ, passFeed_apply, candidates_eq_error.2 hpath]

theorem passesFrom_noWindow {path : Path} {best : Tree} {f : Feed Tree EditFault Tree}
    (hf : candidates best path = .ok f) {n : Int} (hn : n < 1) {fuel : Nat} (hfuel : 0 < fuel)
    (p : Progress σ) : passesFrom h path (some n) fuel best p
      = (.error (.window n), { p with passes := p.passes + 1 }) := by
  obtain ⟨fuel, rfl⟩ := Nat.exists_eq_add_one.2 hfuel
  rw [passesFrom_succ, passFeed_apply, hf]
  simp only [if_pos hn]

theorem passBound_pos (t : Tree) : 0 < passBound t := Nat.succ_pos _

/-- What a search comes to whose predicate holds of the first tree: what its passes come to. -/
theorem result_of_holds {t : Tree} {world w : σ} (hw : h.predicate t world = (.ok true, w))
    (path : Path) (window : Option Int) : (reduce h path window t world).result =
      (passesFrom h path window (passBound t) t ⟨0, 0, 0, [.started t.sort path], w⟩).1 := by
  simp only [reduce]
  rw [search_apply, hw]
  dsimp only
  rcases passesFrom h path window (passBound t) t _ with ⟨e | r, p⟩ <;> rfl

/-- What a search comes to whose predicate does not hold of the first tree, and its only call. -/
theorem result_of_fails {t : Tree} {world w : σ} (hw : h.predicate t world = (.ok false, w))
    (path : Path) (window : Option Int) :
    (reduce h path window t world).result = .error .precondition ∧
      h.calls path window t world = [.predicate t (.ok false)] := by
  have hnoted : h.noted.predicate t (world, []) = (.ok false, w, [.predicate t (.ok false)]) := by
    show noting (.predicate t) (h.predicate t) (world, []) = _
    rw [noting, hw]
    rfl
  simp only [reduce, Hooks.calls, search_apply, hw, hnoted, and_self]

/-- Passes that have begun return a tree, if no hook raises. -/
theorem passesFrom_returns (hq : h.Quiet) {t : Tree} {path : Path} (ht : Searchable path t)
    {window : Option Int} (hw : WindowOk window) (p : Progress σ) :
    ∃ r, (passesFrom h path window (passBound t) t p).1 = .ok r := by
  have hfuel : t.weight < passBound t := by
    unfold passBound
    omega
  obtain ⟨⟨r, hr, -⟩ | ⟨e, he⟩, -⟩ :=
    passesFrom_end h (descends_searchable path) hw (passBound t) ht hfuel p
  · exact ⟨r, hr⟩
  · exact absurd he (passesFrom_ne_raised hq path window _ t p e)

/-- A search from a well-typed tree whose hooks do not raise fails for one of three reasons, which
are looked at in this order: the predicate does not hold of the first tree, and then nothing else
has been called; the path leads to no position of the first tree; the window is not positive. In
all other cases it returns a tree. -/
theorem reduce_failures {t : Tree} (ht : t.wellTyped = true) (hq : h.Quiet) (path : Path)
    (window : Option Int) (world : σ) :
    ((reduce h path window t world).result = .error .precondition ↔
      (h.predicate t world).1 = .ok false) ∧
    ((h.predicate t world).1 = .ok false →
      h.calls path window t world = [.predicate t (.ok false)]) ∧
    ((h.predicate t world).1 = .ok true →
      ((∃ e, (reduce h path window t world).result = .error (.path e)) ↔
        ¬ LeadsToPosition t path) ∧
      (LeadsToPosition t path →
        (∀ n, (reduce h path window t world).result = .error (.window n) ↔
          window = some n ∧ n < 1) ∧
        (WindowOk window → ∃ r, (reduce h path window t world).result = .ok r))) := by
  have hfit : t.IsFit true := (wellTyped_iff.1 ht).loosen
  obtain ⟨b, w, hw⟩ := hq.predicate t world
  cases b with
  | false =>
    obtain ⟨hresult, hcalls⟩ := result_of_fails hw path window
    rw [hw]
    exact ⟨iff_of_true hresult rfl, fun _ => hcalls, by simp⟩
  | true =>
    rw [hw, result_of_holds hw]
    generalize (⟨0, 0, 0, [.started t.sort path], w⟩ : Progress σ) = p
    by_cases hpath : LeadsToPosition t path
    · obtain ⟨r, hres⟩ := (resolves_iff hfit).2 hpath
      by_cases hwindow : WindowOk window
      · obtain ⟨s, hs⟩ := passesFrom_returns hq ⟨hfit, r, hres⟩ hwindow p
        rw [hs]
        refine ⟨by simp, by simp, fun _ => ⟨by simpa using hpath, fun _ => ⟨fun n => ?_, ?_⟩⟩⟩
        · refine ⟨by simp, ?_⟩
          rintro ⟨rfl, hn⟩
          exact absurd (hwindow n rfl) (by omega)
        · exact fun _ => ⟨s, rfl⟩
      · obtain ⟨n, rfl, hn⟩ : ∃ n, window = some n ∧ n < 1 := by
          simpa [WindowOk] using hwindow
        obtain ⟨f, hf, -⟩ := descends_searchable path t ⟨hfit, r, hres⟩
        rw [passesFrom_noWindow hf hn (passBound_pos t)]
        refine ⟨by simp, by simp, fun _ => ⟨by simpa using hpath, fun _ => ⟨fun m => ?_, ?_⟩⟩⟩
        · constructor
          · rintro ⟨⟩
            exact ⟨rfl, hn⟩
          · rintro ⟨⟨⟩, -⟩
            rfl
        · exact fun hok => absurd hok hwindow
    · obtain ⟨e, he⟩ : ∃ e, resolve t path = .error e := by
        cases hres : resolve t path with
        | error e => exact ⟨e, rfl⟩
        | ok r => exact absurd ((resolves_iff hfit).1 ⟨r, hres⟩) hpath
      rw [passesFrom_noPath he window (passBound_pos t)]
      exact ⟨by simp, by simp, fun _ => ⟨by simpa using hpath, fun h => absurd h hpath⟩⟩

theorem Hooks.quiet_ofTests (V P : Tree → Bool) : (Hooks.ofTests V P).Quiet :=
  ⟨fun t w => ⟨P t, w, rfl⟩, fun t w => ⟨V t, w, rfl⟩, fun _ w => ⟨w, rfl⟩, fun _ w => ⟨w, rfl⟩⟩

/-- Searches from a guarded throw for which every tree is valid: one for a loop, one below a path
that leads into a kind, one without a window, and one below the guard that returns. -/
theorem reduce_failures_guardedThrow :
    let loops := Hooks.ofTests (fun _ => true) (·.contains .whileStatement)
    let throws := Hooks.ofTests (fun _ => true) (·.contains .throwStatement)
    ((reduce loops [] none guardedThrow ()).result = .error .precondition ∧
      loops.calls [] none guardedThrow () = [.predicate guardedThrow (.ok false)]) ∧
    (∃ e, (reduce throws [.field "type"] none guardedThrow ()).result = .error (.path e)) ∧
    (reduce throws [] (some 0) guardedThrow ()).result = .error (.window 0) ∧
    ∃ r, (reduce throws [.field "statements", .index 0] (some 3) guardedThrow ()).result
      = .ok r := by
  intro loops throws
  have htyped : guardedThrow.wellTyped = true := by decide
  have hfit : guardedThrow.IsFit true := (wellTyped_iff.1 htyped).loosen
  have hloops : (loops.predicate guardedThrow ()).1 = .ok false := by rfl
  have hthrows : (throws.predicate guardedThrow ()).1 = .ok true := by rfl
  have hquiet : throws.Quiet := Hooks.quiet_ofTests ..
  obtain ⟨hprecondition, hcalls, -⟩ :=
    reduce_failures htyped (Hooks.quiet_ofTests ..) [] none () (h := loops)
  refine ⟨⟨hprecondition.2 hloops, hcalls hloops⟩, ?_, ?_, ?_⟩
  · obtain ⟨-, -, hrest⟩ := reduce_failures htyped hquiet [.field "type"] none ()
    refine (hrest hthrows).1.2 fun hpath => ?_
    obtain ⟨r, hr⟩ := (resolves_iff hfit).2 hpath
    cases hr
  · obtain ⟨-, -, hrest⟩ := reduce_failures htyped hquiet [] (some 0) ()
    have hroot : LeadsToPosition guardedThrow [] := (resolves_iff hfit).1 ⟨_, rfl⟩
    exact (((hrest hthrows).2 hroot).1 0).2 ⟨rfl, by decide⟩
  · obtain ⟨-, -, hrest⟩ :=
      reduce_failures htyped hquiet [.field "statements", .index 0] (some 3) ()
    have hguard : LeadsToPosition guardedThrow [.field "statements", .index 0] :=
      (resolves_iff hfit).1 ⟨_, rfl⟩
    exact ((hrest hthrows).2 hguard).2 (by simp [WindowOk])

end Whittle.Search
