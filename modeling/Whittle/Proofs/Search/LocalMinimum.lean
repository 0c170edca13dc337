import Whittle.Proofs.Lens
import Whittle.Proofs.Search.Passes

/-!
# Results of a search

A search that is answered by two tests and returns a tree returns one that the predicate
accepts, that is the first tree or accepted as valid, and that no candidate improves on.
Outside the path nothing has changed: with the old value put back at the path, the result
is the first tree again.
-/

namespace Whittle.Search

variable {σ ε : Type}

/-! ## Candidates under fixed answers -/

theorem editedWhole_eq_ok {t target c : Tree} {path : Path} {e : Edit} :
    editedWhole t target path e = .ok c ↔
      ∃ part, e.apply target = .ok part ∧ t.replace path part = .ok c := by
  unfold editedWhole
  cases e.apply target with
  | error f => simp [bind, Except.bind]
  | ok part =>
    cases h : t.replace path part <;> simp [bind, Except.bind, Except.mapError, h]

/-- What is yielded is accepted and comes of one of the edits. -/
theorem mem_answered_judged {V : Tree → Bool} {t target c : Tree} {path : Path}
    {fault : Option EditFault} {es : List Edit}
    (h : c ∈ ((judged t target path fault es).answered V).items) :
    V c = true ∧ ∃ e ∈ es, editedWhole t target path e = .ok c := by
  induction es with
  | nil => cases fault <;> simp [judged, Feed.answered] at h
  | cons e es ih =>
    rw [judged] at h
    cases hw : editedWhole t target path e with
    | error f => simp [hw, Feed.answered] at h
    | ok whole =>
      simp only [hw, Feed.answered] at h
      cases hV : V whole with
      | false =>
        obtain ⟨hc, d, hd, hdc⟩ := ih (by simpa [hV] using h)
        exact ⟨hc, d, List.mem_cons_of_mem _ hd, hdc⟩
      | true =>
        simp only [hV, if_true, Feed.answered, Series.items_cons, List.mem_cons] at h
        rcases h with rfl | h
        · exact ⟨hV, e, List.mem_cons_self, hw⟩
        · obtain ⟨hc, d, hd, hdc⟩ := ih h
          exact ⟨hc, d, List.mem_cons_of_mem _ hd, hdc⟩

/-- If nothing fails, what comes of an edit and is accepted is yielded. -/
theorem mem_answered_judged_of {V : Tree → Bool} {t target c : Tree} {path : Path}
    {fault : Option EditFault} {es : List Edit}
    (h : ((judged t target path fault es).answered V).fault = none) {e : Edit} (he : e ∈ es)
    (hc : editedWhole t target path e = .ok c) (hV : V c = true) :
    c ∈ ((judged t target path fault es).answered V).items := by
  induction es with
  | nil => cases he
  | cons d es ih =>
    rw [judged] at h ⊢
    cases hw : editedWhole t target path d with
    | error f => simp [hw, Feed.answered] at h
    | ok whole =>
      simp only [hw, Feed.answered] at h ⊢
      cases hVw : V whole with
      | false =>
        simp only [hVw, Bool.false_eq_true, if_false] at h ⊢
        rcases List.mem_cons.1 he with rfl | he
        · cases hw.symm.trans hc
          rw [hV] at hVw
          cases hVw
        · exact ih h he
      | true =>
        simp only [hVw, if_true, Feed.answered, Series.items_cons, Series.fault_cons,
          List.mem_cons] at h ⊢
        rcases List.mem_cons.1 he with rfl | he
        · cases hw.symm.trans hc
          exact .inl rfl
        · exact .inr (ih h he)

theorem candidates_eq_ok {t : Tree} {path : Path} {f : Feed Tree EditFault Tree} :
    candidates t path = .ok f ↔ ∃ u type, resolve t path = .ok (u, type) ∧
      f = judged t u path (edits type u).fault (edits type u).items := by
  unfold candidates
  cases h : resolve t path with
  | error e => simp [bind, Except.bind]
  | ok r =>
    obtain ⟨u, type⟩ := r
    simp [bind, Except.bind, pure, Except.pure, eq_comm]

/-- A candidate is accepted by both tests and differs from the tree at the path only. -/
theorem Adopts.replace {V P : Tree → Bool} {path : Path} {s c : Tree}
    (h : Adopts V P path s c) :
    V c = true ∧ P c = true ∧ ∃ v, s.replace path v = .ok c := by
  obtain ⟨f, hf, hc, hP⟩ := h
  obtain ⟨u, type, -, rfl⟩ := candidates_eq_ok.1 hf
  obtain ⟨hV, e, -, he⟩ := mem_answered_judged hc
  obtain ⟨part, -, hr⟩ := editedWhole_eq_ok.1 he
  exact ⟨hV, hP, part, hr⟩

/-- After any number of adopted candidates the value at the path is still the only
difference. -/
theorem replace_of_adopts {V P : Tree → Bool} {path : Path} {t r u : Tree}
    (hu : t.get path = .ok u) (h : Relation.ReflTransGen (Adopts V P path) t r) :
    (r = t ∨ V r = true ∧ P r = true) ∧ (∃ v, t.replace path v = .ok r) := by
  induction h with
  | refl => exact ⟨.inl rfl, u, Tree.replace_get hu⟩
  | tail _ hstep ih =>
    obtain ⟨-, v, hv⟩ := ih
    obtain ⟨hV, hP, w, hw⟩ := hstep.replace
    obtain ⟨t', ht'⟩ := Tree.exists_replace hu w
    have hback := Tree.replace_replace hv ht'
    cases hw.symm.trans hback
    exact ⟨.inr ⟨hV, hP⟩, w, ht'⟩

/-! ## The result -/

/-- The result of a search is accepted by the predicate; it is the first tree or valid; no
valid candidate for it is accepted by the predicate; and the path still leads to a position
of it, where the value of the first tree can be put back to give the first tree. -/
theorem localMinimum_of_reduce {h : Hooks σ ε} {V P : Tree → Bool} (hVP : h.Answers V P)
    {path : Path} {window : Option Int} {t r : Tree} {world : σ}
    (hr : (reduce h path window t world).result = .ok r) :
    P r = true ∧ (r = t ∨ V r = true) ∧
    (∃ f, candidates r path = .ok f ∧
      (collect (judgeBy V) none f ()).1.ending = .finished ∧
      ∀ c ∈ (collect (judgeBy V) none f ()).1.items, P c = false) ∧
    ∃ u, t.get path = .ok u ∧ r.replace path u = .ok t := by
  -- the search has come through its first call of the predicate and all of its passes
  have hsearch : ∃ p', search h path window t ⟨0, 0, 0, [], world⟩ = (.ok r, p') :=
    ⟨_, Prod.ext hr rfl⟩
  obtain ⟨p', hsearch⟩ := hsearch
  rw [search_apply] at hsearch
  have hpred := hVP.predicate t world
  rcases hw : h.predicate t world with ⟨e | _ | _, w⟩
  · rw [hw] at hsearch; cases hsearch
  · rw [hw] at hsearch; cases hsearch
  rw [hw] at hsearch hpred
  have hPt : P t = true := by simpa using hpred.symm
  dsimp only at hsearch
  rcases hp : passesFrom h path window (passBound t) t _ with ⟨e | r', p''⟩
  · rw [hp] at hsearch; cases hsearch
  rw [hp] at hsearch
  cases hsearch
  obtain ⟨hreach, f, hf, hfault, hmin⟩ := passesFrom_answers hVP hp
  -- the path resolves in the first tree, because the first pass has listed its candidates
  have hget : ∃ u, t.get path = .ok u := by
    rcases hreach.cases_head with rfl | ⟨c, ⟨g, hg, -⟩, -⟩
    · obtain ⟨u, type, hres, -⟩ := candidates_eq_ok.1 hf
      exact ⟨u, get_of_resolve hres⟩
    · obtain ⟨u, type, hres, -⟩ := candidates_eq_ok.1 hg
      exact ⟨u, get_of_resolve hres⟩
  obtain ⟨u, hu⟩ := hget
  obtain ⟨hor, v, hv⟩ := replace_of_adopts hu hreach
  obtain ⟨hitems, hending⟩ := collect_judgeBy V f
  refine ⟨?_, ?_, ⟨f, hf, ?_, ?_⟩, u, hu, ?_⟩
  · rcases hor with rfl | ⟨-, hP⟩
    · exact hPt
    · exact hP
  · rcases hor with rfl | ⟨hV, -⟩
    · exact .inl rfl
    · exact .inr hV
  · rw [hending, hfault]
  · rw [hitems]
    exact hmin
  · exact Tree.replace_replace hv (Tree.replace_get hu)

/-- Hooks that answer by two tests and do nothing else. -/
def Hooks.ofTests (V P : Tree → Bool) : Hooks Unit Empty where
  predicate t := pure (P t)
  isValid t := pure (V t)
  onCandidate _ := pure ()
  onImproved _ := pure ()

theorem Hooks.answers_ofTests (V P : Tree → Bool) : (Hooks.ofTests V P).Answers V P :=
  ⟨fun _ _ => rfl, fun _ _ => rfl⟩

/-- The program `if (this) throw this`. -/
def guardedThrow : Tree :=
  .node .script [.list [], .list [.node .ifStatement [.node .thisExpression [],
    .node .throwStatement [.node .thisExpression []], .absent]]]

/-- The program `throw null`. -/
def throwNull : Tree :=
  .node .script [.list [], .list [.node .throwStatement [.node .literalNullExpression []]]]

/-- What the search for a `throw` makes of a guarded one. -/
theorem localMinimum_of_reduce_guardedThrow :
    throwNull.contains .throwStatement = true ∧
    (throwNull = guardedThrow ∨ throwNull.isValid = true) ∧
    (∃ f, candidates throwNull [] = .ok f ∧
      (collect (judgeBy Tree.isValid) none f ()).1.ending = .finished ∧
      ∀ c ∈ (collect (judgeBy Tree.isValid) none f ()).1.items,
        c.contains .throwStatement = false) ∧
    ∃ u, guardedThrow.get [] = .ok u ∧ throwNull.replace [] u = .ok guardedThrow := by
  have hresult : (reduce (Hooks.ofTests Tree.isValid (·.contains .throwStatement)) [] none
      guardedThrow ()).result.toOption = some throwNull := by decide +kernel
  refine @localMinimum_of_reduce _ _ _ _ _ (Hooks.answers_ofTests Tree.isValid
    (·.contains .throwStatement)) [] none guardedThrow throwNull () ?_
  cases h : (reduce (Hooks.ofTests Tree.isValid (·.contains .throwStatement)) [] none
      guardedThrow ()).result with
  | error e => simp [h, Except.toOption] at hresult
  | ok r =>
    rw [h] at hresult
    cases hresult
    rfl

end Whittle.Search
