import Whittle.Proofs.Lens

/-!
# Laws of reading and replacing

Reading and replacing fail on the same paths, with the same error, which names the shortest
beginning of the path that leads nowhere. Where they do not fail they obey the laws of a lens,
and two paths that part from each other do not disturb each other.
-/

namespace Whittle

/-- The two paths have different steps at some position that both of them have. -/
def Path.Differ (p q : Path) : Prop :=
  ∃ (i : Nat) (s s' : Step), p[i]? = some s ∧ q[i]? = some s' ∧ s ≠ s'

/-- A path that leads through what another path leads to has the error of its rest seen from
further up. -/
def PathError.below (p : Path) (e : PathError) : PathError := { e with path := p ++ e.path }

/-- Paths that differ have a common beginning and go on with different steps. -/
theorem Path.Differ.split {p q : Path} (h : p.Differ q) :
    ∃ r s s' p' q', s ≠ s' ∧ p = r ++ s :: p' ∧ q = r ++ s' :: q' := by
  obtain ⟨i, s, s', hs, hs', hne⟩ := h
  induction p generalizing q i with
  | nil => simp at hs
  | cons a p ih =>
    cases q with
    | nil => simp at hs'
    | cons b q =>
      by_cases hab : a = b
      · subst hab
        cases i with
        | zero =>
          rw [List.getElem?_cons_zero] at hs hs'
          exact absurd (Option.some.inj (hs.symm.trans hs')) hne
        | succ i =>
          obtain ⟨r, x, x', p', q', hx, rfl, rfl⟩ := ih i hs hs'
          exact ⟨a :: r, x, x', p', q', hx, rfl, rfl⟩
      -- the paths part at once
      · exact ⟨[], a, b, p, q, hab, rfl, rfl⟩

/-- The error is about the shortest beginning of a path that does not resolve. -/
structure FailsFirst (t : Tree) (p : Path) (e : PathError) : Prop where
  begins : e.path <+: p
  fails : t.get e.path = .error e
  resolves : ∀ q, q <+: p → q.length < e.path.length → ∃ u, t.get q = .ok u

namespace Tree

/-! ## Failures -/

/-- The first step that does not resolve is the one that the error ends with. -/
theorem failsFirst_of_get {t : Tree} {p : Path} {e : PathError} (h : t.get p = .error e) :
    FailsFirst t p e := by
  induction p generalizing t e with
  | nil => cases h
  | cons s p ih =>
    cases hc : t.childAt s with
    | error f =>
      have hget : ∀ q, t.get (s :: q) = .error f := by
        intro q
        simp [get, hc, bind, Except.bind]
      obtain rfl : f = e := Except.error.inj ((hget p).symm.trans h)
      obtain ⟨g, rfl⟩ : ∃ g, f = ⟨g, [s]⟩ := by
        cases hchild : t.child s with
        | error g => exact ⟨g, by simpa [childAt, hchild, Except.mapError] using hc.symm⟩
        | ok c => simp [childAt, hchild, Except.mapError] at hc
      -- only the empty path is shorter than the step that fails
      refine ⟨⟨p, rfl⟩, hget [], ?_⟩
      intro q _ hlt
      obtain rfl : q = [] := by simpa using hlt
      exact ⟨t, rfl⟩
    | ok c =>
      rw [get_cons hc] at h
      cases hg : c.get p with
      | ok u => simp [hg, Except.mapError] at h
      | error f =>
        obtain rfl : f.under s = e := by simpa [hg, Except.mapError] using h
        have hf := ih hg
        refine ⟨List.cons_prefix_cons.2 ⟨rfl, hf.begins⟩, ?_, ?_⟩
        · show t.get (s :: f.path) = _
          rw [get_cons hc, hf.fails]
          rfl
        · intro q hq hlt
          cases q with
          | nil => exact ⟨t, rfl⟩
          | cons s' q =>
            obtain ⟨rfl, hq'⟩ := List.cons_prefix_cons.1 hq
            obtain ⟨u, hu⟩ := hf.resolves q hq' (Nat.lt_of_succ_lt_succ hlt)
            exact ⟨u, get_cons_eq_ok.2 ⟨c, hc, hu⟩⟩

/-- What cannot be read cannot be replaced, for the same reason. -/
theorem replace_of_get_error {t : Tree} {p : Path} {e : PathError} (h : t.get p = .error e)
    (v : Tree) : t.replace p v = .error e := by
  induction p generalizing t e with
  | nil => cases h
  | cons s p ih =>
    cases hc : t.childAt s with
    | error f => simpa [get, replace, hc, bind, Except.bind] using h
    | ok c =>
      rw [get_cons hc] at h
      cases hg : c.get p with
      | ok u => simp [hg, Except.mapError] at h
      | error f =>
        rw [replace_cons hc, ih hg]
        simpa [hg, Except.mapError, Except.map] using h

/-! ## Two parts of a path -/

/-- A replacement far down is a replacement of what the first part of the path leads to, also
where it fails. -/
theorem replace_append_eq {t u : Tree} {p : Path} (h : t.get p = .ok u) (q : Path) (v : Tree) :
    t.replace (p ++ q) v = ((u.replace q v).mapError (·.below p)).bind (t.replace p) := by
  cases hr : u.replace q v with
  | ok u' =>
    obtain ⟨t', ht'⟩ := exists_replace h u'
    rw [replace_append h hr ht']
    exact ht'.symm
  | error e =>
    -- the error passes every step of the first part on its way up
    show _ = Except.error _
    induction p generalizing t with
    | nil =>
      cases h
      exact hr
    | cons s p ih =>
      obtain ⟨c, hc, hg⟩ := get_cons_eq_ok.1 h
      rw [List.cons_append, replace_cons hc, ih hg]
      rfl

/-! ## Paths that part -/

/-- Different steps lead to different places. -/
theorem place_ne {t : Tree} {s s' : Step} {i j : Nat} (hs : s ≠ s') (hi : t.place s = .ok i)
    (hj : t.place s' = .ok j) : i ≠ j := by
  intro hij
  apply hs
  cases t with
  | list items =>
    cases s <;> cases s' <;> simp only [place] at hi hj <;> try contradiction
    split at hi <;> split at hj <;> try contradiction
    rename_i a b ha hb
    have hia : a.toNat = i := Except.ok.inj hi
    have hjb : b.toNat = j := Except.ok.inj hj
    congr 1
    omega
  | node k fields =>
    have hname : ∀ {r : Step} {l : Nat}, (Tree.node k fields).place r = .ok l →
        ∃ name, r = .field name ∧ k.fieldNames[l]? = some name := by
      intro r l hr
      cases r <;> simp only [place] at hr <;> try contradiction
      rename_i name
      split at hr <;> try contradiction
      rename_i m hm
      split at hr <;> try contradiction
      obtain rfl : m = l := Except.ok.inj hr
      obtain ⟨hlt, hget, -⟩ := List.idxOf?_eq_some_iff.1 hm
      exact ⟨name, rfl, List.getElem?_eq_some_iff.2 ⟨hlt, by simpa using hget⟩⟩
    obtain ⟨a, rfl, ha⟩ := hname hi
    obtain ⟨b, rfl, hb⟩ := hname hj
    rw [hij, hb] at ha
    rw [Option.some.inj ha]
  | _ => simp [place] at hi

/-- Another part at one step leaves what the other steps lead to, or why they lead nowhere. -/
theorem childAt_setChild_of_ne {s s' : Step} (hs : s ≠ s') (t v : Tree) :
    (t.setChild s v).childAt s' = t.childAt s' := by
  cases hi : t.place s with
  | error f => rw [setChild, hi]
  | ok i =>
    rw [childAt, child, childAt, child, place_setChild]
    cases hj : t.place s' with
    | error f => rfl
    | ok j =>
      have hne : i ≠ j := place_ne hs hi hj
      rw [setChild_of_place hi, parts_withParts (by simp)]
      simp [bind, Except.bind, hne]

theorem setChild_comm {s s' : Step} (hs : s ≠ s') (t v v' : Tree) :
    (t.setChild s v).setChild s' v' = (t.setChild s' v').setChild s v := by
  cases hi : t.place s with
  | error f =>
    have hi' : (t.setChild s' v').place s = .error f := (place_setChild ..).trans hi
    simp only [setChild, hi] at hi' ⊢
    rw [hi']
  | ok i =>
    cases hj : t.place s' with
    | error f =>
      have hj' : (t.setChild s v).place s' = .error f := (place_setChild ..).trans hj
      simp only [setChild, hj] at hj' ⊢
      rw [hj']
    | ok j =>
      have hne : i ≠ j := place_ne hs hi hj
      rw [setChild_of_place ((place_setChild ..).trans hj),
        setChild_of_place ((place_setChild ..).trans hi), setChild_of_place hi,
        setChild_of_place hj, withParts_withParts, withParts_withParts,
        parts_withParts (by simp), parts_withParts (by simp), List.set_comm _ _ hne]

/-- A replacement changes nothing off its path: what another path leads to, or why it leads
nowhere, stays. -/
theorem get_replace_of_differ {t t' v : Tree} {p q : Path} (hpq : p.Differ q)
    (h : t.replace p v = .ok t') : t'.get q = t.get q := by
  obtain ⟨r, s, s', p', q', hs, rfl, rfl⟩ := hpq.split
  clear hpq
  induction r generalizing t t' with
  | nil =>
    obtain ⟨c, c', hc, hr, rfl⟩ := replace_cons_eq_ok.1 h
    simp only [List.nil_append, get, childAt_setChild_of_ne hs]
  | cons a r ih =>
    obtain ⟨c, c', hc, hr, rfl⟩ := replace_cons_eq_ok.1 h
    rw [List.cons_append, get_cons hc, get_cons (childAt_setChild hc c'), ih hr]

/-- Replacements on paths that differ may change places. -/
theorem replace_comm_of_differ {t t₁ t₂ t' v w : Tree} {p q : Path} (hpq : p.Differ q)
    (h₁ : t.replace p v = .ok t₁) (h₂ : t.replace q w = .ok t₂) (h : t₁.replace q w = .ok t') :
    t₂.replace p v = .ok t' := by
  obtain ⟨r, s, s', p', q', hs, rfl, rfl⟩ := hpq.split
  clear hpq
  induction r generalizing t t₁ t₂ t' with
  | nil =>
    obtain ⟨c, c₁, hc, hr, rfl⟩ := replace_cons_eq_ok.1 h₁
    obtain ⟨d, d₂, hd, hr', rfl⟩ := replace_cons_eq_ok.1 h₂
    obtain ⟨e, e', he, hr'', rfl⟩ := replace_cons_eq_ok.1 h
    rw [childAt_setChild_of_ne hs, hd] at he
    cases he
    cases hr'.symm.trans hr''
    refine replace_cons_eq_ok.2 ⟨c, c₁, ?_, hr, setChild_comm hs t c₁ d₂⟩
    rw [childAt_setChild_of_ne hs.symm, hc]
  | cons a r ih =>
    obtain ⟨c, c₁, hc, hr, rfl⟩ := replace_cons_eq_ok.1 h₁
    obtain ⟨d, c₂, hd, hr', rfl⟩ := replace_cons_eq_ok.1 h₂
    cases hc.symm.trans hd
    obtain ⟨e, c', he, hr'', rfl⟩ := replace_cons_eq_ok.1 h
    rw [childAt_setChild hc] at he
    cases he
    refine replace_cons_eq_ok.2 ⟨c₂, c', childAt_setChild hc c₂, ih hr hr' hr'', ?_⟩
    rw [setChild_setChild, setChild_setChild]

/-! ## The laws -/

/-- What holds of reading and replacing at a path that leads to the value `u`. -/
structure IsLensAt (t : Tree) (p : Path) (u : Tree) : Prop where
  /-- What is put is what is read. -/
  get_put : ∀ v, ∃ t', t.replace p v = .ok t' ∧ t'.get p = .ok v
  /-- Putting back what was read changes nothing. -/
  put_get : t.replace p u = .ok t
  /-- Of two values put in turn the later one stays. -/
  put_put : ∀ v t', t.replace p v = .ok t' → ∀ w, t'.replace p w = t.replace p w
  /-- Below the path, the value at the path is replaced, and then put in its place. -/
  put_below : ∀ q v, t.replace (p ++ q) v
    = ((u.replace q v).mapError (·.below p)).bind (t.replace p)
  /-- What is read off the path stays. -/
  get_off : ∀ q w, p.Differ q → t.get q = .ok w →
    ∀ v t', t.replace p v = .ok t' → t'.get q = .ok w
  /-- Replacements at the path and off it may change places. -/
  put_off : ∀ q w, p.Differ q → t.get q = .ok w →
    ∀ v v', (t.replace p v).bind (·.replace q v') = (t.replace q v').bind (·.replace p v)

/-- Reading and replacing fail alike, at the shortest beginning of the path that leads nowhere;
elsewhere they are a lens. -/
theorem get_replace_lens (t : Tree) (p : Path) :
    (∀ e v, t.get p = .error e ↔ t.replace p v = .error e) ∧
    (∀ e, t.get p = .error e → FailsFirst t p e) ∧
    ∀ u, t.get p = .ok u → IsLensAt t p u := by
  refine ⟨?_, fun e he => failsFirst_of_get he, ?_⟩
  · intro e v
    constructor
    · intro he
      exact replace_of_get_error he v
    · intro he
      cases hg : t.get p with
      | ok u =>
        obtain ⟨t', ht'⟩ := exists_replace hg v
        cases ht'.symm.trans he
      | error f => exact (replace_of_get_error hg v).symm.trans he
  · intro u hu
    have hput := exists_replace hu
    refine ⟨?_, replace_get hu, ?_, fun q v => replace_append_eq hu q v, ?_, ?_⟩
    · intro v
      obtain ⟨t', ht'⟩ := hput v
      exact ⟨t', ht', get_replace ht'⟩
    · intro v t' ht' w
      obtain ⟨t'', ht''⟩ := hput w
      rw [ht'', replace_replace ht' ht'']
    · intro q w hpq hw v t' ht'
      rw [get_replace_of_differ hpq ht', hw]
    · intro q w hpq hw v v'
      obtain ⟨t₁, h₁⟩ := hput v
      obtain ⟨t₂, h₂⟩ := exists_replace hw v'
      have hread : t₁.get q = .ok w := (get_replace_of_differ hpq h₁).trans hw
      obtain ⟨t', h⟩ := exists_replace hread v'
      rw [h₁, h₂]
      show t₁.replace q v' = t₂.replace p v
      rw [h, replace_comm_of_differ hpq h₁ h₂ h]

/-- Two statements in a row: the first one is replaced, the second one stays and is replaced in
turn, and below a third one there is nothing to read or to replace. -/
theorem get_replace_lens_twoStatements :
    let pair (s s' : Kind) : Tree := .node .script [.list [], .list [.node s [], .node s' []]]
    let t := pair .emptyStatement .debuggerStatement
    let item (i : Int) : Path := [.field "statements", .index i]
    IsLensAt t (item 0) (.node .emptyStatement []) ∧
    t.replace (item 0) (.node .debuggerStatement [])
      = .ok (pair .debuggerStatement .debuggerStatement) ∧
    (pair .debuggerStatement .debuggerStatement).get (item 1)
      = .ok (.node .debuggerStatement []) ∧
    FailsFirst t (item 2 ++ [.field "label"]) ⟨.outOfRange 2 2, item 2⟩ ∧
    ∀ v, t.replace (item 2 ++ [.field "label"]) v = .error ⟨.outOfRange 2 2, item 2⟩ := by
  intro pair t item
  obtain ⟨-, -, hlens⟩ := get_replace_lens t (item 0)
  have h := hlens (.node .emptyStatement []) rfl
  have hput : t.replace (item 0) (.node .debuggerStatement [])
      = .ok (pair .debuggerStatement .debuggerStatement) := rfl
  have hoff : (item 0).Differ (item 1) := ⟨1, .index 0, .index 1, rfl, rfl, by decide⟩
  obtain ⟨hfail, hfirst, -⟩ := get_replace_lens t (item 2 ++ [.field "label"])
  exact ⟨h, hput, h.get_off _ _ hoff rfl _ _ hput, hfirst _ rfl, fun v => (hfail _ v).1 rfl⟩

end Tree

end Whittle
