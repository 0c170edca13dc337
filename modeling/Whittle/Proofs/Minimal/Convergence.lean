import Whittle.Proofs.Minimal.Bound
import Whittle.Proofs.Minimal.Free
import Whittle.Proofs.Preservation
import Whittle.Proofs.Search.Termination

/-!
# Where searches end

A search from a valid script for nodes of some kind goes through valid scripts and ends at one
that is minimal for the kind. Where there is one minimal script only, the search ends there from
wherever it starts.
-/

namespace Whittle.Search

variable {T : Kind} {t c r : Tree}

/-! ## Searches that are answered by tests -/

/-- A search that is answered by tests, and that begins with a tree that passes, returns a local
minimum that it has reached by adopting candidates. -/
theorem exists_result {V P : Tree → Bool} {path : Path} {window : Option Int}
    {u : Tree × Option Position} (ht : t.IsFit true) (hP : P t = true)
    (hres : resolve t path = .ok u) (hw : WindowOk window) :
    ∃ r, (reduce (Hooks.ofTests V P) path window t ()).result = .ok r ∧
      Relation.ReflTransGen (Adopts V P path) t r ∧ LocalMinimum V P path r := by
  obtain ⟨hend, -⟩ := passesFrom_end (Hooks.ofTests V P) (descends_searchable path) hw
    (passBound t) ⟨ht, u, hres⟩ (by unfold passBound; omega)
    ⟨0, 0, 0, [.started t.sort path], ()⟩
  rcases hpass : passesFrom (Hooks.ofTests V P) path window (passBound t) t
    ⟨0, 0, 0, [.started t.sort path], ()⟩ with ⟨e | r, p⟩
  · -- the tests do not raise
    rw [hpass] at hend
    rcases hend with ⟨r, hr, -⟩ | ⟨e', -⟩
    · cases hr
    · exact e'.elim
  · obtain ⟨hreach, hmin⟩ := passesFrom_answers (Hooks.answers_ofTests V P) hpass
    refine ⟨r, ?_, hreach, hmin⟩
    have hpred : (Hooks.ofTests V P).predicate t () = (.ok true, ()) := by
      rw [← hP]
      rfl
    simp only [reduce, search_apply, hpred, hpass]

/-! ## Searches for nodes of a kind -/

/-- A candidate for a script is a script. -/
theorem Adopts.isScript {V P : Tree → Bool} (h : Adopts V P [] t c) (ht : t.wellTyped = true)
    (hscript : t.isKind .script = true) : c.isKind .script = true := by
  obtain ⟨f, hf, hc, -⟩ := h
  obtain ⟨u, type, hres, rfl⟩ := candidates_eq_ok.1 hf
  cases hres
  obtain ⟨-, e, he, hwhole⟩ := mem_answered_judged hc
  obtain ⟨c', hc', hreplace⟩ := editedWhole_eq_ok.1 hwhole
  cases hreplace
  obtain ⟨c'', hc'', -, hroot⟩ := (edits_editedTo ht).2 e he
  cases hc'.symm.trans hc''
  exact hroot .script (.inl rfl) hscript

/-- A valid program that no candidate improves on is minimal. -/
theorem LocalMinimum.minimal (hmin : LocalMinimum Tree.isValid (·.contains T) [] t)
    (hvalid : t.isValid = true) (hT : t.contains T = true) : Minimal T t := by
  refine ⟨hvalid, hT, fun e he c hc hcvalid => ?_⟩
  obtain ⟨f, hf, hfault, hnone⟩ := hmin
  obtain ⟨u, type, hres, rfl⟩ := candidates_eq_ok.1 hf
  cases hres
  refine hnone c (mem_answered_judged_of hfault he ?_ hcvalid)
  exact editedWhole_eq_ok.2 ⟨c, hc, rfl⟩

/-- A valid script in which nodes of a kind occur. -/
structure ScriptWith (T : Kind) (t : Tree) : Prop where
  valid : t.isValid = true
  script : t.isKind .script = true
  contains : t.contains T = true

theorem ScriptWith.wellTyped (h : ScriptWith T t) : t.wellTyped = true :=
  wellTyped_iff.2 (isValid_iff.1 h.valid).1

/-- A search goes from scripts to scripts. -/
theorem ScriptWith.adopts (h : ScriptWith T t)
    (hreach : Relation.ReflTransGen (Adopts Tree.isValid (·.contains T) []) t r) :
    ScriptWith T r := by
  induction hreach with
  | refl => exact h
  | tail _ hstep ih =>
    obtain ⟨hvalid, hT, -⟩ := hstep.replace
    exact ⟨hvalid, hstep.isScript ih.wellTyped ih.script, hT⟩

/-- The test for nodes of a kind among valid programs, with nothing else to it. -/
def finding (T : Kind) : Hooks Unit Empty := .ofTests Tree.isValid (·.contains T)

/-- Where there is one minimal script, every search ends there, and it is the one local
minimum. -/
theorem reduce_eq {m : Tree} (hm : ∀ r, Minimal T r → r.isKind .script = true → r = m)
    {window : Option Int} (hw : WindowOk window) (h : ScriptWith T t) :
    (reduce (finding T) [] window t ()).result = .ok m ∧
      (LocalMinimum Tree.isValid (·.contains T) [] t ↔ t = m) := by
  have hresult : ∀ {t}, ScriptWith T t →
      (reduce (finding T) [] window t ()).result = .ok m ∧
        LocalMinimum Tree.isValid (·.contains T) [] m := by
    intro t h
    have ht : t.IsFit true := (wellTyped_iff.1 h.wellTyped).loosen
    obtain ⟨r, hr, hreach, hmin⟩ := @exists_result _ Tree.isValid (·.contains T) [] _ _ ht
      h.contains rfl hw
    have hscript := h.adopts hreach
    obtain rfl := hm r (hmin.minimal hscript.valid hscript.contains) hscript.script
    exact ⟨hr, hmin⟩
  obtain ⟨hr, hmin⟩ := hresult h
  refine ⟨hr, fun ht => ?_, fun ht => ht ▸ hmin⟩
  exact hm t (ht.minimal h.valid h.contains) h.script

/-- The search for a `throw` statement, a string or a template in a script ends at the smallest
script with one, whatever the script and the window. No other script with one is a local
minimum. -/
theorem reduce_free {m : Tree} (hT : freeProgram T = some m) {window : Option Int}
    (hw : WindowOk window) (h : ScriptWith T t) :
    (reduce (finding T) [] window t ()).result = .ok m ∧
      (LocalMinimum Tree.isValid (·.contains T) [] t ↔ t = m) := by
  refine reduce_eq (fun r hr hscript => ?_) hw h
  have hfree := hr.freeProgram_eq (by rw [hT]; rfl) hscript
  exact Option.some.inj (hfree.symm.trans hT)

/-- The search for the `throw` in a guarded one. -/
theorem reduce_free_guardedThrow :
    ScriptWith .throwStatement guardedThrow ∧ freeProgram .throwStatement = some throwNull ∧
      (reduce (finding .throwStatement) [] (some 2) guardedThrow ()).result = .ok throwNull ∧
      ¬ LocalMinimum Tree.isValid (·.contains .throwStatement) [] guardedThrow := by
  have h : ScriptWith .throwStatement guardedThrow :=
    ⟨by decide +kernel, by decide, by decide⟩
  have hw : WindowOk (some 2) := by
    intro n hn
    cases hn
    decide
  obtain ⟨hr, hmin⟩ := reduce_free (m := throwNull) rfl hw h
  refine ⟨h, rfl, hr, fun hlocal => ?_⟩
  have heq : guardedThrow = throwNull := hmin.1 hlocal
  cases heq

/-- The search for a `return` or an `await` in a script ends at the smallest script with one,
whatever the script and the window. No other script with one is a local minimum. -/
theorem reduce_bound {m : Tree} (hT : boundProgram T = some m) {window : Option Int}
    (hw : WindowOk window) (h : ScriptWith T t) :
    (reduce (finding T) [] window t ()).result = .ok m ∧
      (LocalMinimum Tree.isValid (·.contains T) [] t ↔ t = m) := by
  refine reduce_eq (fun r hr hscript => ?_) hw h
  have hbound := hr.boundProgram_eq (by rw [hT]; rfl) hscript
  exact Option.some.inj (hbound.symm.trans hT)

/-- The program `class C { set [this](x = super.y) { return this } }`. -/
def returningSetter : Tree :=
  .node .script [.list [], .list [.node .classDeclaration
    [.node .bindingIdentifier [.str "C"], .absent, .list [.node .classElement [.bool false,
      .node .setter [.node .computedPropertyName [.node .thisExpression []],
        .node .bindingWithDefault [.node .bindingIdentifier [.str "x"],
          .node .staticMemberExpression [.node .super [], .str "y"]],
        .node .functionBody [.list [], .list [
          .node .returnStatement [.node .thisExpression []]]]]]]]]]

/-- The search for the `return` of a setter in a class. -/
theorem reduce_bound_returningSetter :
    ScriptWith .returnStatement returningSetter ∧
      ∃ m, boundProgram .returnStatement = some m ∧
        (reduce (finding .returnStatement) [] (some 2) returningSetter ()).result = .ok m ∧
        ¬ LocalMinimum Tree.isValid (·.contains .returnStatement) [] returningSetter := by
  have h : ScriptWith .returnStatement returningSetter :=
    ⟨by decide +kernel, by decide, by decide⟩
  have hw : WindowOk (some 2) := by
    intro n hn
    cases hn
    decide
  obtain ⟨hr, hmin⟩ := reduce_bound rfl hw h
  refine ⟨h, _, rfl, hr, fun hlocal => ?_⟩
  have heq := hmin.1 hlocal
  cases heq

end Whittle.Search
