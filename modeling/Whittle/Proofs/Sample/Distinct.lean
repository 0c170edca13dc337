import Whittle.Proofs.Double.Bounds
import Whittle.Proofs.Sample.Program
import Whittle.Proofs.Sample.Thrift

/-!
# Random programs use no name twice

The makers for any number of levels are thrifty, so a program spends what was handed out while
it was made, and the name of a default export once. Each name is handed out once.
-/

namespace Whittle

/-- The names of all bindings but default exports and all labels differ from each other, and at
most one binding is called like a default export. -/
def Tree.NamesDistinct (t : Tree) : Prop :=
  (t.boundNames.filter (· ≠ .str defaultExportName) ++ t.ownLabels).Nodup ∧
    t.boundNames.count (.str defaultExportName) ≤ 1

namespace Sample

variable {σ : Type} {rs : RandomSource σ} {v : Tree} {m : Makers σ} {levels : Nat}

theorem namesDistinct_of_uses {t : Tree} (h : ∀ v, uses v t ≤ 1) : t.NamesDistinct := by
  constructor
  · rw [List.nodup_iff_count_le_one]
    intro v
    have hfilter : (t.boundNames.filter (· ≠ .str defaultExportName)).count v
        ≤ t.boundNames.count v := List.filter_sublist.count_le v
    have hv := h v
    rw [uses] at hv
    rw [List.count_append]
    omega
  · have hdefault := h (.str defaultExportName)
    rw [uses] at hdefault
    omega

/-! ## Makers -/

theorem thrifty_makers (i : Nat) : Thrifty v (makers rs i) := by
  induction i with
  | zero =>
    have hleaves : Thrifty v ⟨fun _ _ => leaf rs, fun _ _ _ => leaf rs⟩ :=
      ⟨fun _ _ => spends_leaf, fun _ _ _ => spends_leaf⟩
    exact ⟨fun _ _ => spends_leaf, fun _ _ _ => spends_simpleStatement hleaves⟩
  | succ i ih =>
    constructor
    · intro levels c
      apply Spends.ite (ih.expression levels c)
      apply Spends.bind (spends_chance 30)
      intro isLeaf
      exact .ite spends_leaf (spends_compound ih)
    · intro levels c declarations
      exact .ite (ih.statement levels c declarations) (spends_compoundStatement ih declarations)

/-! ## Programs -/

section Programs

variable (hm : Thrifty v m)

include hm

theorem spends_script : Spends v 0 (script rs m levels) (uses v) := by
  have hrest : ∀ (strict : Bool) (directives : List Tree), Spends v (usesAll v directives) (do
      let n ← upTo rs 3
      let statements ← times (m.statement levels { strict } true) (n + 1)
      node .script [.list directives, .list statements]) (uses v) := by
    intro strict directives
    apply Spends.seq (spends_upTo 3)
    intro n
    apply Spends.seq (spends_timesTrees (hm.statement levels _ true) _)
    intro statements
    exact spends_plain rfl (by simp)
  apply Spends.bind (spends_chance 20)
  intro strict
  apply Spends.ite
  · have hdirective : Spends v 0 (node (σ := σ) .directive [.str "use strict"]) (uses v) :=
      spends_plain rfl (by simp)
    apply Spends.bind hdirective
    intro directive
    exact (hrest strict [directive]).more (by simp)
  · exact (hrest strict []).more (by simp)

/-- What the name of a default export costs. -/
def defaultCost (v : Tree) : Nat := [Tree.str defaultExportName].count v

theorem spends_exportDeclaration (c : Scene) :
    Spends v 0 (exportDeclaration rs m levels c) (uses v) := by
  apply Spends.bind spends_roll
  intro r
  apply Spends.ite (spends_functionDeclaration hm none)
  exact .ite (spends_classDeclaration hm none) (spends_variableDeclaration hm true)

theorem spends_exportDefaultBody (c : Scene) :
    Spends v (defaultCost v) (exportDefaultBody rs m levels c) (uses v) := by
  have hrest : ∀ (r : Double) (name : Option Tree), Spends v (nameCost v name)
      (if r.less (hundredths 40) then functionDeclaration rs m (levels - 1) c name
        else if r.less (hundredths 60) then classDeclaration rs m (levels - 1) c name
        else m.expression (levels - 1) c) (uses v) := by
    intro r name
    apply Spends.ite (spends_functionDeclaration hm name)
    apply Spends.ite (spends_classDeclaration hm name)
    exact (hm.expression (levels - 1) c).more (Nat.zero_le _)
  apply Spends.seq spends_roll
  intro r
  apply Spends.seq (spends_chance 50)
  intro isAnonymous
  apply Spends.ite
  · have hname : Spends v (defaultCost v)
        (node (σ := σ) .bindingIdentifier [.str defaultExportName]) (uses v) :=
      spends_node (by simp [uses_binding, defaultCost])
    apply Spends.bind hname
    intro name
    exact hrest r (some name)
  · exact (hrest r none).more (Nat.zero_le _)

/-- The credit is there for one default export, and is gone when there was one. -/
theorem spends_moduleItems (hasDefault : Bool) (i : Nat) :
    Spends v (if hasDefault then 0 else defaultCost v)
      (moduleItems rs m levels hasDefault i) (usesAll v) := by
  induction i generalizing hasDefault with
  | zero => exact .pure (by simp)
  | succ i ih =>
    have hcons : ∀ (hasDefault : Bool) (item : Tree),
        Spends v (uses v item + if hasDefault then 0 else defaultCost v)
          (do return item :: (← moduleItems rs m levels hasDefault i)) (usesAll v) := by
      intro hasDefault item
      apply Spends.bind ((ih hasDefault).frame (uses v item))
      intro items
      exact .pure (by simp)
    apply Spends.seq spends_roll
    intro r
    apply Spends.ite
    · apply Spends.seq (spends_exportDeclaration hm _)
      intro declaration
      apply Spends.bind ((spends_around rfl declaration).frame _)
      intro item
      exact (hcons hasDefault item).more (by omega)
    · by_cases hfirst : (r.less (hundredths 25) && !hasDefault) = true
      · obtain rfl : hasDefault = false := by simpa using (Bool.and_eq_true_iff.1 hfirst).2
        rw [if_pos hfirst]
        apply Spends.bind (spends_exportDefaultBody hm _)
        intro body
        apply Spends.bind (spends_around rfl body)
        intro item
        exact (hcons true item).more (by simp)
      · rw [if_neg hfirst]
        apply Spends.seq (hm.statement levels _ true)
        intro item
        exact (hcons hasDefault item).more (by omega)

theorem spends_moduleProgram : Spends v (defaultCost v) (moduleProgram rs m levels) (uses v) := by
  apply Spends.seq (spends_upTo 3)
  intro n
  apply Spends.bind (spends_moduleItems hm false _)
  intro items
  exact spends_plain rfl (by simp)

end Programs

/-- No word is used more than once in a program. -/
theorem uses_program {isModule : Bool} {maxDepth : Int} {s s' : σ} {t : Tree}
    (h : program rs isModule maxDepth s = (.ok t, s')) (v : Tree) : uses v t ≤ 1 := by
  have hcredit : ∀ k, defaultCost v + stamped v 0 k ≤ 1 := by
    intro k
    by_cases hdefault : v = .str defaultExportName
    · subst hdefault
      simp [defaultCost, stamped_default]
    · have hcost : defaultCost v = 0 := by
        rw [defaultCost, List.count_singleton, if_neg]
        simpa using Ne.symm hdefault
      rw [hcost, Nat.zero_add]
      exact stamped_le_one 0 k
  have hbound : ∀ g : Gen σ Tree, Spends v (defaultCost v) g (uses v) →
      (g ⟨s, 0⟩).1 = .ok t → uses v t ≤ 1 := by
    intro g hg ht
    obtain ⟨-, hle⟩ := hg ⟨s, 0⟩ t (g ⟨s, 0⟩).2 (Prod.ext ht rfl)
    exact hle.trans (hcredit _)
  have hresult : (program rs isModule maxDepth s).1 = .ok t := by rw [h]
  cases isModule with
  | true => exact hbound _ (spends_moduleProgram (thrifty_makers _)) hresult
  | false =>
    exact hbound _ ((spends_script (thrifty_makers _)).more (Nat.zero_le _)) hresult

/-! ## Sources -/

/-- The source answers as it should: its doubles are at least zero and less than one. -/
def IsRandom (rs : RandomSource σ) : Prop := ∀ s, (rs.unit s).1.IsFraction

theorem IsRandom.givesLiterals (h : IsRandom rs) : GivesLiterals rs := by
  intro s
  exact (h s).roundPlaces_scale

theorem isRandom_listed : IsRandom listed := by
  have hall : ∀ i : Fin 1000, (Double.ofRatio false i 1000).belowZero = false ∧
      (Double.ofRatio false i 1000).less (Double.ofNat 1) = true := by
    decide +kernel
  intro s
  have hlt : (s.state.headD 0 % 1000).toNat < 1000 := by omega
  exact hall ⟨_, hlt⟩

/-- There is a program, whatever the source answers. -/
theorem exists_program (h : IsRandom rs) (isModule : Bool) (maxDepth : Int) (s : σ) :
    ∃ t s', program rs isModule maxDepth s = (.ok t, s') := by
  obtain ⟨hm, hs⟩ := makes_makers h.givesLiterals maxDepth.toNat
  let levels := maxDepth.toNat
  cases isModule with
  | true =>
    have hyields : Yields 0 (moduleProgram rs (makers rs levels) levels) _ :=
      yields_moduleProgram hm hs
    obtain ⟨t, stock, heq, -⟩ := hyields ⟨s, 0⟩ le_rfl
    exact ⟨t, stock.source, by simp [program, levels, heq]⟩
  | false =>
    have hyields : Yields 0 (script rs (makers rs levels) levels) _ := yields_script hs
    obtain ⟨t, stock, heq, -⟩ := hyields ⟨s, 0⟩ le_rfl
    exact ⟨t, stock.source, by simp [program, levels, heq]⟩

/-- Whatever the source answers, there is a program, and it uses no name twice. -/
theorem program_namesDistinct (h : IsRandom rs) (isModule : Bool) (maxDepth : Int) (s : σ) :
    ∃ t s', program rs isModule maxDepth s = (.ok t, s') ∧ t.NamesDistinct := by
  obtain ⟨t, s', heq⟩ := exists_program h isModule maxDepth s
  exact ⟨t, s', heq, namesDistinct_of_uses (uses_program heq)⟩

/-- A listed source leads to a module without a name that is used twice. -/
theorem program_namesDistinct_listed : IsRandom listed ∧ ∃ t s',
    program listed true 4 (draws [3, 1, 4, 1, 5, 9]) = (.ok t, s') ∧ t.NamesDistinct :=
  ⟨isRandom_listed, program_namesDistinct isRandom_listed true 4 (draws [3, 1, 4, 1, 5, 9])⟩

end Sample

end Whittle
