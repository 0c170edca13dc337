import Whittle.Proofs.Validity.Rules

/-!
# Trimmed trees are as clean

A trimmed tree breaks no rule that the tree did not break, and neither does it in a context
that asks for less.
-/

namespace Whittle

variable {c c' : Context}

/-- A node whose fields are trimmed breaks no rule of its own. -/
theorem nodeErrors_trims {k : Kind} {us vs : List Tree} (hc : Eases True c c')
    (hvs : TrimsFields k 0 us vs) (hk : Kept k us vs) (h : nodeErrors c k us = some []) :
    nodeErrors c' k vs = some [] := by
  unfold nodeErrors at h
  split at h
  all_goals first | (cases h; done) | skip
  case h_1 | h_3 =>
    obtain _ | ⟨_, _ | ⟨hss, _ | _⟩⟩ := hvs
    obtain ⟨ss, rfl, hitems⟩ := (hss.trims rfl).list_inv
    exact scopeErrors_trims hitems h
  case h_2 =>
    obtain _ | ⟨_, _ | ⟨his, _ | _⟩⟩ := hvs
    obtain ⟨items, rfl, hitems⟩ := (his.trims rfl).list_inv
    obtain ⟨es, hes, h⟩ := Option.bind_eq_some_iff.1 h
    simp only [Option.pure_def, Option.some.injEq, List.append_eq_nil_iff] at h
    obtain ⟨rfl, hexports⟩ := h
    rw [nodeErrors, scopeErrors_trims hitems hes,
      Rules.defaultExports_trims hitems (fun h => h) hexports]
    rfl
  case h_4 | h_5 =>
    obtain _ | ⟨_, _ | ⟨_, _ | ⟨_, _ | ⟨hp, _ | ⟨hb, _ | _⟩⟩⟩⟩⟩ := hvs
    exact Rules.function_trims hc (hp.trims rfl) (hb.trims rfl) h
  case h_6 =>
    obtain _ | ⟨_, _ | ⟨hp, _ | ⟨hb, _ | _⟩⟩⟩ := hvs
    exact Rules.function_trims hc (hp.trims rfl) (hb.trims rfl) h
  case h_7 =>
    obtain _ | ⟨_, _ | ⟨_, _ | ⟨_, _ | ⟨hp, _ | ⟨hb, _ | _⟩⟩⟩⟩⟩ := hvs
    exact Rules.function_trims hc (hp.trims rfl) (hb.trims rfl) h
  case h_8 =>
    obtain _ | ⟨_, _ | ⟨hp, _ | ⟨hb, _ | _⟩⟩⟩ := hvs
    exact Rules.setter_trims (hp.trims rfl) (hb.trims rfl) h
  case h_9 =>
    obtain _ | ⟨hss, _ | _⟩ := hvs
    obtain ⟨ss, rfl, hitems⟩ := (hss.trims rfl).list_inv
    exact scopeErrors_trims hitems h
  case h_10 =>
    obtain _ | ⟨_, _ | ⟨hcs, _ | _⟩⟩ := hvs
    obtain ⟨cs, rfl, hitems⟩ := (hcs.trims rfl).list_inv
    exact Rules.switchErrors_trims hitems h
  case h_11 =>
    obtain _ | ⟨_, _ | ⟨hcs, _ | ⟨hd, _ | ⟨hcs', _ | _⟩⟩⟩⟩ := hvs
    obtain ⟨cs, rfl, hbefore⟩ := (hcs.trims rfl).list_inv
    obtain ⟨cs', rfl, hafter⟩ := (hcs'.trims rfl).list_inv
    exact Rules.switchErrors_trims (hbefore.append (.cons (hd.trims rfl) hafter)) h
  case h_12 =>
    obtain _ | ⟨hbinding, _ | ⟨hb, _ | _⟩⟩ := hvs
    exact Rules.catchParameter_trims (hbinding.trims rfl) (hb.trims rfl) h
  case h_13 =>
    obtain _ | ⟨hword, _ | ⟨hds, _ | _⟩⟩ := hvs
    obtain rfl := (hword.trims rfl).str_eq
    obtain ⟨ds, rfl, hitems⟩ := (hds.trims rfl).list_inv
    exact Rules.variableDeclaration_trims hitems hk h
  case h_14 =>
    obtain _ | ⟨_, _ | ⟨hcons, _ | ⟨halt, _ | _⟩⟩⟩ := hvs
    rw [append_eq_some_nil] at h
    rw [nodeErrors, append_eq_some_nil]
    exact ⟨Rules.singleStatement_trims (hcons.trims rfl) h.1,
      Rules.singleStatement_trims (halt.trims rfl) h.2⟩
  case h_15 =>
    obtain _ | ⟨hb, _ | ⟨_, _ | _⟩⟩ := hvs
    exact Rules.singleStatement_trims (hb.trims rfl) h
  case h_16 =>
    obtain _ | ⟨_, _ | ⟨hb, _ | _⟩⟩ := hvs
    exact Rules.singleStatement_trims (hb.trims rfl) h
  case h_17 =>
    obtain _ | ⟨hi, _ | ⟨_, _ | ⟨_, _ | ⟨hb, _ | _⟩⟩⟩⟩ := hvs
    rw [append_eq_some_nil] at h
    rw [nodeErrors, append_eq_some_nil]
    exact ⟨Rules.singleStatement_trims (hb.trims rfl) h.1,
      Rules.forHead_trims (hi.trims rfl) (hb.trims rfl) h.2⟩
  case h_18 =>
    obtain _ | ⟨hname, _ | ⟨hb, _ | _⟩⟩ := hvs
    obtain rfl := (hname.trims rfl).str_eq
    obtain ⟨es, hes, h⟩ := Option.bind_eq_some_iff.1 h
    simp only [Option.pure_def, Option.some.injEq, List.append_eq_nil_iff] at h
    obtain ⟨rfl, hlabel⟩ := h
    rw [nodeErrors, Rules.singleStatement_trims (hb.trims rfl) hes,
      Rules.label_eases hc hlabel]
    rfl
  case h_19 =>
    simp only [nodeErrors, Option.some.injEq, EarlyError.when_eq_nil, Bool.not_eq_false'] at h ⊢
    exact hc.inFunction h
  case h_20 =>
    simp only [nodeErrors, Option.some.injEq, EarlyError.when_eq_nil, Bool.not_eq_false'] at h ⊢
    exact hc.isAsync h
  case h_21 =>
    simp only [nodeErrors, Option.some.injEq, EarlyError.when_eq_nil, Bool.not_eq_false'] at h ⊢
    exact hc.isGenerator h
  case h_22 =>
    obtain _ | ⟨hop, _ | ⟨hoperand, _ | _⟩⟩ := hvs
    obtain rfl := (hop.trims rfl).str_eq
    have hstrict := hc.strict
    have hkind := (hoperand.trims rfl).isKind
      (show Kind.identifierExpression.isInert = false from rfl)
    simp only [nodeErrors, Option.some.injEq, EarlyError.when_eq_nil] at h ⊢
    by_contra hcond
    simp_all
  case h_23 label =>
    obtain _ | ⟨hlabel, _ | _⟩ := hvs
    have hleaf : label.isLeaf = true := by
      unfold Rules.breakStatement at h
      split at h <;> first | rfl | cases h
    rw [(hlabel.trims rfl).leaf_eq hleaf]
    exact Rules.breakStatement_eases hc h
  case h_24 label =>
    obtain _ | ⟨hlabel, _ | _⟩ := hvs
    have hleaf : label.isLeaf = true := by
      unfold Rules.continueStatement at h
      split at h <;> first | rfl | cases h
    rw [(hlabel.trims rfl).leaf_eq hleaf]
    exact Rules.continueStatement_eases hc h
  case h_25 =>
    obtain _ | ⟨hcallee, _ | ⟨_, _ | _⟩⟩ := hvs
    have hcall := hc.superCall
    have hkind := (hcallee.trims rfl).isKind (show Kind.super.isInert = false from rfl)
    simp only [nodeErrors, Option.some.injEq, EarlyError.when_eq_nil] at h ⊢
    by_contra hcond
    simp_all
  case h_26 | h_27 =>
    obtain _ | ⟨hobject, _ | ⟨_, _ | _⟩⟩ := hvs
    exact congrArg some (Rules.member_trims hc (hobject.trims rfl) (Option.some.inj h))
  case h_28 | h_29 =>
    obtain _ | ⟨hobject, _ | ⟨hproperty, _ | _⟩⟩ := hvs
    obtain rfl := (hproperty.trims rfl).str_eq
    simp only [nodeErrors, Option.some.injEq, List.append_eq_nil_iff] at h ⊢
    exact ⟨Rules.member_trims hc (hobject.trims rfl) h.1, h.2⟩
  case h_30 =>
    obtain _ | ⟨_, _ | ⟨hes, _ | _⟩⟩ := hvs
    obtain ⟨es, rfl, hitems⟩ := (hes.trims rfl).list_inv
    exact congrArg some (Rules.template_trims hitems hk (Option.some.inj h))
  case h_31 | h_32 =>
    obtain _ | ⟨_, _ | ⟨_, _ | ⟨hes, _ | _⟩⟩⟩ := hvs
    obtain ⟨es, rfl, hitems⟩ := (hes.trims rfl).list_inv
    exact Rules.classElements_trims hitems le_rfl h
  case h_33 =>
    obtain _ | ⟨hname, _ | _⟩ := hvs
    obtain rfl := (hname.trims rfl).str_eq
    exact congrArg some (Rules.binding_eases hc (Option.some.inj h))
  case h_34 | h_35 =>
    obtain _ | ⟨hname, _ | _⟩ := hvs
    obtain rfl := (hname.trims rfl).str_eq
    exact h
  case h_36 value =>
    obtain _ | ⟨hvalue, _ | _⟩ := hvs
    have hleaf : value.isLeaf = true := by
      unfold Rules.number at h
      split at h <;> first | rfl | cases h
    rw [(hvalue.trims rfl).leaf_eq hleaf]
    exact h
  case h_37 =>
    obtain _ | ⟨hpattern, _⟩ := hvs
    obtain rfl := (hpattern.trims rfl).str_eq
    exact h
  case h_72 =>
    cases k <;> first | rfl | contradiction

/-! ## Contexts of fields -/

theorem ofFunction_trims (hc : Eases True c c') {body body' : Tree} (hb : Trims body body')
    {inBody isAsync isGenerator superProperty superCall superCall' : Bool}
    (hcall : superCall = true → superCall' = true) {inner : Context}
    (h : c.ofFunction inBody isAsync isGenerator superProperty superCall body = some inner) :
    ∃ inner', c'.ofFunction inBody isAsync isGenerator superProperty superCall' body'
      = some inner' ∧ Eases True inner inner' := by
  obtain ⟨directive, hdirective, h⟩ := Option.bind_eq_some_iff.1 h
  cases h
  obtain ⟨directive', hdirective', hd⟩ := hasUseStrict?_trims hb directive hdirective
  refine ⟨_, by rw [Context.ofFunction, hdirective']; rfl, ?_⟩
  constructor
  case strict =>
    intro hstrict
    rcases Bool.or_eq_true_iff.1 hstrict with hstrict | hstrict
    · exact Bool.or_eq_true_iff.2 (.inl (hc.strict hstrict))
    · exact Bool.or_eq_true_iff.2 (.inr (hd hstrict))
  case superCall => exact hcall
  case labels => exact .nil
  all_goals exact id

theorem ofFlags_trims (hc : Eases True c c') {isAsync isAsync' isGenerator isGenerator' : Tree}
    (ha : Trims isAsync isAsync') (hg : Trims isGenerator isGenerator') {body body' : Tree}
    (hb : Trims body body') {inBody superProperty superCall superCall' : Bool}
    (hcall : superCall = true → superCall' = true) {inner : Context}
    (h : (do
      c.ofFunction inBody (← isAsync.flag?) (← isGenerator.flag?) superProperty superCall body)
        = some inner) :
    ∃ inner', (do
      c'.ofFunction inBody (← isAsync'.flag?) (← isGenerator'.flag?) superProperty superCall'
        body') = some inner' ∧ Eases True inner inner' := by
  obtain ⟨a, hasync, h⟩ := Option.bind_eq_some_iff.1 h
  obtain ⟨g, hgen, h⟩ := Option.bind_eq_some_iff.1 h
  obtain ⟨a', hasync', rfl⟩ := flag?_trims ha a hasync
  obtain ⟨g', hgen', rfl⟩ := flag?_trims hg g hgen
  rw [hasync', hgen']
  exact ofFunction_trims hc hb hcall h

theorem ofArrow_trims (hc : Eases True c c') {body body' : Tree} (hb : Trims body body')
    {inBody isAsync : Bool} {inner : Context} (h : c.ofArrow inBody isAsync body = some inner) :
    ∃ inner', c'.ofArrow inBody isAsync body' = some inner' ∧ Eases True inner inner' := by
  obtain ⟨directive, hdirective, h⟩ := Option.bind_eq_some_iff.1 h
  cases h
  obtain ⟨directive', hdirective', hd⟩ := hasUseStrict?_trims hb directive hdirective
  refine ⟨_, by rw [Context.ofArrow, hdirective']; rfl, ?_⟩
  constructor
  case strict =>
    intro hstrict
    rcases Bool.or_eq_true_iff.1 hstrict with hstrict | hstrict
    · exact Bool.or_eq_true_iff.2 (.inl (hc.strict hstrict))
    · exact Bool.or_eq_true_iff.2 (.inr (hd hstrict))
  case labels => exact .nil
  case superProperty => exact hc.superProperty
  case superCall => exact hc.superCall
  case derivedClass => exact hc.derivedClass
  case derivedConstructor => exact hc.derivedConstructor
  case defaultName => exact hc.defaultName
  all_goals exact id

theorem ofClass_trims (hc : Eases True c c') {isDeclaration : Bool} {superClass superClass' : Tree}
    (hs : Trims superClass superClass') (field : String) :
    Eases True (c.ofClass isDeclaration superClass field)
      (c'.ofClass isDeclaration superClass' field) := by
  have hinner : Eases True { c.inherited with strict := true }
      { c'.inherited with strict := true } := { hc.inherited with strict := id }
  unfold Context.ofClass
  dsimp only
  split
  · rw [hs.isAbsent_eq]
    exact { hinner with derivedClass := id }
  · split
    · exact { hinner with defaultName := hc.defaultName }
    · exact hinner

theorem ite_trims {p : Prop} [Decidable p] {x x' : Option Context} {d d' inner : Context}
    (hx : x = some inner → ∃ inner', x' = some inner' ∧ Eases True inner inner')
    (hd : Eases True d d') (h : (if p then x else some d) = some inner) :
    ∃ inner', (if p then x' else some d') = some inner' ∧ Eases True inner inner' := by
  by_cases hp : p
  · rw [if_pos hp] at h ⊢
    exact hx h
  · rw [if_neg hp] at h ⊢
    cases h
    exact ⟨d', rfl, hd⟩

/-- The fields of a trimmed node stand in contexts that ask for no more. Labels are a case of
their own. -/
theorem ofField_trims {k : Kind} {us vs : List Tree} (hc : Eases True c c')
    (hl : k ≠ .labeledStatement) (hvs : TrimsFields k 0 us vs) (hk : Kept k us vs)
    {field : String} {inner : Context} (h : c.ofField k us field = some inner) :
    ∃ inner', c'.ofField k vs field = some inner' ∧ Eases True inner inner' := by
  have hi := hc.inherited
  unfold Context.ofField at h
  dsimp only at h
  split at h
  all_goals first | (cases h; done) | skip
  case h_1 =>
    cases h
    exact ⟨_, rfl, { hi with strict := id }⟩
  case h_2 =>
    obtain ⟨strict, hstrict, h⟩ := Option.bind_eq_some_iff.1 h
    cases h
    obtain ⟨strict', hstrict', hle⟩ := hasUseStrict?_trims (.node hvs hk) strict hstrict
    exact ⟨{ c'.inherited with strict := strict' }, by rw [Context.ofField, hstrict']; rfl,
      { hi with strict := hle }⟩
  case h_3 =>
    obtain _ | ⟨ha, _ | ⟨hg, _ | ⟨_, _ | ⟨_, _ | ⟨hb, _ | _⟩⟩⟩⟩⟩ := hvs
    unfold Context.ofField
    dsimp only
    split at h
    · rename_i hfield
      rw [if_pos hfield]
      exact ofFlags_trims hi (ha.trims rfl) (hg.trims rfl) (hb.trims rfl) id h
    · rename_i hfield
      rw [if_neg hfield]
      refine ite_trims (fun hname => ?_) hi h
      cases hname
      exact ⟨_, rfl, { hi with defaultName := hc.defaultName }⟩
  case h_4 =>
    obtain _ | ⟨ha, _ | ⟨hg, _ | ⟨_, _ | ⟨_, _ | ⟨hb, _ | _⟩⟩⟩⟩⟩ := hvs
    exact ite_trims (ofFlags_trims hi (ha.trims rfl) (hg.trims rfl) (hb.trims rfl) id) hi h
  case h_5 =>
    obtain _ | ⟨ha, _ | ⟨hg, _ | ⟨_, _ | ⟨_, _ | ⟨hb, _ | _⟩⟩⟩⟩⟩ := hvs
    exact ite_trims (ofFlags_trims hi (ha.trims rfl) (hg.trims rfl) (hb.trims rfl)
      hc.derivedConstructor) hi h
  case h_6 =>
    obtain _ | ⟨_, _ | ⟨hb, _ | _⟩⟩ := hvs
    exact ite_trims (ofFunction_trims hi (hb.trims rfl) hc.derivedConstructor) hi h
  case h_7 =>
    obtain _ | ⟨_, _ | ⟨_, _ | ⟨hb, _ | _⟩⟩⟩ := hvs
    exact ite_trims (ofFunction_trims hi (hb.trims rfl) hc.derivedConstructor) hi h
  case h_8 =>
    obtain _ | ⟨ha, _ | ⟨_, _ | ⟨hb, _ | _⟩⟩⟩ := hvs
    refine ite_trims (fun h => ?_) hi h
    obtain ⟨a, hasync, h⟩ := Option.bind_eq_some_iff.1 h
    obtain ⟨a', hasync', rfl⟩ := flag?_trims (ha.trims rfl) a hasync
    rw [hasync']
    exact ofArrow_trims hi (hb.trims rfl) h
  case h_9 | h_10 =>
    obtain _ | ⟨_, _ | ⟨hs, _ | ⟨_, _ | _⟩⟩⟩ := hvs
    cases h
    exact ⟨_, rfl, ofClass_trims hc (hs.trims rfl) field⟩
  case h_11 =>
    obtain _ | ⟨hs, _ | ⟨hm, _ | _⟩⟩ := hvs
    obtain ⟨static, hstatic, h⟩ := Option.bind_eq_some_iff.1 h
    obtain ⟨constructor, hconstructor, h⟩ := Option.bind_eq_some_iff.1 h
    cases h
    obtain ⟨static', hstatic', rfl⟩ := flag?_trims (hs.trims rfl) static hstatic
    obtain ⟨constructor', hconstructor', rfl⟩ :=
      isConstructor?_trims (hm.trims rfl) constructor hconstructor
    refine ⟨{ c'.inherited with derivedConstructor := c'.derivedClass && !static && constructor },
      by rw [Context.ofField, hstatic', hconstructor']; rfl,
      { hi with derivedConstructor := ?_ }⟩
    intro hderived
    simp only [Bool.and_eq_true] at hderived ⊢
    exact ⟨⟨hc.derivedClass hderived.1.1, hderived.1.2⟩, hderived.2⟩
  case h_12 =>
    cases h
    exact ⟨_, rfl, { hi with defaultName := id }⟩
  case h_13 | h_14 | h_15 =>
    cases h
    refine ⟨_, rfl, { hi with inIteration := ?_ }⟩
    intro hloop
    exact Bool.or_eq_true_iff.2 ((Bool.or_eq_true_iff.1 hloop).imp_left hc.inIteration)
  case h_16 | h_17 =>
    cases h
    refine ⟨_, rfl, { hi with inSwitch := ?_ }⟩
    intro hswitch
    exact Bool.or_eq_true_iff.2 ((Bool.or_eq_true_iff.1 hswitch).imp_left hc.inSwitch)
  case h_18 => exact absurd rfl hl
  case h_29 =>
    cases h
    refine ⟨c'.inherited, ?_, hi⟩
    cases k <;> first | rfl | contradiction

/-! ## Whole trees -/

theorem losesLoop_labeled {label label' u v : Tree} :
    LosesLoop (.node .labeledStatement [label, u]) (.node .labeledStatement [label', v]) ↔
      LosesLoop u v := by
  simp only [LosesLoop, Tree.isLabelledLoop?]

/-- A node of which only the fields are trimmed is still a loop, except perhaps under a
label. -/
theorem not_losesLoop {k : Kind} {us vs : List Tree} (hk : k ≠ .labeledStatement) :
    ¬ LosesLoop (.node k us) (.node k vs) := by
  rintro ⟨hu, hv⟩
  unfold Tree.isLabelledLoop? at hu hv
  split at hu <;> split at hv <;> simp_all

/-- Values that are as clean as the fields of a node, in the same order. -/
def FieldsAsClean (us vs : List Tree) : Prop :=
  ∀ names : List String, ∀ n v, (n, v) ∈ names.zip vs → v.isLeaf = false →
    ∃ u, (n, u) ∈ names.zip us ∧ u.isLeaf = false ∧ AsClean u v

/-- The context of a labeled statement's body, whose label is a loop's if the body is one. -/
theorem ofField_labeled {keep : Prop} {label : String} {u v : Tree} (hc : Eases keep c c')
    (hkeep : ¬ LosesLoop u v → keep) (huv : Trims u v) {field : String} {inner : Context}
    (h : c.ofField .labeledStatement [.str label, u] field = some inner) :
    ∃ inner', c'.ofField .labeledStatement [.str label, v] field = some inner' ∧
      Eases (¬ LosesLoop u v) inner inner' := by
  obtain ⟨loop, hloop, h⟩ := Option.bind_eq_some_iff.1 h
  cases h
  obtain ⟨loop', hloop', hor⟩ := isLabelledLoop?_trims huv loop hloop
  have hi := (hc.mono hkeep).inherited
  refine ⟨{ c'.inherited with labels := c'.inherited.labels ++ [(label, loop')] }, ?_,
    { hi with labels := List.rel_append hi.labels (.cons ⟨rfl, ?_⟩ .nil) }⟩
  · rw [Context.ofField, hloop']
    rfl
  · intro hstays htrue
    rcases hor with ⟨hwas, hisnt⟩ | rfl
    · exact absurd ⟨by rw [hloop, hwas], by rw [hloop', hisnt]⟩ hstays
    · exact htrue

/-- A labeled statement whose fields are trimmed and clean is clean. -/
theorem AsClean.labeled {us vs : List Tree} (hvs : TrimsFields .labeledStatement 0 us vs)
    (hfields : FieldsAsClean us vs) :
    AsClean (.node .labeledStatement us) (.node .labeledStatement vs) := by
  intro c c' hc hu
  obtain ⟨herrors, hclean⟩ := clean_node.1 hu
  obtain ⟨label, body, rfl⟩ : ∃ label body, us = [.str label, body] := by
    rcases us with _ | ⟨label, us⟩
    · cases herrors
    · cases label with
      | str label =>
        rcases us with _ | ⟨body, _ | _⟩
        · cases herrors
        · exact ⟨label, body, rfl⟩
        · cases herrors
      | _ => cases herrors
  obtain ⟨body', rfl, htrims⟩ : ∃ body', vs = [.str label, body'] ∧ Trims body body' := by
    obtain _ | ⟨hlabel, _ | ⟨hbody, _ | _⟩⟩ := hvs
    obtain rfl := (hlabel.trims rfl).str_eq
    exact ⟨_, rfl, hbody.trims rfl⟩
  obtain ⟨es, hes, herrors⟩ := Option.bind_eq_some_iff.1 herrors
  simp only [Option.pure_def, Option.some.injEq, List.append_eq_nil_iff] at herrors
  obtain ⟨rfl, hlabels⟩ := herrors
  refine clean_node.2 ⟨?_, fun n v hmem hv => ?_⟩
  · rw [nodeErrors, Rules.singleStatement_trims htrims hes, Rules.label_eases hc hlabels]
    rfl
  · obtain ⟨u, humem, hu, hasClean⟩ := hfields _ n v hmem hv
    obtain ⟨inner, hinner, hinnerClean⟩ := hclean n u humem hu
    -- the field that holds more than a text is the body
    have hnames : Kind.labeledStatement.fieldNames = ["label", "body"] := rfl
    rw [hnames] at hmem humem
    obtain ⟨rfl, rfl⟩ : n = "body" ∧ v = body' := by
      rcases List.mem_cons.1 hmem with heq | hmem
      · cases heq
        cases hv
      · simpa using hmem
    obtain rfl : u = body := by simpa using humem
    have hkeep : ¬ LosesLoop u v → ¬ LosesLoop (.node .labeledStatement [.str label, u])
        (.node .labeledStatement [.str label, v]) := mt losesLoop_labeled.1
    obtain ⟨inner', hinner', heases⟩ := ofField_labeled hc hkeep htrims hinner
    exact ⟨inner', hinner', hasClean inner inner' heases hinnerClean⟩

/-- A node whose fields are trimmed and clean is clean. -/
theorem AsClean.node {k : Kind} {us vs : List Tree} (hvs : TrimsFields k 0 us vs)
    (hk : Kept k us vs) (hfields : FieldsAsClean us vs) :
    AsClean (.node k us) (.node k vs) := by
  by_cases hl : k = .labeledStatement
  · subst hl
    exact .labeled hvs hfields
  · intro c c' hc hu
    obtain ⟨herrors, hclean⟩ := clean_node.1 hu
    have hc : Eases True c c' := hc.mono fun _ => not_losesLoop hl
    refine clean_node.2 ⟨nodeErrors_trims hc hvs hk herrors, fun n v hmem hv => ?_⟩
    obtain ⟨u, humem, hu, huv⟩ := hfields _ n v hmem hv
    obtain ⟨inner, hinner, hclean⟩ := hclean n u humem hu
    obtain ⟨inner', hinner', heases⟩ := ofField_trims hc hl hvs hk hinner
    exact ⟨inner', hinner', huv inner inner' (heases.mono fun _ => trivial) hclean⟩

mutual
/-- A trimmed tree is as clean as the tree. -/
theorem Trims.asClean : ∀ {u v : Tree}, Trims u v → AsClean u v
  | _, _, .leaf _ hleaf => fun _ _ _ _ => clean_leaf hleaf
  | _, _, .list h => by
      intro c c' hc hu
      refine clean_list.2 fun k fields hmem => ?_
      obtain ⟨u, humem, htrims, huv⟩ := h.asClean _ hmem
      have hnode := htrims.isNode_eq
      cases u with
      | node l fs =>
        refine huv c c' (hc.mono fun _ hloses => ?_) (clean_list.1 hu l fs humem)
        cases hloses.1
      | _ => cases hnode
  | _, _, .node hvs hk => .node hvs hk hvs.asClean
  | _, _, .swap _ _ h => h

theorem TrimsItems.asClean : ∀ {us vs : List Tree}, TrimsItems us vs →
    ∀ v ∈ vs, ∃ u ∈ us, Trims u v ∧ AsClean u v
  | _, _, .nil => fun v hv => nomatch hv
  | _, _, .cons (u := u) h hs => by
      intro v hv
      rcases List.mem_cons.1 hv with rfl | hv
      · exact ⟨u, List.mem_cons_self, h, h.asClean⟩
      · obtain ⟨u', hu', h'⟩ := hs.asClean v hv
        exact ⟨u', List.mem_cons_of_mem _ hu', h'⟩
  | _, _, .drop hs => by
      intro v hv
      obtain ⟨u', hu', h'⟩ := hs.asClean v hv
      exact ⟨u', List.mem_cons_of_mem _ hu', h'⟩

theorem TrimsFields.asClean : ∀ {k : Kind} {i : Nat} {us vs : List Tree},
    TrimsFields k i us vs → FieldsAsClean us vs
  | _, _, _, _, .nil _ _ => by
      intro names n v hmem
      simp at hmem
  | _, _, _, _, .cons (u := u) h hs => by
      intro names n v hmem hv
      cases names with
      | nil => cases hmem
      | cons name names =>
        rcases List.mem_cons.1 hmem with heq | hmem
        · cases heq
          cases h with
          | keep h => exact ⟨u, List.mem_cons_self, h.isLeaf_eq.symm.trans hv, h.asClean⟩
          | lack _ => cases hv
        · obtain ⟨u', hu', hrest⟩ := hs.asClean names n v hmem hv
          exact ⟨u', List.mem_cons_of_mem _ hu', hrest⟩
end

end Whittle
