import Whittle.Proofs.Construction
import Whittle.Proofs.Validity.Rules

/-!
# Rules are defined on well-typed trees

Where a tree fits, all that the rules read of it is there: every rule has a value, and so does
the context of every field. So a valid program is one that is well-typed and clean.
-/

namespace Whittle

open Grammar Whittle.Language

variable {loose : Bool}

/-! ## Parts that fit -/

/-- What fits a type of nodes is a node of one of the kinds that the type takes. -/
theorem fitsType_kinds {t : TypeSpec} {ms : List (Head Kind)}
    (ht : positionOf t = some (.union ms)) (ks : List Kind)
    (hks : Kind.all.all (fun k => !(PositionType.union ms).takes k || ks.contains k) = true)
    {v : Tree} (h : FitsType loose t v) :
    ∃ k fields, v = .node k fields ∧ k ∈ ks ∧ FieldsFit loose k k.slots fields := by
  obtain ⟨k, fields, rfl, hk, hfields⟩ := (fitsType_union ht).1 h
  have hmem := Kind.forall_of_all hks k
  simp only [hk, Bool.not_true, Bool.false_or, List.contains_iff_mem] at hmem
  exact ⟨k, fields, rfl, hmem, hfields⟩

/-- A node that fits or nothing. -/
def IsPart (loose : Bool) (v : Tree) : Prop :=
  v = .absent ∨ ∃ k fields, v = .node k fields ∧ FieldsFit loose k k.slots fields

theorem isPart_of_union {t : TypeSpec} {ms : List (Head Kind)}
    (ht : positionOf t = some (.union ms)) {v : Tree} (h : FitsType loose t v) :
    ∃ k fields, v = .node k fields ∧ FieldsFit loose k k.slots fields := by
  obtain ⟨k, fields, rfl, -, hfields⟩ := (fitsType_union ht).1 h
  exact ⟨k, fields, rfl, hfields⟩

theorem isPart_of_maybe {t : TypeSpec} {ms : List (Head Kind)}
    (ht : positionOf t = some (.maybe (.union ms))) {v : Tree} (h : FitsType loose t v) :
    IsPart loose v := by
  rcases (fitsType_maybe ht).1 h with rfl | ⟨k, fields, rfl, -, hfields⟩
  · exact .inl rfl
  · exact .inr ⟨k, fields, rfl, hfields⟩

/-- Of a closed list of words, the texts among them. -/
theorem fitsType_enum {words : List String} {v : Tree} :
    FitsType loose (.enum words) v ↔ ∃ s ∈ words, v = .str s := by
  rw [fitsType_leaf rfl]
  cases v <;> simp [Spec.admits, Spec.admits?, Spec.enum, Spec.atom, Spec.hasMember]

theorem exists_of_enum {words : List String} {v : Tree} (h : FitsType loose (.enum words) v) :
    ∃ s, v = .str s := by
  obtain ⟨s, -, rfl⟩ := fitsType_enum.1 h
  exact ⟨s, rfl⟩

theorem exists_mapM_forall {α β : Type} {f : α → Option β} {P : β → Prop} {xs : List α}
    (h : ∀ x ∈ xs, ∃ y, f x = some y ∧ P y) : ∃ ys, xs.mapM f = some ys ∧ ∀ y ∈ ys, P y := by
  induction xs with
  | nil => exact ⟨[], rfl, by simp⟩
  | cons x xs ih =>
    obtain ⟨y, hy, hP⟩ := h x List.mem_cons_self
    obtain ⟨ys, hys, hPs⟩ := ih fun x' hx' => h x' (List.mem_cons_of_mem _ hx')
    exact ⟨y :: ys, by rw [List.mapM_cons, hy, hys]; rfl, List.forall_mem_cons.2 ⟨hP, hPs⟩⟩

theorem exists_mapM {α β : Type} {f : α → Option β} {xs : List α}
    (h : ∀ x ∈ xs, ∃ y, f x = some y) : ∃ ys, xs.mapM f = some ys := by
  obtain ⟨ys, hys, -⟩ := exists_mapM_forall (P := fun _ => True) fun x hx =>
    (h x hx).imp fun _ hy => ⟨hy, trivial⟩
  exact ⟨ys, hys⟩

/-! ## Names -/

theorem exists_bindingName? {v : Tree} (h : FitsType loose (.node .bindingIdentifier) v) :
    ∃ n, v.bindingName? = some n := by
  obtain ⟨fields, rfl, hfields⟩ := fitsType_node.1 h
  obtain ⟨name, rfl, hname⟩ := (fit_one rfl rfl).1 hfields
  obtain ⟨s, rfl⟩ := fitsType_string.1 hname
  exact ⟨s, rfl⟩

theorem fitsType_binding {v : Tree} :
    FitsType loose binding v ↔ FitsType loose (.node .bindingIdentifier) v := by
  have heq : positionOf binding = positionOf (.node .bindingIdentifier) := rfl
  unfold positionOf at heq
  unfold FitsType
  rw [heq]
  exact Iff.rfl

theorem exists_parameterName? {v : Tree} (h : FitsType loose parameter v) :
    ∃ n, v.parameterName? = some n := by
  obtain ⟨k, fields, rfl, hk, hfields⟩ :=
    fitsType_kinds rfl [.bindingIdentifier, .bindingWithDefault] (by decide) h
  simp only [List.mem_cons, List.not_mem_nil, or_false] at hk
  rcases hk with rfl | rfl
  · exact exists_bindingName? (fitsType_node.2 ⟨fields, rfl, hfields⟩)
  · obtain ⟨b, init, rfl, hb, -⟩ := (fit_two rfl rfl).1 hfields
    exact exists_bindingName? (fitsType_binding.1 hb)

theorem exists_parameterNames? {v : Tree} (h : FitsType loose (.node .formalParameters) v) :
    (∃ ns, v.parameterNames? = some ns) ∧ ∃ b, v.isSimple? = some b := by
  obtain ⟨fields, rfl, hfields⟩ := fitsType_node.1 h
  obtain ⟨list, rest, rfl, hlist, hrest⟩ := (fit_two rfl rfl).1 hfields
  obtain ⟨items, rfl, hitems⟩ := (fitsType_list rfl).1 hlist
  obtain ⟨ns, hns⟩ := exists_mapM fun v hv => exists_parameterName? (hitems v hv)
  refine ⟨?_, _, rfl⟩
  by_cases habsent : rest = .absent
  · subst habsent
    exact ⟨ns, hns⟩
  · have hbinding : FitsType loose (.node .bindingIdentifier) rest := by
      rcases (fitsType_maybe rfl).1 hrest with rfl | ⟨k, fs, rfl, hk, hfs⟩
      · exact absurd rfl habsent
      · exact fitsType_binding.1 ((fitsType_union rfl).2 ⟨k, fs, rfl, hk, hfs⟩)
    obtain ⟨n, hn⟩ := exists_bindingName? hbinding
    refine ⟨ns ++ [n], ?_⟩
    cases rest with
    | absent => exact absurd rfl habsent
    | _ => simp [Tree.parameterNames?, hns, hn]

theorem exists_declared? {fields : List Tree}
    (h : FieldsFit loose .variableDeclaration Kind.variableDeclaration.slots fields) :
    ∃ d, (Tree.node .variableDeclaration fields).declared? = some d := by
  obtain ⟨word, list, rfl, hword, hlist⟩ := (fit_two rfl rfl).1 h
  obtain ⟨ds, rfl, hds⟩ := (fitsType_list rfl).1 hlist
  obtain ⟨s, rfl⟩ := exists_of_enum hword
  refine (exists_mapM fun v hv => ?_).elim fun ns hns =>
    ⟨_, Option.bind_eq_some_iff.2 ⟨ns, hns, rfl⟩⟩
  obtain ⟨fs, rfl, hfs⟩ := fitsType_node.1 (hds v hv)
  obtain ⟨b, init, rfl, hb, -⟩ := (fit_two rfl rfl).1 hfs
  exact exists_bindingName? (fitsType_binding.1 hb)

theorem exists_letNames? {fields : List Tree}
    (h : FieldsFit loose .variableDeclaration Kind.variableDeclaration.slots fields) :
    (∃ ns, (Tree.node .variableDeclaration fields).letNames? = some ns) ∧
      ∃ ns, (Tree.node .variableDeclaration fields).varNames? = some ns := by
  obtain ⟨d, hd⟩ := exists_declared? h
  constructor
  · exact ⟨_, by rw [Tree.letNames?, hd]; rfl⟩
  · exact ⟨_, by rw [Tree.varNames?, hd]; rfl⟩

/-- What an export exports fits by itself. -/
theorem exists_unwrapExport? {k : Kind} {fields : List Tree}
    (h : FieldsFit loose k k.slots fields) :
    ∃ l fs, (Tree.node k fields).unwrapExport? = some (.node l fs) ∧
      FieldsFit loose l l.slots fs := by
  have hself : k.exports = false → (Tree.node k fields).unwrapExport? = some (.node k fields) := by
    intro hk
    unfold Tree.unwrapExport?
    split <;> simp_all [Kind.exports]
  by_cases hk : k.exports = true
  · obtain ⟨s, ms, hslots, hp⟩ : ∃ s ms, k.slots = [s] ∧ s.position = some (.union ms) := by
      cases k <;> first | exact ⟨_, _, rfl, rfl⟩ | cases hk
    obtain ⟨type, htype, hloosens⟩ := @loosens_slotPosition loose k s _ hp
    rw [hslots] at h
    obtain ⟨d, rfl⟩ : ∃ d, fields = [d] := List.length_eq_one_iff.1 h.length_eq
    have hd := h.1
    rw [htype] at hd
    obtain ⟨l, fs, rfl, hfs⟩ : ∃ l fs, d = .node l fs ∧ FieldsFit loose l l.slots fs := by
      obtain ⟨ms', rfl⟩ : ∃ ms', type = .union ms' := by
        obtain rfl | ⟨_, _, rfl⟩ := hloosens <;> exact ⟨_, rfl⟩
      cases d with
      | node l fs => exact ⟨l, fs, rfl, hd.2⟩
      | list items =>
        obtain ⟨_, heq, -⟩ := hd
        cases heq
      | absent => cases hd
      | _ => exact hd.elim
    refine ⟨l, fs, ?_, hfs⟩
    cases k <;> first | rfl | cases hk
  · exact ⟨k, fields, hself (by simpa using hk), h⟩

theorem exists_declarationName? {k : Kind} {fields : List Tree}
    (h : FieldsFit loose k k.slots fields)
    (hk : k = .functionDeclaration ∨ k = .classDeclaration) :
    ∃ n, (Tree.node k fields).declarationName? = some n := by
  rcases hk with rfl | rfl
  · obtain ⟨a, g, name, params, body, rfl, -, -, hname, -, -⟩ := (fit_five rfl rfl).1 h
    exact exists_bindingName? hname
  · obtain ⟨name, superClass, elements, rfl, hname, -, -⟩ := (fit_three rfl rfl).1 h
    exact exists_bindingName? hname

theorem exists_lexicalNames? (functionsAreVar : Bool) {k : Kind} {fields : List Tree}
    (h : FieldsFit loose k k.slots fields) :
    ∃ ns, (Tree.node k fields).lexicalNames? functionsAreVar = some ns := by
  obtain ⟨l, fs, hunwrap, hfs⟩ := exists_unwrapExport? h
  unfold Tree.lexicalNames?
  rw [hunwrap]
  simp only [Option.bind_eq_bind, Option.bind_some]
  split
  case h_1 heq =>
    cases heq
    obtain ⟨d, heq, hd⟩ := (fit_one rfl rfl).1 hfs
    cases heq
    obtain ⟨ds, rfl, hds⟩ := fitsType_node.1 hd
    exact (exists_letNames? hds).1
  case h_2 hshape heq =>
    cases heq
    obtain ⟨d, rfl, -⟩ := (fit_one rfl rfl).1 hfs
    exact (hshape d rfl).elim
  case h_3 heq =>
    cases heq
    exact (exists_letNames? hfs).1
  case h_4 heq =>
    cases heq
    obtain ⟨n, hn⟩ := exists_declarationName? hfs (.inr rfl)
    exact ⟨[n], by rw [hn]; rfl⟩
  case h_5 heq =>
    cases heq
    obtain ⟨n, hn⟩ := exists_declarationName? hfs (.inl rfl)
    cases functionsAreVar with
    | true => exact ⟨[], rfl⟩
    | false => exact ⟨[n], by rw [hn]; rfl⟩
  case h_6 => exact ⟨[], rfl⟩
  case h_7 hnode => exact (hnode _ _ rfl).elim

/-! ## Hoisted names -/

/-- What is needed of the parts of a statement for its hoisted names. -/
theorem exists_allHoistedNames? {items : List Tree}
    (h : ∀ v ∈ items, ∃ ns, v.hoistedNames? = some ns) :
    ∃ ns, Tree.allHoistedNames? items = some ns := by
  induction items with
  | nil => exact ⟨[], rfl⟩
  | cons v vs ih =>
    obtain ⟨ns, hns⟩ := h v List.mem_cons_self
    obtain ⟨ms, hms⟩ := ih fun v' hv' => h v' (List.mem_cons_of_mem _ hv')
    exact ⟨ns ++ ms, by rw [Tree.allHoistedNames?, hns, hms]; rfl⟩

theorem exists_hoistedNames?_step {k : Kind} {fields : List Tree}
    (h : FieldsFit loose k k.slots fields)
    (ih : ∀ l fs, sizeOf (Tree.node l fs) < sizeOf (Tree.node k fields) →
      FieldsFit loose l l.slots fs → ∃ ns, (Tree.node l fs).hoistedNames? = some ns) :
    ∃ ns, (Tree.node k fields).hoistedNames? = some ns := by
  have hpart : ∀ v ∈ fields, IsPart loose v → ∃ ns, v.hoistedNames? = some ns := by
    rintro v hv (rfl | ⟨l, fs, rfl, hfs⟩)
    · exact ⟨[], rfl⟩
    · have := List.sizeOf_lt_of_mem hv
      exact ih l fs (by simp only [Tree.node.sizeOf_spec] at this ⊢; omega) hfs
  have hitems : ∀ items, .list items ∈ fields → (∀ v ∈ items, IsPart loose v) →
      ∃ ns, Tree.allHoistedNames? items = some ns := by
    intro items hitems hv
    refine exists_allHoistedNames? fun v hv' => ?_
    rcases hv v hv' with rfl | ⟨l, fs, rfl, hfs⟩
    · exact ⟨[], rfl⟩
    · have hlt := List.sizeOf_lt_of_mem hitems
      have hlt' := List.sizeOf_lt_of_mem hv'
      refine ih l fs ?_ hfs
      simp only [Tree.node.sizeOf_spec, Tree.list.sizeOf_spec] at hlt hlt' ⊢
      omega
  have hnode : ∀ {t ms}, positionOf t = some (.union ms) → ∀ v ∈ fields, FitsType loose t v →
      ∃ ns, v.hoistedNames? = some ns :=
    fun ht v hv hfit => hpart v hv (.inr (isPart_of_union ht hfit))
  have hnodes : ∀ {t ms}, positionOf t = some (.union ms) → ∀ v ∈ fields,
      FitsType loose (.list t) v →
      ∃ items, v = .list items ∧ ∃ ns, Tree.allHoistedNames? items = some ns := by
    intro t ms ht v hv hfit
    obtain ⟨items, rfl, hfits⟩ := (fitsType_list ht).1 hfit
    exact ⟨items, rfl, hitems items hv fun w hw => .inr (isPart_of_union ht (hfits w hw))⟩
  by_cases hk : Tree.hoistingKinds.contains k = true
  swap
  · by_cases hd : k = .variableDeclaration
    · subst hd
      exact (exists_letNames? h).2
    · exact ⟨[], hoistedNames?_of_not_hoisting (by simpa using hk) hd fields⟩
  cases k
  case variableDeclarationStatement =>
    obtain ⟨d, rfl, hd⟩ := (fit_one rfl rfl).1 h
    obtain ⟨ds, rfl, hds⟩ := fitsType_node.1 hd
    exact (exists_letNames? hds).2
  case blockStatement =>
    obtain ⟨b, rfl, hb⟩ := (fit_one rfl rfl).1 h
    exact hnode rfl b (by simp) hb
  case block | switchDefault =>
    obtain ⟨list, rfl, hlist⟩ := (fit_one rfl rfl).1 h
    obtain ⟨items, rfl, hns⟩ := hnodes rfl list (by simp) hlist
    exact hns
  case ifStatement =>
    obtain ⟨test, c, a, rfl, -, hc, ha⟩ := (fit_three rfl rfl).1 h
    obtain ⟨ns, hns⟩ := hnode rfl c (by simp) hc
    obtain ⟨ms, hms⟩ := hpart a (by simp) (isPart_of_maybe rfl ha)
    exact ⟨ns ++ ms, by rw [Tree.hoistedNames?, hns, hms]; rfl⟩
  case doWhileStatement =>
    obtain ⟨b, test, rfl, hb, -⟩ := (fit_two rfl rfl).1 h
    exact hnode rfl b (by simp) hb
  case whileStatement | labeledStatement | catchClause =>
    obtain ⟨test, b, rfl, -, hb⟩ := (fit_two rfl rfl).1 h
    exact hnode rfl b (by simp) hb
  case forStatement =>
    obtain ⟨init, test, update, b, rfl, hi, -, -, hb⟩ := (fit_four rfl rfl).1 h
    obtain ⟨ns, hns⟩ := hpart init (by simp) (isPart_of_maybe rfl hi)
    obtain ⟨ms, hms⟩ := hnode rfl b (by simp) hb
    exact ⟨ns ++ ms, by rw [Tree.hoistedNames?, hns, hms]; rfl⟩
  case tryCatchStatement =>
    obtain ⟨b, c, rfl, hb, hc⟩ := (fit_two rfl rfl).1 h
    obtain ⟨ns, hns⟩ := hnode rfl b (by simp) hb
    obtain ⟨ms, hms⟩ := hnode rfl c (by simp) hc
    exact ⟨ns ++ ms, by rw [Tree.hoistedNames?, hns, hms]; rfl⟩
  case tryFinallyStatement =>
    obtain ⟨b, c, f, rfl, hb, hc, hf⟩ := (fit_three rfl rfl).1 h
    obtain ⟨ns, hns⟩ := hnode rfl b (by simp) hb
    obtain ⟨ms, hms⟩ := hpart c (by simp) (isPart_of_maybe rfl hc)
    obtain ⟨ls, hls⟩ := hnode rfl f (by simp) hf
    exact ⟨ns ++ ms ++ ls, by rw [Tree.hoistedNames?, hns, hms, hls]; rfl⟩
  case switchStatement | switchCase =>
    obtain ⟨test, list, rfl, -, hlist⟩ := (fit_two rfl rfl).1 h
    obtain ⟨items, rfl, hns⟩ := hnodes rfl list (by simp) hlist
    exact hns
  case switchStatementWithDefault =>
    obtain ⟨test, before, d, after, rfl, -, hbefore, hd, hafter⟩ := (fit_four rfl rfl).1 h
    obtain ⟨cs, rfl, ns, hns⟩ := hnodes rfl before (by simp) hbefore
    obtain ⟨ms, hms⟩ := hnode rfl d (by simp) hd
    obtain ⟨cs', rfl, ls, hls⟩ := hnodes rfl after (by simp) hafter
    exact ⟨ns ++ ms ++ ls, by rw [Tree.hoistedNames?, hns, hms, hls]; rfl⟩
  all_goals cases hk

theorem exists_hoistedNames? {k : Kind} {fields : List Tree}
    (h : FieldsFit loose k k.slots fields) :
    ∃ ns, (Tree.node k fields).hoistedNames? = some ns :=
  exists_hoistedNames?_step h fun _ _ hlt hfs =>
    have := hlt
    exists_hoistedNames? hfs
termination_by sizeOf (Tree.node k fields)
decreasing_by assumption

theorem exists_itemVarNames? (functionsAreVar : Bool) {k : Kind} {fields : List Tree}
    (h : FieldsFit loose k k.slots fields) :
    ∃ ns, (Tree.node k fields).itemVarNames? functionsAreVar = some ns := by
  obtain ⟨l, fs, hunwrap, hfs⟩ := exists_unwrapExport? h
  obtain ⟨ns, hns⟩ := exists_hoistedNames? hfs
  unfold Tree.itemVarNames?
  rw [hunwrap]
  simp only [Option.bind_eq_bind, Option.bind_some, hns]
  split
  · rename_i hcond
    have hl : l = .functionDeclaration := by
      simpa [Tree.isKind, Tree.kind?] using (Bool.and_eq_true_iff.1 hcond).2
    obtain ⟨n, hn⟩ := exists_declarationName? hfs (.inl hl)
    exact ⟨n :: ns, by rw [hn]; rfl⟩
  · exact ⟨ns, rfl⟩

theorem exists_lexicalNamesAll (functionsAreVar : Bool) {t : TypeSpec} {ms : List (Head Kind)}
    (ht : positionOf t = some (.union ms)) {items : List Tree}
    (h : ∀ v ∈ items, FitsType loose t v) :
    ∃ nss, items.mapM (·.lexicalNames? functionsAreVar) = some nss := by
  refine exists_mapM fun v hv => ?_
  obtain ⟨k, fields, rfl, hfields⟩ := isPart_of_union ht (h v hv)
  exact exists_lexicalNames? functionsAreVar hfields

/-- Items that are nodes that fit have their clashes. -/
theorem exists_scopeErrors (functionsAreVar : Bool) {t : TypeSpec} {ms : List (Head Kind)}
    (ht : positionOf t = some (.union ms)) {items : List Tree}
    (h : ∀ v ∈ items, FitsType loose t v) :
    ∃ es, scopeErrors functionsAreVar items = some es := by
  obtain ⟨nss, hnss⟩ := exists_lexicalNamesAll functionsAreVar ht h
  obtain ⟨mss, hmss⟩ := exists_mapM fun v hv => by
    obtain ⟨k, fields, rfl, hfields⟩ := isPart_of_union ht (h v hv)
    exact exists_itemVarNames? functionsAreVar hfields
  exact ⟨_, by rw [scopeErrors, hnss, hmss]; rfl⟩

/-! ## Contexts -/

theorem exists_anyStrict {v : Tree} (h : FitsType loose (.list (.node .directive)) v) :
    ∃ ds, v = .list ds ∧ ∃ bs, ds.mapM Tree.isStrictDirective? = some bs := by
  obtain ⟨ds, rfl, hds⟩ := (fitsType_list rfl).1 h
  refine ⟨ds, rfl, exists_mapM fun d hd => ?_⟩
  obtain ⟨fs, rfl, hfs⟩ := fitsType_node.1 (hds d hd)
  obtain ⟨raw, rfl, hraw⟩ := (fit_one rfl rfl).1 hfs
  obtain ⟨s, rfl⟩ := fitsType_string.1 hraw
  exact ⟨_, rfl⟩

theorem exists_hasUseStrict? {k : Kind} {fields : List Tree}
    (h : FieldsFit loose k k.slots fields) :
    ∃ b, (Tree.node k fields).hasUseStrict? = some b := by
  unfold Tree.hasUseStrict?
  split
  case h_1 heq =>
    cases heq
    obtain ⟨ds, ss, heq, hds, -⟩ := (fit_two rfl rfl).1 h
    cases heq
    obtain ⟨_, heq, bs, hbs⟩ := exists_anyStrict hds
    cases heq
    exact ⟨_, by rw [hbs]; rfl⟩
  case h_2 heq =>
    cases heq
    obtain ⟨ds, ss, heq, hds, -⟩ := (fit_two rfl rfl).1 h
    cases heq
    obtain ⟨_, heq, bs, hbs⟩ := exists_anyStrict hds
    cases heq
    exact ⟨_, by rw [hbs]; rfl⟩
  case h_3 hshape heq =>
    cases heq
    obtain ⟨list, ss, rfl, hds, -⟩ := (fit_two rfl rfl).1 h
    obtain ⟨ds, rfl, -⟩ := exists_anyStrict hds
    exact (hshape ds ss rfl).elim
  case h_4 hshape heq =>
    cases heq
    obtain ⟨list, ss, rfl, hds, -⟩ := (fit_two rfl rfl).1 h
    obtain ⟨ds, rfl, -⟩ := exists_anyStrict hds
    exact (hshape ds ss rfl).elim
  case h_5 => exact ⟨false, rfl⟩
  case h_6 hnode => exact (hnode _ _ rfl).elim

theorem exists_isLabelledLoop? {k : Kind} {fields : List Tree}
    (h : FieldsFit loose k k.slots fields) :
    ∃ b, (Tree.node k fields).isLabelledLoop? = some b := by
  by_cases hk : k = .labeledStatement
  · subst hk
    obtain ⟨label, body, rfl, -, hbody⟩ := (fit_two rfl rfl).1 h
    obtain ⟨l, fs, rfl, hfs⟩ := isPart_of_union rfl hbody
    rw [Tree.isLabelledLoop?]
    have hlt : sizeOf (Tree.node l fs)
        < sizeOf (Tree.node .labeledStatement [label, .node l fs]) := by
      simp only [Tree.node.sizeOf_spec, List.cons.sizeOf_spec]
      omega
    exact exists_isLabelledLoop? hfs
  · refine ⟨k.isLoop, ?_⟩
    unfold Tree.isLabelledLoop?
    split <;> simp_all
termination_by sizeOf (Tree.node k fields)
decreasing_by
  subst_vars
  assumption

/-- A method or accessor has a name, and the name is written out or not. -/
theorem exists_isStaticName? (s : String) {v : Tree} (h : FitsType loose methodDefinition v) :
    ∃ name, v.methodName? = some name ∧ ∃ b, name.isStaticName? s = some b := by
  have hname : ∀ name, FitsType loose propertyName name → ∃ b, name.isStaticName? s = some b := by
    intro name hname
    obtain ⟨k, fields, rfl, hk, hfields⟩ :=
      fitsType_kinds rfl [.computedPropertyName, .staticPropertyName] (by decide) hname
    simp only [List.mem_cons, List.not_mem_nil, or_false] at hk
    rcases hk with rfl | rfl
    · exact ⟨false, rfl⟩
    · obtain ⟨value, rfl, hvalue⟩ := (fit_one rfl rfl).1 hfields
      obtain ⟨text, rfl⟩ := fitsType_string.1 hvalue
      exact ⟨_, rfl⟩
  obtain ⟨k, fields, rfl, hk, hfields⟩ :=
    fitsType_kinds rfl [.method, .getter, .setter] (by decide) h
  simp only [List.mem_cons, List.not_mem_nil, or_false] at hk
  rcases hk with rfl | rfl | rfl
  · obtain ⟨a, g, name, params, body, rfl, -, -, hn, -, -⟩ := (fit_five rfl rfl).1 hfields
    exact ⟨name, rfl, hname name hn⟩
  · obtain ⟨name, body, rfl, hn, -⟩ := (fit_two rfl rfl).1 hfields
    exact ⟨name, rfl, hname name hn⟩
  · obtain ⟨name, param, body, rfl, hn, -, -⟩ := (fit_three rfl rfl).1 hfields
    exact ⟨name, rfl, hname name hn⟩

theorem exists_isConstructor? {v : Tree} (h : FitsType loose methodDefinition v) :
    ∃ b, v.isConstructor? = some b := by
  obtain ⟨name, hname, b, hb⟩ := exists_isStaticName? "constructor" h
  exact ⟨b, by rw [Tree.isConstructor?, hname]; exact hb⟩

theorem exists_ofFunction (c : Context) (inBody isAsync isGenerator superProperty superCall : Bool)
    {body : Tree} {t : TypeSpec} {ms : List (Head Kind)} (ht : positionOf t = some (.union ms))
    (hbody : FitsType loose t body) :
    ∃ inner, c.ofFunction inBody isAsync isGenerator superProperty superCall body
      = some inner := by
  obtain ⟨k, fields, rfl, hfields⟩ := isPart_of_union ht hbody
  obtain ⟨b, hb⟩ := exists_hasUseStrict? hfields
  exact ⟨_, by rw [Context.ofFunction, hb]; rfl⟩

theorem exists_ite {α : Type} {p : Prop} [Decidable p] {x y : Option α} (hx : ∃ a, x = some a)
    (hy : ∃ a, y = some a) : ∃ a, (if p then x else y) = some a := by
  split
  · exact hx
  · exact hy

/-- Every field of a node that fits has a context. -/
theorem exists_ofField (c : Context) {k : Kind} {fields : List Tree}
    (h : FieldsFit loose k k.slots fields) (name : String) :
    ∃ inner, c.ofField k fields name = some inner := by
  cases k
  case script =>
    obtain ⟨b, hb⟩ := exists_hasUseStrict? h
    exact ⟨{ c.inherited with strict := b }, by rw [Context.ofField, hb]; rfl⟩
  case functionDeclaration =>
    obtain ⟨a, g, n, params, body, rfl, ha, hg, -, -, hb⟩ := (fit_five rfl rfl).1 h
    obtain ⟨a, rfl⟩ := fitsType_boolean.1 ha
    obtain ⟨g, rfl⟩ := fitsType_boolean.1 hg
    exact exists_ite (exists_ofFunction _ _ _ _ _ _ rfl hb) (exists_ite ⟨_, rfl⟩ ⟨_, rfl⟩)
  case functionExpression =>
    obtain ⟨a, g, n, params, body, rfl, ha, hg, -, -, hb⟩ := (fit_five rfl rfl).1 h
    obtain ⟨a, rfl⟩ := fitsType_boolean.1 ha
    obtain ⟨g, rfl⟩ := fitsType_boolean.1 hg
    exact exists_ite (exists_ofFunction _ _ _ _ _ _ rfl hb) ⟨_, rfl⟩
  case method =>
    obtain ⟨a, g, n, params, body, rfl, ha, hg, -, -, hb⟩ := (fit_five rfl rfl).1 h
    obtain ⟨a, rfl⟩ := fitsType_boolean.1 ha
    obtain ⟨g, rfl⟩ := fitsType_boolean.1 hg
    exact exists_ite (exists_ofFunction _ _ _ _ _ _ rfl hb) ⟨_, rfl⟩
  case getter =>
    obtain ⟨n, body, rfl, -, hb⟩ := (fit_two rfl rfl).1 h
    exact exists_ite (exists_ofFunction _ _ _ _ _ _ rfl hb) ⟨_, rfl⟩
  case setter =>
    obtain ⟨n, param, body, rfl, -, -, hb⟩ := (fit_three rfl rfl).1 h
    exact exists_ite (exists_ofFunction _ _ _ _ _ _ rfl hb) ⟨_, rfl⟩
  case arrowExpression =>
    obtain ⟨a, params, body, rfl, ha, -, hb⟩ := (fit_three rfl rfl).1 h
    obtain ⟨a, rfl⟩ := fitsType_boolean.1 ha
    obtain ⟨l, fs, rfl, hfs⟩ := isPart_of_union rfl hb
    obtain ⟨b, hb⟩ := exists_hasUseStrict? hfs
    refine exists_ite ?_ ⟨_, rfl⟩
    simp only [Tree.flag?, Option.bind_eq_bind, Option.bind_some, Context.ofArrow, hb]
    exact ⟨_, rfl⟩
  case classDeclaration | classExpression =>
    obtain ⟨n, s, es, rfl, -, -, -⟩ := (fit_three rfl rfl).1 h
    exact ⟨_, rfl⟩
  case classElement =>
    obtain ⟨s, m, rfl, hs, hm⟩ := (fit_two rfl rfl).1 h
    obtain ⟨s, rfl⟩ := fitsType_boolean.1 hs
    obtain ⟨b, hb⟩ := exists_isConstructor? hm
    refine ⟨{ c.inherited with derivedConstructor := c.derivedClass && !s && b }, ?_⟩
    rw [Context.ofField, hb]
    rfl
  case labeledStatement =>
    obtain ⟨label, body, rfl, hl, hb⟩ := (fit_two rfl rfl).1 h
    obtain ⟨label, rfl⟩ := fitsType_string.1 hl
    obtain ⟨l, fs, rfl, hfs⟩ := isPart_of_union rfl hb
    obtain ⟨b, hb⟩ := exists_isLabelledLoop? hfs
    refine ⟨{ c.inherited with labels := c.inherited.labels ++ [(label, b)] }, ?_⟩
    rw [Context.ofField, hb]
    rfl
  all_goals exact ⟨_, rfl⟩

/-! ## Rules -/

namespace Rules

theorem exists_redeclared (names : List String) {k : Kind} {fields : List Tree}
    (h : FieldsFit loose k k.slots fields) :
    ∃ es, redeclared names (.node k fields) = some es := by
  by_cases hk : k = .functionBody
  · subst hk
    obtain ⟨ds, list, rfl, -, hlist⟩ := (fit_two rfl rfl).1 h
    obtain ⟨ss, rfl, hss⟩ := (fitsType_list rfl).1 hlist
    obtain ⟨nss, hnss⟩ := exists_lexicalNamesAll true rfl hss
    simp only [redeclared, hnss, Option.bind_eq_bind, Option.bind_some]
    exact ⟨_, rfl⟩
  · refine ⟨[], ?_⟩
    unfold redeclared
    split <;> simp_all

theorem exists_function (c : Context) (unique : Bool) {params body : Tree} {t : TypeSpec}
    {ms : List (Head Kind)} (ht : positionOf t = some (.union ms))
    (hp : FitsType loose (.node .formalParameters) params) (hb : FitsType loose t body) :
    ∃ es, function c unique params body = some es := by
  obtain ⟨⟨ns, hns⟩, simple, hsimple⟩ := exists_parameterNames? hp
  obtain ⟨k, fields, rfl, hfields⟩ := isPart_of_union ht hb
  obtain ⟨es, hes⟩ := exists_redeclared ns hfields
  obtain ⟨directive, hdirective⟩ := exists_hasUseStrict? hfields
  simp only [function, hns, hes, hsimple, hdirective, Option.bind_eq_bind, Option.bind_some]
  exact ⟨_, rfl⟩

theorem exists_setter {param body : Tree} (hp : FitsType loose parameter param)
    (hb : FitsType loose (.node .functionBody) body) : ∃ es, setter param body = some es := by
  obtain ⟨n, hn⟩ := exists_parameterName? hp
  obtain ⟨fields, rfl, hfields⟩ := fitsType_node.1 hb
  obtain ⟨es, hes⟩ := exists_redeclared [n] hfields
  obtain ⟨directive, hdirective⟩ := exists_hasUseStrict? hfields
  simp only [setter, hn, hes, hdirective, Option.bind_eq_bind, Option.bind_some]
  exact ⟨_, rfl⟩

theorem exists_caseStatements? {v : Tree}
    (h : FitsType loose (.node .switchCase) v ∨ FitsType loose (.node .switchDefault) v) :
    ∃ ss, v.caseStatements? = some ss ∧ ∀ s ∈ ss, FitsType loose statement s := by
  rcases h with h | h
  · obtain ⟨fields, rfl, hfields⟩ := fitsType_node.1 h
    obtain ⟨test, list, rfl, -, hlist⟩ := (fit_two rfl rfl).1 hfields
    obtain ⟨ss, rfl, hss⟩ := (fitsType_list rfl).1 hlist
    exact ⟨ss, rfl, hss⟩
  · obtain ⟨fields, rfl, hfields⟩ := fitsType_node.1 h
    obtain ⟨list, rfl, hlist⟩ := (fit_one rfl rfl).1 hfields
    obtain ⟨ss, rfl, hss⟩ := (fitsType_list rfl).1 hlist
    exact ⟨ss, rfl, hss⟩

theorem exists_switchErrors {items : List Tree}
    (h : ∀ v ∈ items, FitsType loose (.node .switchCase) v ∨
      FitsType loose (.node .switchDefault) v) :
    ∃ es, switchErrors items = some es := by
  obtain ⟨sss, hsss, hall⟩ := exists_mapM_forall fun v hv => exists_caseStatements? (h v hv)
  have hstatements : ∀ s ∈ sss.flatten, FitsType loose statement s := by
    intro s hs
    obtain ⟨ss, hss, hs⟩ := List.mem_flatten.1 hs
    exact hall ss hss s hs
  obtain ⟨es, hes⟩ := exists_scopeErrors false rfl hstatements
  exact ⟨es, by rw [switchErrors, hsss]; exact hes⟩

theorem exists_singleStatement (field : String) {v : Tree} (h : IsPart loose v) :
    ∃ es, singleStatement field v = some es := by
  rcases h with rfl | ⟨k, fields, rfl, hfields⟩
  · exact ⟨[], rfl⟩
  · by_cases hk : k = .variableDeclarationStatement
    · subst hk
      obtain ⟨d, rfl, hd⟩ := (fit_one rfl rfl).1 hfields
      obtain ⟨fs, rfl, hfs⟩ := fitsType_node.1 hd
      obtain ⟨decl, hdecl⟩ := exists_declared? hfs
      simp only [singleStatement, hdecl, Option.bind_eq_bind, Option.bind_some]
      exact ⟨_, rfl⟩
    · unfold singleStatement
      split <;> simp_all

theorem exists_forHead {init body : Tree} (hi : IsPart loose init) (hb : IsPart loose body) :
    ∃ es, forHead init body = some es := by
  have hhoisted : ∃ hs, body.hoistedNames? = some hs := by
    rcases hb with rfl | ⟨k, fields, rfl, hfields⟩
    · exact ⟨[], rfl⟩
    · exact exists_hoistedNames? hfields
  obtain ⟨hs, hhs⟩ := hhoisted
  unfold forHead
  split
  · rename_i hkind
    rcases hi with rfl | ⟨k, fields, rfl, hfields⟩
    · cases hkind
    · obtain rfl : k = .variableDeclaration := by simpa [Tree.isKind, Tree.kind?] using hkind
      obtain ⟨ns, hns⟩ := (exists_letNames? hfields).1
      cases ns with
      | nil => exact ⟨[], by rw [hns]; rfl⟩
      | cons n ns => exact ⟨_, by rw [hns, hhs]; rfl⟩
  · exact ⟨[], rfl⟩

theorem exists_catchParameter {param body : Tree}
    (hp : FitsType loose (.maybe Language.binding) param)
    (hb : FitsType loose (.node .block) body) :
    ∃ es, catchParameter param body = some es := by
  obtain ⟨fields, rfl, hfields⟩ := fitsType_node.1 hb
  obtain ⟨list, rfl, hlist⟩ := (fit_one rfl rfl).1 hfields
  obtain ⟨ss, rfl, hss⟩ := (fitsType_list rfl).1 hlist
  obtain ⟨nss, hnss⟩ := exists_lexicalNamesAll false rfl hss
  rcases (fitsType_maybe rfl).1 hp with rfl | ⟨k, fs, rfl, hk, hfs⟩
  · exact ⟨[], rfl⟩
  · obtain ⟨n, hn⟩ :=
      exists_bindingName? (fitsType_binding.1 ((fitsType_union rfl).2 ⟨k, fs, rfl, hk, hfs⟩))
    simp only [catchParameter, Tree.isAbsent, Bool.false_eq_true, if_false, hn, hnss,
      Option.bind_eq_bind, Option.bind_some]
    exact ⟨_, rfl⟩

theorem exists_variableDeclaration (word : String) {ds : List Tree}
    (h : ∀ d ∈ ds, FitsType loose (.node .variableDeclarator) d) :
    ∃ es, variableDeclaration word ds = some es := by
  have hconstants : ∀ i, ∃ es, uninitialised i ds = some es := by
    induction ds with
    | nil => exact fun i => ⟨[], rfl⟩
    | cons d ds ih =>
      intro i
      obtain ⟨es, hes⟩ := ih (fun d' hd' => h d' (List.mem_cons_of_mem _ hd')) (i + 1)
      obtain ⟨fields, rfl, hfields⟩ := fitsType_node.1 (h d List.mem_cons_self)
      obtain ⟨b, init, rfl, -, -⟩ := (fit_two rfl rfl).1 hfields
      simp only [uninitialised, lacksInit?, hes, Option.bind_eq_bind, Option.bind_some]
      exact ⟨_, rfl⟩
  obtain ⟨es, hes⟩ := hconstants 0
  unfold variableDeclaration
  split
  · exact ⟨_, by rw [hes]; rfl⟩
  · exact ⟨_, rfl⟩

theorem exists_constructorFaults (i : Nat) {v : Tree} (h : FitsType loose methodDefinition v) :
    ∃ es, constructorFaults i v = some es := by
  obtain ⟨k, fields, rfl, hk, hfields⟩ :=
    fitsType_kinds rfl [.method, .getter, .setter] (by decide) h
  simp only [List.mem_cons, List.not_mem_nil, or_false] at hk
  rcases hk with rfl | rfl | rfl
  · obtain ⟨a, g, name, params, body, rfl, ha, hg, -, -, -⟩ := (fit_five rfl rfl).1 hfields
    obtain ⟨a, rfl⟩ := fitsType_boolean.1 ha
    obtain ⟨g, rfl⟩ := fitsType_boolean.1 hg
    exact ⟨_, rfl⟩
  · exact ⟨_, rfl⟩
  · exact ⟨_, rfl⟩

theorem exists_classElements {es : List Tree}
    (h : ∀ e ∈ es, FitsType loose (.node .classElement) e) (i seen : Nat) :
    ∃ errors, classElements i seen es = some errors := by
  induction es generalizing i seen with
  | nil => exact ⟨[], by simp [classElements]⟩
  | cons e es ih =>
    have hrest := fun i seen => ih (fun e' he' => h e' (List.mem_cons_of_mem _ he')) i seen
    obtain ⟨fields, rfl, hfields⟩ := fitsType_node.1 (h e List.mem_cons_self)
    obtain ⟨s, m, rfl, hs, hm⟩ := (fit_two rfl rfl).1 hfields
    obtain ⟨s, rfl⟩ := fitsType_boolean.1 hs
    cases s with
    | true =>
      obtain ⟨name, hname, b, hb⟩ := exists_isStaticName? "prototype" hm
      obtain ⟨errors, herrors⟩ := hrest (i + 1) seen
      simp only [classElements, hname, hb, herrors, Option.bind_eq_bind, Option.bind_some]
      exact ⟨_, rfl⟩
    | false =>
      obtain ⟨b, hb⟩ := exists_isConstructor? hm
      simp only [classElements, hb, Option.bind_eq_bind, Option.bind_some]
      cases b with
      | false => exact hrest (i + 1) seen
      | true =>
        obtain ⟨faults, hfaults⟩ := exists_constructorFaults i hm
        obtain ⟨errors, herrors⟩ := hrest (i + 1) (seen + 1)
        simp only [if_true, hfaults, herrors, Option.bind_some]
        exact ⟨_, rfl⟩

end Rules

theorem exists_append {α : Type} {x y : Option (List α)} (hx : ∃ a, x = some a)
    (hy : ∃ b, y = some b) : ∃ a, (do return (← x) ++ (← y)) = some a := by
  obtain ⟨a, rfl⟩ := hx
  obtain ⟨b, rfl⟩ := hy
  exact ⟨a ++ b, rfl⟩

/-- The label of a jump is absent or a text. -/
theorem exists_label {v : Tree} (h : FitsType loose (.maybe .string) v) :
    v = .absent ∨ ∃ s, v = .str s := by
  rw [fitsType_leaf rfl] at h
  cases v with
  | absent => exact .inl rfl
  | str s => exact .inr ⟨s, rfl⟩
  | _ => simp [Spec.admits, Spec.admits?, Spec.maybe, Spec.string, Spec.atom, Spec.hasMember] at h

theorem exists_number {v : Tree} (h : FitsType loose .number v) :
    ∃ es, Rules.number v = some es := by
  rw [fitsType_leaf rfl] at h
  cases v with
  | int i => exact ⟨_, rfl⟩
  | float x => exact ⟨_, rfl⟩
  | _ => simp [Spec.admits, Spec.admits?, Spec.number, Spec.atom, Spec.hasMember] at h

open Rules in
/-- Every rule has a value for a node that fits. -/
theorem exists_nodeErrors (c : Context) {k : Kind} {fields : List Tree}
    (h : FieldsFit loose k k.slots fields) : ∃ es, nodeErrors c k fields = some es := by
  cases k
  case script | functionBody =>
    obtain ⟨ds, list, rfl, -, hlist⟩ := (fit_two rfl rfl).1 h
    obtain ⟨ss, rfl, hss⟩ := (fitsType_list rfl).1 hlist
    exact exists_scopeErrors true rfl hss
  case esModule =>
    obtain ⟨ds, list, rfl, -, hlist⟩ := (fit_two rfl rfl).1 h
    obtain ⟨items, rfl, hitems⟩ := (fitsType_list rfl).1 hlist
    obtain ⟨es, hes⟩ := exists_scopeErrors false rfl hitems
    exact ⟨es ++ defaultExports 0 false items, by rw [nodeErrors, hes]; rfl⟩
  case functionDeclaration | functionExpression =>
    obtain ⟨a, g, n, params, body, rfl, -, -, -, hp, hb⟩ := (fit_five rfl rfl).1 h
    exact exists_function c false rfl hp hb
  case method =>
    obtain ⟨a, g, n, params, body, rfl, -, -, -, hp, hb⟩ := (fit_five rfl rfl).1 h
    exact exists_function c true rfl hp hb
  case arrowExpression =>
    obtain ⟨a, params, body, rfl, -, hp, hb⟩ := (fit_three rfl rfl).1 h
    exact exists_function c true rfl hp hb
  case setter =>
    obtain ⟨n, param, body, rfl, -, hp, hb⟩ := (fit_three rfl rfl).1 h
    exact exists_setter hp hb
  case block =>
    obtain ⟨list, rfl, hlist⟩ := (fit_one rfl rfl).1 h
    obtain ⟨ss, rfl, hss⟩ := (fitsType_list rfl).1 hlist
    exact exists_scopeErrors false rfl hss
  case switchStatement =>
    obtain ⟨d, list, rfl, -, hlist⟩ := (fit_two rfl rfl).1 h
    obtain ⟨cs, rfl, hcs⟩ := (fitsType_list rfl).1 hlist
    exact exists_switchErrors fun v hv => .inl (hcs v hv)
  case switchStatementWithDefault =>
    obtain ⟨test, before, d, after, rfl, -, hbefore, hd, hafter⟩ := (fit_four rfl rfl).1 h
    obtain ⟨cs, rfl, hcs⟩ := (fitsType_list rfl).1 hbefore
    obtain ⟨cs', rfl, hcs'⟩ := (fitsType_list rfl).1 hafter
    refine @exists_switchErrors loose _ fun v hv => ?_
    rcases List.mem_append.1 hv with hv | hv
    · exact .inl (hcs v hv)
    · rcases List.mem_cons.1 hv with rfl | hv
      · exact .inr hd
      · exact .inl (hcs' v hv)
  case catchClause =>
    obtain ⟨param, body, rfl, hp, hb⟩ := (fit_two rfl rfl).1 h
    exact exists_catchParameter hp hb
  case variableDeclaration =>
    obtain ⟨word, list, rfl, hword, hlist⟩ := (fit_two rfl rfl).1 h
    obtain ⟨word, rfl⟩ := exists_of_enum hword
    obtain ⟨ds, rfl, hds⟩ := (fitsType_list rfl).1 hlist
    exact exists_variableDeclaration word hds
  case ifStatement =>
    obtain ⟨test, c, a, rfl, -, hc, ha⟩ := (fit_three rfl rfl).1 h
    exact exists_append (exists_singleStatement _ (.inr (isPart_of_union rfl hc)))
      (exists_singleStatement _ (isPart_of_maybe rfl ha))
  case doWhileStatement =>
    obtain ⟨b, test, rfl, hb, -⟩ := (fit_two rfl rfl).1 h
    exact exists_singleStatement _ (.inr (isPart_of_union rfl hb))
  case whileStatement =>
    obtain ⟨test, b, rfl, -, hb⟩ := (fit_two rfl rfl).1 h
    exact exists_singleStatement _ (.inr (isPart_of_union rfl hb))
  case forStatement =>
    obtain ⟨init, test, update, b, rfl, hi, -, -, hb⟩ := (fit_four rfl rfl).1 h
    have hbody := isPart_of_union rfl hb
    exact exists_append (exists_singleStatement _ (.inr hbody))
      (exists_forHead (isPart_of_maybe rfl hi) (.inr hbody))
  case labeledStatement =>
    obtain ⟨label, b, rfl, hlabel, hb⟩ := (fit_two rfl rfl).1 h
    obtain ⟨label, rfl⟩ := fitsType_string.1 hlabel
    obtain ⟨es, hes⟩ := exists_singleStatement "body" (.inr (isPart_of_union rfl hb))
    exact ⟨es ++ Rules.label c label, by rw [nodeErrors, hes]; rfl⟩
  case unaryExpression =>
    obtain ⟨operator, operand, rfl, ho, -⟩ := (fit_two rfl rfl).1 h
    obtain ⟨operator, rfl⟩ := exists_of_enum ho
    exact ⟨_, rfl⟩
  case breakStatement | continueStatement =>
    obtain ⟨label, rfl, hl⟩ := (fit_one rfl rfl).1 h
    rcases exists_label hl with rfl | ⟨s, rfl⟩ <;> exact ⟨_, rfl⟩
  case callExpression | computedMemberExpression | computedMemberAssignmentTarget =>
    obtain ⟨a, b, rfl, -, -⟩ := (fit_two rfl rfl).1 h
    exact ⟨_, rfl⟩
  case staticMemberExpression | staticMemberAssignmentTarget =>
    obtain ⟨object, property, rfl, -, hp⟩ := (fit_two rfl rfl).1 h
    obtain ⟨property, rfl⟩ := fitsType_string.1 hp
    exact ⟨_, rfl⟩
  case templateExpression =>
    obtain ⟨tag, list, rfl, -, hlist⟩ := (fit_two rfl rfl).1 h
    obtain ⟨es, rfl, -⟩ := (fitsType_list rfl).1 hlist
    exact ⟨_, rfl⟩
  case classDeclaration | classExpression =>
    obtain ⟨n, s, list, rfl, -, -, hlist⟩ := (fit_three rfl rfl).1 h
    obtain ⟨es, rfl, hes⟩ := (fitsType_list rfl).1 hlist
    exact exists_classElements hes 0 0
  case bindingIdentifier | identifierExpression | assignmentTargetIdentifier =>
    obtain ⟨name, rfl, hname⟩ := (fit_one rfl rfl).1 h
    obtain ⟨name, rfl⟩ := fitsType_string.1 hname
    exact ⟨_, rfl⟩
  case literalNumericExpression =>
    obtain ⟨value, rfl, hvalue⟩ := (fit_one rfl rfl).1 h
    exact exists_number hvalue
  case literalRegExpExpression =>
    rw [fieldsFit_iff_fitsType (.inr rfl)] at h
    obtain _ | ⟨hpattern, _⟩ := h
    obtain ⟨pattern, rfl⟩ := fitsType_string.1 hpattern
    exact ⟨_, rfl⟩
  all_goals exact ⟨_, rfl⟩

/-! ## Whole trees -/

/-- The nodes in the fields of a node that fits, and in the lists there, fit too. -/
theorem FieldsFit.part {k : Kind} {fields : List Tree} (h : FieldsFit loose k k.slots fields)
    {v : Tree} (hv : v ∈ fields) :
    (∀ l fs, v = .node l fs → FieldsFit loose l l.slots fs) ∧
      ∀ items, v = .list items → ∀ l fs, .node l fs ∈ items → FieldsFit loose l l.slots fs := by
  obtain ⟨before, after, rfl⟩ := List.append_of_mem hv
  obtain ⟨s, hs, hfit⟩ := h.middle
  unfold FitsSlot at hfit
  split at hfit
  · constructor
    · rintro l fs rfl
      exact hfit.2
    · rintro items rfl l fs hmem
      obtain ⟨t, -, hitems⟩ := hfit
      exact (itemsFit_iff.1 hitems _ hmem).2
  · rename_i hnone
    have hplain := isPlainSlot_of_mem (List.mem_of_getElem? hs)
    rw [isPlainSlot, slotPosition_eq_none.1 hnone] at hplain
    have hleaf := isLeaf_of_admits hplain hfit
    constructor
    · rintro l fs rfl
      cases hleaf
    · rintro items rfl
      cases hleaf

theorem exists_fieldRuleErrors (c : Context) {k : Kind} {fields : List Tree}
    (h : FieldsFit loose k k.slots fields) {names : List String} {vs : List Tree}
    (ih : ∀ c v, v ∈ vs → (∃ es, ruleErrors c v = some es) ∧
      ∀ items, v = .list items → ∃ es, itemRuleErrors c 0 items = some es) :
    ∃ es, fieldRuleErrors c k fields names vs = some es := by
  induction names generalizing vs with
  | nil => exact ⟨[], by cases vs <;> simp [fieldRuleErrors]⟩
  | cons n ns ihn =>
    cases vs with
    | nil => exact ⟨[], by simp [fieldRuleErrors]⟩
    | cons v vs =>
      obtain ⟨rest, hrest⟩ := ihn fun c v' hv' => ih c v' (List.mem_cons_of_mem _ hv')
      obtain ⟨inner, hinner⟩ := exists_ofField c h n
      obtain ⟨⟨es, hes⟩, hitems⟩ := ih inner v List.mem_cons_self
      cases v with
      | node l fs =>
        rw [fieldRuleErrors]
        simp only [hinner, hes, hrest, Option.bind_eq_bind, Option.bind_some]
        exact ⟨_, rfl⟩
      | list items =>
        obtain ⟨es', hes'⟩ := hitems items rfl
        rw [fieldRuleErrors]
        simp only [hinner, hes', hrest, Option.bind_eq_bind, Option.bind_some]
        exact ⟨_, rfl⟩
      | _ => exact ⟨rest, by rw [fieldRuleErrors] <;> simp [hrest]⟩

theorem exists_itemRuleErrors (c : Context) {items : List Tree}
    (h : ∀ v ∈ items, ∃ es, ruleErrors c v = some es) (i : Nat) :
    ∃ es, itemRuleErrors c i items = some es := by
  induction items generalizing i with
  | nil => exact ⟨[], by rw [itemRuleErrors]⟩
  | cons v vs ih =>
    obtain ⟨es, hes⟩ := h v List.mem_cons_self
    obtain ⟨rest, hrest⟩ := ih (fun v' hv' => h v' (List.mem_cons_of_mem _ hv')) (i + 1)
    exact ⟨_, by rw [itemRuleErrors, hes, hrest]; rfl⟩

/-- The rules have a value for every tree that fits, in every context. -/
theorem exists_ruleErrors (c : Context) {k : Kind} {fields : List Tree}
    (h : FieldsFit loose k k.slots fields) :
    ∃ es, ruleErrors c (.node k fields) = some es := by
  obtain ⟨es, hes⟩ := exists_nodeErrors c h
  have hfields : ∀ c v, v ∈ fields → (∃ es, ruleErrors c v = some es) ∧
      ∀ items, v = .list items → ∃ es, itemRuleErrors c 0 items = some es := by
    intro c v hv
    have hlt := List.sizeOf_lt_of_mem hv
    constructor
    · cases hnode : v.isNode with
      | false => exact ⟨[], ruleErrors_not_node c hnode⟩
      | true =>
        cases v with
        | node l fs =>
          have : sizeOf (Tree.node l fs) < sizeOf (Tree.node k fields) := by
            simp only [Tree.node.sizeOf_spec] at hlt ⊢
            omega
          exact exists_ruleErrors c ((h.part hv).1 l fs rfl)
        | _ => cases hnode
    · rintro items rfl
      refine exists_itemRuleErrors c (fun w hw => ?_) 0
      have hlt' := List.sizeOf_lt_of_mem hw
      cases hnode : w.isNode with
      | false => exact ⟨[], ruleErrors_not_node c hnode⟩
      | true =>
        cases w with
        | node l fs =>
          have : sizeOf (Tree.node l fs) < sizeOf (Tree.node k fields) := by
            simp only [Tree.node.sizeOf_spec, Tree.list.sizeOf_spec] at hlt hlt' ⊢
            omega
          exact exists_ruleErrors c ((h.part hv).2 items rfl l fs hw)
        | _ => cases hnode
  obtain ⟨rest, hrest⟩ := exists_fieldRuleErrors c h hfields
  exact ⟨es ++ rest, by rw [ruleErrors, hes, hrest]; rfl⟩
termination_by sizeOf (Tree.node k fields)
decreasing_by all_goals assumption

/-- A valid program is a tree that is well-typed and breaks no rule. -/
theorem isValid_iff {t : Tree} : t.isValid = true ↔ t.IsFit false ∧ Clean {} t := by
  rw [← wellTyped_iff]
  by_cases ht : t.wellTyped = true
  · rw [and_iff_right ht]
    have hfit := wellTyped_iff.1 ht
    cases t with
    | node k fields =>
      obtain ⟨es, hes⟩ := exists_ruleErrors {} hfit
      have htype : typeErrors (.node k fields) = [] := List.isEmpty_iff.1 ht
      rw [Tree.isValid, earlyErrors, earlyErrors?, htype]
      simp only [Clean, hes, Option.getD_some, List.isEmpty_iff, Option.some.injEq]
    | _ => exact hfit.elim
  · refine iff_of_false (fun hvalid => ht ?_) fun h => ht h.1
    rw [Tree.isValid, earlyErrors, earlyErrors?] at hvalid
    rw [Tree.wellTyped]
    cases htype : typeErrors t with
    | nil => rfl
    | cons e es => simp [htype] at hvalid

end Whittle
