import Whittle.Proofs.Validity.Names

/-!
# Rules in trimmed trees

A node whose fields are trimmed breaks no rule that it did not break, in a context that asks
for no more. One lemma for each rule that looks at more than the texts of a node says so.
-/

namespace Whittle

/-! ## What rules see of a node -/

/-- What stands in a trimmed tree as a node of a kind that is not put in was one before. -/
theorem Trims.isKind {u v : Tree} {k : Kind} (h : Trims u v) (hk : k.isInert = false)
    (hv : v.isKind k = true) : u.isKind k = true := by
  cases h with
  | leaf _ _ => exact hv
  | list _ => cases hv
  | node _ _ => exact hv
  | swap _ hl _ =>
    obtain rfl := Option.some.inj (beq_iff_eq.1 hv)
    rw [hk] at hl
    cases hl

/-- A node of a kind that is neither replaced nor put in is one exactly if it was one. -/
theorem Trims.isKind_eq {u v : Tree} {k : Kind} (h : Trims u v) (hk : k.isInert = false)
    (hr : k.isReplaceable = false) : v.isKind k = u.isKind k := by
  cases hu : u.isKind k with
  | false =>
    cases hv : v.isKind k with
    | false => rfl
    | true =>
      rw [h.isKind hk hv] at hu
      cases hu
  | true =>
    cases h with
    | leaf _ _ => exact hu
    | list _ => exact hu
    | node _ _ => exact hu
    | swap hk' _ _ =>
      obtain rfl := Option.some.inj (beq_iff_eq.1 hu)
      rw [hr] at hk'
      cases hk'

theorem Trims.isAbsent_eq {u v : Tree} (h : Trims u v) : v.isAbsent = u.isAbsent := by
  cases h <;> rfl

theorem flag?_trims {u v : Tree} (h : Trims u v) : Follows (· = ·) u.flag? v.flag? := by
  intro b hb
  cases u with
  | bool _ =>
    rw [h.bool_eq]
    exact ⟨b, hb, rfl⟩
  | _ => cases hb

theorem isSimple?_trims {u v : Tree} (h : Trims u v) :
    Follows (fun a b => a = true → b = true) u.isSimple? v.isSimple? := by
  intro b hb
  unfold Tree.isSimple? at hb
  split at hb
  · cases hb
    obtain ⟨vs, rfl, hvs⟩ := h.fields_inv rfl
    obtain _ | ⟨his, _ | ⟨hrest, _ | _⟩⟩ := hvs
    obtain ⟨items, rfl, hitems⟩ := (his.trims rfl).list_inv
    refine ⟨_, rfl, fun hsimple => ?_⟩
    rw [Bool.and_eq_true, List.all_eq_true] at hsimple ⊢
    constructor
    · cases hrest with
      | keep hrest => rw [hrest.isAbsent_eq, hsimple.1]
      | lack _ => rfl
    · intro t ht
      obtain ⟨w, hw, hwt⟩ := hitems.exists_of_mem ht
      rw [hwt.isKind_eq rfl rfl]
      exact hsimple.2 w hw
  · cases hb

theorem isStrictDirective?_trims {u v : Tree} (h : Trims u v) :
    Follows (· = ·) u.isStrictDirective? v.isStrictDirective? := by
  intro b hb
  unfold Tree.isStrictDirective? at hb
  split at hb
  · obtain ⟨vs, rfl, hvs⟩ := h.fields_inv rfl
    obtain _ | ⟨hraw, _ | _⟩ := hvs
    rw [(hraw.trims rfl).str_eq]
    exact ⟨b, hb, rfl⟩
  · cases hb

theorem anyStrict_trims {us vs : List Tree} (h : TrimsItems us vs) :
    Follows (fun a b => b = true → a = true)
      (do return (← us.mapM Tree.isStrictDirective?).any id)
      (do return (← vs.mapM Tree.isStrictDirective?).any id) := by
  intro b hb
  obtain ⟨bs, hbs, hb⟩ := Option.bind_eq_some_iff.1 hb
  cases hb
  obtain ⟨bs', hbs', hsub⟩ := h.mapM (fun _ _ => isStrictDirective?_trims) bs hbs
  refine ⟨_, by rw [hbs']; rfl, fun hany => ?_⟩
  obtain ⟨b, hb, htrue⟩ := List.any_eq_true.1 hany
  exact List.any_eq_true.2 ⟨b, (sublist_of_sublistForall₂_eq hsub).subset hb, htrue⟩

theorem hasUseStrict?_inert {l : Kind} (hl : l.isInert = true) (vs : List Tree) :
    (Tree.node l vs).hasUseStrict? = some false := by
  unfold Tree.hasUseStrict?
  split <;> simp_all [Kind.isInert]

/-- A trimmed function or script is strict only if it was. -/
theorem hasUseStrict?_trims {u v : Tree} (h : Trims u v) :
    Follows (fun a b => b = true → a = true) u.hasUseStrict? v.hasUseStrict? := by
  intro b hb
  cases h with
  | leaf _ _ => exact ⟨b, hb, id⟩
  | list _ => cases hb
  | swap _ hl _ => exact ⟨false, hasUseStrict?_inert hl _, nofun⟩
  | @node k us vs hvs _ =>
    unfold Tree.hasUseStrict? at hb
    split at hb
    case h_1 heq =>
      cases heq
      obtain _ | ⟨hds, _ | ⟨_, _ | _⟩⟩ := hvs
      obtain ⟨ds, rfl, hitems⟩ := (hds.trims rfl).list_inv
      exact anyStrict_trims hitems b hb
    case h_2 heq =>
      cases heq
      obtain _ | ⟨hds, _ | ⟨_, _ | _⟩⟩ := hvs
      obtain ⟨ds, rfl, hitems⟩ := (hds.trims rfl).list_inv
      exact anyStrict_trims hitems b hb
    case h_3 => cases hb
    case h_4 => cases hb
    case h_5 hscript hbody heq =>
      cases heq
      cases hb
      refine ⟨false, ?_, id⟩
      unfold Tree.hasUseStrict?
      split <;> simp_all
    case h_6 hnode => exact (hnode _ _ rfl).elim

theorem isLabelledLoop?_inert {l : Kind} (hl : l.isInert = true) (vs : List Tree) :
    (Tree.node l vs).isLabelledLoop? = some false := by
  cases l <;> first | rfl | cases hl

/-- A trimmed loop under labels is one unless it has been replaced. -/
theorem isLabelledLoop?_trims {u v : Tree} (h : Trims u v) :
    Follows (fun a b => (a = true ∧ b = false) ∨ a = b) u.isLabelledLoop? v.isLabelledLoop? := by
  intro b hb
  cases h with
  | leaf _ _ => exact ⟨b, hb, .inr rfl⟩
  | list _ => cases hb
  | swap _ hl _ =>
    refine ⟨false, isLabelledLoop?_inert hl _, ?_⟩
    cases b <;> simp
  | @node k us vs hvs _ =>
    unfold Tree.isLabelledLoop? at hb
    split at hb
    case h_1 heq =>
      cases heq
      obtain _ | ⟨_, _ | ⟨hbody, _ | _⟩⟩ := hvs
      exact isLabelledLoop?_trims (hbody.trims rfl) b hb
    case h_2 => cases hb
    case h_3 hlabel heq =>
      cases heq
      cases hb
      refine ⟨_, ?_, .inr rfl⟩
      unfold Tree.isLabelledLoop?
      split <;> simp_all
    case h_4 hnode => exact (hnode _ _ rfl).elim
termination_by sizeOf u
decreasing_by
  subst_vars
  simp only [Tree.node.sizeOf_spec, List.cons.sizeOf_spec]
  omega

theorem methodName?_trims {u v : Tree} (h : Trims u v) :
    Follows Trims u.methodName? v.methodName? := by
  intro n hn
  unfold Tree.methodName? at hn
  split at hn
  · cases hn
    obtain ⟨vs, rfl, hvs⟩ := h.fields_inv rfl
    obtain _ | ⟨_, _ | ⟨_, _ | ⟨hname, _ | ⟨_, _ | ⟨_, _ | _⟩⟩⟩⟩⟩ := hvs
    exact ⟨_, rfl, hname.trims rfl⟩
  · cases hn
    obtain ⟨vs, rfl, hvs⟩ := h.fields_inv rfl
    obtain _ | ⟨hname, _ | ⟨_, _ | _⟩⟩ := hvs
    exact ⟨_, rfl, hname.trims rfl⟩
  · cases hn
    obtain ⟨vs, rfl, hvs⟩ := h.fields_inv rfl
    obtain _ | ⟨hname, _ | ⟨_, _ | ⟨_, _ | _⟩⟩⟩ := hvs
    exact ⟨_, rfl, hname.trims rfl⟩
  · cases hn

theorem isStaticName?_trims (s : String) {u v : Tree} (h : Trims u v) :
    Follows (· = ·) (u.isStaticName? s) (v.isStaticName? s) := by
  intro b hb
  unfold Tree.isStaticName? at hb
  split at hb
  case h_1 =>
    obtain ⟨vs, rfl, hvs⟩ := h.fields_inv rfl
    obtain _ | ⟨htext, _ | _⟩ := hvs
    rw [(htext.trims rfl).str_eq]
    exact ⟨b, hb, rfl⟩
  case h_2 => cases hb
  case h_3 k us hk =>
    cases hb
    refine ⟨false, ?_, rfl⟩
    rcases h.node_inv with ⟨vs, rfl, -, -⟩ | ⟨-, l, vs, rfl, hl⟩
    · unfold Tree.isStaticName?
      split <;> simp_all
    · unfold Tree.isStaticName?
      split <;> simp_all [Kind.isInert]
  case h_4 => cases hb

theorem isConstructor?_trims {u v : Tree} (h : Trims u v) :
    Follows (· = ·) u.isConstructor? v.isConstructor? := by
  intro b hb
  obtain ⟨name, hname, hb⟩ := Option.bind_eq_some_iff.1 hb
  obtain ⟨name', hname', htrims⟩ := methodName?_trims h name hname
  obtain ⟨b', hb', rfl⟩ := isStaticName?_trims "constructor" htrims b hb
  exact ⟨b, by rw [Tree.isConstructor?, hname']; exact hb', rfl⟩

/-! ## Rules -/

@[simp] theorem EarlyError.when_eq_nil {b : Bool} {e : EarlyError} :
    EarlyError.when b e = [] ↔ b = false := by
  cases b <;> simp [EarlyError.when]

namespace Rules

theorem redeclared_trims {ns ms : List String} (hms : ms.Sublist ns) {u v : Tree}
    (h : Trims u v) (hu : redeclared ns u = some []) : redeclared ms v = some [] := by
  have hother : ∀ k vs, k ≠ .functionBody → redeclared ms (.node k vs) = some [] := by
    intro k vs hk
    unfold redeclared
    split <;> simp_all
  unfold redeclared at hu
  split at hu
  · rcases h.node_inv with ⟨vs, rfl, hvs, -⟩ | ⟨-, l, vs, rfl, hl⟩
    · obtain _ | ⟨_, _ | ⟨hss, _ | _⟩⟩ := hvs
      obtain ⟨ss, rfl, hitems⟩ := (hss.trims rfl).list_inv
      obtain ⟨nss, hnss, hu⟩ := Option.bind_eq_some_iff.1 hu
      obtain ⟨mss, hmss, hsub⟩ := hitems.mapM (fun _ _ => lexicalNames?_trims true) nss hnss
      have hlexical := sublist_flatten hsub
      simp only [Option.pure_def, Option.some.injEq, List.map_eq_nil_iff, shared_eq_nil] at hu
      simp only [redeclared, hmss, Option.bind_eq_bind, Option.bind_some, Option.pure_def,
        Option.some.injEq, List.map_eq_nil_iff, shared_eq_nil]
      intro n hn hn'
      exact hu n (hms.subset hn) (hlexical.subset hn')
    · exact hother l vs (by rintro rfl; cases hl)
  · cases hu
  · rename_i k us _ hk
    rcases h.node_inv with ⟨vs, rfl, -, -⟩ | ⟨-, l, vs, rfl, hl⟩
    · refine hother k vs ?_
      rintro rfl
      exact hk rfl
    · exact hother l vs (by rintro rfl; cases hl)
  · cases hu

variable {c c' : Context}

theorem function_trims {unique : Bool} {params params' body body' : Tree}
    (hc : Eases True c c') (hp : Trims params params') (hb : Trims body body')
    (h : function c unique params body = some []) :
    function c' unique params' body' = some [] := by
  unfold function at h
  obtain ⟨ns, hns, h⟩ := Option.bind_eq_some_iff.1 h
  obtain ⟨es, hes, h⟩ := Option.bind_eq_some_iff.1 h
  obtain ⟨simple, hsimple, h⟩ := Option.bind_eq_some_iff.1 h
  obtain ⟨directive, hdirective, h⟩ := Option.bind_eq_some_iff.1 h
  simp only [Option.pure_def, Option.some.injEq, List.append_eq_nil_iff,
    EarlyError.when_eq_nil] at h
  obtain ⟨⟨rfl, hafter⟩, hdup⟩ := h
  obtain ⟨ms, hms, hsub⟩ := parameterNames?_trims hp ns hns
  obtain ⟨simple', hsimple', hs⟩ := isSimple?_trims hp simple hsimple
  obtain ⟨directive', hdirective', hd⟩ := hasUseStrict?_trims hb directive hdirective
  simp only [function, hms, redeclared_trims hsub hb hes, hsimple', hdirective',
    Option.bind_eq_bind, Option.bind_some, Option.pure_def, Option.some.injEq,
    List.append_eq_nil_iff, EarlyError.when_eq_nil]
  refine ⟨⟨trivial, ?_⟩, ?_⟩
  · cases simple <;> cases simple' <;> cases directive <;> cases directive' <;> simp_all
  · split
    · rename_i hcond
      -- the names had to be distinct for a reason that is still there
      rw [if_pos ?_] at hdup
      · rw [List.map_eq_nil_iff, duplicates_eq_nil] at hdup ⊢
        exact hsub.nodup hdup
      · have hstrict := hc.strict
        cases unique <;> cases simple <;> cases simple' <;> cases directive <;>
          cases directive' <;> simp_all
    · rfl

theorem setter_trims {param param' body body' : Tree} (hp : Trims param param')
    (hb : Trims body body') (h : setter param body = some []) :
    setter param' body' = some [] := by
  unfold setter at h
  obtain ⟨n, hn, h⟩ := Option.bind_eq_some_iff.1 h
  obtain ⟨es, hes, h⟩ := Option.bind_eq_some_iff.1 h
  obtain ⟨directive, hdirective, h⟩ := Option.bind_eq_some_iff.1 h
  simp only [Option.pure_def, Option.some.injEq, List.append_eq_nil_iff,
    EarlyError.when_eq_nil] at h
  obtain ⟨rfl, hafter⟩ := h
  obtain ⟨m, hm, rfl⟩ := parameterName?_trims hp n hn
  obtain ⟨directive', hdirective', hd⟩ := hasUseStrict?_trims hb directive hdirective
  simp only [setter, hm, redeclared_trims (.refl _) hb hes, hdirective',
    Option.bind_eq_bind, Option.bind_some, Option.pure_def, Option.some.injEq,
    List.append_eq_nil_iff, EarlyError.when_eq_nil, true_and]
  rw [hp.isKind_eq rfl rfl]
  cases directive <;> cases directive' <;> simp_all

theorem singleStatement_trims {field : String} {u v : Tree} (h : Trims u v)
    (hu : singleStatement field u = some []) : singleStatement field v = some [] := by
  -- no declaration takes the place of another node
  have hother : ∀ k vs, k ≠ .variableDeclarationStatement → k ≠ .classDeclaration →
      k ≠ .functionDeclaration → singleStatement field (.node k vs) = some [] := by
    intro k vs hvar hclass hfunction
    unfold singleStatement
    split <;> simp_all
  unfold singleStatement at hu
  split at hu
  · rw [h.absent_eq]
    rfl
  · rename_i d
    rcases h.node_inv with ⟨vs, rfl, hvs, hkept⟩ | ⟨-, l, vs, rfl, hl⟩
    · obtain _ | ⟨hd, _ | _⟩ := hvs
      obtain ⟨decl, hdecl, hu⟩ := Option.bind_eq_some_iff.1 hu
      obtain ⟨decl', hdecl', hword, -⟩ := declared?_trims (hd.trims rfl) hkept decl hdecl
      simp only [singleStatement, hdecl', Option.bind_eq_bind, Option.bind_some, hword]
      exact hu
    · refine hother l vs ?_ ?_ ?_ <;> (rintro rfl; cases hl)
  · cases hu
  · rename_i k us _ hk
    simp only [Option.some.injEq, EarlyError.when_eq_nil, Bool.or_eq_false_iff,
      beq_eq_false_iff_ne] at hu
    rcases h.node_inv with ⟨vs, rfl, -, -⟩ | ⟨-, l, vs, rfl, hl⟩
    · refine hother k vs ?_ hu.1 hu.2
      rintro rfl
      exact hk rfl
    · refine hother l vs ?_ ?_ ?_ <;> (rintro rfl; cases hl)
  · cases hu

theorem forHead_trims {init init' body body' : Tree} (hi : Trims init init')
    (hb : Trims body body') (h : forHead init body = some []) :
    forHead init' body' = some [] := by
  by_cases hkind : init'.isKind .variableDeclaration = true
  · have hkind' := hi.isKind rfl hkind
    have hsame : init'.kind? = init.kind? :=
      (beq_iff_eq.1 hkind).trans (beq_iff_eq.1 hkind').symm
    unfold forHead at h
    rw [if_pos hkind'] at h
    obtain ⟨ns, hns, h⟩ := Option.bind_eq_some_iff.1 h
    obtain ⟨ms, hms, hsub⟩ := letNames?_trims hi hsame ns hns
    unfold forHead
    rw [if_pos hkind, hms]
    simp only [Option.bind_eq_bind, Option.bind_some]
    cases ms with
    | nil => rfl
    | cons m ms =>
      cases ns with
      | nil => cases hsub
      | cons n ns =>
        obtain ⟨hs, hhs, h⟩ := Option.bind_eq_some_iff.1 h
        obtain ⟨hs', hhs', hsub'⟩ := hoistedNames?_trims hb hs hhs
        simp only [Option.pure_def, Option.some.injEq, List.append_eq_nil_iff,
          List.map_eq_nil_iff, duplicates_eq_nil, shared_eq_nil] at h
        simp only [hhs', Option.bind_some, Option.pure_def, Option.some.injEq,
          List.append_eq_nil_iff, List.map_eq_nil_iff, duplicates_eq_nil, shared_eq_nil]
        refine ⟨hsub.nodup h.1, fun x hx hx' => ?_⟩
        exact h.2 x (hsub.subset hx) (hsub'.subset hx')
  · simp [forHead, hkind]

theorem catchParameter_trims {binding binding' u v : Tree} (hbinding : Trims binding binding')
    (h : Trims u v) (hu : catchParameter binding u = some []) :
    catchParameter binding' v = some [] := by
  unfold catchParameter at hu
  split at hu
  · obtain ⟨vs, rfl, hvs⟩ := h.fields_inv rfl
    obtain _ | ⟨hss, _ | _⟩ := hvs
    obtain ⟨ss, rfl, hitems⟩ := (hss.trims rfl).list_inv
    rw [catchParameter, hbinding.isAbsent_eq]
    by_cases habsent : binding.isAbsent = true
    · rw [if_pos habsent]
      rfl
    · rw [if_neg habsent] at hu ⊢
      obtain ⟨n, hn, hu⟩ := Option.bind_eq_some_iff.1 hu
      obtain ⟨nss, hnss, hu⟩ := Option.bind_eq_some_iff.1 hu
      obtain ⟨m, hm, rfl⟩ := bindingName?_trims hbinding n hn
      obtain ⟨mss, hmss, hsub⟩ := hitems.mapM (fun _ _ => lexicalNames?_trims false) nss hnss
      simp only [Option.pure_def, Option.some.injEq, EarlyError.when_eq_nil] at hu
      simp only [hm, hmss, Option.bind_eq_bind, Option.bind_some, Option.pure_def,
        Option.some.injEq, EarlyError.when_eq_nil]
      rw [← Bool.not_eq_true, List.contains_iff_mem] at hu ⊢
      exact fun hmem => hu ((sublist_flatten hsub).subset hmem)
  · cases hu

theorem lacksInit?_trims {u v : Tree} (h : Trims u v) :
    Follows (· = ·) (lacksInit? u) (lacksInit? v) := by
  intro b hb
  unfold lacksInit? at hb
  split at hb
  · obtain ⟨vs, rfl, hvs⟩ := h.fields_inv rfl
    obtain _ | ⟨_, _ | ⟨hinit, _ | _⟩⟩ := hvs
    refine ⟨b, ?_, rfl⟩
    rw [lacksInit?, (hinit.trims rfl).isAbsent_eq, hb]
  · cases hb

theorem uninitialised_trims {i j : Nat} {us vs : List Tree} (h : TrimsItems us vs)
    (hus : uninitialised i us = some []) : uninitialised j vs = some [] := by
  have hsub := h.sublistForall₂
  clear h
  induction hsub generalizing i j with
  | nil => rfl
  | @cons v u vs us huv _ ih =>
    obtain ⟨b, hb, hus⟩ := Option.bind_eq_some_iff.1 hus
    obtain ⟨es, hes, hus⟩ := Option.bind_eq_some_iff.1 hus
    simp only [Option.pure_def, Option.some.injEq, List.append_eq_nil_iff,
      EarlyError.when_eq_nil] at hus
    obtain ⟨rfl, rfl⟩ := hus
    obtain ⟨b', hb', rfl⟩ := lacksInit?_trims huv _ hb
    simp only [uninitialised, hb', ih hes, Option.bind_eq_bind, Option.bind_some,
      Option.pure_def]
    rfl
  | cons_right _ ih =>
    obtain ⟨b, _, hus⟩ := Option.bind_eq_some_iff.1 hus
    obtain ⟨es, hes, hus⟩ := Option.bind_eq_some_iff.1 hus
    simp only [Option.pure_def, Option.some.injEq, List.append_eq_nil_iff] at hus
    exact ih (by rw [hes, hus.2])

theorem variableDeclaration_eq_nil {word : String} {ds : List Tree} :
    variableDeclaration word ds = some [] ↔
      (word = "const" → uninitialised 0 ds = some []) ∧ ds ≠ [] := by
  unfold variableDeclaration
  by_cases hword : word = "const"
  · subst hword
    cases uninitialised 0 ds <;> simp [and_comm]
  · simp [hword]

theorem variableDeclaration_trims {word : String} {us vs : List Tree} (h : TrimsItems us vs)
    (hempty : vs = [] → us = []) (hus : variableDeclaration word us = some []) :
    variableDeclaration word vs = some [] := by
  rw [variableDeclaration_eq_nil] at hus ⊢
  exact ⟨fun hword => uninitialised_trims h (hus.1 hword), fun hnil => hus.2 (hempty hnil)⟩

theorem switchErrors_trims {us vs : List Tree} (h : TrimsItems us vs)
    (hus : switchErrors us = some []) : switchErrors vs = some [] := by
  obtain ⟨sss, hsss, hus⟩ := Option.bind_eq_some_iff.1 hus
  obtain ⟨sss', hsss', hsub⟩ := h.mapM (fun _ _ => caseStatements?_trims) sss hsss
  rw [switchErrors, hsss']
  exact scopeErrors_trims (.flatten hsub) hus

theorem alternation_trims {us vs : List Tree} (h : List.Forall₂ Trims us vs) (i : Nat)
    (hus : alternation i us = []) : alternation i vs = [] := by
  induction h generalizing i with
  | nil => rfl
  | cons huv _ ih =>
    rw [alternation, List.append_eq_nil_iff] at hus ⊢
    rw [huv.isKind_eq rfl rfl]
    exact ⟨hus.1, ih (i + 1) hus.2⟩

theorem template_trims {us vs : List Tree} (h : TrimsItems us vs)
    (hlen : us.length = vs.length) (hus : template us = []) : template vs = [] := by
  rw [template, List.append_eq_nil_iff] at hus ⊢
  rw [← hlen]
  exact ⟨hus.1, alternation_trims (h.forall₂ hlen) 0 hus.2⟩

theorem constructorFaults_trims {i j : Nat} {u v : Tree} (h : Trims u v)
    (hu : constructorFaults i u = some []) : constructorFaults j v = some [] := by
  unfold constructorFaults at hu
  split at hu
  · obtain ⟨vs, rfl, hvs⟩ := h.fields_inv rfl
    obtain _ | ⟨ha, _ | ⟨hg, _ | ⟨_, _ | ⟨_, _ | ⟨_, _ | _⟩⟩⟩⟩⟩ := hvs
    obtain ⟨a, hasync, hu⟩ := Option.bind_eq_some_iff.1 hu
    obtain ⟨g, hgen, hu⟩ := Option.bind_eq_some_iff.1 hu
    obtain ⟨a', hasync', rfl⟩ := flag?_trims (ha.trims rfl) a hasync
    obtain ⟨g', hgen', rfl⟩ := flag?_trims (hg.trims rfl) g hgen
    simpa [constructorFaults, hasync', hgen'] using hu
  · cases hu
  · cases hu
  · cases hu

/-- What is said of the elements of a class after the first one, by which only the number of
constructors grows. -/
theorem classElements_tail {i seen : Nat} {e : Tree} {es : List Tree}
    (h : classElements i seen (e :: es) = some []) :
    ∃ seen', seen ≤ seen' ∧ classElements (i + 1) seen' es = some [] := by
  unfold classElements at h
  split at h
  · rename_i heq
    cases heq
  · rename_i heq
    cases heq
    obtain ⟨name, _, h⟩ := Option.bind_eq_some_iff.1 h
    obtain ⟨b, _, h⟩ := Option.bind_eq_some_iff.1 h
    obtain ⟨rest, hrest, h⟩ := Option.bind_eq_some_iff.1 h
    simp only [Option.pure_def, Option.some.injEq, List.append_eq_nil_iff] at h
    exact ⟨seen, le_rfl, by rw [hrest, h.2]⟩
  · rename_i heq
    cases heq
    obtain ⟨b, _, h⟩ := Option.bind_eq_some_iff.1 h
    cases b with
    | false => exact ⟨seen, le_rfl, h⟩
    | true =>
      obtain ⟨faults, _, h⟩ := Option.bind_eq_some_iff.1 h
      obtain ⟨rest, hrest, h⟩ := Option.bind_eq_some_iff.1 h
      simp only [Option.pure_def, Option.some.injEq, List.append_eq_nil_iff] at h
      exact ⟨seen + 1, Nat.le_succ _, by rw [hrest, h.2]⟩
  · cases h

theorem classElements_trims {i j seen seen' : Nat} {us vs : List Tree} (h : TrimsItems us vs)
    (hseen : seen' ≤ seen) (hus : classElements i seen us = some []) :
    classElements j seen' vs = some [] := by
  have hsub := h.sublistForall₂
  clear h
  induction hsub generalizing i j seen seen' with
  | nil => simp [classElements]
  | cons_right _ ih =>
    obtain ⟨seen'', hle, htail⟩ := classElements_tail hus
    exact ih (hseen.trans hle) htail
  | @cons v u vs us huv _ ih =>
    unfold classElements at hus
    split at hus
    · rename_i heq
      cases heq
    · rename_i heq
      cases heq
      obtain ⟨ws, rfl, hws⟩ := huv.fields_inv rfl
      obtain _ | ⟨hstatic, _ | ⟨hmethod, _ | _⟩⟩ := hws
      obtain rfl := (hstatic.trims rfl).bool_eq
      obtain ⟨name, hname, hus⟩ := Option.bind_eq_some_iff.1 hus
      obtain ⟨b, hb, hus⟩ := Option.bind_eq_some_iff.1 hus
      obtain ⟨rest, hrest, hus⟩ := Option.bind_eq_some_iff.1 hus
      simp only [Option.pure_def, Option.some.injEq, List.append_eq_nil_iff,
        EarlyError.when_eq_nil] at hus
      obtain ⟨rfl, rfl⟩ := hus
      obtain ⟨name', hname', htrims⟩ := methodName?_trims (hmethod.trims rfl) name hname
      obtain ⟨b', hb', rfl⟩ := isStaticName?_trims "prototype" htrims _ hb
      rw [classElements, hname']
      simp [hb', ih hseen hrest]
    · rename_i heq
      cases heq
      obtain ⟨ws, rfl, hws⟩ := huv.fields_inv rfl
      obtain _ | ⟨hstatic, _ | ⟨hmethod, _ | _⟩⟩ := hws
      obtain rfl := (hstatic.trims rfl).bool_eq
      obtain ⟨b, hb, hus⟩ := Option.bind_eq_some_iff.1 hus
      obtain ⟨b', hb', rfl⟩ := isConstructor?_trims (hmethod.trims rfl) b hb
      rw [classElements, hb']
      cases b with
      | false => exact ih hseen hus
      | true =>
        obtain ⟨faults, hfaults, hus⟩ := Option.bind_eq_some_iff.1 hus
        obtain ⟨rest, hrest, hus⟩ := Option.bind_eq_some_iff.1 hus
        simp only [Option.pure_def, Option.some.injEq, List.append_eq_nil_iff,
          EarlyError.when_eq_nil, decide_eq_false_iff_not, Nat.not_lt,
          Nat.le_zero] at hus
        obtain ⟨⟨rfl, rfl⟩, rfl⟩ := hus
        obtain rfl := Nat.le_zero.1 hseen
        simp [constructorFaults_trims (hmethod.trims rfl) hfaults, ih le_rfl hrest]
    · cases hus

theorem defaultExports_trims {i j : Nat} {seen seen' : Bool} {us vs : List Tree}
    (h : TrimsItems us vs) (hseen : seen' = true → seen = true)
    (hus : defaultExports i seen us = []) : defaultExports j seen' vs = [] := by
  have hsub := h.sublistForall₂
  clear h
  induction hsub generalizing i j seen seen' with
  | nil => rfl
  | cons_right _ ih =>
    rw [defaultExports, List.append_eq_nil_iff] at hus
    refine ih ?_ hus.2
    intro htrue
    simp [hseen htrue]
  | @cons v u vs us huv _ ih =>
    rw [defaultExports, List.append_eq_nil_iff, EarlyError.when_eq_nil] at hus ⊢
    have hkind : v.isKind .exportDefault = true → u.isKind .exportDefault = true :=
      huv.isKind rfl
    refine ⟨?_, ih ?_ hus.2⟩
    · by_contra hne
      simp_all
    · intro htrue
      rcases Bool.or_eq_true_iff.1 htrue with htrue | htrue
      · simp [hseen htrue]
      · simp [hkind htrue]

/-! ## Rules that ask the context -/

theorem label_eases {keep : Prop} (hc : Eases keep c c') {name : String} (h : label c name = []) :
    label c' name = [] := by
  rw [label, List.append_eq_nil_iff, EarlyError.when_eq_nil] at h ⊢
  refine ⟨?_, h.2⟩
  have hlabel := hc.label? name
  cases hl : c.label? name with
  | some b => simp [hl] at h
  | none =>
    rw [hl] at hlabel
    cases hl' : c'.label? name with
    | none => rfl
    | some b =>
      rw [hl'] at hlabel
      cases hlabel

theorem breakStatement_eases (hc : Eases True c c') {v : Tree}
    (h : breakStatement c v = some []) : breakStatement c' v = some [] := by
  unfold breakStatement at h ⊢
  cases v with
  | absent =>
    have hi := hc.inIteration
    have hs := hc.inSwitch
    simp only [Option.some.injEq, EarlyError.when_eq_nil, Bool.not_eq_false',
      Bool.or_eq_true] at h ⊢
    exact h.imp hi hs
  | str l =>
    have hlabel := hc.label? l
    simp only [Option.some.injEq, EarlyError.when_eq_nil] at h ⊢
    cases hl : c.label? l with
    | none => simp [hl] at h
    | some b =>
      rw [hl] at hlabel
      cases hl' : c'.label? l with
      | none =>
        rw [hl'] at hlabel
        cases hlabel
      | some b' => rfl
  | _ => cases h

theorem continueStatement_eases (hc : Eases True c c') {v : Tree}
    (h : continueStatement c v = some []) : continueStatement c' v = some [] := by
  unfold continueStatement at h ⊢
  cases v with
  | absent =>
    have hi := hc.inIteration
    simp only [Option.some.injEq, EarlyError.when_eq_nil, Bool.not_eq_false'] at h ⊢
    exact hi h
  | str l =>
    have hlabel := hc.label? l
    simp only [Option.some.injEq] at h ⊢
    cases hl : c.label? l with
    | none => simp [hl] at h
    | some b =>
      rw [hl] at hlabel h
      cases hl' : c'.label? l with
      | none =>
        rw [hl'] at hlabel
        cases hlabel
      | some b' =>
        rw [hl'] at hlabel
        cases hlabel with
        | some hb =>
          simp only [EarlyError.when_eq_nil, Bool.not_eq_false'] at h ⊢
          exact hb trivial h
  | _ => cases h

theorem binding_eases (hc : Eases True c c') {name : String} (h : binding c name = []) :
    binding c' name = [] := by
  unfold binding at h ⊢
  split at h
  · rename_i heq
    rw [if_pos heq]
    simp only [EarlyError.when_eq_nil, Bool.not_eq_false'] at h ⊢
    exact hc.defaultName h
  · rename_i hne
    rw [if_neg hne]
    have hstrict := hc.strict
    simp only [List.append_eq_nil_iff, EarlyError.when_eq_nil] at h ⊢
    refine ⟨h.1, ?_⟩
    by_contra hcond
    simp_all

theorem member_trims (hc : Eases True c c') {u v : Tree} (huv : Trims u v)
    (h : member c u = []) : member c' v = [] := by
  have hsuper : v.isKind .super = true → u.isKind .super = true := huv.isKind rfl
  have hproperty := hc.superProperty
  rw [member, EarlyError.when_eq_nil] at h ⊢
  by_contra hcond
  simp_all

end Rules

end Whittle
