import Whittle.Proofs.Validity.Trim

/-!
# Names in trimmed trees

A trimmed tree declares no names that the tree did not declare, and in the same order. So
names that did not clash do not clash after it either.
-/

namespace Whittle

/-- If the first has a value then so has the second, and the two are related. -/
def Follows {α β : Type} (r : α → β → Prop) (x : Option α) (y : Option β) : Prop :=
  ∀ a, x = some a → ∃ b, y = some b ∧ r a b

/-- The second names are some of the first ones, in their order. -/
def Fewer (x y : Option (List String)) : Prop :=
  Follows (fun ns ms => ms.Sublist ns) x y

theorem Fewer.refl (x : Option (List String)) : Fewer x x :=
  fun ns h => ⟨ns, h, .refl ns⟩

theorem Fewer.nil (x : Option (List String)) : Fewer x (some []) :=
  fun ns _ => ⟨[], rfl, List.nil_sublist ns⟩

theorem Fewer.append {x y x' y' : Option (List String)} (h : Fewer x y) (h' : Fewer x' y') :
    Fewer (do return (← x) ++ (← x')) (do return (← y) ++ (← y')) := by
  intro ns hns
  obtain ⟨as, has, hns⟩ := Option.bind_eq_some_iff.1 hns
  obtain ⟨bs, hbs, hns⟩ := Option.bind_eq_some_iff.1 hns
  cases hns
  obtain ⟨cs, rfl, hcs⟩ := h as has
  obtain ⟨ds, rfl, hds⟩ := h' bs hbs
  exact ⟨cs ++ ds, rfl, hcs.append hds⟩

theorem Fewer.append₃ {x y x' y' x'' y'' : Option (List String)} (h : Fewer x y)
    (h' : Fewer x' y') (h'' : Fewer x'' y'') :
    Fewer (do return (← x) ++ (← x') ++ (← x'')) (do return (← y) ++ (← y') ++ (← y'')) := by
  intro ns hns
  obtain ⟨as, has, hns⟩ := Option.bind_eq_some_iff.1 hns
  obtain ⟨bs, hbs, hns⟩ := Option.bind_eq_some_iff.1 hns
  obtain ⟨cs, hcs, hns⟩ := Option.bind_eq_some_iff.1 hns
  cases hns
  obtain ⟨as', rfl, hsub⟩ := h as has
  obtain ⟨bs', rfl, hsub'⟩ := h' bs hbs
  obtain ⟨cs', rfl, hsub''⟩ := h'' cs hcs
  exact ⟨as' ++ bs' ++ cs', rfl, (hsub.append hsub').append hsub''⟩

/-- What a test gives for the items of a trimmed list is among what it gave for the items of
the list. -/
theorem TrimsItems.mapM {β : Type} {f : Tree → Option β} {r : β → β → Prop} {us vs : List Tree}
    (h : TrimsItems us vs) (hf : ∀ u v, Trims u v → Follows r (f u) (f v)) :
    Follows (fun xs ys => List.SublistForall₂ (fun y x => r x y) ys xs) (us.mapM f)
      (vs.mapM f) := by
  have hsub := h.sublistForall₂
  clear h
  induction hsub with
  | nil =>
    intro xs _
    exact ⟨[], rfl, .nil⟩
  | @cons v u vs us huv _ ih =>
    intro xs hxs
    rw [List.mapM_cons] at hxs
    obtain ⟨x, hx, hxs⟩ := Option.bind_eq_some_iff.1 hxs
    obtain ⟨xs', hxs', hxs⟩ := Option.bind_eq_some_iff.1 hxs
    cases hxs
    obtain ⟨y, hy, hr⟩ := hf u v huv x hx
    obtain ⟨ys, hys, hrs⟩ := ih xs' hxs'
    refine ⟨y :: ys, ?_, .cons hr hrs⟩
    rw [List.mapM_cons, hy, hys]
    rfl
  | cons_right _ ih =>
    intro xs hxs
    rw [List.mapM_cons] at hxs
    obtain ⟨x, _, hxs⟩ := Option.bind_eq_some_iff.1 hxs
    obtain ⟨xs', hxs', hxs⟩ := Option.bind_eq_some_iff.1 hxs
    cases hxs
    obtain ⟨ys, hys, hrs⟩ := ih xs' hxs'
    exact ⟨ys, hys, .cons_right hrs⟩

theorem sublist_of_sublistForall₂_eq {α : Type} {xs ys : List α}
    (h : List.SublistForall₂ (fun y x => x = y) ys xs) : ys.Sublist xs := by
  induction h with
  | nil => exact List.nil_sublist _
  | cons heq _ ih =>
    subst heq
    exact ih.cons_cons _
  | cons_right _ ih => exact ih.cons _

theorem sublist_flatten {α : Type} {xss yss : List (List α)}
    (h : List.SublistForall₂ (fun ys xs => ys.Sublist xs) yss xss) :
    yss.flatten.Sublist xss.flatten := by
  induction h with
  | nil => exact List.nil_sublist _
  | cons h _ ih => exact h.append ih
  | cons_right _ ih => exact ih.trans (List.sublist_append_right ..)

/-! ## Bindings -/

theorem bindingName?_trims {u v : Tree} (h : Trims u v) :
    Follows (· = ·) u.bindingName? v.bindingName? := by
  intro n hn
  unfold Tree.bindingName? at hn
  split at hn
  · cases hn
    obtain ⟨vs, rfl, hvs⟩ := h.fields_inv rfl
    obtain _ | ⟨hname, _ | _⟩ := hvs
    rw [(hname.trims rfl).str_eq]
    exact ⟨n, rfl, rfl⟩
  · cases hn

theorem parameterName?_of_binding {t : Tree} {n : String} (h : t.bindingName? = some n) :
    t.parameterName? = some n := by
  unfold Tree.bindingName? at h
  split at h
  · exact h
  · cases h

theorem parameterName?_trims {u v : Tree} (h : Trims u v) :
    Follows (· = ·) u.parameterName? v.parameterName? := by
  intro n hn
  unfold Tree.parameterName? at hn
  split at hn
  · obtain ⟨vs, rfl, hvs⟩ := h.fields_inv rfl
    obtain _ | ⟨hb, _ | ⟨_, _ | _⟩⟩ := hvs
    exact bindingName?_trims (hb.trims rfl) n hn
  · obtain ⟨m, hm, rfl⟩ := bindingName?_trims h n hn
    exact ⟨n, parameterName?_of_binding hm, rfl⟩

theorem parameterNames?_rest {items : List Tree} {rest : Tree} (h : rest ≠ .absent) :
    (Tree.node .formalParameters [.list items, rest]).parameterNames?
      = do return (← items.mapM Tree.parameterName?) ++ [← rest.bindingName?] := by
  cases rest with
  | absent => exact absurd rfl h
  | _ => rfl

theorem parameterNames?_trims {u v : Tree} (h : Trims u v) :
    Fewer u.parameterNames? v.parameterNames? := by
  intro ns hns
  have hitems : ∀ us vs, TrimsItems us vs → ∀ xs, us.mapM Tree.parameterName? = some xs →
      ∃ ys, vs.mapM Tree.parameterName? = some ys ∧ ys.Sublist xs := by
    intro us vs hs xs hxs
    obtain ⟨ys, hys, hsub⟩ := hs.mapM (fun _ _ => parameterName?_trims) xs hxs
    exact ⟨ys, hys, sublist_of_sublistForall₂_eq hsub⟩
  unfold Tree.parameterNames? at hns
  split at hns
  · obtain ⟨vs, rfl, hvs⟩ := h.fields_inv rfl
    obtain _ | ⟨his, _ | ⟨hrest, _ | _⟩⟩ := hvs
    obtain ⟨items, rfl, hs⟩ := (his.trims rfl).list_inv
    obtain ⟨ys, hys, hsub⟩ := hitems _ _ hs ns hns
    refine ⟨ys, ?_, hsub⟩
    cases hrest with
    | keep hrest =>
      rw [hrest.absent_eq]
      exact hys
    | lack _ => exact hys
  · obtain ⟨vs, rfl, hvs⟩ := h.fields_inv rfl
    obtain _ | ⟨his, _ | ⟨hrest, _ | _⟩⟩ := hvs
    obtain ⟨items, rfl, hs⟩ := (his.trims rfl).list_inv
    obtain ⟨xs, hxs, hns⟩ := Option.bind_eq_some_iff.1 hns
    obtain ⟨n, hn, hns⟩ := Option.bind_eq_some_iff.1 hns
    cases hns
    obtain ⟨ys, hys, hsub⟩ := hitems _ _ hs xs hxs
    cases hrest with
    | lack _ => exact ⟨ys, hys, hsub.trans (List.sublist_append_left ..)⟩
    | keep hrest =>
      obtain ⟨m, hm, rfl⟩ := bindingName?_trims hrest n hn
      refine ⟨ys ++ [n], ?_, hsub.append (.refl _)⟩
      rw [parameterNames?_rest (by rintro rfl; cases hm), hys, hm]
      rfl
  · cases hns

/-! ## Variables -/

theorem declaratorName_trims {f : Tree → Option String}
    (hf : f = fun
      | .node .variableDeclarator [b, _] => b.bindingName?
      | _ => none)
    {u v : Tree} (h : Trims u v) : Follows (· = ·) (f u) (f v) := by
  subst hf
  intro n hn
  dsimp only at hn
  split at hn
  · obtain ⟨fs, rfl, hfs⟩ := h.fields_inv rfl
    obtain _ | ⟨hb, _ | ⟨_, _ | _⟩⟩ := hfs
    exact bindingName?_trims (hb.trims rfl) n hn
  · cases hn

/-- A variable declaration that stays one declares some of its names, with the same word. -/
theorem declared?_trims {u v : Tree} (h : Trims u v) (hkind : v.kind? = u.kind?) :
    Follows (fun a b => b.1 = a.1 ∧ b.2.Sublist a.2) u.declared? v.declared? := by
  intro d hd
  unfold Tree.declared? at hd
  split at hd
  · obtain ⟨ns, hns, hd⟩ := Option.bind_eq_some_iff.1 hd
    cases hd
    rcases h.node_inv with ⟨vs, rfl, hvs, -⟩ | ⟨-, l, vs, rfl, hl⟩
    · obtain _ | ⟨hword, _ | ⟨hds, _ | _⟩⟩ := hvs
      obtain rfl := (hword.trims rfl).str_eq
      obtain ⟨ds, rfl, hitems⟩ := (hds.trims rfl).list_inv
      obtain ⟨ms, hms, hsub⟩ := hitems.mapM (fun _ _ => declaratorName_trims rfl) ns hns
      exact ⟨(_, ms), Option.bind_eq_some_iff.2 ⟨ms, hms, rfl⟩, rfl,
        sublist_of_sublistForall₂_eq hsub⟩
    · cases hkind
      cases hl
  · cases hd

theorem letNames?_trims {u v : Tree} (h : Trims u v) (hkind : v.kind? = u.kind?) :
    Fewer u.letNames? v.letNames? := by
  intro ns hns
  obtain ⟨⟨word, names⟩, hd, hns⟩ := Option.bind_eq_some_iff.1 hns
  obtain ⟨⟨word', names'⟩, hd', hword, hsub⟩ := declared?_trims h hkind _ hd
  cases hword
  cases hns
  refine ⟨_, by rw [Tree.letNames?, hd']; rfl, ?_⟩
  split
  · exact .refl _
  · exact hsub

theorem varNames?_trims {u v : Tree} (h : Trims u v) (hkind : v.kind? = u.kind?) :
    Fewer u.varNames? v.varNames? := by
  intro ns hns
  obtain ⟨⟨word, names⟩, hd, hns⟩ := Option.bind_eq_some_iff.1 hns
  obtain ⟨⟨word', names'⟩, hd', hword, hsub⟩ := declared?_trims h hkind _ hd
  cases hword
  cases hns
  refine ⟨_, by rw [Tree.varNames?, hd']; rfl, ?_⟩
  split
  · exact hsub
  · exact .refl _

/-! ## Hoisted names -/

theorem hoistedNames?_of_not_hoisting {k : Kind} (hk : Tree.hoistingKinds.contains k = false)
    (hd : k ≠ .variableDeclaration) (fields : List Tree) :
    (Tree.node k fields).hoistedNames? = some [] := by
  unfold Tree.hoistedNames?
  split
  case h_18 h =>
    cases h
    rw [hk]
    rfl
  case h_19 h => exact (h k fields rfl).elim
  all_goals
    rename_i h
    cases h <;> first | exact absurd rfl hd | cases hk

theorem hoistedNames?_inert {l : Kind} (hl : l.isInert = true) (vs : List Tree) :
    (Tree.node l vs).hoistedNames? = some [] := by
  refine hoistedNames?_of_not_hoisting ?_ ?_ vs
  · cases l <;> first | rfl | cases hl
  · rintro rfl
    cases hl

theorem allHoistedNames?_trims {us vs : List Tree} (h : TrimsItems us vs)
    (hf : ∀ u ∈ us, ∀ v, Trims u v → Fewer u.hoistedNames? v.hoistedNames?) :
    Fewer (Tree.allHoistedNames? us) (Tree.allHoistedNames? vs) := by
  induction us generalizing vs with
  | nil =>
    cases h
    exact .refl _
  | cons u us ih =>
    have hrest := fun vs (hs : TrimsItems us vs) =>
      ih hs fun u' hu' => hf u' (List.mem_cons_of_mem _ hu')
    cases h with
    | cons h hs => exact (hf u List.mem_cons_self _ h).append (hrest _ hs)
    | drop hs =>
      intro ns hns
      obtain ⟨as, _, hns⟩ := Option.bind_eq_some_iff.1 hns
      obtain ⟨bs, hbs, hns⟩ := Option.bind_eq_some_iff.1 hns
      cases hns
      obtain ⟨ms, hms, hsub⟩ := hrest _ hs bs hbs
      exact ⟨ms, hms, hsub.trans (List.sublist_append_right ..)⟩

/-- A trimmed tree hoists some of the names if the trimmed forms of smaller trees do. -/
theorem hoistedNames?_step {u v : Tree}
    (ih : ∀ w w', sizeOf w < sizeOf u → Trims w w' → Fewer w.hoistedNames? w'.hoistedNames?)
    (h : Trims u v) : Fewer u.hoistedNames? v.hoistedNames? := by
  cases h with
  | leaf _ _ => exact .refl _
  | list _ => intro ns hns; cases hns
  | swap _ hl _ =>
    rw [hoistedNames?_inert hl]
    exact .nil _
  | @node k us vs hvs hk =>
    have hfield : ∀ w ∈ us, ∀ w', Trims w w' → Fewer w.hoistedNames? w'.hoistedNames? := by
      intro w hw w' hww
      have := List.sizeOf_lt_of_mem hw
      exact ih w w' (by simp; omega) hww
    have hall : ∀ ws, .list ws ∈ us → ∀ ws', TrimsItems ws ws' →
        Fewer (Tree.allHoistedNames? ws) (Tree.allHoistedNames? ws') := by
      intro ws hws ws' hww
      refine allHoistedNames?_trims hww fun w hw w' hww => ih w w' ?_ hww
      have hlt := List.sizeOf_lt_of_mem hws
      have hlt' := List.sizeOf_lt_of_mem hw
      simp only [Tree.list.sizeOf_spec, Tree.node.sizeOf_spec] at hlt ⊢
      omega
    intro ns hns
    unfold Tree.hoistedNames? at hns
    split at hns
    case h_1 heq => cases heq
    case h_2 d heq =>
      cases heq
      obtain _ | ⟨hd, _ | _⟩ := hvs
      exact varNames?_trims (hd.trims rfl) hk ns hns
    case h_3 heq =>
      cases heq
      exact varNames?_trims (.node hvs hk) rfl ns hns
    case h_4 heq =>
      cases heq
      obtain _ | ⟨hb, _ | _⟩ := hvs
      exact hfield _ (by simp) _ (hb.trims rfl) ns hns
    case h_5 heq =>
      cases heq
      obtain _ | ⟨hss, _ | _⟩ := hvs
      obtain ⟨ss, rfl, hitems⟩ := (hss.trims rfl).list_inv
      exact hall _ (by simp) _ hitems ns hns
    case h_6 heq =>
      cases heq
      obtain _ | ⟨_, _ | ⟨hc, _ | ⟨ha, _ | _⟩⟩⟩ := hvs
      exact (hfield _ (by simp) _ (hc.trims rfl)).append (hfield _ (by simp) _ (ha.trims rfl))
        ns hns
    case h_7 heq =>
      cases heq
      obtain _ | ⟨hb, _ | ⟨_, _ | _⟩⟩ := hvs
      exact hfield _ (by simp) _ (hb.trims rfl) ns hns
    case h_8 heq =>
      cases heq
      obtain _ | ⟨_, _ | ⟨hb, _ | _⟩⟩ := hvs
      exact hfield _ (by simp) _ (hb.trims rfl) ns hns
    case h_9 heq =>
      cases heq
      obtain _ | ⟨_, _ | ⟨hb, _ | _⟩⟩ := hvs
      exact hfield _ (by simp) _ (hb.trims rfl) ns hns
    case h_10 heq =>
      cases heq
      obtain _ | ⟨hi, _ | ⟨_, _ | ⟨_, _ | ⟨hb, _ | _⟩⟩⟩⟩ := hvs
      exact (hfield _ (by simp) _ (hi.trims rfl)).append (hfield _ (by simp) _ (hb.trims rfl))
        ns hns
    case h_11 heq =>
      cases heq
      obtain _ | ⟨hb, _ | ⟨hc, _ | _⟩⟩ := hvs
      exact (hfield _ (by simp) _ (hb.trims rfl)).append (hfield _ (by simp) _ (hc.trims rfl))
        ns hns
    case h_12 heq =>
      cases heq
      obtain _ | ⟨hb, _ | ⟨hc, _ | ⟨hf, _ | _⟩⟩⟩ := hvs
      exact (hfield _ (by simp) _ (hb.trims rfl)).append₃ (hfield _ (by simp) _ (hc.trims rfl))
        (hfield _ (by simp) _ (hf.trims rfl)) ns hns
    case h_13 heq =>
      cases heq
      obtain _ | ⟨_, _ | ⟨hb, _ | _⟩⟩ := hvs
      exact hfield _ (by simp) _ (hb.trims rfl) ns hns
    case h_14 heq =>
      cases heq
      obtain _ | ⟨_, _ | ⟨hcs, _ | _⟩⟩ := hvs
      obtain ⟨cs, rfl, hitems⟩ := (hcs.trims rfl).list_inv
      exact hall _ (by simp) _ hitems ns hns
    case h_15 heq =>
      cases heq
      obtain _ | ⟨_, _ | ⟨hcs, _ | ⟨hd, _ | ⟨hcs', _ | _⟩⟩⟩⟩ := hvs
      obtain ⟨cs, rfl, hbefore⟩ := (hcs.trims rfl).list_inv
      obtain ⟨cs', rfl, hafter⟩ := (hcs'.trims rfl).list_inv
      exact (hall _ (by simp) _ hbefore).append₃ (hfield _ (by simp) _ (hd.trims rfl))
        (hall _ (by simp) _ hafter) ns hns
    case h_16 heq =>
      cases heq
      obtain _ | ⟨_, _ | ⟨hss, _ | _⟩⟩ := hvs
      obtain ⟨ss, rfl, hitems⟩ := (hss.trims rfl).list_inv
      exact hall _ (by simp) _ hitems ns hns
    case h_17 heq =>
      cases heq
      obtain _ | ⟨hss, _ | _⟩ := hvs
      obtain ⟨ss, rfl, hitems⟩ := (hss.trims rfl).list_inv
      exact hall _ (by simp) _ hitems ns hns
    case h_18 =>
      rename_i l fields _ hd _ _ _ _ _ _ _ _ _ _ _ _ _ _ heq
      cases heq
      by_cases hh : Tree.hoistingKinds.contains k = true
      · rw [if_pos hh] at hns
        cases hns
      · rw [if_neg hh] at hns
        cases hns
        refine ⟨[], hoistedNames?_of_not_hoisting (by simpa using hh) ?_ vs, .refl _⟩
        exact hd
    case h_19 hnode =>
      exact (hnode _ _ rfl).elim

theorem hoistedNames?_trims {u v : Tree} (h : Trims u v) :
    Fewer u.hoistedNames? v.hoistedNames? :=
  hoistedNames?_step (fun _ _ _ h => hoistedNames?_trims h) h
termination_by sizeOf u

/-! ## Names of items -/

/-- What is exported is trimmed with its export, or has been replaced together with it. -/
theorem unwrapExport?_trims {u v : Tree} (h : Trims u v) :
    Follows (fun a b => Trims a b ∨ ∃ l vs, b = .node l vs ∧ l.isInert = true)
      u.unwrapExport? v.unwrapExport? := by
  intro a ha
  cases h with
  | leaf _ hleaf => exact ⟨a, ha, .inl (.refl a)⟩
  | list _ => cases ha
  | @swap k l us vs hk hl h =>
    refine ⟨.node l vs, ?_, .inr ⟨l, vs, rfl, hl⟩⟩
    unfold Tree.unwrapExport?
    split <;> first | rfl | simp_all [Kind.isInert]
  | @node k us vs hvs hkept =>
    unfold Tree.unwrapExport? at ha
    split at ha
    case h_1 heq =>
      cases heq
      cases ha
      obtain _ | ⟨hd, _ | _⟩ := hvs
      exact ⟨_, rfl, .inl (hd.trims rfl)⟩
    case h_2 heq =>
      cases heq
      cases ha
      obtain _ | ⟨hb, _ | _⟩ := hvs
      exact ⟨_, rfl, .inl (hb.trims rfl)⟩
    case h_3 => cases ha
    case h_4 => cases ha
    case h_5 hdecl hdefault heq =>
      cases heq
      cases ha
      refine ⟨.node k vs, ?_, .inl (.node hvs hkept)⟩
      unfold Tree.unwrapExport?
      split <;> simp_all
    case h_6 hnode => exact (hnode _ _ rfl).elim

theorem declarationName?_trims {k : Kind} {us vs : List Tree} (hvs : TrimsFields k 0 us vs) :
    Follows (· = ·) (Tree.node k us).declarationName? (Tree.node k vs).declarationName? := by
  intro n hn
  unfold Tree.declarationName? at hn
  split at hn
  case h_1 heq =>
    cases heq
    obtain _ | ⟨hname, _ | ⟨_, _ | ⟨_, _ | _⟩⟩⟩ := hvs
    exact bindingName?_trims (hname.trims rfl) n hn
  case h_2 heq =>
    cases heq
    obtain _ | ⟨_, _ | ⟨_, _ | ⟨hname, _ | ⟨_, _ | ⟨_, _ | _⟩⟩⟩⟩⟩ := hvs
    exact bindingName?_trims (hname.trims rfl) n hn
  case h_3 => cases hn

theorem lexicalNames?_trims (functionsAreVar : Bool) {u v : Tree} (h : Trims u v) :
    Fewer (u.lexicalNames? functionsAreVar) (v.lexicalNames? functionsAreVar) := by
  intro ns hns
  obtain ⟨a, ha, hns⟩ := Option.bind_eq_some_iff.1 hns
  obtain ⟨b, hb, hab⟩ := unwrapExport?_trims h a ha
  -- a node that is inert declares nothing
  have hinert : ∀ l vs, b = .node l vs → l.isInert = true →
      ∃ ms, v.lexicalNames? functionsAreVar = some ms ∧ ms.Sublist ns := by
    rintro l vs rfl hl
    refine ⟨[], ?_, List.nil_sublist ns⟩
    unfold Tree.lexicalNames?
    rw [hb]
    simp only [Option.bind_eq_bind, Option.bind_some]
    split <;> first | rfl | simp_all [Kind.isInert]
  rcases hab with hab | ⟨l, vs, heq, hl⟩
  swap
  · exact hinert l vs heq hl
  cases hab with
  | leaf _ hleaf => cases a <;> simp_all [Tree.isLeaf]
  | list _ => cases hns
  | swap _ hl _ => exact hinert _ _ rfl hl
  | @node k us vs hvs hkept =>
    unfold Tree.lexicalNames?
    rw [hb]
    simp only [Option.bind_eq_bind, Option.bind_some] at hns ⊢
    split at hns
    case h_1 heq =>
      cases heq
      obtain _ | ⟨hd, _ | _⟩ := hvs
      exact letNames?_trims (hd.trims rfl) hkept ns hns
    case h_2 => cases hns
    case h_3 heq =>
      cases heq
      exact letNames?_trims (.node hvs hkept) rfl ns hns
    case h_4 heq =>
      cases heq
      obtain ⟨n, hn, hns⟩ := Option.bind_eq_some_iff.1 hns
      obtain ⟨m, hm, rfl⟩ := declarationName?_trims hvs n hn
      cases hns
      exact ⟨_, Option.bind_eq_some_iff.2 ⟨n, hm, rfl⟩, .refl _⟩
    case h_5 heq =>
      cases heq
      by_cases hf : functionsAreVar = true
      · rw [if_pos hf] at hns
        exact ⟨ns, by simp only [if_pos hf]; exact hns, .refl _⟩
      · rw [if_neg hf] at hns
        obtain ⟨n, hn, hns⟩ := Option.bind_eq_some_iff.1 hns
        obtain ⟨m, hm, rfl⟩ := declarationName?_trims hvs n hn
        cases hns
        refine ⟨_, ?_, .refl _⟩
        simp only [if_neg hf]
        exact Option.bind_eq_some_iff.2 ⟨n, hm, rfl⟩
    case h_6 heq =>
      cases heq
      cases hns
      refine ⟨[], ?_, .refl _⟩
      split <;> simp_all
    case h_7 hnode => exact (hnode _ _ rfl).elim

theorem itemVarNames?_trims (functionsAreVar : Bool) {u v : Tree} (h : Trims u v) :
    Fewer (u.itemVarNames? functionsAreVar) (v.itemVarNames? functionsAreVar) := by
  intro ns hns
  obtain ⟨a, ha, hns⟩ := Option.bind_eq_some_iff.1 hns
  obtain ⟨hs, hhs, hns⟩ := Option.bind_eq_some_iff.1 hns
  obtain ⟨b, hb, hab⟩ := unwrapExport?_trims h a ha
  have hmore : hs.Sublist ns := by
    split at hns
    · obtain ⟨n, _, hns⟩ := Option.bind_eq_some_iff.1 hns
      cases hns
      exact List.sublist_cons_self n hs
    · cases hns
      exact .refl _
  -- whatever is no function declaration has the names that it hoists
  have hother : b.isKind .functionDeclaration = false → Fewer a.hoistedNames? b.hoistedNames? →
      ∃ ms, v.itemVarNames? functionsAreVar = some ms ∧ ms.Sublist ns := by
    intro hkind hfewer
    obtain ⟨ms, hms, hsub⟩ := hfewer hs hhs
    refine ⟨ms, ?_, hsub.trans hmore⟩
    simp [Tree.itemVarNames?, hb, hms, hkind]
  rcases hab with hab | ⟨l, vs, rfl, hl⟩
  swap
  · refine hother ?_ (by rw [hoistedNames?_inert hl]; exact .nil _)
    cases l <;> first | rfl | cases hl
  by_cases hkind : b.isKind .functionDeclaration = true
  · cases hab with
    | leaf _ hleaf => cases a <;> simp_all [Tree.isLeaf, Tree.isKind, Tree.kind?]
    | list _ => cases hkind
    | @swap k l _ _ _ hl _ =>
      obtain rfl : l = .functionDeclaration := by simpa [Tree.isKind, Tree.kind?] using hkind
      cases hl
    | @node k us vs hvs hkept =>
      obtain rfl : k = .functionDeclaration := by simpa [Tree.isKind, Tree.kind?] using hkind
      obtain ⟨ms, hms, hsub⟩ := hoistedNames?_trims (.node hvs hkept) hs hhs
      have hkind' : (Tree.node .functionDeclaration us).isKind .functionDeclaration = true := rfl
      cases functionsAreVar with
      | false =>
        rw [hkind', Bool.false_and, if_neg (by simp)] at hns
        cases hns
        exact ⟨ms, by simp [Tree.itemVarNames?, hb, hms], hsub⟩
      | true =>
        rw [hkind', Bool.and_self, if_pos rfl] at hns
        obtain ⟨n, hn, hns⟩ := Option.bind_eq_some_iff.1 hns
        cases hns
        obtain ⟨m, hm, rfl⟩ := declarationName?_trims hvs n hn
        exact ⟨n :: ms, by simp [Tree.itemVarNames?, hb, hms, hkind, hm], hsub.cons_cons n⟩
  · exact hother (by simpa using hkind) (hoistedNames?_trims hab)

theorem caseStatements?_trims {u v : Tree} (h : Trims u v) :
    Follows TrimsItems u.caseStatements? v.caseStatements? := by
  intro ss hss
  unfold Tree.caseStatements? at hss
  split at hss
  · cases hss
    obtain ⟨vs, rfl, hvs⟩ := h.fields_inv rfl
    obtain _ | ⟨_, _ | ⟨hitems, _ | _⟩⟩ := hvs
    obtain ⟨ss', rfl, hss'⟩ := (hitems.trims rfl).list_inv
    exact ⟨ss', rfl, hss'⟩
  · cases hss
    obtain ⟨vs, rfl, hvs⟩ := h.fields_inv rfl
    obtain _ | ⟨hitems, _ | _⟩ := hvs
    obtain ⟨ss', rfl, hss'⟩ := (hitems.trims rfl).list_inv
    exact ⟨ss', rfl, hss'⟩
  · cases hss

/-! ## Clashes -/

/-- A name is repeated when it occurs for the second time, also counting the ones seen before. -/
theorem mem_repeated {n : String} {seen ns : List String} (hseen : seen.count n ≤ 1) :
    n ∈ repeated seen ns ↔ 2 ≤ (seen ++ ns).count n := by
  induction ns generalizing seen with
  | nil =>
    rw [List.append_nil]
    exact iff_of_false nofun (by omega)
  | cons m ms ih =>
    have hperm : (m :: seen ++ ms).count n = (seen ++ m :: ms).count n :=
      List.Perm.count_eq (List.perm_middle.symm) n
    rw [repeated, ← hperm]
    by_cases hm : m = n
    · subst hm
      split
      · rename_i hone
        simp [hone]
      · rename_i hone
        exact ih (by rw [List.count_cons_self]; omega)
    · have hcount : (m :: seen).count n ≤ 1 := by rwa [List.count_cons_of_ne hm]
      split
      · rw [List.mem_cons, ih hcount]
        exact or_iff_right (Ne.symm hm)
      · exact ih hcount

/-- The names that are reported as occurring more than once do so. -/
theorem mem_duplicates {n : String} {ns : List String} : n ∈ duplicates ns ↔ 2 ≤ ns.count n :=
  mem_repeated (Nat.zero_le 1)

/-- No name is reported as occurring twice exactly if the names are distinct. -/
theorem duplicates_eq_nil {ns : List String} : duplicates ns = [] ↔ ns.Nodup := by
  rw [List.eq_nil_iff_forall_not_mem, List.nodup_iff_count_le_one]
  exact forall_congr' fun n => by rw [mem_duplicates, Nat.not_le, Nat.lt_succ_iff]

theorem mem_shared {n : String} {xs ys : List String} : n ∈ shared xs ys ↔ n ∈ xs ∧ n ∈ ys := by
  rw [shared, Grammar.sortWords, List.mem_mergeSort, List.mem_eraseDups, List.mem_filter,
    List.contains_iff_mem]

/-- No name is reported as shared exactly if none is. -/
theorem shared_eq_nil {xs ys : List String} : shared xs ys = [] ↔ ∀ n ∈ xs, n ∉ ys := by
  rw [List.eq_nil_iff_forall_not_mem]
  simp only [mem_shared, not_and]

/-! ## Scopes -/

/-- The items of a scope do not clash after they have been trimmed. -/
theorem scopeErrors_trims {functionsAreVar : Bool} {us vs : List Tree} (h : TrimsItems us vs)
    (hus : scopeErrors functionsAreVar us = some []) :
    scopeErrors functionsAreVar vs = some [] := by
  obtain ⟨nss, hnss, hus⟩ := Option.bind_eq_some_iff.1 hus
  obtain ⟨mss, hmss, hus⟩ := Option.bind_eq_some_iff.1 hus
  simp only [Option.pure_def, Option.some.injEq, List.append_eq_nil_iff,
    List.map_eq_nil_iff, duplicates_eq_nil, shared_eq_nil] at hus
  obtain ⟨nss', hnss', hsub⟩ := h.mapM (fun _ _ => lexicalNames?_trims functionsAreVar) nss hnss
  obtain ⟨mss', hmss', hsub'⟩ := h.mapM (fun _ _ => itemVarNames?_trims functionsAreVar) mss hmss
  have hlexical := sublist_flatten hsub
  have hvars := sublist_flatten hsub'
  rw [scopeErrors, hnss', hmss']
  simp only [Option.bind_eq_bind, Option.bind_some, Option.pure_def, Option.some.injEq,
    List.append_eq_nil_iff, List.map_eq_nil_iff, duplicates_eq_nil, shared_eq_nil]
  refine ⟨hlexical.nodup hus.1, fun n hn hn' => ?_⟩
  exact hus.2 n (hlexical.subset hn) (hvars.subset hn')

end Whittle
