import Whittle.Proofs.Promotion
import Whittle.Proofs.Simplification

/-!
# Edits make trees lighter

In a tree that fits loosely every edit below a position comes about, leaves a tree that fits
loosely, and makes it lighter.
-/

namespace Whittle

open Grammar Whittle.Language

/-- An edit at the path of frames puts its value into their hole. -/
theorem apply_plugAll {fs : List Frame} (hfs : Positions fs) (u v : Tree) :
    Edit.apply ⟨pathOf fs, v⟩ (plugAll fs u) = .ok (plugAll fs v) := by
  rw [Edit.apply, replace_plugAll hfs]
  rfl

theorem apply_eq_ok {e : Edit} {t c : Tree} :
    e.apply t = .ok c ↔ t.replace e.path e.value = .ok c := by
  rw [Edit.apply]
  cases t.replace e.path e.value <;> simp [Except.mapError]

/-- An edit of the value `u` in the frames `ps`: it puts at one position something lighter
that fits there. -/
def Lightens (ps : List Frame) (u : Tree) (e : Edit) : Prop :=
  ∃ fs x v, Positions fs ∧ plugAll fs x = u ∧ e = ⟨pathOf fs, v⟩ ∧
    FitsAt true (holeTypeOf true none (fs ++ ps)) v ∧ v.weight < x.weight

/-- What such an edit leads to fits, and is lighter. -/
theorem Lightens.apply {ps : List Frame} {u : Tree} {e : Edit} (hps : Positions ps)
    (h : FitsAt true none (plugAll ps u)) (he : Lightens ps u e) :
    ∃ u', e.apply u = .ok u' ∧ FitsAt true none (plugAll ps u') ∧
      (plugAll ps u').weight < (plugAll ps u).weight := by
  obtain ⟨fs, x, v, hfs, rfl, rfl, hv, hlt⟩ := he
  rw [← plugAll_append] at h
  have hall := hfs.append hps
  refine ⟨plugAll fs v, ?_, ?_, ?_⟩
  · exact apply_plugAll hfs x v
  · rw [← plugAll_append]
    exact FitsAt.plugAll (fs ++ ps) h hall hv
  · rw [← plugAll_append, ← plugAll_append]
    exact weight_plugAll_lt hall hv hlt

/-! ## Lists -/

theorem mem_withoutEach {items rest : List Tree} : rest ∈ withoutEach items ↔
    ∃ before t after, items = before ++ t :: after ∧ rest = before ++ after := by
  induction items generalizing rest with
  | nil => simp [withoutEach]
  | cons u us ih =>
    simp only [withoutEach, List.mem_append, List.mem_map, List.mem_singleton, ih]
    constructor
    · rintro (⟨_, ⟨before, t, after, rfl, rfl⟩, rfl⟩ | rfl)
      · exact ⟨u :: before, t, after, rfl, rfl⟩
      · exact ⟨[], u, _, rfl, rfl⟩
    · rintro ⟨_ | ⟨b, before⟩, t, after, heq, rfl⟩
      · cases heq
        exact .inr rfl
      · cases heq
        exact .inl ⟨_, ⟨before, t, after, rfl, rfl⟩, rfl⟩

theorem lightens_drop {ps fs : List Frame} {before after : List Tree} {t : Tree}
    (hfs : Positions fs) (hps : Positions ps)
    (h : FitsAt true none (plugAll ps (plugAll fs (.list (before ++ t :: after))))) :
    Lightens ps (plugAll fs (.list (before ++ t :: after)))
      ⟨pathOf fs, .list (before ++ after)⟩ := by
  rw [← plugAll_append] at h
  obtain ⟨t', htype, hitems⟩ := (h.holeAll (fs ++ ps) (hfs.append hps)).items
  refine ⟨fs, _, _, hfs, rfl, rfl, ?_, ?_⟩
  · rw [htype]
    refine ⟨t', rfl, itemsFit_iff.2 fun w hw => hitems w ?_⟩
    simp only [List.mem_append, List.mem_cons] at hw ⊢
    tauto
  · rw [weight_list, weight_list, itemsWeight_middle]
    omega

/-! ## Flags -/

theorem mem_withFlagCleared {fields vs : List Tree} (h : vs ∈ withFlagCleared fields) :
    ∃ before after, fields = before ++ .bool true :: after ∧
      vs = before ++ .bool false :: after := by
  induction fields generalizing vs with
  | nil => cases h
  | cons f fs ih =>
    simp only [withFlagCleared, List.mem_append, List.mem_map] at h
    rcases h with h | ⟨ws, hws, rfl⟩
    · split at h
      · rename_i htrue
        obtain rfl := List.mem_singleton.1 h
        cases f with
        | bool b =>
          simp only [Tree.isTrue] at htrue
          subst htrue
          exact ⟨[], fs, rfl, rfl⟩
        | _ => simp [Tree.isTrue] at htrue
      · cases h
    · obtain ⟨before, after, rfl, rfl⟩ := ih hws
      exact ⟨f :: before, after, rfl, rfl⟩

theorem mem_withFlagCleared_append (before after : List Tree) :
    before ++ .bool false :: after ∈ withFlagCleared (before ++ .bool true :: after) := by
  induction before with
  | nil => simp [withFlagCleared, Tree.isTrue]
  | cons b before ih =>
    rw [List.cons_append, withFlagCleared]
    exact List.mem_append_right _ (List.mem_map_of_mem ih)

/-- Where one truth value is admitted, so is the other. -/
theorem admits_bool {t : TypeSpec} (ht : isLeafType t = true) (a b : Bool)
    (h : t.admits (.bool a) = true) : t.admits (.bool b) = true := by
  unfold isLeafType at ht
  split at ht <;> simp_all [Spec.admits, Spec.admits?]

theorem fieldsWeight_flag (k : Kind) (names : List String) (before after : List Tree) :
    fieldsWeight k names (before ++ .bool false :: after)
      < fieldsWeight k names (before ++ .bool true :: after) := by
  have hfield : ∀ name, fieldWeight k name (.bool false) < fieldWeight k name (.bool true) := by
    intro name
    unfold fieldWeight
    split
    · simp [Tree.isText, weight_false, weight_true]
    · exact Nat.lt_succ_self 1
  induction before generalizing names with
  | nil =>
    cases names with
    | nil => simp [fieldsWeight, weight_false, weight_true]
    | cons n ns =>
      simp only [List.nil_append, fieldsWeight_cons]
      exact Nat.add_lt_add_right (hfield n) _
  | cons b before ih =>
    cases names with
    | nil => simpa [fieldsWeight] using ih []
    | cons n ns =>
      simp only [List.cons_append, fieldsWeight_cons]
      exact Nat.add_lt_add_left (ih ns) _

/-- A node with a flag cleared is lighter. -/
theorem flagCleared_lt (k : Kind) (before after : List Tree) :
    (Tree.node k (before ++ .bool false :: after)).weight
      < (Tree.node k (before ++ .bool true :: after)).weight := by
  have hnode : nodeWeight k (before ++ .bool false :: after)
      = nodeWeight k (before ++ .bool true :: after) := by
    by_cases hk : k = .expressionStatement
    · subst hk
      simp [nodeWeight_expressionStatement, Tree.isExpression]
    · rw [nodeWeight_of_ne hk, nodeWeight_of_ne hk]
  rw [Tree.weight, Tree.weight, hnode]
  exact Nat.add_lt_add_left (fieldsWeight_flag ..) _

variable {loose : Bool}

/-- A node with a flag cleared fits and is lighter. -/
theorem flagCleared_spec {k : Kind} {before after : List Tree}
    (h : FieldsFit loose k k.slots (before ++ .bool true :: after)) :
    FieldsFit loose k k.slots (before ++ .bool false :: after) ∧
      (Tree.node k (before ++ .bool false :: after)).weight
        < (Tree.node k (before ++ .bool true :: after)).weight := by
  obtain ⟨s, hs, htrue⟩ := h.middle
  have hfit : FieldsFit loose k k.slots (before ++ .bool false :: after) := by
    refine h.replace hs ?_
    unfold FitsSlot at htrue ⊢
    split
    · rename_i type htype
      rw [htype] at htrue
      exact htrue.elim
    · rename_i hnone
      rw [hnone] at htrue
      have hleaf := isPlainSlot_of_mem (List.mem_of_getElem? hs)
      rw [isPlainSlot, slotPosition_eq_none.1 hnone] at hleaf
      exact admits_bool hleaf _ _ htrue
  exact ⟨hfit, flagCleared_lt k before after⟩

/-! ## Nodes -/

/-- Only `null` and the empty statement are as light as one. -/
theorem one_lt_weight {k : Kind} (hnull : k ≠ .literalNullExpression) (hempty : k ≠ .emptyStatement)
    (fields : List Tree) : 1 < (Tree.node k fields).weight := by
  by_cases hone : 1 < nodeWeight k fields
  · rw [Tree.weight]
    omega
  · -- the node is the statement of an expression
    have hk : k = .expressionStatement := by
      by_contra hk
      rw [nodeWeight_of_ne hk] at hone
      cases k <;> simp_all [Kind.weight]
    subst hk
    rw [nodeWeight_expressionStatement] at hone
    split at hone
    · rename_i h
      obtain ⟨t, rfl⟩ := List.length_eq_one_iff.1 h.1
      obtain ⟨l, fs, rfl⟩ : ∃ l fs, t = .node l fs := by
        cases t <;> simp_all [Tree.isExpression]
      rw [weight_statementOf (by simpa [Tree.isExpression] using h)]
      have := weight_pos l fs
      omega
    · omega

theorem fits_sentinel {s : Kind} (hs : s ∈ sentinelKinds) :
    FieldsFit loose s s.slots [] ∧ newNode s [] = .ok (.node s []) ∧
      (Tree.node s []).weight = 1 := by
  simp only [sentinelKinds, List.mem_cons, List.not_mem_nil, or_false] at hs
  rcases hs with rfl | rfl
  · have h : FieldsFit loose .literalNullExpression Kind.literalNullExpression.slots [] :=
      (fit_zero rfl rfl).2 rfl
    exact ⟨h, newNode_of_fieldsFit rfl h, rfl⟩
  · have h : FieldsFit loose .emptyStatement Kind.emptyStatement.slots [] :=
      (fit_zero rfl rfl).2 rfl
    exact ⟨h, newNode_of_fieldsFit rfl h, rfl⟩

/-- No position takes both sentinels. -/
theorem not_both_sentinels {fs : List Frame} {type : Position}
    (h : holeTypeOf true none fs = some type) :
    ¬ (type.required.takes .literalNullExpression = true ∧
      type.required.takes .emptyStatement = true) := by
  have hQ : forallHoleTypes true (fun t => !(t.required.takes .literalNullExpression &&
    t.required.takes .emptyStatement)) = true := by decide
  have := holds_of_holeType hQ h
  rintro ⟨h1, h2⟩
  simp [h1, h2] at this

theorem PositionType.required_of_takes {t : Position} {k : Kind} (h : t.takes k = true) :
    t.required.takes k = true := by
  cases t <;> simp_all [PositionType.takes, PositionType.required]

/-- What a replacement puts at a position fits there and is lighter. -/
theorem replacements_whole {fs : List Frame} {k : Kind} {fields : List Tree} {s : Surroundings}
    (hfs : Positions fs) (h : FitsAt true none (plugAll fs (.node k fields)))
    (htype : s.type = holeTypeOf false none fs) :
    ((Site.mk s (.node k fields)).replacements k fields).Whole fun v =>
      FitsAt true (holeTypeOf true none fs) v ∧ v.weight < (Tree.node k fields).weight := by
  have hnode := h.holeAll fs hfs
  have hfit := hnode.isFit
  -- what is taken in the place of the node fits if its fields do
  have hplace : ∀ l vs, FieldsFit true l l.slots vs →
      (∀ type, holeTypeOf true none fs = some type → type.required.takes l = true) →
      FitsAt true (holeTypeOf true none fs) (.node l vs) := by
    intro l vs hvs hl
    cases hhole : holeTypeOf true none fs with
    | none => exact hvs
    | some type => exact ⟨hl type hhole, hvs⟩
  refine ((Series.whole_mapList fun s hs => ?_).append
    ((simplifications_whole hfit).mono ?_)).append (Series.whole_ofList ?_)
  · simp only [sentinels, List.mem_filter, Bool.and_eq_true, bne_iff_ne, ne_eq, htype] at hs
    obtain ⟨hs, hne, htakes⟩ := hs
    obtain ⟨hsfit, hnew, hweight⟩ := @fits_sentinel true s hs
    have hfne : fs ≠ [] := by
      rintro rfl
      cases htakes
    obtain ⟨type, type', hstrict, hloose, hloosens⟩ := loosens_holeTypeOf hfs _ h hfne
    rw [hstrict, Option.any_some] at htakes
    have htakes' := hloosens.takes (PositionType.required_of_takes htakes)
    refine ⟨_, hnew, hplace s [] hsfit fun t ht => ?_, ?_⟩
    · cases hloose.symm.trans ht
      exact htakes'
    · rw [hweight]
      rw [hloose] at hnode
      have hboth := not_both_sentinels hloose
      simp only [sentinelKinds, List.mem_cons, List.not_mem_nil, or_false] at hs
      refine one_lt_weight ?_ ?_ fields
      · rintro rfl
        rcases hs with rfl | rfl
        · exact hne rfl
        · exact hboth ⟨hnode.1, htakes'⟩
      · rintro rfl
        rcases hs with rfl | rfl
        · exact hboth ⟨htakes', hnode.1⟩
        · exact hne rfl
  · rintro v ⟨l, vs, rfl, hvs, hlt, hreplaces⟩
    refine ⟨hplace l vs hvs fun type htype => hreplaces fs type htype ?_, hlt⟩
    rw [htype] at hnode
    exact hnode.1
  · intro v hv
    obtain ⟨vs, hvs, rfl⟩ := List.mem_map.1 hv
    obtain ⟨before, after, rfl, rfl⟩ := mem_withFlagCleared hvs
    obtain ⟨hvfit, hlt⟩ := flagCleared_spec hfit
    refine ⟨hplace k _ hvfit fun type htype => ?_, hlt⟩
    rw [htype] at hnode
    exact hnode.1

theorem promotion_whole {ps fs : List Frame} {k : Kind} {fields : List Tree} (hfs : Positions fs)
    (hps : Positions ps) (h : FitsAt true none (plugAll (fs ++ ps) (.node k fields))) :
    ∃ r, promotion k (.node k fields) (enclosingOf (holeTypeOf false none ps) fs) = .ok r ∧
      ∀ e ∈ r, Lightens ps (plugAll fs (.node k fields)) e := by
  by_cases hne : fs = []
  · subst hne
    exact ⟨none, rfl, by simp⟩
  · have hall := hfs.append hps
    have hnot := not_program_of_hole hall (by simp [hne]) h
    have hfit : FieldsFit true k k.slots fields := (h.holeAll _ hall).isFit
    obtain ⟨r, hr, hinner⟩ := promotion_spec (holeTypeOf false none ps) hnot.2 hfit fs
    refine ⟨r, hr, fun e he => ?_⟩
    obtain rfl := he
    obtain ⟨inner, outer, rfl, hne', houter, hpath, hlifts, -⟩ := hinner
    rw [← holeTypeOf_append, List.nil_append] at hlifts
    rw [List.append_assoc] at h hall
    have hv := hlifts.fitsAt hall hne' (by simp [houter]) h
    have hlt := hlifts.lighter hfs.left hne'
    refine ⟨outer, plugAll inner (.node k fields), e.value, hfs.right, ?_, ?_, hv, hlt⟩
    · rw [plugAll_append]
    · rw [← hpath]

theorem Site.edits_list (s : Surroundings) (items : List Tree) :
    (Site.mk s (.list items)).edits
      = if mayDrop s.owner items then
          .ofList ((withoutEach items).map fun rest => ⟨s.path, .list rest⟩)
        else .empty := rfl

theorem Site.edits_node (s : Surroundings) (k : Kind) (fields : List Tree) :
    (Site.mk s (.node k fields)).edits
      = .ofList (if isOptional s.type then [⟨s.path, .absent⟩] else [])
        ++ (match promotion k (.node k fields) s.enclosing with
          | .ok e => .ofList e.toList
          | .error f => .broken f)
        ++ ((Site.mk s (.node k fields)).replacements k fields).map (Edit.mk s.path) := rfl

/-- Every edit at a site makes the tree lighter. -/
theorem siteEdits_whole {ps : List Frame} {u : Tree} (hps : Positions ps)
    (h : FitsAt true none (plugAll ps u)) {site : Site}
    (hsite : site ∈ sites (holeTypeOf false none ps) u) : site.edits.Whole (Lightens ps u) := by
  obtain ⟨fs, w, hfs, rfl, -, rfl⟩ := mem_sites_iff.1 hsite
  rw [← plugAll_append] at h
  have hall := hfs.append hps
  have hw := h.holeAll (fs ++ ps) hall
  cases w with
  | list items =>
    rw [Site.edits_list]
    split
    · refine Series.whole_ofList fun e he => ?_
      obtain ⟨rest, hrest, rfl⟩ := List.mem_map.1 he
      obtain ⟨before, t, after, rfl, rfl⟩ := mem_withoutEach.1 hrest
      exact lightens_drop hfs hps (by rwa [← plugAll_append])
    · exact Series.whole_empty
  | node k fields =>
    rw [Site.edits_node]
    refine ((Series.whole_ofList ?_).append ?_).append
      ((replacements_whole hall h (holeTypeOf_append ..).symm).map ?_)
    · intro e he
      rw [← holeTypeOf_append] at he
      split at he
      · rename_i hoptional
        obtain rfl := List.mem_singleton.1 he
        refine ⟨fs, _, .absent, hfs, rfl, rfl, ?_, weight_pos k fields⟩
        have hne : fs ++ ps ≠ [] := by
          intro hnil
          rw [hnil] at hoptional
          cases hoptional
        obtain ⟨type, type', hstrict, hloose, hloosens⟩ := loosens_holeTypeOf hall _ h hne
        rw [hstrict] at hoptional
        rw [hloose]
        obtain rfl | ⟨ms, rfl, -⟩ := hloosens
        · exact hoptional
        · cases hoptional
      · cases he
    · obtain ⟨r, hr, hspec⟩ := promotion_whole hfs hps h
      simp only [hr]
      exact Series.whole_ofList fun e he => hspec e (Option.mem_toList.1 he)
    · rintro v ⟨hv, hlt⟩
      exact ⟨fs, _, v, hfs, rfl, rfl, hv, hlt⟩
  | _ =>
    cases htype : holeTypeOf true none (fs ++ ps) with
    | none => rw [htype] at hw; exact hw.elim
    | some type => rw [htype] at hw; first | exact hw.elim | exact Series.whole_empty

/-- Every edit of a value that stands in a tree that fits loosely comes about and makes the
tree lighter. -/
theorem edits_whole {ps : List Frame} {u : Tree} (hps : Positions ps)
    (h : FitsAt true none (plugAll ps u)) :
    (edits (holeTypeOf false none ps) u).Whole (Lightens ps u) := by
  refine Series.whole_concat fun s hs => ?_
  obtain ⟨site, hsite, rfl⟩ := List.mem_map.1 hs
  exact siteEdits_whole hps h hsite

/-! ## The edits of a position -/

/-- The site that the hole of frames is. -/
def siteOf (fs : List Frame) (w : Tree) : Site :=
  ⟨⟨pathOf fs, holeTypeOf false none fs, fs.head?.bind Frame.occupant, enclosingOf none fs⟩, w⟩

theorem mem_edits {fs : List Frame} {w : Tree} (hfs : Positions fs)
    (h : (plugAll fs w).IsFit false) (hw : w ≠ .absent) {e : Edit}
    (he : e ∈ (siteOf fs w).edits.items) : e ∈ (edits none (plugAll fs w)).items := by
  refine Series.mem_concat (fun s hs => ?_)
    (List.mem_map.2 ⟨_, mem_sites_iff.2 ⟨fs, w, hfs, rfl, hw, rfl⟩, rfl⟩) he
  obtain ⟨site, hsite, rfl⟩ := List.mem_map.1 hs
  have hnone : Positions [] := by simp [Positions]
  exact (siteEdits_whole hnone h.loosen hsite).1

section Node

variable {fs : List Frame} {k : Kind} {fields : List Tree}

/-- The promotion of a node that fits comes about, and so do all of the edits at its site. -/
theorem exists_promotion (hfs : Positions fs)
    (h : (plugAll fs (.node k fields)).IsFit false) :
    ∃ r, promotion k (.node k fields) (enclosingOf none fs) = .ok r ∧
      (siteOf fs (.node k fields)).edits.items
        = (if isOptional (holeTypeOf false none fs) then [⟨pathOf fs, .absent⟩] else [])
          ++ r.toList ++ ((siteOf fs (.node k fields)).replacements k fields).items.map
            (Edit.mk (pathOf fs)) := by
  have hnone : Positions [] := by simp [Positions]
  have hloose : FitsAt true none (plugAll (fs ++ []) (.node k fields)) := by
    rw [List.append_nil]
    exact h.loosen
  obtain ⟨r, hr, -⟩ := promotion_whole hfs hnone hloose
  rw [holeTypeOf] at hr
  refine ⟨r, hr, ?_⟩
  rw [siteOf, Site.edits_node, Series.items_append_of_whole, Series.items_append_of_whole]
  · show _ ++ (match promotion k (.node k fields) (enclosingOf none fs) with
      | .ok e => Series.ofList e.toList
      | .error f => .broken f).items ++ _ = _
    rw [hr]
    rfl
  · rfl
  · rw [Series.fault_append_of_whole rfl]
    show (match promotion k (.node k fields) (enclosingOf none fs) with
      | .ok e => Series.ofList e.toList
      | .error f => .broken f).fault = none
    rw [hr]
    rfl

/-- The replacements of a node that fits come about. -/
theorem replacements_eq (s : Surroundings) (h : FieldsFit false k k.slots fields) :
    (Site.mk s (.node k fields)).replacements k fields
      = .ofList ((sentinels s.type k).map (Tree.node · []) ++ (simplifications k fields).items
        ++ (withFlagCleared fields).map (Tree.node k)) := by
  have hsentinels : ∀ ks : List Kind, (∀ l ∈ ks, l ∈ sentinelKinds) →
      Series.mapList (fun l => newNode l []) ks = .ofList (ks.map (Tree.node · [])) := by
    intro ks hks
    induction ks with
    | nil => rfl
    | cons l ks ih =>
      have hnew := (@fits_sentinel false l (hks l List.mem_cons_self)).2.1
      rw [Series.mapList, hnew, ih fun l' hl' => hks l' (List.mem_cons_of_mem _ hl')]
      rfl
  have hs := hsentinels (sentinels s.type k) fun l hl => (List.mem_filter.1 hl).1
  have hwhole := Series.eq_ofList (simplifications_whole h).1
  rw [Site.replacements, hs, hwhole, Series.ofList_append, Series.ofList_append]
  rfl

/-- The edits of a node that fits: its removal, its promotion and its replacements. -/
theorem Site.edits_eq {s : Surroundings} {r : Option Edit}
    (hr : promotion k (.node k fields) s.enclosing = .ok r) (h : FieldsFit false k k.slots fields) :
    (Site.mk s (.node k fields)).edits = .ofList
      ((if isOptional s.type then [⟨s.path, .absent⟩] else []) ++ r.toList
        ++ ((sentinels s.type k).map (Tree.node · []) ++ (simplifications k fields).items
          ++ (withFlagCleared fields).map (Tree.node k)).map (Edit.mk s.path)) := by
  rw [Site.edits_node, hr, replacements_eq s h]
  rfl

/-- The replacements of a node that fits. -/
theorem items_replacements (s : Surroundings) (h : FieldsFit false k k.slots fields) :
    ((Site.mk s (.node k fields)).replacements k fields).items
      = (sentinels s.type k).map (Tree.node · []) ++ (simplifications k fields).items
        ++ (withFlagCleared fields).map (Tree.node k) := by
  rw [replacements_eq s h]
  rfl

end Node

end Whittle
