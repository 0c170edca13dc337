import Whittle.Proofs.Edits

/-!
# Every edit lowers the burden

In any tree, well-typed or not, an edit that comes about leaves less of weight and strays
together: it puts something lighter in the place of a part, or the sentinel that belongs there in
the place of a stray one.
-/

namespace Whittle

open Grammar Whittle.Language

/-- An edit of the value `u` at a position of the given type: it puts at one position something
that is less of a burden there. -/
def Unburdens (type : Option Position) (u : Tree) (e : Edit) : Prop :=
  ∃ fs x v, Positions fs ∧ plugAll fs x = u ∧ e = ⟨pathOf fs, v⟩ ∧ KeepsExpression fs x v ∧
    burden (holeTypeOf false type fs) v < burden (holeTypeOf false type fs) x

/-- Such an edit comes about, and what it leads to is less of a burden. -/
theorem Unburdens.apply {type : Option Position} {u : Tree} {e : Edit} (h : Unburdens type u e) :
    ∃ u', e.apply u = .ok u' ∧ burden type u' < burden type u := by
  obtain ⟨fs, x, v, hfs, rfl, rfl, hkeep, hlt⟩ := h
  refine ⟨plugAll fs v, apply_plugAll hfs x v, ?_⟩
  have hweight := weight_plugAll_le hfs hkeep
  obtain ⟨m, hstrays⟩ := strays_plugAll type hfs
  unfold burden at hlt ⊢
  rw [hstrays, hstrays]
  omega

/-! ## Expression statements stay light -/

section Keeps

variable {type : Option Position} {fs : List Frame}

/-- A hole that an expression statement has is not optional and takes expressions only; what is
put elsewhere may be anything. -/
theorem keepsExpression_of {x v : Tree} (hfs : Positions fs)
    (h : isOptional (holeTypeOf false type fs) = false →
      (∀ l, (holeTypeOf false type fs).any (·.required.takes l) = l.isExpression) →
      v.isExpression = true) : KeepsExpression fs x v := by
  intro f hf hocc _
  obtain ⟨fs', rfl⟩ : ∃ fs', fs = f :: fs' := by
    cases fs with
    | nil => cases hf
    | cons g gs => cases hf; exact ⟨gs, rfl⟩
  cases f with
  | item before after => cases hocc
  | field k before after =>
    cases hocc
    obtain ⟨p, htype, hopt, htakes⟩ := @holeType_expressionStatement false _ _
      (hfs _ List.mem_cons_self) (holeTypeOf false type fs')
    rw [holeTypeOf, htype] at h
    exact h hopt htakes

/-- What the hole of an expression statement takes is an expression. -/
theorem keepsExpression_of_takes (hfs : Positions fs) {l : Kind}
    (h : (holeTypeOf false type fs).any (·.required.takes l) = true) (x : Tree) (vs : List Tree) :
    KeepsExpression fs x (.node l vs) :=
  keepsExpression_of hfs fun _ htakes => (htakes l).symm.trans h

/-- Where statements stand, there is no expression statement around. -/
theorem keepsExpression_of_takesStatements (hfs : Positions fs)
    (h : (holeTypeOf false type fs).any (·.required.takes .expressionStatement) = true)
    (x v : Tree) : KeepsExpression fs x v :=
  keepsExpression_of hfs fun _ htakes => by cases (htakes .expressionStatement).symm.trans h

/-- The hole of an expression statement is not optional. -/
theorem keepsExpression_of_optional (hfs : Positions fs)
    (h : isOptional (holeTypeOf false type fs) = true) (x v : Tree) : KeepsExpression fs x v :=
  keepsExpression_of hfs fun hopt _ => by cases hopt.symm.trans h

end Keeps

/-! ## Replacements -/

theorem isStray_of_not_sentinel {k : Kind} (hk : k ∉ sentinelKinds) (type : Option Position) :
    isStray type k = false := by
  have hcontains : sentinelKinds.contains k = false := by simpa using hk
  rw [isStray, hcontains, Bool.false_and]

/-- A node that is no sentinel has the same strays wherever it stands. -/
theorem strays_of_not_sentinel {k : Kind} (hk : k ∉ sentinelKinds) (fields : List Tree)
    (type : Option Position) :
    (Tree.node k fields).strays type = (Tree.node k fields).strays none := by
  rw [Tree.strays, Tree.strays, isStray_of_not_sentinel hk, isStray_none]

theorem any_required_of_takes {type : Option Position} {k : Kind}
    (h : type.any (·.takes k) = true) : type.any (·.required.takes k) = true := by
  cases type with
  | none => cases h
  | some t => exact PositionType.required_of_takes h

/-- A sentinel is less of a burden than what it replaces: a heavier node or a stray one. -/
theorem burden_sentinel_lt {type : Option Position} (htype : Exclusive type) {k s : Kind}
    {fields : List Tree} (hs : s ∈ sentinels type k) :
    burden type (.node s []) < burden type (.node k fields) := by
  have hmem := hs
  simp only [sentinels, List.mem_filter, Bool.and_eq_true, bne_iff_ne, ne_eq] at hmem
  obtain ⟨hsentinel, hne, htakes⟩ := hmem
  have hweight : (Tree.node s []).weight = 1 := (@fits_sentinel false s hsentinel).2.2
  have hstrays : (Tree.node s []).strays type = 0 := by
    rw [strays_of_takes htype (any_required_of_takes htakes)]
    simp [Tree.strays, fieldsStrays]
  by_cases hk : k ∈ sentinelKinds
  · have hstray : isStray type k = true := by
      simp [isStray, hk, List.ne_nil_of_mem hs]
    have hpos := weight_pos k fields
    have hone : 1 ≤ (Tree.node k fields).strays type := by
      rw [Tree.strays, hstray]
      exact Nat.le_add_right ..
    unfold burden
    omega
  · have hheavy : 1 < (Tree.node k fields).weight := by
      simp only [sentinelKinds, List.mem_cons, List.not_mem_nil, or_false, not_or] at hk
      exact one_lt_weight hk.1 hk.2 fields
    unfold burden
    omega

theorem burden_flag_lt (type : Option Position) (k : Kind) (before after : List Tree) :
    burden type (.node k (before ++ .bool false :: after))
      < burden type (.node k (before ++ .bool true :: after)) := by
  have hfields : ∀ slots : List Slot, fieldsStrays slots (before ++ .bool false :: after)
      = fieldsStrays slots (before ++ .bool true :: after) := by
    induction before with
    | nil => intro slots; cases slots <;> rfl
    | cons b before ih => intro slots; cases slots <;> simp [fieldsStrays, ih]
  have hweight := flagCleared_lt k before after
  rw [burden, burden, Tree.strays, Tree.strays, hfields]
  omega

/-- What a simplification is made of is an expression if the node was. -/
theorem isExpression_of_replacement {l k : Kind} (h : (l, k) ∈ replacements)
    (hk : k.isExpression = true) : l.isExpression = true := by
  have hall : replacements.all (fun e => !e.2.isExpression || e.1.isExpression) = true := by
    decide
  simpa [hk] using List.all_eq_true.1 hall (l, k) h

theorem not_sentinel_of_replacement {l k : Kind} (h : (l, k) ∈ replacements) :
    l ∉ sentinelKinds := by
  have hall : replacements.all (fun e => !sentinelKinds.contains e.1) = true := by decide
  simpa using List.all_eq_true.1 hall (l, k) h

/-- A replacement of a node is less of a burden than the node. -/
theorem unburdens_of_mem_replacements {type : Option Position} (htype : Exclusive type)
    {fs : List Frame} (hfs : Positions fs) {k : Kind} {fields : List Tree} {s : Surroundings}
    (hs : s.type = holeTypeOf false type fs) {v : Tree}
    (hv : v ∈ ((Site.mk s (.node k fields)).replacements k fields).items) :
    Unburdens type (plugAll fs (.node k fields)) ⟨pathOf fs, v⟩ := by
  suffices h : KeepsExpression fs (.node k fields) v ∧
      burden (holeTypeOf false type fs) v < burden (holeTypeOf false type fs) (.node k fields) from
    ⟨fs, _, v, hfs, rfl, rfl, h.1, h.2⟩
  rcases Series.mem_append hv with hv | hv
  · rcases Series.mem_append hv with hv | hv
    · -- a sentinel that the position takes
      obtain ⟨l, hl, hnew⟩ := Series.exists_of_mem_mapList hv
      obtain ⟨rfl, -⟩ := newNode_eq_ok hnew
      replace hl : l ∈ sentinels (holeTypeOf false type fs) k := hs ▸ hl
      have htakes := (Bool.and_eq_true_iff.1 (List.mem_filter.1 hl).2).2
      exact ⟨keepsExpression_of_takes hfs (any_required_of_takes htakes) _ _,
        burden_sentinel_lt (htype.hole fs) hl⟩
    · -- a simplification
      obtain ⟨l, vs, rfl, hrelief⟩ := simplifications_relieve hv
      refine ⟨fun _ _ _ h => isExpression_of_replacement hrelief.mem h, ?_⟩
      have hlt := hrelief.lighter
      have hle := hrelief.strays_le.trans ((Tree.node k fields).strays_none_le
        (holeTypeOf false type fs))
      rw [burden, strays_of_not_sentinel (not_sentinel_of_replacement hrelief.mem), burden]
      omega
  · -- a flag that is cleared
    obtain ⟨vs, hvs, rfl⟩ := List.mem_map.1 hv
    obtain ⟨before, after, rfl, rfl⟩ := mem_withFlagCleared hvs
    exact ⟨fun _ _ _ h => h, burden_flag_lt ..⟩

/-! ## Promotions -/

/-- What a node is lifted to is less of a burden than what stood there, if it has no more strays
than the node has inside. -/
theorem Lifts.unburdens {type : Option Position} {k : Kind} {fields : List Tree}
    {inner outer : List Frame} {v : Tree} (hpos : Positions (inner ++ outer)) (hinner : inner ≠ [])
    (hv : Lifts k (.node k fields) (holeTypeOf false type outer) inner v)
    (hkeep : KeepsExpression outer (plugAll inner (.node k fields)) v)
    (hstrays : v.strays (holeTypeOf false type outer) ≤ (Tree.node k fields).strays none) :
    Unburdens type (plugAll (inner ++ outer) (.node k fields)) ⟨pathOf outer, v⟩ := by
  refine ⟨outer, _, v, hpos.right, (plugAll_append ..).symm, rfl, hkeep, ?_⟩
  have hlt := hv.lighter hpos.left hinner
  obtain ⟨m, hm⟩ := strays_plugAll (holeTypeOf false type outer) hpos.left
  have hle := (Tree.node k fields).strays_none_le
    (holeTypeOf false (holeTypeOf false type outer) inner)
  rw [burden, burden, hm]
  omega

/-- A block of statements has the strays inside of the statements. -/
theorem blockOf_eq_ok {node v : Tree} {field : String} (h : blockOf node field = .ok v) :
    ∃ ss, node.child (.field field) = .ok ss ∧ v = .node .blockStatement [.node .block [ss]] ∧
      v.strays none = ss.strays none := by
  rw [blockOf] at h
  split at h
  · rename_i ss hchild
    obtain ⟨b, hb, h⟩ := bind_eq_ok.1 h
    have hbs := strays_newNode hb
    have hs := strays_newNode h
    obtain ⟨rfl, -⟩ := newNode_eq_ok hb
    obtain ⟨rfl, -⟩ := newNode_eq_ok h
    exact ⟨ss, hchild, rfl, by simp [hs, hbs]⟩
  · cases h

/-- A promotion of a node that comes about makes the burden less. -/
theorem promoteThrough_unburdens {type : Option Position} (htype : Exclusive type) {k : Kind}
    {fields : List Tree} (passed rest : List Frame) (hpos : Positions (passed ++ rest)) {e : Edit}
    (h : promoteThrough k (.node k fields) (k.isExpression && noneIs .expressionStatement passed)
      (k.statementField?.isSome && noneIs .blockStatement passed) (enclosingOf type rest)
        = .ok (some e)) :
    Unburdens type (plugAll (passed ++ rest) (.node k fields)) e := by
  induction rest generalizing passed with
  | nil => cases h
  | cons f fs ih =>
    rw [enclosingOf] at h
    split at h
    · cases h
    rw [promoteThrough, and_noneIs_concat, and_noneIs_concat] at h
    simp only [takesStatements, Option.any_map] at h
    rw [List.append_cons] at hpos ⊢
    split at h
    case isTrue hself =>
      cases h
      exact Lifts.unburdens hpos (by simp) (.self hself)
        (keepsExpression_of_takes hpos.right hself _ _) (strays_of_takes (htype.hole fs) hself).le
    split at h
    case isTrue hstatement =>
      simp only [Bool.and_eq_true] at hstatement
      obtain ⟨⟨hk, hnone⟩, htakes⟩ := hstatement
      obtain ⟨v, hv, h⟩ := bind_eq_ok.1 h
      cases h
      have hstrays := strays_newNode hv
      obtain ⟨rfl, -⟩ := newNode_eq_ok hv
      refine Lifts.unburdens hpos (by simp) (.statement hk htakes (noneIs_iff.1 hnone))
        (keepsExpression_of_takesStatements hpos.right htakes _ _) ?_
      rw [strays_of_takes (htype.hole fs) htakes, hstrays]
      simp
    split at h
    case isTrue hblock =>
      simp only [Bool.and_eq_true] at hblock
      obtain ⟨⟨-, hnone⟩, htakes⟩ := hblock
      split at h
      · rename_i field hfield
        obtain ⟨v, hv, h⟩ := bind_eq_ok.1 h
        cases h
        obtain ⟨ss, hchild, rfl, hstrays⟩ := blockOf_eq_ok hv
        refine Lifts.unburdens hpos (by simp) (.block hfield hchild htakes (noneIs_iff.1 hnone))
          (keepsExpression_of_takesStatements hpos.right htakes _ _) ?_
        rw [strays_of_not_sentinel (by decide), hstrays]
        exact (Tree.within_of_child hchild).strays_le
      · cases h
    case isFalse hself hstatement hblock => exact ih (passed ++ [f]) hpos h

/-! ## All edits -/

/-- Every edit at a site is less of a burden. -/
theorem unburdens_of_mem_siteEdits {type : Option Position} (htype : Exclusive type) {u : Tree}
    {site : Site} (hsite : site ∈ sites type u) {e : Edit} (he : e ∈ site.edits.items) :
    Unburdens type u e := by
  obtain ⟨fs, w, hfs, rfl, hw, rfl⟩ := mem_sites_iff.1 hsite
  -- what is removed weighs something
  have hremoval : 0 < w.weight → ∀ e ∈ (Site.mk ⟨pathOf fs, holeTypeOf false type fs,
      fs.head?.bind Frame.occupant, enclosingOf type fs⟩ w).removals,
      Unburdens type (plugAll fs w) e := by
    intro hpos e he
    rw [Site.removals] at he
    split at he
    · rename_i hoptional
      obtain rfl := List.mem_singleton.1 he
      refine ⟨fs, w, .absent, hfs, rfl, rfl, keepsExpression_of_optional hfs hoptional _ _, ?_⟩
      rw [burden, burden, weight_absent, strays_absent]
      omega
    · cases he
  cases w with
  | list items =>
    rw [Site.edits_list] at he
    split at he
    · obtain ⟨rest, hrest, rfl⟩ := List.mem_map.1 he
      obtain ⟨before, t, after, rfl, rfl⟩ := mem_withoutEach.1 hrest
      refine ⟨fs, _, _, hfs, rfl, rfl, fun _ _ _ h => (by cases h), ?_⟩
      rw [burden, burden, weight_list, weight_list, itemsWeight_middle, Tree.strays, Tree.strays,
        itemsStrays_middle]
      omega
    · cases he
  | node k fields =>
    rcases Series.mem_append he with he | he
    · rcases Series.mem_append he with he | he
      · exact hremoval (weight_pos k fields) e he
      · split at he
        · rename_i r hr
          obtain rfl := Option.mem_toList.1 he
          refine promoteThrough_unburdens htype [] fs hfs ?_
          simpa [promotion, noneIs] using hr
        · cases he
    · obtain ⟨v, hv, rfl⟩ := List.mem_map.1 he
      exact unburdens_of_mem_replacements htype hfs rfl hv
  | absent => exact absurd rfl hw
  | bool b =>
    refine hremoval ?_ e ((Series.mem_append he).resolve_right (by simp))
    cases b <;> decide
  | _ =>
    refine hremoval ?_ e ((Series.mem_append he).resolve_right (by simp))
    exact Nat.one_pos

/-- Every edit of a value comes about, and what it leads to is less of a burden. -/
theorem unburdens_of_mem_edits {type : Option Position} (htype : Exclusive type) {u : Tree}
    {e : Edit} (he : e ∈ (edits type u).items) : Unburdens type u e := by
  obtain ⟨series, hseries, he⟩ := Series.exists_of_mem_concat he
  obtain ⟨site, hsite, rfl⟩ := List.mem_map.1 hseries
  exact unburdens_of_mem_siteEdits htype hsite he

end Whittle
