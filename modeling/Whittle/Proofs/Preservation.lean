import Whittle.Proofs.Edits
import Whittle.Proofs.Resolve
import Whittle.Validity

/-!
# Edits of well-typed trees

In a well-typed tree every edit comes about and leaves a well-typed tree, with one exception: a
function or a class that is exported may become an expression statement, which no export admits.
A script stays a script and a module a module.
-/

namespace Whittle

open Grammar Whittle.Language

/-! ## Where fits are loose -/

/-- The hole of a frame takes no more where fits are loose, unless the frame is an export. -/
theorem holeTypeOf_loose {fs : List Frame} (hfs : Positions fs) (u : Tree)
    (h : FitsAt true none (plugAll fs u)) :
    holeTypeOf true none fs = holeTypeOf false none fs ∨
      ∃ m fs', fs = .field m [] [] :: fs' ∧ m.exports = true := by
  cases fs with
  | nil => exact .inl rfl
  | cons f fs =>
    cases f with
    | item before after =>
      obtain ⟨type, type', htype, htype', hloosens⟩ :=
        loosens_holeTypeOf hfs u h (by simp)
      have hlist := h.holeAll fs hfs.tail
      obtain ⟨t, ht, -⟩ := FitsAt.items hlist
      have hne : fs ≠ [] := by
        rintro rfl
        cases ht
      obtain ⟨type₀, type₀', htype₀, htype₀', hloosens₀⟩ :=
        loosens_holeTypeOf hfs.tail _ h hne
      left
      cases ht.symm.trans htype₀'
      obtain rfl | ⟨ms, -, hunion⟩ := hloosens₀
      · rw [holeTypeOf, holeTypeOf, htype₀, htype₀']
        rfl
      · cases hunion
    | field m before after =>
      cases hm : m.exports with
      | false =>
        left
        simp only [holeTypeOf, Frame.holeType]
        congr 1
        funext s
        rw [slotPosition_of_not_exports hm, slotPosition_strict]
      | true =>
        have hone : m.slots.length = 1 := by
          cases m <;> first | rfl | cases hm
        have hlen := (h.holeAll fs hfs.tail).isFit.length_eq
        rw [hone, List.length_append, List.length_cons] at hlen
        obtain rfl := List.eq_nil_of_length_eq_zero (show before.length = 0 by omega)
        obtain rfl := List.eq_nil_of_length_eq_zero (show after.length = 0 by omega)
        exact .inr ⟨m, fs, rfl, hm⟩

/-- Of what an export may hold, only functions and classes can give way to an expression
statement: an expression and a variable declaration each have a place that takes none. -/
theorem declaration_of_replaces {k m : Kind} {fs : List Frame} (hm : m.exports = true)
    (hk : (holeTypeOf false none (.field m [] [] :: fs)).any (·.required.takes k) = true)
    (h : Replaces .expressionStatement k) : k = .functionDeclaration ∨ k = .classDeclaration := by
  have hnone : ∀ l, l = .expressionStatement ∨ l = .variableDeclarationStatement →
      (holeTypeOf true none [.field l [] []]).any (·.required.takes k) = false := by
    intro l hl
    cases htype : holeTypeOf true none [.field l [] []] with
    | none => rfl
    | some type =>
      cases hk : type.required.takes k with
      | false => rw [Option.any_some, hk]
      | true =>
        have htakes := h _ _ htype hk
        rcases hl with rfl | rfl
        · cases htype
          cases htakes
        · cases htype
          cases htakes
  have hall : Kind.all.all (fun k => Kind.all.all fun m => !m.exports ||
      !(holeTypeOf false none [.field m [] []]).any (·.required.takes k) ||
      k == .functionDeclaration || k == .classDeclaration ||
      (holeTypeOf true none [.field .expressionStatement [] []]).any (·.required.takes k) ||
      (holeTypeOf true none [.field .variableDeclarationStatement [] []]).any
        (·.required.takes k)) = true := by
    decide
  have hkm := Kind.forall_of_all (Kind.forall_of_all hall k) m
  have hk' : (holeTypeOf false none [.field m [] []]).any (·.required.takes k) = true := hk
  simpa [hm, hk', hnone] using hkm

/-! ## Edits at one position -/

/-- A function or class in the hole of frames is what an export declares, and gives way to its
expression statement. -/
def Unexports (fs : List Frame) (x v : Tree) : Prop :=
  ∃ m d fs' fields, fs = .field m [] [] :: fs' ∧ m.exports = true ∧
    (d = .functionDeclaration ∨ d = .classDeclaration) ∧ x = .node d fields ∧
    v ∈ (simplifications d fields).items

/-- What is lifted out of frames fits where it comes to stand. -/
theorem Lifts.fits {k : Kind} {fields : List Tree} {passed outer : List Frame} {v : Tree}
    (hm : k ≠ .esModule) (hk : FieldsFit false k k.slots fields)
    (hv : Lifts k (.node k fields) (holeTypeOf false none outer) passed v) :
    FitsAt false (holeTypeOf false none outer) v := by
  cases htype : holeTypeOf false none outer with
  | none =>
    rw [htype] at hv
    cases hv with
    | self h => cases h
    | statement hk h => cases h
    | block hk hchild h => cases h
  | some type =>
    rw [htype] at hv
    cases hv with
    | self htakes => exact ⟨by simpa using htakes, hk⟩
    | statement hexp htakes _ =>
      exact ⟨by simpa using htakes, fieldsFit_expressionStatement hexp hk⟩
    | block hfield hchild htakes _ =>
      obtain ⟨ss, hchild', hss⟩ := child_of_statementField hfield hm hk
      cases hchild.symm.trans hchild'
      have htakes : type.required.takes .expressionStatement = true := by simpa using htakes
      exact ⟨takes_blockStatement htype htakes, (fieldsFit_blockStatement hss).2⟩

/-- The replacements of a node that fits fit too, but for what is exported. -/
theorem fits_of_mem_replacements {fs : List Frame} {k : Kind} {fields : List Tree} {v : Tree}
    (hfs : Positions fs) (h : (plugAll fs (.node k fields)).IsFit false)
    (hv : v ∈ ((siteOf fs (.node k fields)).replacements k fields).items) :
    FitsAt false (holeTypeOf false none fs) v ∨ Unexports fs (.node k fields) v := by
  have hnode := FitsAt.holeAll fs (show FitsAt false none _ from h) hfs
  have hfit := hnode.isFit
  rw [siteOf, items_replacements _ hfit] at hv
  simp only [List.mem_append, List.mem_map] at hv
  rcases hv with (⟨s, hs, rfl⟩ | hv) | ⟨vs, hvs, rfl⟩
  · -- a sentinel
    left
    rw [sentinels, List.mem_filter, Bool.and_eq_true] at hs
    obtain ⟨hs, -, htakes⟩ := hs
    have hsfit := (@fits_sentinel false s hs).1
    obtain ⟨type, htype, htakes⟩ := (Option.any_eq_true ..).1 htakes
    rw [htype]
    exact ⟨PositionType.required_of_takes htakes, hsfit⟩
  · -- a simplification
    obtain ⟨l, vs, rfl, hvs, -, hreplaces⟩ := (simplifications_whole hfit).2 v hv
    cases htype : holeTypeOf false none fs with
    | none => exact .inl hvs
    | some type =>
      have hk : type.required.takes k = true := by
        rw [htype] at hnode
        exact hnode.1
      have hloose : FitsAt true none (plugAll fs (.node k fields)) := h.loosen
      rcases holeTypeOf_loose hfs _ hloose with heq | ⟨m, fs', rfl, hm⟩
      · rw [htype] at heq
        exact .inl ⟨hreplaces fs type heq hk, hvs⟩
      · obtain ⟨type₀, type', hstrict, hloose', hloosens⟩ :=
          loosens_holeTypeOf hfs _ hloose (by simp)
        cases htype.symm.trans hstrict
        have htakes := hreplaces _ type' hloose' (hloosens.takes hk)
        obtain rfl | ⟨ms, rfl, rfl⟩ := hloosens
        · exact .inl ⟨htakes, hvs⟩
        · by_cases hl : l = .expressionStatement
          · subst hl
            have hd := declaration_of_replaces hm (by rw [htype]; simpa using hk) hreplaces
            exact .inr ⟨m, k, fs', fields, rfl, hm, hd, rfl, hv⟩
          · refine .inl ⟨?_, hvs⟩
            simpa [PositionType.required, PositionType.takes, hl] using htakes
  · -- a cleared flag
    left
    obtain ⟨before, after, rfl, rfl⟩ := mem_withFlagCleared hvs
    exact hnode.refill (flagCleared_spec hfit).1

/-- An edit at a site of a well-typed tree puts at the site, or at a position around it, what
fits there, but for what is exported. No edit inside the tree is at its root. -/
theorem mem_siteEdits {fs : List Frame} {w : Tree} {e : Edit} (hfs : Positions fs)
    (h : (plugAll fs w).IsFit false) (he : e ∈ (siteOf fs w).edits.items) :
    ∃ gs outer v, gs ++ outer = fs ∧ (fs ≠ [] → outer ≠ []) ∧ e = ⟨pathOf outer, v⟩ ∧
      (FitsAt false (holeTypeOf false none outer) v ∨
        gs = [] ∧ Unexports outer (plugAll gs w) v) := by
  have hw := FitsAt.holeAll fs (show FitsAt false none _ from h) hfs
  cases w with
  | list items =>
    rw [siteOf, Site.edits_list] at he
    split at he
    · obtain ⟨rest, hrest, rfl⟩ := List.mem_map.1 he
      obtain ⟨before, t, after, rfl, rfl⟩ := mem_withoutEach.1 hrest
      obtain ⟨t', htype, hitems⟩ := hw.items
      refine ⟨[], fs, _, rfl, id, rfl, .inl ?_⟩
      rw [htype]
      refine ⟨t', rfl, itemsFit_iff.2 fun w hw => hitems w ?_⟩
      simp only [List.mem_append, List.mem_cons] at hw ⊢
      tauto
    · cases he
  | node k fields =>
    obtain ⟨r, hr, hitems⟩ := exists_promotion hfs h
    rw [hitems] at he
    simp only [List.mem_append, List.mem_map] at he
    rcases he with (he | he) | ⟨v, hv, rfl⟩
    · -- its removal
      split at he
      · rename_i hoptional
        obtain rfl := List.mem_singleton.1 he
        refine ⟨[], fs, _, rfl, id, rfl, .inl ?_⟩
        cases htype : holeTypeOf false none fs with
        | none =>
          rw [htype] at hoptional
          cases hoptional
        | some type =>
          rw [htype] at hoptional
          exact hoptional
      · cases he
    · -- its promotion
      obtain rfl := Option.mem_toList.1 he
      by_cases hne : fs = []
      · subst hne
        cases hr
      · have hm : k ≠ .esModule :=
          (not_program_of_hole hfs hne (show FitsAt true none _ from h.loosen)).2
        obtain ⟨r', hr', hinnermost⟩ := promotion_spec none hm hw.isFit fs
        cases hr.symm.trans hr'
        obtain ⟨inner, outer, rfl, -, houter, hpath, hlifts, -⟩ := hinnermost
        refine ⟨inner, outer, e.value, rfl, fun _ => houter, by rw [← hpath], .inl ?_⟩
        exact Lifts.fits hm hw.isFit hlifts
    · rcases fits_of_mem_replacements hfs h hv with hfit | hexport
      · exact ⟨[], fs, v, rfl, id, rfl, .inl hfit⟩
      · exact ⟨[], fs, v, rfl, id, rfl, .inr ⟨rfl, hexport⟩⟩
  | _ =>
    generalize holeTypeOf false none fs = type at hw
    cases type with
    | none => exact hw.elim
    | some type =>
      first
      | exact hw.elim
      | cases he

/-! ## Typing errors around a position -/

/-- Of values in one position the position admits either both or none. -/
def SameHead (u v : Tree) : Prop := ∀ type : Position, type.holds id v = type.holds id u

theorem SameHead.plug {u v : Tree} (h : SameHead u v) (f : Frame) :
    SameHead (f.plug u) (f.plug v) := by
  intro type
  induction type with
  | union ms => cases f <;> rfl
  | list t =>
    cases f with
    | field k before after => rfl
    | item before after =>
      simp only [Frame.plug, PositionType.holds, List.all_append, List.all_cons, h t]
  | maybe t ih => cases f <;> simpa [Frame.plug, PositionType.holds] using ih

/-- The typing errors of fields that fit but for one, which is admitted. -/
theorem fieldTypeErrors_middle {k : Kind} {slots : List Slot} (hslots : ∀ s ∈ slots, s ∈ k.slots)
    {before after : List Tree} {u v : Tree} {s : Slot}
    (h : FieldsFit false k slots (before ++ u :: after)) (hs : slots[before.length]? = some s)
    (hv : s.type.admits v = true) :
    fieldTypeErrors k slots (before ++ v :: after)
      = (partTypeErrors v).map (.under (.field s.name)) := by
  induction before generalizing slots with
  | nil =>
    cases slots with
    | nil => exact h.elim
    | cons s' slots =>
      cases hs
      have hrest := (fieldsFit_iff k (fun s hs => hslots s (List.mem_cons_of_mem _ hs)) after).1 h.2
      rw [List.nil_append, fieldTypeErrors, if_pos hv, hrest, List.append_nil]
  | cons b before ih =>
    cases slots with
    | nil => exact h.elim
    | cons s' slots =>
      have hslot : ∀ s ∈ [s'], s ∈ k.slots := by
        intro s hs
        obtain rfl := List.mem_singleton.1 hs
        exact hslots s List.mem_cons_self
      have hfirst := (fieldsFit_iff k hslot [b]).1 ⟨h.1, trivial⟩
      rw [fieldTypeErrors, fieldTypeErrors, List.append_nil] at hfirst
      rw [List.cons_append, fieldTypeErrors, hfirst, List.nil_append]
      exact ih (fun s hs => hslots s (List.mem_cons_of_mem _ hs)) h.2 hs

/-- The typing errors of items that fit but for one, which is a node. -/
theorem itemTypeErrors_middle {type : Position} (htype : isItemType type = true)
    {before after : List Tree} {u v : Tree} (i : Nat)
    (h : ∀ w ∈ before ++ u :: after, w.Fits false type) (hv : v.isNode = true) :
    itemTypeErrors i (before ++ v :: after)
      = (partTypeErrors v).map (.under (.index (i + before.length : Nat))) := by
  have herrors : ∀ i items, (∀ w ∈ items, w.Fits false type) → itemTypeErrors i items = [] :=
    fun i items hitems => ((itemsFit_iff_of_item htype i items).1 (itemsFit_iff.2 hitems)).2
  induction before generalizing i with
  | nil =>
    have hrest := herrors (i + 1) after fun w hw => h w (by simp [hw])
    cases v with
    | node k fields =>
      rw [List.nil_append, itemTypeErrors, hrest, List.append_nil]
      rfl
    | _ => cases hv
  | cons b before ih =>
    have hfirst := herrors i [b] fun w hw => h w (by simp_all)
    have hrest := ih (i + 1) fun w hw => h w (List.mem_cons_of_mem _ hw)
    rw [List.length_cons, Nat.add_comm before.length, ← Nat.add_assoc, List.cons_append]
    cases b with
    | node k fields =>
      rw [itemTypeErrors, itemTypeErrors, List.append_nil] at hfirst
      rw [itemTypeErrors, hfirst, List.nil_append]
      exact hrest
    | _ => rw [itemTypeErrors] <;> first | exact hrest | simp

/-- The typing errors around a hole in what fits are those of what stands in the hole, if the
hole admits that. -/
theorem partTypeErrors_plug {type : Option Position} {f : Frame} {u v : Tree}
    (hplain : type.all isPlainType = true) (hf : f.isPosition = true)
    (h : FitsAt false type (f.plug u)) (hv : SameHead u v)
    (hnode : f.occupant = none → v.isNode = true) :
    partTypeErrors (f.plug v) = (partTypeErrors v).map (.under f.step) := by
  cases f with
  | field k before after =>
    obtain ⟨s, type', hs, hp⟩ := Frame.slot?_of_isPosition hf
    have hmem := List.mem_of_getElem? hs
    obtain ⟨s', hs', hu⟩ := h.isFit.middle
    cases hs.symm.trans hs'
    rw [FitsSlot, slotPosition_strict, hp] at hu
    have hplain' := isPlainSlot_of_mem hmem
    rw [isPlainSlot, hp] at hplain'
    have hadmits : s.type.admits v = true := by
      rw [admits_eq_holds hmem hp, hv]
      exact ((fits_iff hplain' u).1 hu).1
    have hstep : (Frame.field k before after).step = .field s.name := by
      simp [Frame.step, Frame.slot?, hs]
    rw [hstep]
    exact fieldTypeErrors_middle (fun _ h => h) h.isFit hs hadmits
  | item before after =>
    obtain ⟨t', rfl, hitems⟩ := h.items
    have hitem : isItemType t' = true := by simpa [isPlainType] using hplain
    have herrors := itemTypeErrors_middle hitem 0 hitems (hnode rfl)
    simpa [Frame.plug, partTypeErrors, Frame.step] using herrors

/-- The typing errors around a hole of frames are those of what stands in the hole. -/
theorem partTypeErrors_plugAll {fs : List Frame} {u v : Tree} (hfs : Positions fs)
    (h : (plugAll fs u).IsFit false) (hu : u.isLeaf = false) (hv : SameHead u v)
    (hnode : (∀ f ∈ fs.head?, f.occupant = none → v.isNode = true)) :
    partTypeErrors (plugAll fs v)
      = (partTypeErrors v).map fun e => { e with path := pathOf fs ++ e.path } := by
  induction fs generalizing u v with
  | nil => simp [pathOf]
  | cons f fs ih =>
    have hpart := FitsAt.holeAll fs (show FitsAt false none _ from h) hfs.tail
    have hplain : (holeTypeOf false none fs).all isPlainType = true := by
      cases htype : holeTypeOf false none fs with
      | none => rfl
      | some type => exact isPlainType_holeTypeOf htype
    have herrors := partTypeErrors_plug hplain (hfs f List.mem_cons_self) hpart hv
      (hnode f rfl)
    rw [plugAll_cons, ih hfs.tail h (isLeaf_plug f u) (hv.plug f), herrors]
    · simp [pathOf, EarlyError.under]
    · intro g hg hitem
      -- a frame that is a list has nodes around it
      obtain ⟨gs, rfl⟩ : ∃ gs, fs = g :: gs := by
        cases fs with
        | nil => cases hg
        | cons g' gs =>
          cases hg
          exact ⟨gs, rfl⟩
      cases g with
      | field k before after => cases hitem
      | item before after =>
        cases f with
        | field k before' after' => rfl
        | item before' after' =>
          cases @isNode_of_item false gs before after (.list (before' ++ u :: after')) hfs.tail.tail
            h rfl

/-- What stands in the hole of frames does not change what the outermost frame is. -/
theorem kind?_plugAll {fs : List Frame} (hne : fs ≠ []) (u v : Tree) :
    (plugAll fs v).kind? = (plugAll fs u).kind? := by
  obtain rfl | ⟨gs, f, rfl⟩ := fs.eq_nil_or_concat
  · exact absurd rfl hne
  · rw [List.concat_eq_append, plugAll_concat, plugAll_concat]
    cases f <;> rfl

theorem sameHead_node (k : Kind) (us vs : List Tree) :
    SameHead (.node k us) (.node k vs) := by
  intro type
  induction type with
  | union ms => rfl
  | list t => rfl
  | maybe t ih => simpa [PositionType.holds] using ih

/-- No export admits an expression statement. -/
theorem partTypeErrors_export {m : Kind} {n : String} (hm : m.exports = true)
    (hn : m.fieldNames = [n]) (fields : List Tree) :
    partTypeErrors (.node m [.node .expressionStatement fields])
      = [(Violation.notAdmitted m n (.node .expressionStatement fields)).atField n] := by
  cases m <;> try cases hm
  case exportDeclaration =>
    obtain rfl : "declaration" = n := (List.cons.inj hn).1
    rfl
  case exportDefault =>
    obtain rfl : "body" = n := (List.cons.inj hn).1
    rfl

theorem typeErrors_of_isNode {t : Tree} (h : t.isNode = true) :
    typeErrors t = partTypeErrors t := by
  cases t with
  | node k fields => rfl
  | _ => cases h

/-- What an exported function or class becomes is the only typing error. -/
theorem earlyErrors_of_unexports {fs : List Frame} {x v : Tree} {m : Kind} {n : String}
    (hfs : Positions (.field m [] [] :: fs)) (hm : m.exports = true) (hn : m.fieldNames = [n])
    (h : (plugAll (.field m [] [] :: fs) x).IsFit false)
    (hv : v.isKind .expressionStatement = true) :
    earlyErrors (plugAll (.field m [] [] :: fs) v)
      = [⟨pathOf fs ++ [.field n], .notAdmitted m n v⟩] := by
  obtain ⟨fields, rfl⟩ : ∃ fields, v = .node .expressionStatement fields := by
    cases v with
    | node k fields =>
      obtain rfl := Option.some.inj (beq_iff_eq.1 hv)
      exact ⟨fields, rfl⟩
    | _ => cases hv
  have herrors := partTypeErrors_plugAll (v := .node m [.node .expressionStatement fields])
    hfs.tail h rfl (sameHead_node m _ _) fun _ _ _ => rfl
  rw [partTypeErrors_export hm hn] at herrors
  -- the whole is a node, as it was before
  have htyped : typeErrors (plugAll fs (.node m [.node .expressionStatement fields]))
      = [⟨pathOf fs ++ [.field n], .notAdmitted m n (.node .expressionStatement fields)⟩] := by
    have hkind := @kind?_plugAll (.field m [] [] :: fs) (by simp) x
      (.node .expressionStatement fields)
    simp only [plugAll_cons, Frame.plug, List.nil_append] at hkind h
    rw [← typeErrors_of_isNode] at herrors
    · exact herrors
    · rw [Tree.isNode, hkind]
      generalize plugAll fs (.node m [x]) = t at h
      cases t with
      | node k us => rfl
      | _ => exact h.elim
  rw [earlyErrors, earlyErrors?]
  simp only [plugAll_cons, Frame.plug, List.nil_append, htyped, Option.getD_some]

/-! ## All edits -/

/-- One tree comes of another when the function or class that is exported at the path `p`, in
the field `n` of a node of kind `m`, becomes the expression statement `v`. -/
structure Unexported (t c : Tree) (p : Path) (m : Kind) (n : String) (v : Tree) : Prop where
  exports : m.exports = true
  field : m.fieldNames = [n]
  exported : ∃ d fields, (d = .functionDeclaration ∨ d = .classDeclaration) ∧
    t.get p = .ok (.node m [.node d fields]) ∧ v ∈ (simplifications d fields).items
  replaced : t.replace (p ++ [.field n]) v = .ok c

/-- A declaration that fits has one simplification, an expression statement. -/
theorem simplifications_declaration {d : Kind} {fields : List Tree} {v : Tree}
    (hd : d = .functionDeclaration ∨ d = .classDeclaration)
    (h : FieldsFit false d d.slots fields) (hv : v ∈ (simplifications d fields).items) :
    v.isKind .expressionStatement = true := by
  rcases hd with rfl | rfl
  · obtain ⟨isAsync, isGenerator, name, params, body, rfl, -⟩ := (fit_five rfl rfl).1 h
    obtain ⟨n, -, -, heq⟩ := simplifications_functionDeclaration h
    rw [heq] at hv
    obtain rfl := List.mem_singleton.1 hv
    rfl
  · obtain ⟨name, superClass, elements, rfl, -⟩ := (fit_three rfl rfl).1 h
    obtain ⟨n, -, -, heq⟩ := simplifications_classDeclaration h
    rw [heq] at hv
    obtain rfl := List.mem_singleton.1 hv
    rfl

theorem pathOf_export {m : Kind} {n : String} (hn : m.fieldNames = [n]) (fs : List Frame) :
    pathOf (.field m [] [] :: fs) = pathOf fs ++ [.field n] := by
  obtain ⟨s, hs, rfl⟩ := List.map_eq_singleton_iff.1 hn
  simp [pathOf, Frame.step, Frame.slot?, hs]

/-- Where something is unexported there are frames around it. -/
theorem Unexported.exists_frames {t c v : Tree} {p : Path} {m : Kind} {n : String}
    (ht : t.IsFit false) (h : Unexported t c p m n v) :
    ∃ fs d fields, Positions (.field m [] [] :: fs) ∧ pathOf fs = p ∧
      plugAll (.field m [] [] :: fs) (.node d fields) = t ∧
      plugAll (.field m [] [] :: fs) v = c ∧ v.isKind .expressionStatement = true ∧
      v ∈ (simplifications d fields).items := by
  obtain ⟨d, fields, hd, hget, hv⟩ := h.exported
  have hfit : FitsAt false none t := ht
  obtain ⟨fs, hplug, hpath, htail, hhead⟩ := exists_frames_of_get hfit hget
  have hfs : Positions fs := by
    cases fs with
    | nil => exact htail
    | cons f fs =>
      refine .cons ?_ htail
      have hpart := FitsAt.holeAll fs (hplug.symm ▸ hfit) htail
      exact Frame.isPosition_of_parts hpart (hhead f rfl) rfl
  have hpart := FitsAt.holeAll fs (hplug.symm ▸ hfit) hfs
  have hfield : (Frame.field m [] []).isPosition = true :=
    @Frame.isPosition_of_parts false (.field m [] []) _ (.node d fields) hpart
      (fun _ => by
        obtain ⟨s, hs, -⟩ := List.map_eq_singleton_iff.1 h.field
        simp [Frame.slot?, hs]) rfl
  have hpos : Positions (.field m [] [] :: fs) := .cons hfield hfs
  have hdfit := (FitsAt.holeAll (.field m [] [] :: fs) (hplug.symm ▸ hfit) hpos).isFit
  refine ⟨fs, d, fields, hpos, hpath, hplug, ?_, simplifications_declaration hd hdfit hv, hv⟩
  have hreplaced := h.replaced
  rw [← hpath, ← pathOf_export h.field, ← hplug,
    show plugAll fs (.node m [.node d fields])
      = plugAll (.field m [] [] :: fs) (.node d fields) from rfl,
    replace_plugAll hpos] at hreplaced
  exact Except.ok.inj hreplaced

/-- What an edit of a well-typed tree leads to: a well-typed tree, unless something is
unexported. The root of a program stays what it is. -/
def EditedTo (t c : Tree) : Prop :=
  (c.wellTyped = true ∨ ∃ p m n v, Unexported t c p m n v) ∧
    ∀ k, k = .script ∨ k = .esModule → t.isKind k = true → c.isKind k = true

/-- A program has no edits at its root. -/
theorem edits_root {k : Kind} {fields : List Tree} (hk : k = .script ∨ k = .esModule)
    (h : FieldsFit false k k.slots fields) : (siteOf [] (.node k fields)).edits.items = [] := by
  have hnone : Positions [] := by simp [Positions]
  obtain ⟨r, hr, hitems⟩ := exists_promotion hnone h
  rw [hitems, siteOf, items_replacements _ h]
  cases hr
  rcases hk with rfl | rfl
  · obtain ⟨ds, ss, rfl, hds, hss⟩ := (fit_two rfl rfl).1 h
    obtain ⟨ds, rfl, -⟩ := (fitsType_list rfl).1 hds
    obtain ⟨ss, rfl, -⟩ := (fitsType_list rfl).1 hss
    rfl
  · obtain ⟨ds, ss, rfl, hds, hss⟩ := (fit_two rfl rfl).1 h
    obtain ⟨ds, rfl, -⟩ := (fitsType_list rfl).1 hds
    obtain ⟨ss, rfl, -⟩ := (fitsType_list rfl).1 hss
    rfl

theorem editedTo_of_mem_siteEdits {fs : List Frame} {w : Tree} {e : Edit} (hfs : Positions fs)
    (h : (plugAll fs w).IsFit false) (he : e ∈ (siteOf fs w).edits.items) :
    ∃ c, e.apply (plugAll fs w) = .ok c ∧ EditedTo (plugAll fs w) c := by
  obtain ⟨gs, outer, v, rfl, houter, rfl, hv⟩ := mem_siteEdits hfs h he
  rw [plugAll_append] at h ⊢
  refine ⟨plugAll outer v, ?_, ?_, fun k hk hroot => ?_⟩
  · exact apply_plugAll hfs.right _ _
  · rcases hv with hv | ⟨rfl, m, d, fs', fields, rfl, hm, hd, hx, hv⟩
    · left
      exact wellTyped_iff.2 (FitsAt.plugAll outer (show FitsAt false none _ from h) hfs.right hv)
    · right
      obtain ⟨n, hn⟩ : ∃ n, m.fieldNames = [n] := by
        cases m <;> first | exact ⟨_, rfl⟩ | cases hm
      refine ⟨pathOf fs', m, n, v, hm, hn, ⟨d, fields, hd, ?_, hv⟩, ?_⟩
      · rw [hx]
        exact get_plugAll hfs.right.tail _
      · rw [← pathOf_export hn]
        exact replace_plugAll hfs.right _ _
  · by_cases hne : outer = []
    · -- there are no edits at the root
      have hnil : gs ++ outer = [] := by
        by_contra hne'
        exact houter hne' hne
      obtain ⟨rfl, rfl⟩ := List.append_eq_nil_iff.1 hnil
      cases w with
      | node l fields =>
        obtain rfl := Option.some.inj (beq_iff_eq.1 hroot)
        rw [List.append_nil, edits_root hk h] at he
        cases he
      | _ => exact h.elim
    · rw [Tree.isKind, kind?_plugAll hne (plugAll gs w) v]
      exact hroot

/-- Every edit of a well-typed tree comes about. -/
theorem edits_editedTo {t : Tree} (ht : t.wellTyped = true) :
    (edits none t).Whole fun e => ∃ c, e.apply t = .ok c ∧ EditedTo t c := by
  have hfit := wellTyped_iff.1 ht
  have hnone : Positions [] := by simp [Positions]
  refine Series.whole_concat fun s hs => ?_
  obtain ⟨site, hsite, rfl⟩ := List.mem_map.1 hs
  have hfault := (siteEdits_whole hnone hfit.loosen hsite).1
  obtain ⟨fs, w, hfs, rfl, -, rfl⟩ := mem_sites_iff.1 hsite
  exact ⟨hfault, fun e he => editedTo_of_mem_siteEdits hfs hfit he⟩

/-- All edits of a well-typed tree come about. They lead to well-typed trees but where an
exported function or class becomes an expression statement. Each such tree is among them, and
its only error is that the export does not admit the statement. A script stays a script and a
module a module. -/
theorem variants_wellTyped {t : Tree} (ht : t.wellTyped = true) :
    (variants none t).fault = none ∧
    (∀ c ∈ (variants none t).items,
      c.wellTyped = true ∨ ∃ p m n v, Unexported t c p m n v) ∧
    (∀ c p m n v, Unexported t c p m n v → c ∈ (variants none t).items ∧
      earlyErrors c = [⟨p ++ [.field n], .notAdmitted m n v⟩]) ∧
    ∀ k, k = .script ∨ k = .esModule → t.isKind k = true →
      ∀ c ∈ (variants none t).items, c.isKind k = true := by
  have hfit := wellTyped_iff.1 ht
  obtain ⟨hfault, hitems⟩ := (edits_editedTo ht).mapExcept fun e he => he
  refine ⟨hfault, fun c hc => (hitems c hc).1, fun c p m n v h => ?_,
    fun k hk hroot c hc => (hitems c hc).2 k hk hroot⟩
  obtain ⟨fs, d, fields, hpos, rfl, rfl, rfl, hstatement, hv⟩ := h.exists_frames hfit
  refine ⟨?_, earlyErrors_of_unexports hpos h.exports h.field hfit hstatement⟩
  have hd := (FitsAt.holeAll _ (show FitsAt false none _ from hfit) hpos).isFit
  refine Series.mem_mapExcept hfault (a := ⟨pathOf (.field m [] [] :: fs), v⟩) ?_ ?_
  · refine mem_edits hpos hfit (by simp) ?_
    obtain ⟨r, -, hitems⟩ := exists_promotion hpos hfit
    rw [hitems, siteOf, items_replacements _ hd]
    refine List.mem_append_right _ (List.mem_map_of_mem ?_)
    exact List.mem_append_left _ (List.mem_append_right _ hv)
  · exact apply_plugAll hpos _ _

/-- A function without name, parameters and body, as a default export of a module. -/
def exportedFunction : Tree :=
  .node .esModule [.list [], .list [.node .exportDefault [.node .functionDeclaration [.bool false,
    .bool false, .node .bindingIdentifier [.str "*default*"],
    .node .formalParameters [.list [], .absent], .node .functionBody [.list [], .list []]]]]]

/-- The statement that the exported function may become. -/
def unexportedFunction : Tree :=
  .node .expressionStatement [.node .functionExpression [.bool false, .bool false, .absent,
    .node .formalParameters [.list [], .absent], .node .functionBody [.list [], .list []]]]

/-- Of the edits of an exported function, one leads to an export that is not admitted. -/
theorem variants_wellTyped_exportedFunction :
    exportedFunction.wellTyped = true ∧ (variants none exportedFunction).fault = none ∧
    ∃ c, Unexported exportedFunction c [.field "items", .index 0] .exportDefault "body"
        unexportedFunction ∧
      c ∈ (variants none exportedFunction).items ∧ c.isKind .esModule = true ∧
      earlyErrors c = [⟨[.field "items", .index 0, .field "body"],
        .notAdmitted .exportDefault "body" unexportedFunction⟩] := by
  have ht : exportedFunction.wellTyped = true := by decide
  obtain ⟨hfault, -, hexact, hroot⟩ := variants_wellTyped ht
  refine ⟨ht, hfault, .node .esModule [.list [], .list [.node .exportDefault
    [unexportedFunction]]], ?_⟩
  have h : Unexported exportedFunction _ [.field "items", .index 0] .exportDefault "body"
      unexportedFunction :=
    ⟨rfl, rfl, ⟨.functionDeclaration, _, .inl rfl, rfl, by decide⟩, rfl⟩
  obtain ⟨hmem, herrors⟩ := hexact _ _ _ _ _ h
  exact ⟨h, hmem, hroot .esModule (.inr rfl) rfl _ hmem, herrors⟩

end Whittle
