import Whittle.Proofs.Sites
import Whittle.Proofs.Weight

/-!
# What promotion does

A node is promoted to the innermost of the positions around it that it can be lifted to: as
it is, as an expression statement, or as a block of its statements. What is lifted fits its
new position and is lighter than what stood there.
-/

namespace Whittle

open Grammar Whittle.Language

/-- What a node of kind `k` may become at an enclosing position of the given type, to which it
comes out of the frames `passed`. -/
inductive Lifts (k : Kind) (node : Tree) (type : Option Position) (passed : List Frame) :
    Tree → Prop
  | self (h : type.any (·.required.takes k) = true) : Lifts k node type passed node
  | statement (hk : k.isExpression = true)
      (htype : type.any (·.required.takes .expressionStatement) = true)
      (h : ∀ f ∈ passed, f.occupant ≠ some .expressionStatement) :
      Lifts k node type passed (.node .expressionStatement [node])
  | block {field : String} {statements : Tree} (hk : k.statementField? = some field)
      (hfield : node.child (.field field) = .ok statements)
      (htype : type.any (·.required.takes .expressionStatement) = true)
      (h : ∀ f ∈ passed, f.occupant ≠ some .blockStatement) :
      Lifts k node type passed (.node .blockStatement [.node .block [statements]])

/-- What a promotion out of the frames `rest`, when `passed` have already been passed, may
come to: it goes to the innermost position that the node can be lifted to. -/
def Innermost (root : Option Position) (k : Kind) (node : Tree) (passed rest : List Frame) :
    Option Edit → Prop
  | none => ∀ inner outer v, rest = inner ++ outer → inner ≠ [] → outer ≠ [] →
      ¬ Lifts k node (holeTypeOf false root outer) (passed ++ inner) v
  | some e => ∃ inner outer, rest = inner ++ outer ∧ inner ≠ [] ∧ outer ≠ [] ∧
      e.path = pathOf outer ∧
      Lifts k node (holeTypeOf false root outer) (passed ++ inner) e.value ∧
      ∀ inner' outer' v, rest = inner' ++ outer' → inner' ≠ [] → outer' ≠ [] →
        Lifts k node (holeTypeOf false root outer') (passed ++ inner') v →
        inner.length ≤ inner'.length

/-- The field with a kind's statements. -/
theorem statementField?_eq (k : Kind) : k.statementField? = match k with
    | .script | .functionBody | .block => some "statements"
    | .switchCase | .switchDefault => some "consequent"
    | .esModule => some "items"
    | _ => none := by
  have h : Kind.all.all (fun k => k.statementField? == match k with
    | .script | .functionBody | .block => some "statements"
    | .switchCase | .switchDefault => some "consequent"
    | .esModule => some "items"
    | _ => none) = true := by decide
  simpa using Kind.forall_of_all h k

variable {loose : Bool}

/-- The statements of a node that fits are a list of statements. -/
theorem child_of_statementField {k : Kind} {fields : List Tree} {field : String}
    (hk : k.statementField? = some field) (hm : k ≠ .esModule)
    (h : FieldsFit loose k k.slots fields) :
    ∃ ss, (Tree.node k fields).child (.field field) = .ok ss ∧
      FitsType loose (.list statement) ss := by
  rw [statementField?_eq] at hk
  cases k <;> simp only [reduceCtorEq, Option.some.injEq, not_true_eq_false, ne_eq] at hk hm
  all_goals subst hk
  case script | functionBody =>
    obtain ⟨ds, ss, rfl, -, hss⟩ := (fit_two rfl rfl).1 h
    exact ⟨ss, rfl, hss⟩
  case block | switchDefault =>
    obtain ⟨ss, rfl, hss⟩ := (fit_one rfl rfl).1 h
    exact ⟨ss, rfl, hss⟩
  case switchCase =>
    obtain ⟨test, ss, rfl, -, hss⟩ := (fit_two rfl rfl).1 h
    exact ⟨ss, rfl, hss⟩

/-- Whether none of the frames is a node of kind `k`. -/
def noneIs (k : Kind) (fs : List Frame) : Bool := fs.all fun f => f.occupant != some k

/-- A wrapper may still be used after one frame more if it might before and the frame is not
such a wrapper. -/
theorem and_noneIs_concat (b : Bool) (k : Kind) (passed : List Frame) (f : Frame) :
    (b && noneIs k passed && f.occupant != some k) = (b && noneIs k (passed ++ [f])) := by
  simp [noneIs, Bool.and_assoc]

theorem noneIs_iff {k : Kind} {fs : List Frame} :
    noneIs k fs = true ↔ ∀ f ∈ fs, f.occupant ≠ some k := by
  simp [noneIs]

/-- If the node is lifted to the position around the first frame, that is the innermost. -/
theorem Innermost.here {root : Option Position} {k : Kind} {node v : Tree}
    {passed fs : List Frame} {f : Frame} (hfs : fs ≠ [])
    (h : Lifts k node (holeTypeOf false root fs) (passed ++ [f]) v) :
    Innermost root k node passed (f :: fs) (some ⟨pathOf fs, v⟩) := by
  refine ⟨[f], fs, rfl, by simp, hfs, rfl, h, fun inner' outer' v' heq hinner _ _ => ?_⟩
  exact List.length_pos_iff.2 hinner

/-- If the node cannot be lifted to the position around the first frame, the innermost
position is further out. -/
theorem Innermost.there {root : Option Position} {k : Kind} {node : Tree}
    {passed fs : List Frame} {f : Frame} {r : Option Edit}
    (hnot : ∀ v, ¬ Lifts k node (holeTypeOf false root fs) (passed ++ [f]) v)
    (h : Innermost root k node (passed ++ [f]) fs r) :
    Innermost root k node passed (f :: fs) r := by
  -- a way out of all frames is a way out of the first one and perhaps of more
  have hsplit : ∀ inner outer v, f :: fs = inner ++ outer → inner ≠ [] →
      Lifts k node (holeTypeOf false root outer) (passed ++ inner) v →
      ∃ inner', inner = f :: inner' ∧ fs = inner' ++ outer ∧ inner' ≠ [] := by
    intro inner outer v heq hinner hv
    cases inner with
    | nil => exact absurd rfl hinner
    | cons g inner' =>
      simp only [List.cons_append, List.cons.injEq] at heq
      obtain ⟨rfl, heq⟩ := heq
      refine ⟨inner', rfl, heq, ?_⟩
      rintro rfl
      rw [List.nil_append] at heq
      subst heq
      exact hnot v hv
  cases r with
  | none =>
    intro inner outer v heq hinner houter hv
    obtain ⟨inner', rfl, heq', hne⟩ := hsplit inner outer v heq hinner hv
    exact h inner' outer v heq' hne houter (by simpa using hv)
  | some e =>
    obtain ⟨inner, outer, rfl, hinner, houter, hpath, hv, hmin⟩ := h
    refine ⟨f :: inner, outer, rfl, by simp, houter, hpath, by simpa using hv, ?_⟩
    intro inner' outer' v heq hne houter' hv'
    obtain ⟨inner'', rfl, heq', hne'⟩ := hsplit inner' outer' v heq hne hv'
    have := hmin inner'' outer' v heq' hne' houter' (by simpa using hv')
    simpa using this

theorem promoteThrough_spec (root : Option Position) {k : Kind} {fields : List Tree}
    (hm : k ≠ .esModule) (h : FieldsFit loose k k.slots fields) (passed rest : List Frame) :
    ∃ r, promoteThrough k (.node k fields)
        (k.isExpression && noneIs .expressionStatement passed)
        (k.statementField?.isSome && noneIs .blockStatement passed)
        (enclosingOf root rest) = .ok r ∧
      Innermost root k (.node k fields) passed rest r := by
  induction rest generalizing passed with
  | nil =>
    refine ⟨none, rfl, fun inner outer v heq hinner _ _ => ?_⟩
    exact hinner (List.append_eq_nil_iff.1 heq.symm).1
  | cons f fs ih =>
    cases hfs : fs.isEmpty with
    | true =>
      obtain rfl := List.isEmpty_iff.1 hfs
      refine ⟨none, rfl, fun inner outer v heq hinner houter _ => ?_⟩
      have hlength := congrArg List.length heq
      have hinner := List.length_pos_iff.2 hinner
      have houter := List.length_pos_iff.2 houter
      simp only [List.length_append, List.length_singleton] at hlength
      omega
    | false =>
      have hne : fs ≠ [] := by simpa using hfs
      simp only [enclosingOf, hfs, Bool.false_eq_true, if_false, promoteThrough]
      rw [and_noneIs_concat, and_noneIs_concat]
      simp only [takesStatements, Option.any_map]
      split
      case isTrue hself =>
        exact ⟨_, rfl, .here hne (.self hself)⟩
      split
      case isTrue hstatement =>
        simp only [Bool.and_eq_true] at hstatement
        obtain ⟨⟨hk, hnone⟩, htype⟩ := hstatement
        rw [newNode_of_fieldsFit rfl (fieldsFit_expressionStatement hk h)]
        exact ⟨_, rfl, .here hne (.statement hk htype (noneIs_iff.1 hnone))⟩
      split
      case isTrue hblock =>
        simp only [Bool.and_eq_true] at hblock
        obtain ⟨⟨hk, hnone⟩, htype⟩ := hblock
        obtain ⟨field, hfield⟩ := Option.isSome_iff_exists.1 hk
        obtain ⟨ss, hchild, hss⟩ := child_of_statementField hfield hm h
        obtain ⟨hb, hbs⟩ := fieldsFit_blockStatement hss
        have hof : blockOf (.node k fields) field
            = .ok (.node .blockStatement [.node .block [ss]]) := by
          simp only [blockOf, hchild, newNode_of_fieldsFit rfl hb, bind, Except.bind,
            newNode_of_fieldsFit rfl hbs]
        simp only [hfield, hof]
        exact ⟨_, rfl, .here hne (.block hfield hchild htype (noneIs_iff.1 hnone))⟩
      case isFalse hself hstatement hblock =>
        obtain ⟨r, hr, hinner⟩ := ih (passed ++ [f])
        refine ⟨r, hr, .there (fun v hv => ?_) hinner⟩
        cases hv with
        | self htype => exact hself htype
        | statement hk htype hnone =>
          exact hstatement (by simp [hk, htype, noneIs_iff.2 hnone])
        | block hk hchild htype hnone =>
          exact hblock (by simp [hk, htype, noneIs_iff.2 hnone])

/-- The promotion of a node that fits succeeds, and goes to the innermost position that the
node can be lifted to. -/
theorem promotion_spec (root : Option Position) {k : Kind} {fields : List Tree}
    (hm : k ≠ .esModule) (h : FieldsFit loose k k.slots fields) (fs : List Frame) :
    ∃ r, promotion k (.node k fields) (enclosingOf root fs) = .ok r ∧
      Innermost root k (.node k fields) [] fs r := by
  simpa [promotion, noneIs] using promoteThrough_spec root hm h [] fs

/-! ## What is lifted is lighter -/

theorem Frame.gain_pos (f : Frame) : 0 < f.gain := by
  cases f with
  | field k before after => exact k.fitWeight_pos
  | item before after => exact Nat.zero_lt_succ _

/-- Of all frames, only expression statements may weigh as little as one. -/
theorem Frame.two_le_gain {f : Frame} (hf : f.isPosition = true)
    (hocc : f.occupant ≠ some .expressionStatement) : 2 ≤ f.gain := by
  cases f with
  | item before after => simp [gain]
  | field k before after =>
    obtain ⟨s, _, hs, -⟩ := slot?_of_isPosition hf
    have hk : k ≠ .expressionStatement := fun hk => hocc (congrArg some hk)
    rw [Kind.slots_eq] at hs
    cases k <;> simp_all [gain, Kind.fitWeight, Kind.weight, Kind.fields]

/-- Around what is no expression, only block statements weigh less than three. -/
theorem three_le_weight_plug {f : Frame} (hf : f.isPosition = true)
    (hocc : f.occupant ≠ some .blockStatement) {t : Tree} (ht : t.isExpression = false) :
    t.weight + 3 ≤ (f.plug t).weight := by
  cases f with
  | item before after =>
    rw [weight_plug_item]
    omega
  | field k before after =>
    obtain ⟨s, _, hs, -⟩ := Frame.slot?_of_isPosition hf
    have hk : k ≠ .blockStatement := fun hk => hocc (congrArg some hk)
    have hthree : 3 ≤ nodeWeight k (before ++ t :: after) := by
      by_cases he : k = .expressionStatement
      · subst he
        rw [nodeWeight_expressionStatement, if_neg (by simp [ht])]
      · -- the sentinels have no fields
        rw [nodeWeight_of_ne he]
        rw [Kind.slots_eq] at hs
        cases k <;> simp_all [Kind.weight, Kind.fields]
    rw [weight_plug_field hf]
    omega

/-- What owns statements is no expression. -/
theorem isExpression_of_statementField {k : Kind} {field : String}
    (h : k.statementField? = some field) : k.isExpression = false := by
  have hdisjoint : Kind.all.all (fun k =>
    !(k.isExpression && k.statementField?.isSome)) = true := by decide
  simpa [h] using Kind.forall_of_all hdisjoint k

theorem weight_blockOf (ss : Tree) :
    (Tree.node .blockStatement [.node .block [ss]]).weight = 5 + ss.weight := by
  rw [Tree.weight, fieldsWeight_of_not_hasText rfl, List.map_singleton, List.sum_singleton,
    Tree.weight, fieldsWeight_of_not_hasText rfl, List.map_singleton, List.sum_singleton,
    ← Nat.add_assoc]
  rfl

/-- What a node is lifted to is lighter than what stood there. -/
theorem Lifts.lighter {k : Kind} {fields : List Tree} {type : Option Position}
    {inner : List Frame} {v : Tree} (hpos : Positions inner) (hinner : inner ≠ [])
    (hv : Lifts k (.node k fields) type inner v) :
    v.weight < (plugAll inner (.node k fields)).weight := by
  -- the innermost frame weighs more than the wrapper
  obtain ⟨f, fs, rfl⟩ := List.exists_cons_of_ne_nil hinner
  have hf := hpos f List.mem_cons_self
  have hrest := le_weight_plugAll hpos.tail (f.plug (.node k fields))
  have hgain := gain_le_weight_plug hf (.node k fields)
  rw [plugAll_cons]
  cases hv with
  | self htakes =>
    have := f.gain_pos
    omega
  | statement hexp htakes hnone =>
    have := Frame.two_le_gain hf (hnone f List.mem_cons_self)
    rw [weight_statementOf hexp]
    omega
  | @block field ss hfield hchild htakes hnone =>
    have hexp : (Tree.node k fields).isExpression = false := isExpression_of_statementField hfield
    have hthree := three_le_weight_plug hf (hnone f List.mem_cons_self) hexp
    have hss : nodeWeight k fields + ss.weight ≤ (Tree.node k fields).weight :=
      weight_field_le (Tree.mem_parts_of_child hchild)
    have hk : nodeWeight k fields = 3 := by
      rw [statementField?_eq] at hfield
      cases k <;> first | rfl | cases hfield
    rw [weight_blockOf]
    omega

/-! ## What is lifted fits -/

/-- Programs stand nowhere but at the root. -/
theorem not_program_of_hole {fs : List Frame} {k : Kind} {fields : List Tree}
    (hfs : Positions fs) (hne : fs ≠ [])
    (h : FitsAt true none (plugAll fs (.node k fields))) : k ≠ .script ∧ k ≠ .esModule := by
  obtain ⟨_, type, -, htype, -⟩ := loosens_holeTypeOf hfs _ h hne
  have hfit := h.holeAll fs hfs
  rw [htype] at hfit
  have hQ : forallHoleTypes true (fun t => !t.required.takes .script &&
    !t.required.takes .esModule) = true := by decide
  have hnot := holds_of_holeType hQ htype
  constructor
  · rintro rfl
    simp [hfit.1] at hnot
  · rintro rfl
    simp [hfit.1] at hnot

/-- Where statements stand, blocks do. -/
theorem takes_blockStatement {fs : List Frame} {type : Position}
    (htype : holeTypeOf false none fs = some type)
    (h : type.required.takes .expressionStatement = true) :
    type.required.takes .blockStatement = true := by
  have hQ : forallHoleTypes false (fun t => !t.required.takes .expressionStatement ||
    t.required.takes .blockStatement) = true := by decide
  simpa [h] using holds_of_holeType hQ htype

/-- What a node is lifted to fits where it comes to stand. -/
theorem Lifts.fitsAt {k : Kind} {fields : List Tree} {inner outer : List Frame} {v : Tree}
    (hpos : Positions (inner ++ outer)) (hinner : inner ≠ []) (houter : outer ≠ [])
    (h : FitsAt true none (plugAll (inner ++ outer) (.node k fields)))
    (hv : Lifts k (.node k fields) (holeTypeOf false none outer) inner v) :
    FitsAt true (holeTypeOf true none outer) v := by
  have hk : FieldsFit true k k.slots fields := (h.holeAll _ hpos).isFit
  rw [plugAll_append] at h
  obtain ⟨type, type', htype, htype', hloosens⟩ :=
    loosens_holeTypeOf hpos.right _ h houter
  rw [htype] at hv
  rw [htype']
  cases hv with
  | self htakes => exact ⟨hloosens.takes (by simpa using htakes), hk⟩
  | statement hexp htakes hnone =>
    exact ⟨hloosens.takes (by simpa using htakes), fieldsFit_expressionStatement hexp hk⟩
  | @block field ss hfield hchild htakes hnone =>
    have hm : k ≠ .esModule :=
      (not_program_of_hole hpos (by simp [hinner]) (by rwa [plugAll_append])).2
    obtain ⟨ss', hchild', hss⟩ := child_of_statementField hfield hm hk
    cases hchild.symm.trans hchild'
    have hblock := takes_blockStatement htype (by simpa using htakes)
    exact ⟨hloosens.takes hblock, (fieldsFit_blockStatement hss).2⟩

end Whittle
