import Whittle.Proofs.Source.Operators
import Whittle.Proofs.Source.Parts

/-!
# Expressions are printed

Every printer of an expression succeeds on a node that fits, if the printers of its parts do: the
positions of operands, arguments, elements, properties and targets take no kind that their
printer does not know. What it prints is within an alphabet just if the raw texts of the node and
its parts are.
-/

namespace Whittle.Source

open Grammar Whittle.Language

variable {extra : Char → Bool} {k : Kind} {fields items : List Tree} {v : Tree}
  {form : Printing Form}

/-! ## Parts of expressions -/

/-- The kinds that are no expression are told apart from those that are. -/
theorem contains_of_mem_cons {l : Kind} (h : k ∈ l :: expressionKinds) (hne : k ≠ l) :
    expressionKinds.contains k = true :=
  List.contains_iff_mem.2 ((List.mem_cons.1 h).resolve_left hne)

/-- What a property is read from, or what is called. -/
theorem writes_memberObject (h : v.Each (Printed extra)) (hv : FitsType false memberObject v) :
    Writes extra (pieceOf v).memberObject (RawWithin extra v) := by
  obtain ⟨k, fields, rfl, hk, hfits⟩ :=
    fitsType_kinds rfl (.super :: expressionKinds) (by decide) hv
  unfold Piece.memberObject
  apply Gives.step rfl
  split
  · obtain rfl := (fit_zero rfl rfl).1 hfits
    rw [rawWithin_parts rfl]
    exact Gives.pure (by simp +decide)
  · rename_i hne
    refine (writes_expression_of_kind h (contains_of_mem_cons hk hne) call).bind
      fun text htext => Gives.pure ?_
    exact within_ite_iff (by simp +decide [htext]) htext

theorem writes_spreadable (h : v.Each (Printed extra)) (hv : FitsType false argument v) :
    Writes extra (pieceOf v).spreadable (RawWithin extra v) := by
  obtain ⟨k, fields, rfl, hk, hfits⟩ :=
    fitsType_kinds rfl (.spreadElement :: expressionKinds) (by decide) hv
  unfold Piece.spreadable
  apply Gives.step rfl
  split
  · obtain ⟨e, rfl, he⟩ := (fit_one rfl rfl).1 hfits
    refine (writes_expression (h.part (by simp)) he assignment).bind fun text htext => ?_
    rw [rawWithin_parts rfl]
    exact Gives.pure (by simp +decide [htext])
  · rename_i hne
    exact writes_expression_of_kind h (contains_of_mem_cons hk hne) assignment

/-- A part of a template. -/
theorem writes_templatePart (h : v.Each (Printed extra))
    (hv : FitsType false (.union [expression, .node .templateElement]) v) :
    Writes extra (pieceOf v).templatePart (RawWithin extra v) := by
  obtain ⟨k, fields, rfl, hk, hfits⟩ :=
    fitsType_kinds rfl (.templateElement :: expressionKinds) (by decide) hv
  unfold Piece.templatePart
  apply Gives.step rfl
  split
  · obtain ⟨raw, rfl, hraw⟩ := (fit_one rfl rfl).1 hfits
    obtain ⟨s, rfl⟩ := fitsType_string.1 hraw
    exact ⟨s, rfl, (rawWithin_name rfl).symm⟩
  · rename_i hne
    refine (writes_expression_of_kind h (contains_of_mem_cons hk hne) sequence).bind
      fun text htext => Gives.pure ?_
    simp +decide [htext]

/-- The arguments of a call. -/
theorem writes_arguments {callee list : Tree} (hk : k ∈ [Kind.callExpression, .newExpression])
    (h : list.Each (Printed extra)) (hlist : FitsType false (.list argument) list) :
    Writes extra (Piece.node k (piecesOf [callee, list]) form).arguments
      (RawWithin extra list) := by
  obtain ⟨items, rfl, hitems⟩ := (fitsType_list rfl).1 hlist
  have htexts : Gives ((piecesOf items).mapM Piece.spreadable) fun ss =>
      ((∀ s ∈ ss, Within extra s) ↔ ∀ v ∈ items, RawWithin extra v) :=
    gives_items fun v hv => writes_spreadable (h.item hv) (hitems v hv)
  unfold Piece.arguments
  rcases List.mem_pair.1 hk with rfl | rfl <;>
  · apply Gives.step rfl
    refine htexts.bind fun texts htexts => Gives.pure ?_
    rw [within_inParens, within_commaList, htexts, rawWithin_list]

/-- An index in brackets. -/
theorem writes_subscript {object e : Tree}
    (hk : k ∈ [Kind.computedMemberExpression, .computedMemberAssignmentTarget])
    (h : e.Each (Printed extra)) (he : FitsType false expression e) :
    Writes extra (Piece.node k (piecesOf [object, e]) form).subscript (RawWithin extra e) := by
  have htext := writes_expression h he sequence
  unfold Piece.subscript
  rcases List.mem_pair.1 hk with rfl | rfl <;>
  · refine htext.bind fun text htext => Gives.pure ?_
    simp +decide [htext]

/-- The target of an assignment. -/
theorem gives_targetValue (h : v.Each (Printed extra)) (hv : FitsType false simpleTarget v) :
    Gives (pieceOf v).targetValue fun w => IsTextWithin extra w (RawWithin extra v) := by
  obtain ⟨k, fields, rfl, hk, hfits⟩ := fitsType_kinds rfl [.assignmentTargetIdentifier,
    .computedMemberAssignmentTarget, .staticMemberAssignmentTarget] (by decide) hv
  unfold Piece.targetValue
  apply Gives.step rfl
  simp only [List.mem_cons, List.not_mem_nil, or_false] at hk
  rcases hk with rfl | rfl | rfl
  · obtain ⟨name, rfl, hname⟩ := (fit_one rfl rfl).1 hfits
    obtain ⟨s, rfl⟩ := fitsType_string.1 hname
    exact ⟨.str s, rfl, s, rfl, (rawWithin_name rfl).symm⟩
  · obtain ⟨object, e, rfl, hobject, he⟩ := (fit_two rfl rfl).1 hfits
    have hindex : Writes extra (pieceOf (.node .computedMemberAssignmentTarget
        [object, e])).subscript (RawWithin extra e) :=
      writes_subscript (by decide) (h.part (by simp)) he
    apply Gives.step rfl
    refine (writes_memberObject (h.part (by simp)) hobject).bind fun o ho => ?_
    refine hindex.bind fun index hindex => Gives.pure ⟨_, rfl, ?_⟩
    rw [within_append, ho, hindex, rawWithin_parts (k := .computedMemberAssignmentTarget) rfl]
    simp
  · obtain ⟨object, property, rfl, hobject, hproperty⟩ := (fit_two rfl rfl).1 hfits
    obtain ⟨s, rfl⟩ := fitsType_string.1 hproperty
    apply Gives.step rfl
    refine (writes_memberObject (h.part (by simp)) hobject).bind fun o ho => ?_
    refine Gives.step (a := s) rfl (Gives.pure ⟨_, rfl, ?_⟩)
    rw [rawWithin_text rfl]
    simp +decide [ho, and_comm]

/-- A property of an object. -/
theorem writes_objectProperty (h : v.Each (Printed extra))
    (hv : FitsType false Language.objectProperty v) :
    Writes extra (pieceOf v).objectProperty (RawWithin extra v) := by
  obtain ⟨k, fields, rfl, hk, hfits⟩ := fitsType_kinds rfl
    [.dataProperty, .shorthandProperty, .method, .getter, .setter] (by decide) hv
  have hmethod : k ∈ [Kind.method, .getter, .setter] →
      Writes extra (pieceOf (.node k fields)).method (RawWithin extra (.node k fields)) := by
    intro hmem
    refine writes_method h ((fitsType_union rfl).2 ⟨k, fields, rfl, ?_, hfits⟩)
    simp only [List.mem_cons, List.not_mem_nil, or_false] at hmem
    rcases hmem with rfl | rfl | rfl <;> rfl
  unfold Piece.objectProperty
  apply Gives.step rfl
  simp only [List.mem_cons, List.not_mem_nil, or_false] at hk
  rcases hk with rfl | rfl | rfl | rfl | rfl
  · obtain ⟨name, e, rfl, hname, he⟩ := (fit_two rfl rfl).1 hfits
    have htext := writes_expression (h.part (by simp)) he assignment
    apply Gives.step rfl
    refine (writes_propertyName (h.part (by simp)) hname).bind fun n hn => ?_
    refine htext.bind fun text htext => Gives.pure ?_
    rw [rawWithin_parts rfl]
    simp +decide [hn, htext]
  · obtain ⟨name, rfl, hname⟩ := (fit_one rfl rfl).1 hfits
    obtain ⟨fs, rfl, hfs⟩ := fitsType_node.1 hname
    obtain ⟨text, rfl, htext⟩ := (fit_one rfl rfl).1 hfs
    obtain ⟨s, rfl⟩ := fitsType_string.1 htext
    have hreference : Writes extra
        ((pieceOf (.node .identifierExpression [.str s])).textOf "name")
        (RawWithin extra (.node .identifierExpression [.str s])) := writes_name (by decide)
    rw [rawWithin_parts rfl]
    exact hreference.mono fun text htext => by simpa using htext
  all_goals exact hmethod (by decide)

/-! ## Expressions -/

theorem writes_array {list : Tree} (h : list.Each (Printed extra))
    (hlist : FitsType false (.list (.maybe argument)) list) :
    Writes extra (arrayText (.node .arrayExpression (piecesOf [list]) form))
      (RawWithin extra (.node .arrayExpression [list])) := by
  obtain ⟨items, rfl, hitems⟩ := (fitsType_list rfl).1 hlist
  have htexts : Gives ((piecesOf items).mapM Piece.arrayElement) fun ss =>
      ((∀ s ∈ ss, Within extra s) ↔ ∀ v ∈ items, RawWithin extra v) := by
    refine gives_items fun v hv => ?_
    rcases (fitsType_optional rfl).1 (hitems v hv) with rfl | ⟨-, hargument⟩
    · exact Gives.pure (by simp +decide)
    · have htext := writes_spreadable (h.item hv) hargument
      obtain ⟨l, fs, rfl, -⟩ := (fitsType_union rfl).1 hargument
      exact htext
  unfold arrayText
  apply Gives.step rfl
  refine htexts.bind fun texts htexts => Gives.pure ?_
  rw [rawWithin_parts rfl]
  simp +decide [htexts]

theorem writes_arrow {isAsync : Bool} {params body : Tree}
    (h : ∀ v ∈ [.bool isAsync, params, body], v.Each (Printed extra))
    (hparams : FitsType false (.node .formalParameters) params)
    (hbody : FitsType false (.union [.node .functionBody, expression]) body) :
    Writes extra (arrowText (.node .arrowExpression (piecesOf [.bool isAsync, params, body]) form))
      (RawWithin extra (.node .arrowExpression [.bool isAsync, params, body])) := by
  have hparamsText := writes_parameters (h params (by simp)).inside hparams
  have hbodyEach := h body (by simp)
  obtain ⟨k, fields, rfl, hk, hfits⟩ :=
    fitsType_kinds rfl (.functionBody :: expressionKinds) (by decide) hbody
  unfold arrowText
  apply Gives.step rfl
  apply Gives.step rfl
  refine hparamsText.bind fun ps hps => ?_
  apply Gives.step rfl
  apply Gives.step rfl
  split
  · have hbodyText := writes_functionBody hbodyEach.inside (fitsType_node.2 ⟨fields, rfl, hfits⟩)
    refine hbodyText.bind fun b hb => Gives.pure ?_
    rw [rawWithin_parts rfl]
    simp +decide [hps, hb]
  · rename_i hne
    have hbodyText :=
      writes_expression_of_kind hbodyEach (contains_of_mem_cons hk hne) assignment
    refine hbodyText.bind fun b hb => Gives.pure ?_
    have hbare : Within extra (if beginsWith '{' b.toList = true then inParens b else b) ↔
        RawWithin extra (.node k fields) := within_ite_iff (within_inParens.trans hb) hb
    rw [rawWithin_parts rfl]
    simp +decide [hps, hbare]

theorem writes_binary {left operator right : Tree}
    (h : ∀ v ∈ [left, operator, right], v.Each (Printed extra))
    (hleft : FitsType false expression left)
    (hoperator : FitsType false (.enum binaryOperators) operator)
    (hright : FitsType false expression right) :
    Gives (binaryText (.node .binaryExpression (piecesOf [left, operator, right]) form))
      fun x => (Within extra x.1 ↔
        RawWithin extra (.node .binaryExpression [left, operator, right])) := by
  obtain ⟨o, ho, rfl⟩ := fitsType_enum.1 hoperator
  have hall : ∀ o ∈ binaryOperators, o.toList.all isPlainAscii = true := by decide
  have hplain : Within extra o := within_of_plain (hall o ho)
  obtain ⟨x, hx, hxWithin⟩ := writes_expression (h left (by simp)) hleft (leftLeast o)
  obtain ⟨y, hy, hyWithin⟩ := writes_expression (h right (by simp)) hright (rightLeast o)
  refine ⟨_, binaryText_eq ho hx hy, ?_⟩
  rw [rawWithin_parts rfl]
  exact within_ite_iff (by simp +decide [hxWithin, hyWithin, hplain])
    (by simp +decide [hxWithin, hyWithin, hplain])

theorem writes_unary {operator operand : Tree}
    (h : operand.Each (Printed extra)) (hoperator : FitsType false (.enum unaryOperators) operator)
    (hoperand : FitsType false expression operand) :
    Writes extra (unaryText (.node .unaryExpression (piecesOf [operator, operand]) form))
      (RawWithin extra (.node .unaryExpression [operator, operand])) := by
  obtain ⟨o, ho, rfl⟩ := fitsType_enum.1 hoperator
  have hall : ∀ o ∈ unaryOperators, o.toList.all isPlainAscii = true := by decide
  obtain ⟨x, hx, hxWithin⟩ := writes_expression h hoperand prefixed
  refine ⟨_, unaryText_eq hx, ?_⟩
  rw [rawWithin_parts rfl]
  simp +decide [hxWithin, within_of_plain (hall o ho)]

/-- Two texts side by side. -/
theorem gives_beside {a b : Tree} {c d : Prop} (ha : IsTextWithin extra a c)
    (hb : IsTextWithin extra b d) : Gives (beside a b) fun v => IsTextWithin extra v (c ∧ d) := by
  obtain ⟨s, rfl, hs⟩ := ha
  obtain ⟨t, rfl, ht⟩ := hb
  exact ⟨.str (s ++ t), rfl, s ++ t, rfl, by rw [within_append, hs, ht]⟩

theorem gives_update {isPrefix : Bool} {operator operand : Tree}
    (h : operand.Each (Printed extra))
    (hoperator : FitsType false (.enum updateOperators) operator)
    (hoperand : FitsType false simpleTarget operand) :
    Gives (updateValue
      (.node .updateExpression (piecesOf [.bool isPrefix, operator, operand]) form))
      fun x => IsTextWithin extra x.1
        (RawWithin extra (.node .updateExpression [.bool isPrefix, operator, operand])) := by
  obtain ⟨o, ho, rfl⟩ := fitsType_enum.1 hoperator
  have hall : ∀ o ∈ updateOperators, o.toList.all isPlainAscii = true := by decide
  have hplain : IsTextWithin extra (.str o) True :=
    ⟨o, rfl, iff_true_intro (within_of_plain (hall o ho))⟩
  rw [rawWithin_parts rfl]
  unfold updateValue
  apply Gives.step rfl
  refine (gives_targetValue h hoperand).bind fun v hv => ?_
  apply Gives.step rfl
  apply Gives.step rfl
  split
  · exact (gives_beside hplain hv).bind fun w hw => Gives.pure (by simpa using hw)
  · exact (gives_beside hv hplain).bind fun w hw => Gives.pure (by simpa using hw)

/-- An assignment puts its operator between the target and the value. -/
theorem gives_assignment {p : Piece} {target e operator : Tree}
    (htarget : p.get "binding" = .ok (pieceOf target)) (he : p.get "expression" = .ok (pieceOf e))
    (h : ∀ v ∈ [target, e], v.Each (Printed extra))
    (hfits : FitsType false simpleTarget target) (hfits' : FitsType false expression e)
    (hoperator : IsTextWithin extra operator True) :
    Gives (assignmentValue p operator) fun x =>
      IsTextWithin extra x.1 (RawWithin extra target ∧ RawWithin extra e) := by
  unfold assignmentValue
  apply Gives.step htarget
  refine (gives_targetValue (h _ (by simp)) hfits).bind fun v hv => ?_
  refine (gives_beside hv hoperator).bind fun w hw => ?_
  apply Gives.step he
  refine (gives_expressionValue (h _ (by simp)) hfits' assignment).bind fun x hx => ?_
  exact (gives_beside hw hx).bind fun y hy => Gives.pure (by simpa using hy)

theorem writes_template {tag list : Tree} (h : ∀ v ∈ [tag, list], v.Each (Printed extra))
    (htag : FitsType false (.maybe expression) tag)
    (hlist : FitsType false (.list (.union [expression, .node .templateElement])) list) :
    Gives (templateText (.node .templateExpression (piecesOf [tag, list]) form))
      fun x => (Within extra x.1 ↔ RawWithin extra (.node .templateExpression [tag, list])) := by
  obtain ⟨items, rfl, hitems⟩ := (fitsType_list rfl).1 hlist
  have htagEach := h tag (by simp)
  have hlistEach := h (.list items) (by simp)
  have hparts : Gives ((piecesOf items).mapM Piece.templatePart) fun ss =>
      ((∀ s ∈ ss, Within extra s) ↔ ∀ v ∈ items, RawWithin extra v) :=
    gives_items fun v hv => writes_templatePart (hlistEach.item hv) (hitems v hv)
  unfold templateText
  apply Gives.step rfl
  refine hparts.bind fun parts hparts => ?_
  have htext : Within extra ("\x60" ++ String.join parts ++ "\x60") ↔
      ∀ v ∈ items, RawWithin extra v := by
    simp +decide [hparts]
  rw [rawWithin_parts rfl]
  apply Gives.step rfl
  rcases (fitsType_optional rfl).1 htag with rfl | ⟨-, htag⟩
  · exact Gives.pure (by simpa using htext)
  · have htagText := writes_expression htagEach htag call
    obtain ⟨l, fs, rfl, -⟩ := (fitsType_union rfl).1 htag
    refine htagText.bind fun s hs => Gives.pure ?_
    rw [within_append, hs, htext]
    simp

/-- A regular expression is its pattern between slashes, and the letters of its flags. -/
theorem writes_pattern (hfits : FieldsFit false .literalRegExpExpression
      Kind.literalRegExpExpression.slots fields) :
    Writes extra (patternText (.node .literalRegExpExpression (piecesOf fields) form))
      (RawWithin extra (.node .literalRegExpExpression fields)) := by
  have hfits := (fieldsFit_iff_fitsType (.inr rfl)).1 hfits
  rcases hfits with
    _ | ⟨hpattern, _ | ⟨hg, _ | ⟨hi, _ | ⟨hm, _ | ⟨hd, _ | ⟨hu, _ | ⟨hy, _ | _⟩⟩⟩⟩⟩⟩⟩
  obtain ⟨s, rfl⟩ := fitsType_string.1 hpattern
  obtain ⟨_, rfl⟩ := fitsType_boolean.1 hg
  obtain ⟨_, rfl⟩ := fitsType_boolean.1 hi
  obtain ⟨_, rfl⟩ := fitsType_boolean.1 hm
  obtain ⟨_, rfl⟩ := fitsType_boolean.1 hd
  obtain ⟨_, rfl⟩ := fitsType_boolean.1 hu
  obtain ⟨_, rfl⟩ := fitsType_boolean.1 hy
  have hflags : ∀ (field letter : String) (b : Bool), (field, letter) ∈ patternFlags →
      Within extra (if b = true then letter else "") := by
    have hall : ∀ x ∈ patternFlags, x.2.toList.all isPlainAscii = true := by decide
    exact fun field letter b hmem =>
      within_ite (within_of_plain (hall _ hmem)) (within_of_plain (by decide))
  unfold patternText
  -- The letters are plain, whether their flags are set or not, so the pattern alone counts.
  refine (Gives.mapM (Q := Within extra) fun x hx => ?_).bind fun letters hletters => ?_
  · have hletter := fun b => hflags x.1 x.2 b hx
    simp only [patternFlags, List.mem_cons, List.not_mem_nil, or_false] at hx
    rcases hx with rfl | rfl | rfl | rfl | rfl | rfl <;>
    · apply Gives.step rfl
      exact Gives.pure (hletter _)
  · refine Gives.step (a := s) rfl (Gives.pure ?_)
    rw [rawWithin_text rfl]
    simpa +decide using fun _ => hletters

/-- A string literal is written as data is. -/
theorem writes_data (s : String) : Writes extra (dataText (.str s)) True :=
  ⟨Text.escaped true s, rfl, iff_true_intro within_escaped⟩

theorem fitsType_number {loose : Bool} :
    FitsType loose .number v ↔ (∃ i, v = .int i) ∨ ∃ x, v = .float x := by
  rw [fitsType_leaf rfl]
  cases v <;> simp [Spec.admits, Spec.admits?, Spec.number, Spec.atom, Spec.hasMember]

/-- The expressions that are printed as texts from all of their fields. -/
theorem writes_expressionText (hfits : FieldsFit false k k.slots fields)
    (hparts : ∀ v ∈ fields, v.Each (Printed extra)) (hk : expressionKinds.contains k = true)
    (hne : k ∉ [Kind.identifierExpression, .updateExpression, .assignmentExpression,
      .compoundAssignmentExpression]) :
    Gives (expressionText k (.node k (piecesOf fields) form)) fun x =>
      (Within extra x.1 ↔ RawWithin extra (.node k fields)) := by
  cases k
  case identifierExpression | updateExpression | assignmentExpression
      | compoundAssignmentExpression =>
    exact absurd (by decide) hne
  case arrayExpression =>
    obtain ⟨list, rfl, hlist⟩ := (fit_one rfl rfl).1 hfits
    exact (writes_array (hparts _ (by simp)) hlist).bind fun s hs => Gives.pure hs
  case arrowExpression =>
    obtain ⟨a, params, body, rfl, ha, hparams, hbody⟩ := (fit_three rfl rfl).1 hfits
    obtain ⟨a, rfl⟩ := fitsType_boolean.1 ha
    exact (writes_arrow hparts hparams hbody).bind fun s hs => Gives.pure hs
  case awaitExpression =>
    obtain ⟨e, rfl, he⟩ := (fit_one rfl rfl).1 hfits
    refine (writes_expression (hparts _ (by simp)) he prefixed).bind fun s hs => Gives.pure ?_
    rw [rawWithin_parts rfl]
    simp +decide [hs]
  case binaryExpression =>
    obtain ⟨left, operator, right, rfl, hleft, hoperator, hright⟩ := (fit_three rfl rfl).1 hfits
    exact writes_binary hparts hleft hoperator hright
  case callExpression =>
    obtain ⟨callee, list, rfl, hcallee, hlist⟩ := (fit_two rfl rfl).1 hfits
    have harguments : Writes extra
        (Piece.node .callExpression (piecesOf [callee, list]) form).arguments
        (RawWithin extra list) := writes_arguments (by decide) (hparts list (by simp)) hlist
    apply Gives.step rfl
    refine (writes_memberObject (hparts _ (by simp)) hcallee).bind fun s hs => ?_
    refine harguments.bind fun t ht => Gives.pure ?_
    rw [rawWithin_parts rfl]
    simp [hs, ht]
  case classExpression =>
    obtain ⟨name, superClass, list, rfl, hname, hsuper, hlist⟩ := (fit_three rfl rfl).1 hfits
    have hname := ((fitsType_optional rfl).1 hname).imp_right And.right
    exact (writes_class (by decide) hparts hname hsuper hlist).bind fun s hs => Gives.pure hs
  case computedMemberExpression =>
    obtain ⟨object, e, rfl, hobject, he⟩ := (fit_two rfl rfl).1 hfits
    have hindex : Writes extra
        (Piece.node .computedMemberExpression (piecesOf [object, e]) form).subscript
        (RawWithin extra e) := writes_subscript (by decide) (hparts e (by simp)) he
    apply Gives.step rfl
    refine (writes_memberObject (hparts _ (by simp)) hobject).bind fun s hs => ?_
    refine hindex.bind fun t ht => Gives.pure ?_
    rw [rawWithin_parts rfl]
    simp [hs, ht]
  case conditionalExpression =>
    obtain ⟨test, consequent, alternate, rfl, htest, hconsequent, halternate⟩ :=
      (fit_three rfl rfl).1 hfits
    obtain ⟨x, hx, hxWithin⟩ := writes_expression (hparts _ (by simp)) htest (conditional + 1)
    obtain ⟨y, hy, hyWithin⟩ := writes_expression (hparts _ (by simp)) hconsequent assignment
    obtain ⟨z, hz, hzWithin⟩ := writes_expression (hparts _ (by simp)) halternate assignment
    refine ⟨_, conditionalText_eq hx hy hz, ?_⟩
    rw [rawWithin_parts rfl]
    simp +decide [hxWithin, hyWithin, hzWithin, and_assoc]
  case functionExpression =>
    obtain ⟨a, g, name, params, body, rfl, ha, hg, hname, hparams, hbody⟩ :=
      (fit_five rfl rfl).1 hfits
    obtain ⟨a, rfl⟩ := fitsType_boolean.1 ha
    obtain ⟨g, rfl⟩ := fitsType_boolean.1 hg
    have hname := ((fitsType_optional rfl).1 hname).imp_right And.right
    exact (writes_function (by decide) hparts hname hparams hbody).bind fun s hs => Gives.pure hs
  case literalBooleanExpression =>
    obtain ⟨value, rfl, hvalue⟩ := (fit_one rfl rfl).1 hfits
    obtain ⟨b, rfl⟩ := fitsType_boolean.1 hvalue
    apply Gives.step rfl
    rw [rawWithin_parts rfl]
    exact Gives.pure (by simp +decide)
  case literalNullExpression | thisExpression =>
    obtain rfl := (fit_zero rfl rfl).1 hfits
    rw [rawWithin_parts rfl]
    exact Gives.pure (by simp +decide)
  case literalNumericExpression =>
    obtain ⟨value, rfl, hvalue⟩ := (fit_one rfl rfl).1 hfits
    rw [rawWithin_parts rfl, List.forall_mem_singleton]
    have hnumber := fitsType_number.1 hvalue
    rcases hnumber with ⟨i, rfl⟩ | ⟨x, rfl⟩
    · exact ⟨_, rfl, iff_of_true (within_numeral (.inl ⟨i, rfl⟩)) (rawWithin_leaf rfl)⟩
    · exact ⟨_, rfl, iff_of_true (within_numeral (.inr ⟨x, rfl⟩)) (rawWithin_leaf rfl)⟩
  case literalRegExpExpression =>
    exact (writes_pattern hfits).bind fun s hs => Gives.pure hs
  case literalStringExpression =>
    obtain ⟨value, rfl, hvalue⟩ := (fit_one rfl rfl).1 hfits
    obtain ⟨s, rfl⟩ := fitsType_string.1 hvalue
    apply Gives.step rfl
    rw [rawWithin_parts rfl]
    exact (writes_data s).bind fun t ht => Gives.pure (by simpa using ht)
  case newExpression =>
    obtain ⟨callee, list, rfl, hcallee, hlist⟩ := (fit_two rfl rfl).1 hfits
    have harguments : Writes extra
        (Piece.node .newExpression (piecesOf [callee, list]) form).arguments
        (RawWithin extra list) := writes_arguments (by decide) (hparts list (by simp)) hlist
    refine (writes_expression (hparts _ (by simp)) hcallee memberAccess).bind fun s hs => ?_
    refine harguments.bind fun t ht => Gives.pure ?_
    rw [rawWithin_parts rfl]
    simp +decide [hs, ht]
  case objectExpression =>
    obtain ⟨list, rfl, hlist⟩ := (fit_one rfl rfl).1 hfits
    obtain ⟨items, rfl, hitems⟩ := (fitsType_list rfl).1 hlist
    have hlistEach := hparts (.list items) (by simp)
    have htexts : Gives ((piecesOf items).mapM Piece.objectProperty) fun ss =>
        ((∀ s ∈ ss, Within extra s) ↔ ∀ v ∈ items, RawWithin extra v) :=
      gives_items fun v hv => writes_objectProperty (hlistEach.item hv) (hitems v hv)
    apply Gives.step rfl
    refine htexts.bind fun texts htexts => Gives.pure ?_
    rw [within_braced, within_commaList, htexts, rawWithin_parts rfl]
    simp
  case staticMemberExpression =>
    obtain ⟨object, property, rfl, hobject, hproperty⟩ := (fit_two rfl rfl).1 hfits
    obtain ⟨s, rfl⟩ := fitsType_string.1 hproperty
    apply Gives.step rfl
    refine (writes_memberObject (hparts _ (by simp)) hobject).bind fun o ho => ?_
    refine Gives.step (a := s) rfl (Gives.pure ?_)
    rw [rawWithin_text rfl]
    simp +decide [ho, and_comm]
  case templateExpression =>
    obtain ⟨tag, list, rfl, htag, hlist⟩ := (fit_two rfl rfl).1 hfits
    exact writes_template hparts htag hlist
  case unaryExpression =>
    obtain ⟨operator, operand, rfl, hoperator, hoperand⟩ := (fit_two rfl rfl).1 hfits
    exact (writes_unary (hparts _ (by simp)) hoperator hoperand).bind fun s hs => Gives.pure hs
  case yieldExpression =>
    obtain ⟨e, rfl, he⟩ := (fit_one rfl rfl).1 hfits
    have heach := hparts e (by simp)
    apply Gives.step rfl
    rw [rawWithin_parts rfl]
    rcases (fitsType_optional rfl).1 he with rfl | ⟨-, he⟩
    · exact Gives.pure (by simp +decide)
    · have htext := writes_expression heach he assignment
      obtain ⟨l, fs, rfl, -⟩ := (fitsType_union rfl).1 he
      exact htext.bind fun s hs => Gives.pure (by simp +decide [hs])
  all_goals cases hk

/-- Expressions are printed, each as one text. -/
theorem gives_expression (hfits : FieldsFit false k k.slots fields)
    (hparts : ∀ v ∈ fields, v.Each (Printed extra)) (hk : expressionKinds.contains k = true) :
    Gives (Source.expressionValue k (.node k (piecesOf fields) form))
      fun x => IsTextWithin extra x.1 (RawWithin extra (.node k fields)) := by
  by_cases hvalue : k ∈ [Kind.identifierExpression, .updateExpression, .assignmentExpression,
      .compoundAssignmentExpression]
  · simp only [List.mem_cons, List.not_mem_nil, or_false] at hvalue
    rcases hvalue with rfl | rfl | rfl | rfl
    · obtain ⟨name, rfl, hname⟩ := (fit_one rfl rfl).1 hfits
      obtain ⟨s, rfl⟩ := fitsType_string.1 hname
      exact ⟨_, rfl, s, rfl, (rawWithin_name rfl).symm⟩
    · obtain ⟨isPrefix, operator, operand, rfl, hprefix, hoperator, hoperand⟩ :=
        (fit_three rfl rfl).1 hfits
      obtain ⟨isPrefix, rfl⟩ := fitsType_boolean.1 hprefix
      exact gives_update (hparts _ (by simp)) hoperator hoperand
    · obtain ⟨target, e, rfl, htarget, he⟩ := (fit_two rfl rfl).1 hfits
      rw [rawWithin_parts rfl]
      exact (gives_assignment rfl rfl hparts htarget he
        ⟨"=", rfl, iff_true_intro (within_of_plain (by decide))⟩).mono fun x hx => by simpa using hx
    · obtain ⟨target, operator, e, rfl, htarget, hoperator, he⟩ := (fit_three rfl rfl).1 hfits
      obtain ⟨o, ho, rfl⟩ := fitsType_enum.1 hoperator
      have hall : ∀ o ∈ compoundOperators, o.toList.all isPlainAscii = true := by decide
      apply Gives.step rfl
      rw [rawWithin_parts rfl]
      refine (gives_assignment rfl rfl (fun v hv => hparts v ?_) htarget he
        ⟨o, rfl, iff_true_intro (within_of_plain (hall o ho))⟩).mono fun x hx => by simpa using hx
      rcases List.mem_pair.1 hv with rfl | rfl <;> simp
  -- All other kinds are printed as texts, and their value is the text.
  · have htext : Gives (expressionText k (.node k (piecesOf fields) form)) fun x =>
        (Within extra x.1 ↔ RawWithin extra (.node k fields)) :=
      writes_expressionText hfits hparts hk hvalue
    unfold Source.expressionValue
    split
    case h_5 => exact htext.bind fun x hx => Gives.pure ⟨x.1, rfl, hx⟩
    all_goals exact absurd (by decide) hvalue

end Whittle.Source
