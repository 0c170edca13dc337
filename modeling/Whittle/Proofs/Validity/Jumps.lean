import Whittle.Proofs.Validity.Reporters

/-!
# Functions and jumps

Whether a node may return, await, yield or jump is a matter of the nodes around it, up to the
nearest function that it is in the parameters or the body of. The context that is handed down
says just that.
-/

namespace Whittle

open Grammar Whittle.Language

/-! ## What the nodes around say -/

namespace Ancestor

/-- The node. -/
def node (a : Ancestor) : Tree := .node a.kind a.fields

/-- Whether a field of the node holds *true*. -/
def isSet (a : Ancestor) (name : String) : Bool :=
  match a.node.childAt (.field name) with
  | .ok v => v.isTrue
  | .error _ => false

/-- A function that is entered through its parameters or its body. -/
def isFunctionPart (a : Ancestor) : Bool :=
  [.functionDeclaration, .functionExpression, .method, .getter, .setter,
    .arrowExpression].contains a.kind && ["params", "param", "body"].contains a.field

/-- A loop that is entered through its body. -/
def isLoopBody (a : Ancestor) : Bool := a.kind.isLoop && a.field == "body"

/-- A switch that is entered through its cases. -/
def isSwitchPart (a : Ancestor) : Bool :=
  (a.kind == .switchStatement || a.kind == .switchStatementWithDefault)
    && a.field != "discriminant"

/-- A statement with the label `l`. -/
def isLabelled (l : String) (a : Ancestor) : Bool :=
  match a.kind, a.fields with
  | .labeledStatement, [.str name, _] => name == l
  | _, _ => false

end Ancestor

/-- The nearest function among some nodes, the innermost of which comes first. -/
def function? (as : List Ancestor) : Option Ancestor := as.find? (·.isFunctionPart)

/-- The nodes up to the nearest function. -/
def within (as : List Ancestor) : List Ancestor := as.takeWhile (!·.isFunctionPart)

/-- A loop, under any number of labels. -/
inductive LabelsLoop : Tree → Prop
  | loop {k : Kind} (fields : List Tree) (hk : k.isLoop = true) : LabelsLoop (.node k fields)
  | label (l : Tree) {body : Tree} (h : LabelsLoop body) :
    LabelsLoop (.node .labeledStatement [l, body])

/-- A node that does not stand where it may. The nodes around it are `as`, the innermost
first. -/
inductive Misplaced (as : List Ancestor) : Tree → Violation → Prop
  /-- A return, and no function around. -/
  | returnOutside (fields : List Tree) (h : function? as = none) :
    Misplaced as (.node .returnStatement fields) .returnOutside
  /-- An await, not in the body of an asynchronous function. -/
  | awaitOutside (fields : List Tree)
    (h : ¬ ∃ b, function? as = some b ∧ b.field = "body" ∧ b.isSet "is_async" = true) :
    Misplaced as (.node .awaitExpression fields) .awaitOutside
  /-- A yield, not in the body of a generator. -/
  | yieldOutside (fields : List Tree)
    (h : ¬ ∃ b, function? as = some b ∧ b.field = "body" ∧ b.isSet "is_generator" = true) :
    Misplaced as (.node .yieldExpression fields) .yieldOutside
  /-- A break, in no loop or switch of the function. -/
  | breakOutside
    (h : ∀ a ∈ within as, a.isLoopBody = false ∧ a.isSwitchPart = false) :
    Misplaced as (.node .breakStatement [.absent]) .breakOutside
  /-- A continue, in no loop of the function. -/
  | continueOutside (h : ∀ a ∈ within as, a.isLoopBody = false) :
    Misplaced as (.node .continueStatement [.absent]) .continueOutside
  /-- A break to a label that there is not in the function. -/
  | breakToUndeclared (l : String) (h : ∀ a ∈ within as, a.isLabelled l = false) :
    Misplaced as (.node .breakStatement [.str l]) (.breakToUndeclared l)
  /-- A continue to a label that there is not in the function. -/
  | continueToUndeclared (l : String) (h : ∀ a ∈ within as, a.isLabelled l = false) :
    Misplaced as (.node .continueStatement [.str l]) (.continueToUndeclared l)
  /-- A continue to a label of which the outermost in the function labels no loop. -/
  | continueToNonLoop (l : String) (a : Ancestor)
    (ha : (within as).reverse.find? (·.isLabelled l) = some a) (h : ¬ LabelsLoop a.node) :
    Misplaced as (.node .continueStatement [.str l]) (.continueToNonLoop l)
  /-- A label that there is around it in the function. -/
  | labelRedeclared (l : String) (body : Tree) (a : Ancestor) (ha : a ∈ within as)
    (h : a.isLabelled l = true) :
    Misplaced as (.node .labeledStatement [.str l, body]) (.labelRedeclared l)

/-! ## What the context says -/

theorem isLabelledLoop?_eq_true {t : Tree} : t.isLabelledLoop? = some true ↔ LabelsLoop t := by
  fun_induction Tree.isLabelledLoop? t with
  | case1 l body ih =>
    rw [ih]
    refine ⟨.label l, fun h => ?_⟩
    cases h with
    | loop _ hk => cases hk
    | label _ h => exact h
  | case2 fields hfields =>
    refine iff_of_false nofun fun h => ?_
    cases h with
    | loop _ hk => cases hk
    | label l h => exact hfields _ _ rfl
  | case3 k fields _ hk =>
    rw [Option.some.injEq]
    refine ⟨.loop fields, fun h => ?_⟩
    cases h with
    | loop _ hk => exact hk
    | label l h => exact (hk rfl).elim
  | case4 t _ _ ht =>
    refine iff_of_false nofun fun h => ?_
    cases h <;> exact ht _ _ rfl

/-- The label of a statement, and whether it labels a loop. -/
def Ancestor.labelling? (a : Ancestor) : Option (String × Bool) :=
  match a.kind, a.fields with
  | .labeledStatement, [.str name, body] => body.isLabelledLoop?.map (name, ·)
  | _, _ => none

/-- What a context says of functions and jumps. -/
structure Jumps where
  inFunction : Bool := false
  isAsync : Bool := false
  isGenerator : Bool := false
  inIteration : Bool := false
  inSwitch : Bool := false
  labels : List (String × Bool) := []

def Context.jumps (c : Context) : Jumps :=
  { inFunction := c.inFunction, isAsync := c.isAsync, isGenerator := c.isGenerator
    inIteration := c.inIteration, inSwitch := c.inSwitch, labels := c.labels }

/-- What the nodes around say of functions and jumps. -/
def Jumps.around (as : List Ancestor) : Jumps where
  inFunction := (function? as).isSome
  isAsync := (function? as).any fun b => b.field == "body" && b.isSet "is_async"
  isGenerator := (function? as).any fun b => b.field == "body" && b.isSet "is_generator"
  inIteration := (within as).any (·.isLoopBody)
  inSwitch := (within as).any (·.isSwitchPart)
  labels := (within as).reverse.filterMap (·.labelling?)

/-- What a node makes of what is said around it. A function starts afresh; a loop, a switch or a
label adds to it. -/
def Jumps.enter (j : Jumps) (a : Ancestor) : Jumps :=
  if a.isFunctionPart then
    { inFunction := true
      isAsync := a.field == "body" && a.isSet "is_async"
      isGenerator := a.field == "body" && a.isSet "is_generator" }
  else
    { j with
      inIteration := j.inIteration || a.isLoopBody
      inSwitch := j.inSwitch || a.isSwitchPart
      labels := j.labels ++ a.labelling?.toList }

variable {a : Ancestor} {as : List Ancestor} {c inner : Context} {j : Jumps}

theorem Jumps.around_cons : around (a :: as) = (around as).enter a := by
  cases h : a.isFunctionPart with
  | true => simp [around, enter, function?, within, h]
  | false =>
    cases hlabel : a.labelling? with
    | none => simp [around, enter, function?, within, h, hlabel, Bool.or_comm]
    | some l => simp [around, enter, function?, within, h, hlabel, Bool.or_comm]

/-- A node that is no function, loop, switch or labeled statement hands on what is around it. -/
theorem Jumps.enter_plain (h : a.isFunctionPart = false) (hloop : a.isLoopBody = false)
    (hswitch : a.isSwitchPart = false) (hlabel : a.labelling? = none) : j.enter a = j := by
  rw [enter, if_neg (by simp [h]), hloop, hswitch, hlabel]
  simp

theorem Ancestor.isSet_eq {name : String} {v : Tree}
    (h : (name, v) ∈ a.kind.fieldNames.zip a.fields) : a.isSet name = v.isTrue := by
  rw [isSet, show a.node.childAt (.field name) = .ok v from childAt_node.2 ⟨name, rfl, h⟩]

theorem Ancestor.isSet_of_notMem {name : String} (h : name ∉ a.kind.fieldNames) :
    a.isSet name = false := by
  rw [isSet]
  split
  · rename_i v hv
    obtain ⟨_, heq, hmem⟩ := childAt_node.1 hv
    cases heq
    exact absurd (List.of_mem_zip hmem).1 h
  · rfl

/-! ## What the context says -/

@[simp] theorem Context.inherited_jumps : c.inherited.jumps = c.jumps := rfl

theorem ofFunction_jumps {inBody isAsync isGenerator superProperty superCall : Bool} {body : Tree}
    (h : c.ofFunction inBody isAsync isGenerator superProperty superCall body = some inner) :
    inner.jumps =
      { inFunction := true
        isAsync := inBody && isAsync
        isGenerator := inBody && isGenerator } := by
  obtain ⟨_, -, h⟩ := Option.bind_eq_some_iff.1 h
  cases h
  rfl

theorem ofArrow_jumps {inBody isAsync : Bool} {body : Tree}
    (h : c.ofArrow inBody isAsync body = some inner) :
    inner.jumps = { inFunction := true, isAsync := inBody && isAsync } := by
  obtain ⟨_, -, h⟩ := Option.bind_eq_some_iff.1 h
  cases h
  rw [Bool.and_comm inBody]
  rfl

theorem ofClass_jumps {isDeclaration : Bool} {superClass : Tree} {field : String} :
    (c.ofClass isDeclaration superClass field).jumps = c.jumps := by
  unfold Context.ofClass
  split
  · rfl
  · split <;> rfl

theorem isTrue_of_flag? {t : Tree} {b : Bool} (h : t.flag? = some b) : t.isTrue = b := by
  cases t <;> cases h
  cases b <;> rfl

/-- The contexts in functions whose flags are their first two fields. -/
theorem ofFlags_jumps {inBody superProperty superCall : Bool} {isAsync isGenerator body : Tree}
    (h : (do
      c.ofFunction inBody (← isAsync.flag?) (← isGenerator.flag?) superProperty superCall body)
      = some inner) :
    inner.jumps =
      { inFunction := true
        isAsync := inBody && isAsync.isTrue
        isGenerator := inBody && isGenerator.isTrue } := by
  obtain ⟨_, hasync, h⟩ := Option.bind_eq_some_iff.1 h
  obtain ⟨_, hgenerator, h⟩ := Option.bind_eq_some_iff.1 h
  rw [ofFunction_jumps h, isTrue_of_flag? hasync, isTrue_of_flag? hgenerator]

/-- Whether a field with the given name is for the parameters or the body of a function. -/
def Kind.hasPart : Kind → String → Bool
  | functionDeclaration, n | functionExpression, n | method, n | arrowExpression, n =>
    n == "params" || n == "body"
  | getter, n => n == "body"
  | setter, n => n == "param" || n == "body"
  | _, _ => false

theorem Ancestor.isFunctionPart_eq (ha : a.field ∈ a.kind.fieldNames) :
    a.isFunctionPart = a.kind.hasPart a.field := by
  have hall : Kind.all.all (fun k => k.fieldNames.all fun n =>
      (⟨k, [], n⟩ : Ancestor).isFunctionPart == k.hasPart n) = true := by
    decide
  exact eq_of_beq (List.all_eq_true.1 (Kind.forall_of_all hall a.kind) a.field ha)

/-- A field of a function is for its parameters or its body, or it is not. -/
theorem jumps_of_part {part : Bool} {x y : Option Context}
    (hpart : a.isFunctionPart = part) (hloop : a.kind.isLoop = false)
    (hswitch : a.isSwitchPart = false) (hlabel : a.labelling? = none)
    (h : (if part = true then x else y) = some inner)
    (hx : x = some inner → inner.jumps =
      { inFunction := true
        isAsync := a.field == "body" && a.isSet "is_async"
        isGenerator := a.field == "body" && a.isSet "is_generator" })
    (hy : y = some inner → inner.jumps = c.jumps) : inner.jumps = c.jumps.enter a := by
  cases part with
  | true => rw [hx h, Jumps.enter, if_pos hpart]
  | false =>
    rw [hy h, Jumps.enter_plain hpart (by rw [Ancestor.isLoopBody, hloop, Bool.false_and])
      hswitch hlabel]

/-- What the context of a field says is what the node makes of what is said around it. -/
theorem ofField_jumps (ha : a.field ∈ a.kind.fieldNames)
    (h : c.ofField a.kind a.fields a.field = some inner) : inner.jumps = c.jumps.enter a := by
  obtain ⟨k, fields, field⟩ := a
  dsimp only at ha h
  unfold Context.ofField at h
  split at h
  case h_1 | h_12 =>
    cases h
    exact (Jumps.enter_plain rfl rfl rfl rfl).symm
  case h_2 =>
    obtain ⟨_, -, h⟩ := Option.bind_eq_some_iff.1 h
    cases h
    exact (Jumps.enter_plain rfl rfl rfl rfl).symm
  case h_3 =>
    refine jumps_of_part (Ancestor.isFunctionPart_eq ha) rfl rfl rfl h (fun h => ?_) fun h => ?_
    · rw [ofFlags_jumps h, Ancestor.isSet_eq (List.mem_of_getElem? (i := 0) rfl),
        Ancestor.isSet_eq (List.mem_of_getElem? (i := 1) rfl)]
    · split at h <;> cases h <;> rfl
  case h_4 | h_5 =>
    refine jumps_of_part (Ancestor.isFunctionPart_eq ha) rfl rfl rfl h (fun h => ?_) fun h => ?_
    · rw [ofFlags_jumps h, Ancestor.isSet_eq (List.mem_of_getElem? (i := 0) rfl),
        Ancestor.isSet_eq (List.mem_of_getElem? (i := 1) rfl)]
    · cases h
      rfl
  case h_6 | h_7 =>
    -- accessors have no flags
    refine jumps_of_part (Ancestor.isFunctionPart_eq ha) rfl rfl rfl h (fun h => ?_) fun h => ?_
    · rw [ofFunction_jumps h, Ancestor.isSet_of_notMem, Ancestor.isSet_of_notMem]
      · dsimp only
        decide
      · dsimp only
        decide
    · cases h
      rfl
  case h_8 =>
    refine jumps_of_part (Ancestor.isFunctionPart_eq ha) rfl rfl rfl h (fun h => ?_) fun h => ?_
    · obtain ⟨_, hasync, h⟩ := Option.bind_eq_some_iff.1 h
      rw [ofArrow_jumps h, Ancestor.isSet_eq (List.mem_of_getElem? (i := 0) rfl),
        isTrue_of_flag? hasync, Ancestor.isSet_of_notMem, Bool.and_false]
      dsimp only
      decide
    · cases h
      rfl
  case h_9 | h_10 =>
    cases h
    exact ofClass_jumps.trans (Jumps.enter_plain rfl rfl rfl rfl).symm
  case h_11 =>
    obtain ⟨_, -, h⟩ := Option.bind_eq_some_iff.1 h
    obtain ⟨_, -, h⟩ := Option.bind_eq_some_iff.1 h
    cases h
    exact (Jumps.enter_plain rfl rfl rfl rfl).symm
  case h_13 | h_14 | h_15 | h_16 | h_17 =>
    cases h
    rw [Jumps.enter, if_neg (by simp [Ancestor.isFunctionPart])]
    simp [Ancestor.isLoopBody, Ancestor.isSwitchPart, Ancestor.labelling?, Kind.isLoop,
      Context.jumps, Context.inherited]
  case h_18 =>
    obtain ⟨isLoop, hloop, h⟩ := Option.bind_eq_some_iff.1 h
    cases h
    rw [Jumps.enter, if_neg (by simp [Ancestor.isFunctionPart])]
    simp [Ancestor.isLoopBody, Ancestor.isSwitchPart, Ancestor.labelling?, Kind.isLoop,
      Context.jumps, Context.inherited, hloop]
  case h_29 =>
    cases h
    refine (Jumps.enter_plain ?_ ?_ ?_ ?_).symm
    · grind [Ancestor.isFunctionPart]
    · grind [Ancestor.isLoopBody, Kind.isLoop]
    · grind [Ancestor.isSwitchPart]
    · grind [Ancestor.labelling?]
  all_goals cases h

/-- The context of a node says of functions and jumps what the nodes around it say. -/
theorem jumps_eq_around (has : ∀ a ∈ as, a.Fits) (h : contextIn? {} as = some c) :
    c.jumps = Jumps.around as := by
  induction as generalizing c with
  | nil =>
    cases h
    rfl
  | cons a as ih =>
    obtain ⟨ha, has⟩ := List.forall_mem_cons.1 has
    obtain ⟨outer, houter, h⟩ := Option.bind_eq_some_iff.1 h
    rw [ofField_jumps ha.field h, ih has houter, Jumps.around_cons]

/-! ## Labels -/

/-- Whether a statement is a loop, under any number of labels. -/
def Ancestor.labelsLoop (a : Ancestor) : Bool := a.node.isLabelledLoop? == some true

theorem Ancestor.labelsLoop_iff : a.labelsLoop = true ↔ LabelsLoop a.node := by
  rw [labelsLoop, beq_iff_eq, isLabelledLoop?_eq_true]

/-- The only labels are those of labeled statements, which tell whether they label a loop. -/
theorem Ancestor.Fits.labelling? (ha : a.Fits) (l : String) :
    a.labelling?.any (·.1 == l) = a.isLabelled l ∧
    (a.isLabelled l = true → a.labelling?.map (·.2) = some a.labelsLoop) := by
  obtain ⟨k, fields, field⟩ := a
  by_cases hk : k = .labeledStatement
  · subst hk
    obtain ⟨b, hb⟩ := exists_isLabelledLoop? ha.fields
    obtain ⟨name, body, rfl, hname, -⟩ := (fit_two rfl rfl).1 ha.fields
    obtain ⟨s, rfl⟩ := fitsType_string.1 hname
    have hlabelling : (⟨.labeledStatement, [.str s, body], field⟩ : Ancestor).labelling? =
        some (s, b) := by
      rw [Tree.isLabelledLoop?] at hb
      simp only [Ancestor.labelling?, hb, Option.map_some]
    rw [hlabelling, Ancestor.labelsLoop, Ancestor.node, hb]
    exact ⟨rfl, fun _ => by cases b <;> rfl⟩
  · have hlabelling : (⟨k, fields, field⟩ : Ancestor).labelling? = none := by
      simp [Ancestor.labelling?, hk]
    have hlabelled : (⟨k, fields, field⟩ : Ancestor).isLabelled l = false := by
      simp [Ancestor.isLabelled, hk]
    rw [hlabelling, hlabelled]
    exact ⟨rfl, fun h => absurd h Bool.false_ne_true⟩

variable {l : String}

/-- The label that counts is the outermost one of that name in the function. -/
theorem label?_eq (hc : c.jumps = Jumps.around as) (has : ∀ a ∈ as, a.Fits) :
    c.label? l = ((within as).reverse.find? (·.isLabelled l)).map (·.labelsLoop) := by
  have hlabels : c.labels = (within as).reverse.filterMap (·.labelling?) :=
    congrArg Jumps.labels hc
  have hfits : ∀ a ∈ (within as).reverse, a.Fits := fun a ha =>
    has a ((List.takeWhile_sublist _).subset (List.mem_reverse.1 ha))
  have hcongr : (within as).reverse.find? (fun a => a.labelling?.any (·.1 == l)) =
      (within as).reverse.find? (·.isLabelled l) :=
    List.find?_congr fun a ha => ((hfits a ha).labelling? l).1
  rw [Context.label?, hlabels, List.find?_filterMap, hcongr]
  cases hfind : (within as).reverse.find? (·.isLabelled l) with
  | none => rfl
  | some a =>
    have hlabelled : a.isLabelled l = true := List.find?_some hfind
    exact ((hfits a (List.mem_of_find?_eq_some hfind)).labelling? l).2 hlabelled

theorem label?_eq_none (hc : c.jumps = Jumps.around as) (has : ∀ a ∈ as, a.Fits) :
    c.label? l = none ↔ ∀ a ∈ within as, a.isLabelled l = false := by
  simp [label?_eq hc has]

/-! ## Reported jumps -/

/-- Whether a rule is about functions and jumps. -/
def Violation.isJump : Violation → Bool
  | returnOutside | awaitOutside | yieldOutside | breakOutside | continueOutside
  | breakToUndeclared _ | continueToUndeclared _ | continueToNonLoop _ | labelRedeclared _ => true
  | _ => false

variable {k : Kind} {fields : List Tree} {v : Violation} {own : List EarlyError}

theorem Misplaced.mem_reporters (h : Misplaced as (.node k fields) v) : k ∈ v.reporters := by
  cases h <;> exact List.mem_cons_self

theorem mem_spelling {name : String} {reserved : Bool} {e : EarlyError}
    (he : e ∈ Rules.spelling name reserved) :
    e.violation = .invalidIdentifier name ∨ e.violation = .reservedWord name := by
  unfold Rules.spelling at he
  split at he
  · obtain rfl := List.mem_singleton.1 he
    exact .inl rfl
  · obtain ⟨-, rfl⟩ := mem_when.1 he
    exact .inr rfl

theorem mem_breakStatement {label : Tree} (h : Rules.breakStatement c label = some own) :
    v.here ∈ own ↔
      label = .absent ∧ v = .breakOutside ∧ c.inIteration = false ∧ c.inSwitch = false ∨
      ∃ l, label = .str l ∧ v = .breakToUndeclared l ∧ c.label? l = none := by
  unfold Rules.breakStatement at h
  split at h
  · cases h
    simp [mem_when, here_inj, and_comm]
  · cases h
    simp [mem_when, here_inj, and_comm]
  · cases h

theorem mem_continueStatement {label : Tree} (h : Rules.continueStatement c label = some own) :
    v.here ∈ own ↔
      label = .absent ∧ v = .continueOutside ∧ c.inIteration = false ∨
      ∃ l, label = .str l ∧ (v = .continueToUndeclared l ∧ c.label? l = none ∨
        v = .continueToNonLoop l ∧ c.label? l = some false) := by
  unfold Rules.continueStatement at h
  split at h
  · cases h
    simp [mem_when, here_inj, and_comm]
  · rename_i l
    cases hl : c.label? l with
    | none =>
      rw [hl] at h
      cases h
      simp [here_inj, hl]
    | some isLoop =>
      rw [hl] at h
      cases h
      simp [mem_when, here_inj, hl, and_comm]
  · cases h

theorem mem_labeledStatement {name l : String} {body : Tree}
    (h : nodeErrors c .labeledStatement [.str name, body] = some own) :
    (Violation.labelRedeclared l).here ∈ own ↔ name = l ∧ (c.label? l).isSome = true := by
  obtain ⟨es, hes, h⟩ := Option.bind_eq_some_iff.1 h
  cases h
  rw [List.mem_append, Rules.label, List.mem_append, mem_when, here_inj]
  constructor
  · rintro (he | ⟨hsome, heq⟩ | he)
    · obtain ⟨k, hk⟩ := mem_singleStatement hes he
      cases hk
    · cases heq
      exact ⟨rfl, hsome⟩
    · rcases mem_spelling he with h | h <;> cases h
  · rintro ⟨rfl, hsome⟩
    exact .inr (.inl ⟨hsome, rfl⟩)

/-- A flag of the nearest function counts in its body. -/
theorem any_body {b? : Option Ancestor} {name : String} :
    (!b?.any fun b => b.field == "body" && b.isSet name) = true ↔
      ¬ ∃ b, b? = some b ∧ b.field = "body" ∧ b.isSet name = true := by
  cases b? <;> simp [imp_iff_not_or]

/-- A node reports the jump rules that it breaks, by where it stands. -/
theorem here_mem_iff_misplaced (hc : c.jumps = Jumps.around as) (has : ∀ a ∈ as, a.Fits)
    (hfields : FieldsFit false k k.slots fields) (hown : nodeErrors c k fields = some own)
    (hv : v.isJump = true) : v.here ∈ own ↔ Misplaced as (.node k fields) v := by
  by_cases hk : k ∈ v.reporters
  swap
  · exact iff_of_false (fun h => hk (reports_nodeErrors c k fields own hown _ h).mem)
      fun h => hk h.mem_reporters
  have hiteration : c.inIteration = false ↔ ∀ a ∈ within as, a.isLoopBody = false := by
    rw [show c.inIteration = _ from congrArg Jumps.inIteration hc, Jumps.around, List.any_eq_false]
    simp only [Bool.not_eq_true]
  have hswitch : c.inSwitch = false ↔ ∀ a ∈ within as, a.isSwitchPart = false := by
    rw [show c.inSwitch = _ from congrArg Jumps.inSwitch hc, Jumps.around, List.any_eq_false]
    simp only [Bool.not_eq_true]
  cases v with
  | returnOutside =>
    obtain rfl := List.mem_singleton.1 hk
    cases hown
    rw [mem_when, show c.inFunction = (function? as).isSome from congrArg Jumps.inFunction hc]
    constructor
    · rintro ⟨h, -⟩
      exact .returnOutside fields (by simpa using h)
    · rintro ⟨-, h⟩
      exact ⟨by simpa using h, rfl⟩
  | awaitOutside =>
    obtain rfl := List.mem_singleton.1 hk
    cases hown
    rw [mem_when, show c.isAsync = _ from congrArg Jumps.isAsync hc, Jumps.around, any_body]
    constructor
    · rintro ⟨h, -⟩
      exact .awaitOutside fields h
    · intro h
      cases h with
      | awaitOutside _ h => exact ⟨h, rfl⟩
  | yieldOutside =>
    obtain rfl := List.mem_singleton.1 hk
    cases hown
    rw [mem_when, show c.isGenerator = _ from congrArg Jumps.isGenerator hc, Jumps.around, any_body]
    constructor
    · rintro ⟨h, -⟩
      exact .yieldOutside fields h
    · intro h
      cases h with
      | yieldOutside _ h => exact ⟨h, rfl⟩
  | breakOutside =>
    obtain rfl := List.mem_singleton.1 hk
    obtain ⟨label, rfl, -⟩ := (fit_one rfl rfl).1 hfields
    rw [mem_breakStatement hown, hiteration, hswitch]
    constructor
    · rintro (⟨rfl, -, hloop, hswitch⟩ | ⟨l, -, h, -⟩)
      · exact .breakOutside fun a ha => ⟨hloop a ha, hswitch a ha⟩
      · cases h
    · intro h
      cases h with
      | breakOutside h => exact .inl ⟨rfl, rfl, fun a ha => (h a ha).1, fun a ha => (h a ha).2⟩
  | continueOutside =>
    obtain rfl := List.mem_singleton.1 hk
    obtain ⟨label, rfl, -⟩ := (fit_one rfl rfl).1 hfields
    rw [mem_continueStatement hown, hiteration]
    constructor
    · rintro (⟨rfl, -, hloop⟩ | ⟨l, -, ⟨h, -⟩ | ⟨h, -⟩⟩)
      · exact .continueOutside hloop
      · cases h
      · cases h
    · intro h
      cases h with
      | continueOutside h => exact .inl ⟨rfl, rfl, h⟩
  | breakToUndeclared l =>
    obtain rfl := List.mem_singleton.1 hk
    obtain ⟨label, rfl, -⟩ := (fit_one rfl rfl).1 hfields
    rw [mem_breakStatement hown]
    constructor
    · rintro (⟨-, h, -⟩ | ⟨l, rfl, ⟨⟩, h⟩)
      · cases h
      · exact .breakToUndeclared l ((label?_eq_none hc has).1 h)
    · intro h
      cases h with
      | breakToUndeclared _ h => exact .inr ⟨l, rfl, rfl, (label?_eq_none hc has).2 h⟩
  | continueToUndeclared l =>
    obtain rfl := List.mem_singleton.1 hk
    obtain ⟨label, rfl, -⟩ := (fit_one rfl rfl).1 hfields
    rw [mem_continueStatement hown]
    constructor
    · rintro (⟨-, h, -⟩ | ⟨l, rfl, ⟨⟨⟩, h⟩ | ⟨h, -⟩⟩)
      · cases h
      · exact .continueToUndeclared l ((label?_eq_none hc has).1 h)
      · cases h
    · intro h
      cases h with
      | continueToUndeclared _ h =>
        exact .inr ⟨l, rfl, .inl ⟨rfl, (label?_eq_none hc has).2 h⟩⟩
  | continueToNonLoop l =>
    obtain rfl := List.mem_singleton.1 hk
    obtain ⟨label, rfl, -⟩ := (fit_one rfl rfl).1 hfields
    rw [mem_continueStatement hown]
    constructor
    · rintro (⟨-, h, -⟩ | ⟨l, rfl, ⟨h, -⟩ | ⟨⟨⟩, h⟩⟩)
      · cases h
      · cases h
      · rw [label?_eq hc has, Option.map_eq_some_iff] at h
        obtain ⟨a, ha, h⟩ := h
        exact .continueToNonLoop l a ha (by simp [← Ancestor.labelsLoop_iff, h])
    · intro h
      cases h with
      | continueToNonLoop _ a ha h =>
        rw [← Ancestor.labelsLoop_iff, Bool.not_eq_true] at h
        refine .inr ⟨l, rfl, .inr ⟨rfl, ?_⟩⟩
        rw [label?_eq hc has, ha, Option.map_some, h]
  | labelRedeclared l =>
    obtain rfl := List.mem_singleton.1 hk
    obtain ⟨name, body, rfl, hname, -⟩ := (fit_two rfl rfl).1 hfields
    obtain ⟨s, rfl⟩ := fitsType_string.1 hname
    rw [mem_labeledStatement hown, label?_eq hc has, Option.isSome_map, List.find?_isSome]
    constructor
    · rintro ⟨rfl, a, ha, h⟩
      exact .labelRedeclared s body a (List.mem_reverse.1 ha) h
    · intro h
      cases h with
      | labelRedeclared _ _ a ha h => exact ⟨rfl, a, List.mem_reverse.2 ha, h⟩
  | _ => cases hv

/-- The errors about functions and jumps are reported at just those nodes that are misplaced among
the nodes around them. -/
theorem mem_earlyErrors_jump {t n : Tree} {p : Path} (ht : t.wellTyped = true)
    (hn : t.get p = .ok n) (hv : v.isJump = true) :
    ⟨p, v⟩ ∈ earlyErrors t ↔ Misplaced (t.ancestors p) n v := by
  have hat : v.isAtNode = true := by
    cases v <;> first | rfl | cases hv
  have hwalk := (wellTyped_iff.1 ht).walkable
  have hfits := hwalk.ancestors (p := p)
  rw [mem_earlyErrors_at ht hn hat]
  constructor
  · rintro ⟨k, fields, c, own, rfl, -, hc, hown, h⟩
    exact (here_mem_iff_misplaced (jumps_eq_around hfits hc) hfits (hwalk.get hn) hown hv).1 h
  · intro h
    obtain ⟨k, fields, rfl⟩ : ∃ k fields, n = .node k fields := by
      cases h <;> exact ⟨_, _, rfl⟩
    obtain ⟨c, own, hc, hown⟩ := exists_contextAt ht hn
    exact ⟨k, fields, c, own, rfl, h.mem_reporters, hc, hown,
      (here_mem_iff_misplaced (jumps_eq_around hfits hc) hfits (hwalk.get hn) hown hv).2 h⟩

/-- An asynchronous function in which a loop and the block that it is in have the same label, the
loop goes on with that label, and an arrow function in its condition waits. -/
def labelledTwice : Tree :=
  .node .script [.list [], .list [.node .functionDeclaration [.bool true, .bool false,
    .node .bindingIdentifier [.str "f"], .node .formalParameters [.list [], .absent],
    .node .functionBody [.list [], .list [
      .node .labeledStatement [.str "L", .node .blockStatement [.node .block [.list [
        .node .labeledStatement [.str "L", .node .whileStatement [
          .node .arrowExpression [.bool false, .node .formalParameters [.list [], .absent],
            .node .awaitExpression [.node .thisExpression []]],
          .node .continueStatement [.str "L"]]]]]]]]]]]]

/-- The path of the inner labeled statement. -/
def innerLabel : Path :=
  [.field "statements", .index 0, .field "body", .field "statements", .index 0, .field "body",
    .field "block", .field "statements", .index 0]

/-- The outer label counts, which labels no loop. What the outer function is does not count in
the arrow function. -/
theorem mem_earlyErrors_jump_labelledTwice :
    labelledTwice.wellTyped = true ∧
    ⟨innerLabel, .labelRedeclared "L"⟩ ∈ earlyErrors labelledTwice ∧
    ⟨innerLabel ++ [.field "body", .field "body"], .continueToNonLoop "L"⟩ ∈
      earlyErrors labelledTwice ∧
    ⟨innerLabel ++ [.field "body", .field "test", .field "body"], .awaitOutside⟩ ∈
      earlyErrors labelledTwice := by
  have ht : labelledTwice.wellTyped = true := by decide
  refine ⟨ht, ?_, ?_, ?_⟩
  · exact (mem_earlyErrors_jump ht rfl rfl).2
      (.labelRedeclared "L" _ _ (List.mem_of_getElem? (i := 2) rfl) rfl)
  · refine (mem_earlyErrors_jump ht rfl rfl).2 (.continueToNonLoop "L" _ rfl fun h => ?_)
    cases h with
    | loop _ hk => cases hk
    | label _ h =>
      cases h with
      | loop _ hk => cases hk
  · refine (mem_earlyErrors_jump ht rfl rfl).2 (.awaitOutside _ ?_)
    rintro ⟨b, ⟨⟩, -, h⟩
    cases h

end Whittle
