import Whittle.Proofs.Validity.Located

/-!
# Who reports what

Every rule is one of nodes of a few kinds, and most rules are reported at the node itself. So an
error tells of which kind the node is that broke the rule, and mostly its path is the path of
that node.
-/

namespace Whittle

open Grammar Whittle.Language

/-! ## The reporters of a rule -/

/-- The kinds of nodes with declarations of their own. -/
def Kind.scopes : List Kind :=
  [.script, .esModule, .functionBody, .block, .switchStatement, .switchStatementWithDefault]

/-- The kinds of functions whose parameters are a list. -/
def Kind.functions : List Kind :=
  [.functionDeclaration, .functionExpression, .arrowExpression, .method]

/-- The kinds of nodes that report a broken rule. -/
def Violation.reporters : Violation → List Kind
  | notANode _ | notAdmitted _ _ _ | misshapen _ => []
  | returnOutside => [.returnStatement]
  | awaitOutside => [.awaitExpression]
  | yieldOutside => [.yieldExpression]
  | breakOutside | breakToUndeclared _ => [.breakStatement]
  | continueOutside | continueToUndeclared _ | continueToNonLoop _ => [.continueStatement]
  | labelRedeclared _ => [.labeledStatement]
  | superCallOutside => [.callExpression]
  | superPropertyOutside =>
    [.computedMemberExpression, .computedMemberAssignmentTarget, .staticMemberExpression,
      .staticMemberAssignmentTarget]
  | duplicateLexical _ | lexicalAndVar _ => .forStatement :: Kind.scopes
  | parameterRedeclared _ | strictDirectiveAfterParameters => .setter :: Kind.functions
  | duplicateParameter _ => Kind.functions
  | catchRedeclared _ => [.catchClause]
  | noDeclarators | constWithoutInit => [.variableDeclaration]
  | declarationAsStatement _ =>
    [.ifStatement, .doWhileStatement, .whileStatement, .forStatement, .labeledStatement]
  | templateEnds | templateAlternation => [.templateExpression]
  | staticPrototype | secondConstructor | accessorConstructor | specialConstructor =>
    [.classDeclaration, .classExpression]
  | secondDefaultExport => [.esModule]
  | misplacedDefaultName | restrictedName _ => [.bindingIdentifier]
  | invalidIdentifier _ =>
    [.bindingIdentifier, .identifierExpression, .assignmentTargetIdentifier,
      .labeledStatement, .staticMemberExpression, .staticMemberAssignmentTarget]
  | reservedWord _ =>
    [.bindingIdentifier, .identifierExpression, .assignmentTargetIdentifier, .labeledStatement]
  | numberNotFinite | numberNegative => [.literalNumericExpression]
  | emptyPattern => [.literalRegExpExpression]
  | strictDelete => [.unaryExpression]

/-- Whether a broken rule is reported at the node, not at one of its fields or an item there. -/
def Violation.isAtNode : Violation → Bool
  | declarationAsStatement _ | duplicateParameter _ | constWithoutInit | templateAlternation
  | staticPrototype | secondConstructor | accessorConstructor | specialConstructor
  | secondDefaultExport => false
  | _ => true

/-- The error is one that a node of kind `k` may report, and where it does. -/
structure EarlyError.OfKind (k : Kind) (e : EarlyError) : Prop where
  mem : k ∈ e.violation.reporters
  path : e.violation.isAtNode = true → e.path = []

/-- All errors that there are, are ones that a node of kind `k` may report. -/
def Reports (k : Kind) (x : Option (List EarlyError)) : Prop :=
  ∀ es, x = some es → ∀ e ∈ es, e.OfKind k

variable {k : Kind}

theorem Violation.ofKind_here {v : Violation} (h : k ∈ v.reporters) : v.here.OfKind k :=
  ⟨h, fun _ => rfl⟩

theorem Violation.ofKind_at {v : Violation} (h : k ∈ v.reporters) (hv : v.isAtNode = false)
    (p : Path) : EarlyError.OfKind k ⟨p, v⟩ :=
  ⟨h, fun hv' => by rw [hv] at hv'; cases hv'⟩

namespace Reports

theorem none : Reports k none := nofun

theorem nil : Reports k (some []) := by
  rintro _ ⟨⟩
  simp

theorem when {e : EarlyError} (h : e.OfKind k) (b : Bool) :
    Reports k (some (EarlyError.when b e)) := by
  rintro _ ⟨⟩ e' he'
  cases b with
  | false => cases he'
  | true => exact List.mem_singleton.1 he' ▸ h

theorem map {f : String → EarlyError} (h : ∀ n, (f n).OfKind k) (names : List String) :
    Reports k (some (names.map f)) := by
  rintro _ ⟨⟩ e he
  obtain ⟨n, -, rfl⟩ := List.mem_map.1 he
  exact h n

theorem append {es es' : List EarlyError} (h : Reports k (some es))
    (h' : Reports k (some es')) : Reports k (some (es ++ es')) := by
  rintro _ ⟨⟩ e he
  rcases List.mem_append.1 he with he | he
  · exact h es rfl e he
  · exact h' es' rfl e he

theorem bind {α : Type} {x : Option α} {f : α → Option (List EarlyError)}
    (h : ∀ a, x = some a → Reports k (f a)) : Reports k (x >>= f) := by
  intro es hes
  obtain ⟨a, ha, hes⟩ := Option.bind_eq_some_iff.1 hes
  exact h a ha es hes

/-- Errors of one rule and then of another. -/
theorem both {x y : Option (List EarlyError)} (hx : Reports k x) (hy : Reports k y) :
    Reports k (do return (← x) ++ (← y)) := by
  refine bind fun es hes => bind fun es' hes' => append ?_ ?_
  · exact hes ▸ hx
  · exact hes' ▸ hy

end Reports

/-! ## Rules -/

namespace Reports

theorem scopeErrors (hk : k ∈ Kind.scopes) (b : Bool) (items : List Tree) :
    Reports k (Whittle.scopeErrors b items) := by
  have hmem : k ∈ Kind.forStatement :: Kind.scopes := List.mem_cons_of_mem _ hk
  refine bind fun _ _ => bind fun _ _ => append (map (fun n => ?_) _) (map (fun n => ?_) _)
  · exact Violation.ofKind_here hmem
  · exact Violation.ofKind_here hmem

theorem switchErrors (hk : k ∈ Kind.scopes) (cases : List Tree) :
    Reports k (Rules.switchErrors cases) :=
  bind fun _ _ => scopeErrors hk false _

theorem redeclared (hk : k ∈ Kind.setter :: Kind.functions) (names : List String) (body : Tree) :
    Reports k (Rules.redeclared names body) := by
  unfold Rules.redeclared
  split
  · exact bind fun _ _ => map (fun n => Violation.ofKind_here hk) _
  · exact none
  · exact nil
  · exact none

theorem function (hk : k ∈ Kind.functions) (c : Context) (unique : Bool) (params body : Tree) :
    Reports k (Rules.function c unique params body) := by
  have hmem : k ∈ Kind.setter :: Kind.functions := List.mem_cons_of_mem _ hk
  refine bind fun names _ => bind fun es hes => bind fun _ _ => bind fun _ _ => ?_
  refine append (append (hes ▸ redeclared hmem names body) (when ?_ _)) ?_
  · exact Violation.ofKind_here hmem
  · split
    · exact map (fun n => Violation.ofKind_at hk rfl _) _
    · exact nil

theorem setter (param body : Tree) : Reports .setter (Rules.setter param body) := by
  refine bind fun name _ => bind fun es hes => bind fun _ _ => append ?_ (when ?_ _)
  · exact hes ▸ redeclared List.mem_cons_self [name] body
  · exact Violation.ofKind_here List.mem_cons_self

theorem singleStatement (hk : k ∈ [Kind.ifStatement, .doWhileStatement, .whileStatement,
    .forStatement, .labeledStatement]) (field : String) (t : Tree) :
    Reports k (Rules.singleStatement field t) := by
  unfold Rules.singleStatement
  split
  · exact nil
  · exact bind fun _ _ => when (Violation.ofKind_at hk rfl _) _
  · exact none
  · exact when (Violation.ofKind_at hk rfl _) _
  · exact none

theorem forHead (init body : Tree) : Reports .forStatement (Rules.forHead init body) := by
  have hmem : Kind.forStatement ∈ Kind.forStatement :: Kind.scopes := List.mem_cons_self
  unfold Rules.forHead
  split
  · refine bind fun names _ => ?_
    split
    · exact nil
    · refine bind fun _ _ => append (map (fun n => ?_) _) (map (fun n => ?_) _)
      · exact Violation.ofKind_here hmem
      · exact Violation.ofKind_here hmem
  · exact nil

theorem catchParameter (binding body : Tree) :
    Reports .catchClause (Rules.catchParameter binding body) := by
  unfold Rules.catchParameter
  split
  · split
    · exact nil
    · exact bind fun _ _ => bind fun _ _ =>
        when (Violation.ofKind_here (List.mem_singleton.2 rfl)) _
  · exact none

theorem uninitialised (i : Nat) (ds : List Tree) :
    Reports .variableDeclaration (Rules.uninitialised i ds) := by
  induction ds generalizing i with
  | nil => exact nil
  | cons d ds ih =>
    refine bind fun _ _ => bind fun es hes => append (when ?_ _) (hes ▸ ih (i + 1))
    exact Violation.ofKind_at (List.mem_singleton.2 rfl) rfl _

theorem variableDeclaration (word : String) (ds : List Tree) :
    Reports .variableDeclaration (Rules.variableDeclaration word ds) := by
  have hempty : Violation.noDeclarators.here.OfKind .variableDeclaration :=
    Violation.ofKind_here (List.mem_singleton.2 rfl)
  unfold Rules.variableDeclaration
  split
  · exact bind fun es hes => append (when hempty _) (hes ▸ uninitialised 0 ds)
  · exact append (when hempty _) nil

theorem spelling {name : String} {reserved : Bool}
    (hk : k ∈ (Violation.invalidIdentifier name).reporters)
    (hr : reserved = true → k ∈ (Violation.reservedWord name).reporters) :
    Reports k (some (Rules.spelling name reserved)) := by
  unfold Rules.spelling
  split
  · exact when (Violation.ofKind_here hk) true
  · cases reserved with
    | false => exact nil
    | true => exact when (Violation.ofKind_here (hr rfl)) _

theorem label (c : Context) (name : String) :
    Reports .labeledStatement (some (Rules.label c name)) :=
  append (when (Violation.ofKind_here (List.mem_singleton.2 rfl)) _)
    (spelling (by simp [Violation.reporters]) fun _ => by simp [Violation.reporters])

theorem breakStatement (c : Context) (label : Tree) :
    Reports .breakStatement (Rules.breakStatement c label) := by
  unfold Rules.breakStatement
  split
  · exact when (Violation.ofKind_here (List.mem_singleton.2 rfl)) _
  · exact when (Violation.ofKind_here (List.mem_singleton.2 rfl)) _
  · exact none

theorem continueStatement (c : Context) (label : Tree) :
    Reports .continueStatement (Rules.continueStatement c label) := by
  unfold Rules.continueStatement
  split
  · exact when (Violation.ofKind_here (List.mem_singleton.2 rfl)) _
  · split
    · exact when (Violation.ofKind_here (List.mem_singleton.2 rfl)) true
    · exact when (Violation.ofKind_here (List.mem_singleton.2 rfl)) _
  · exact none

theorem member (hk : k ∈ Violation.superPropertyOutside.reporters) (c : Context) (object : Tree) :
    Reports k (some (Rules.member c object)) :=
  when (Violation.ofKind_here hk) _

theorem alternation (i : Nat) (es : List Tree) :
    Reports .templateExpression (some (Rules.alternation i es)) := by
  induction es generalizing i with
  | nil => exact nil
  | cons e es ih =>
    exact append (when (Violation.ofKind_at (List.mem_singleton.2 rfl) rfl _) _) (ih (i + 1))

theorem template (es : List Tree) : Reports .templateExpression (some (Rules.template es)) :=
  append (when (Violation.ofKind_here (List.mem_singleton.2 rfl)) _) (alternation 0 es)

theorem number (value : Tree) : Reports .literalNumericExpression (Rules.number value) := by
  unfold Rules.number
  split
  · exact when (Violation.ofKind_here (List.mem_singleton.2 rfl)) _
  · split
    · exact when (Violation.ofKind_here (List.mem_singleton.2 rfl)) true
    · exact when (Violation.ofKind_here (List.mem_singleton.2 rfl)) _
  · exact none

theorem constructorFaults (hk : k ∈ [Kind.classDeclaration, .classExpression]) (i : Nat)
    (method : Tree) : Reports k (Rules.constructorFaults i method) := by
  unfold Rules.constructorFaults
  split
  · exact bind fun _ _ => bind fun _ _ => when (Violation.ofKind_at hk rfl _) _
  · exact none
  · exact when (Violation.ofKind_at hk rfl _) true
  · exact none

theorem classElements (hk : k ∈ [Kind.classDeclaration, .classExpression]) (i seen : Nat)
    (es : List Tree) : Reports k (Rules.classElements i seen es) := by
  induction es generalizing i seen with
  | nil => exact nil
  | cons e es ih =>
    rw [Rules.classElements.eq_def]
    split
    · exact nil
    · rename_i heq
      cases heq
      exact bind fun _ _ => bind fun _ _ => bind fun es' hes' =>
        append (when (Violation.ofKind_at hk rfl _) _) (hes' ▸ ih (i + 1) seen)
    · rename_i heq
      cases heq
      refine bind fun b _ => ?_
      cases b with
      | false => exact ih (i + 1) seen
      | true =>
        refine bind fun faults hfaults => bind fun es' hes' => append (append (when ?_ _) ?_) ?_
        · exact Violation.ofKind_at hk rfl _
        · exact hfaults ▸ constructorFaults hk i _
        · exact hes' ▸ ih (i + 1) (seen + 1)
    · exact none

theorem defaultExports (i : Nat) (seen : Bool) (items : List Tree) :
    Reports .esModule (some (Rules.defaultExports i seen items)) := by
  induction items generalizing i seen with
  | nil => exact nil
  | cons t ts ih =>
    exact append (when (Violation.ofKind_at (List.mem_singleton.2 rfl) rfl _) _) (ih _ _)

theorem binding (c : Context) (name : String) :
    Reports .bindingIdentifier (some (Rules.binding c name)) := by
  unfold Rules.binding
  split
  · exact when (Violation.ofKind_here (List.mem_singleton.2 rfl)) _
  · exact append (spelling List.mem_cons_self fun _ => List.mem_cons_self)
      (when (Violation.ofKind_here (List.mem_singleton.2 rfl)) _)

end Reports

/-- A node reports the rules of its kind only. -/
theorem reports_nodeErrors (c : Context) (k : Kind) (fields : List Tree) :
    Reports k (nodeErrors c k fields) := by
  unfold nodeErrors
  split
  case h_1 | h_3 | h_9 => exact .scopeErrors (by simp [Kind.scopes]) _ _
  case h_2 =>
    exact .both (.scopeErrors (by simp [Kind.scopes]) _ _) (.defaultExports _ _ _)
  case h_4 | h_5 | h_6 | h_7 => exact .function (by simp [Kind.functions]) _ _ _ _
  case h_8 => exact .setter _ _
  case h_10 | h_11 => exact .switchErrors (by simp [Kind.scopes]) _
  case h_12 => exact .catchParameter _ _
  case h_13 => exact .variableDeclaration _ _
  case h_14 => exact .both (.singleStatement (by simp) _ _) (.singleStatement (by simp) _ _)
  case h_15 | h_16 => exact .singleStatement (by simp) _ _
  case h_17 => exact .both (.singleStatement (by simp) _ _) (.forHead _ _)
  case h_18 =>
    exact .bind fun es hes => .append (hes ▸ .singleStatement (by simp) _ _) (.label _ _)
  case h_19 | h_20 | h_21 | h_22 =>
    exact .when (Violation.ofKind_here (List.mem_singleton.2 rfl)) _
  case h_23 => exact .breakStatement _ _
  case h_24 => exact .continueStatement _ _
  case h_25 => exact .when (Violation.ofKind_here (List.mem_singleton.2 rfl)) _
  case h_26 | h_27 => exact .member (by simp [Violation.reporters]) _ _
  case h_28 | h_29 =>
    exact .append (.member (by simp [Violation.reporters]) _ _)
      (.spelling (by simp [Violation.reporters]) nofun)
  case h_30 => exact .template _
  case h_31 | h_32 => exact .classElements (by simp) _ _ _
  case h_33 => exact .binding _ _
  case h_34 | h_35 =>
    exact .spelling (by simp [Violation.reporters]) fun _ => by simp [Violation.reporters]
  case h_36 => exact .number _
  case h_37 => exact .when (Violation.ofKind_here (List.mem_singleton.2 rfl)) _
  all_goals first | exact .none | exact .nil

/-! ## Errors at a path -/

theorem mem_when {b : Bool} {e e' : EarlyError} : e ∈ EarlyError.when b e' ↔ b = true ∧ e = e' := by
  cases b <;> simp [EarlyError.when]

theorem here_inj {v w : Violation} : v.here = w.here ↔ v = w := by
  simp [Violation.here]

/-- Of a single statement a declaration is reported, at the field that holds it. -/
theorem mem_singleStatement {field : String} {t : Tree} {own : List EarlyError}
    {e : EarlyError} (h : Rules.singleStatement field t = some own) (he : e ∈ own) :
    ∃ k, e = (Violation.declarationAsStatement k).atField field := by
  unfold Rules.singleStatement at h
  split at h
  · cases h
    cases he
  · obtain ⟨_, -, h⟩ := Option.bind_eq_some_iff.1 h
    cases h
    obtain ⟨-, rfl⟩ := mem_when.1 he
    exact ⟨_, rfl⟩
  · cases h
  · cases h
    obtain ⟨-, rfl⟩ := mem_when.1 he
    exact ⟨_, rfl⟩
  · cases h

/-- A rule that is broken at the node itself is reported at the node's path, by that node in the
context that the nodes around it hand down. -/
theorem mem_earlyErrors_at {t n : Tree} {p : Path} {v : Violation} (ht : t.wellTyped = true)
    (hn : t.get p = .ok n) (hv : v.isAtNode = true) : ⟨p, v⟩ ∈ earlyErrors t ↔
      ∃ k fields c own, n = .node k fields ∧ k ∈ v.reporters ∧
        contextIn? {} (t.ancestors p) = some c ∧ nodeErrors c k fields = some own ∧
        v.here ∈ own := by
  rw [mem_earlyErrors ht]
  constructor
  · rintro ⟨q, k, fields, c, own, e, he, hget, hc, hown, heq⟩
    obtain ⟨hmem, hpath⟩ := reports_nodeErrors c k fields own hown e he
    obtain ⟨r, v'⟩ := e
    cases heq
    obtain rfl : r = [] := hpath hv
    rw [List.append_nil] at hn
    exact ⟨k, fields, c, own, Except.ok.inj (hn.symm.trans hget), hmem,
      by rwa [List.append_nil], hown, he⟩
  · rintro ⟨k, fields, c, own, rfl, -, hc, hown, he⟩
    exact ⟨p, k, fields, c, own, v.here, he, hn, hc, hown, by rw [Violation.here, List.append_nil]⟩

/-- Every node of a well-typed tree has a context and reports errors in it. -/
theorem exists_contextAt {t : Tree} {p : Path} {k : Kind} {fields : List Tree}
    (ht : t.wellTyped = true) (hn : t.get p = .ok (.node k fields)) :
    ∃ c own, contextIn? {} (t.ancestors p) = some c ∧ nodeErrors c k fields = some own := by
  have hwalk := (wellTyped_iff.1 ht).walkable
  obtain ⟨c, hc⟩ := exists_contextIn? {} (hwalk.ancestors (p := p))
  have hfields : FieldsFit false k k.slots fields := hwalk.get hn
  obtain ⟨own, hown⟩ := exists_nodeErrors c hfields
  exact ⟨c, own, hc, hown⟩

end Whittle
