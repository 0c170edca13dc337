import Whittle.Proofs.Sample.Spends
import Whittle.Sample.Statement

/-!
# Generators are thrifty

Every generator spends only what it is given: a name that it is given is a credit, and any other
name or label in its result is handed out while it is at work. The parts of a node come from
makers of which the same is known.
-/

namespace Whittle.Sample

/-- What the makers make is covered by what they are handed out. -/
structure Thrifty {σ : Type} (v : Tree) (m : Makers σ) : Prop where
  expression : ∀ levels c, Spends v 0 (m.expression levels c) (uses v)
  statement : ∀ levels c declarations, Spends v 0 (m.statement levels c declarations) (uses v)

variable {σ : Type} {rs : RandomSource σ} {v : Tree} {m : Makers σ} {levels : Nat} {c : Scene}

/-! ## Expressions without parts -/

theorem spends_reference : Spends v 0 (reference rs) (uses v) := spends_chooseText _ _

theorem spends_propertyText : Spends v 0 (propertyText rs) (uses v) := spends_chooseText _ _

theorem spends_operator (words : List String) : Spends v 0 (operator rs words) (uses v) := by
  cases words with
  | nil => exact .pure (uses_absent v).le
  | cons o os => exact spends_chooseText o os

theorem spends_number : Spends v 0 (number rs) (uses v) := by
  apply Spends.bind (spends_chance 80)
  intro whole
  apply Spends.ite
  · apply Spends.bind (spends_upTo 100)
    intro i
    exact .pure (uses_int v _).le
  · apply Spends.bind spends_roll
    intro x
    exact .pure (uses_float v _).le

theorem spends_pattern : Spends v 0 (pattern rs) (uses v) := by
  apply Spends.bind (spends_chooseText _ _)
  intro text
  apply Spends.seq (spends_flag 30)
  intro isGlobal
  apply Spends.seq (spends_flag 30)
  intro ignoreCase
  apply Spends.seq (spends_flag 10)
  intro multiLine
  apply Spends.seq (spends_flag 10)
  intro dotAll
  apply Spends.seq (spends_flag 10)
  intro unicode
  apply Spends.seq (spends_flag 10)
  intro sticky
  exact spends_plain rfl (by simp [Nat.add_assoc])

theorem spends_leaf : Spends v 0 (leaf rs) (uses v) := by
  apply Spends.bind spends_roll
  intro r
  apply Spends.ite (spends_node₁ rfl spends_reference)
  apply Spends.ite (spends_node₁ rfl spends_number)
  apply Spends.ite (spends_node₁ rfl (spends_letters _ _ _))
  apply Spends.ite (spends_node₁ rfl (spends_flag 50))
  apply Spends.ite (spends_node₀ rfl)
  apply Spends.ite (spends_node₀ rfl)
  exact spends_pattern

/-! ## Expressions with parts -/

section Parts

variable (hm : Thrifty v m)

include hm

theorem spends_part : Spends v 0 (part m levels c) (uses v) := hm.expression _ _

theorem spends_binary : Spends v 0 (binary rs m levels c) (uses v) :=
  spends_node₃ rfl (spends_part hm) (spends_operator _) (spends_part hm)

theorem spends_argument : Spends v 0 (argument rs m levels c) (uses v) := by
  apply Spends.bind (spends_chance 10)
  intro isSpread
  exact .ite (spends_node₁ rfl (spends_part hm)) (spends_part hm)

theorem spends_arguments : Spends v 0 (arguments rs m levels c) (uses v) := by
  apply Spends.bind (spends_severalTrees 3 (spends_argument hm))
  intro ts
  exact .pure (uses_list v ts).le

theorem spends_callExpression : Spends v 0 (callExpression rs m levels c) (uses v) :=
  spends_node₂ rfl (spends_part hm) (spends_arguments hm)

theorem spends_newExpression : Spends v 0 (newExpression rs m levels c) (uses v) :=
  spends_node₂ rfl (spends_part hm) (spends_arguments hm)

theorem spends_superCall : Spends v 0 (superCall rs m levels c) (uses v) :=
  spends_node₂ rfl (spends_node₀ rfl) (spends_arguments hm)

theorem spends_staticMember : Spends v 0 (staticMember rs m levels c) (uses v) :=
  spends_node₂ rfl (spends_part hm) spends_propertyText

theorem spends_computedMember : Spends v 0 (computedMember m levels c) (uses v) :=
  spends_node₂ rfl (spends_part hm) (spends_part hm)

theorem spends_target : Spends v 0 (target rs m levels c) (uses v) := by
  apply Spends.bind spends_roll
  intro r
  apply Spends.ite (spends_node₁ rfl spends_reference)
  apply Spends.ite (spends_node₂ rfl (spends_part hm) spends_propertyText)
  exact spends_node₂ rfl (spends_part hm) (spends_part hm)

theorem spends_assignment : Spends v 0 (assignment rs m levels c) (uses v) :=
  spends_node₂ rfl (spends_target hm) (spends_part hm)

theorem spends_compoundAssignment : Spends v 0 (compoundAssignment rs m levels c) (uses v) :=
  spends_node₃ rfl (spends_target hm) (spends_operator _) (spends_part hm)

theorem spends_unary : Spends v 0 (unary rs m levels c) (uses v) := by
  have hoperand : ∀ (o : Tree) (g : Gen σ Tree), Spends v 0 g (uses v) →
      Spends v (uses v o) (do node .unaryExpression [o, ← g]) (uses v) := by
    intro o g hg
    apply Spends.seq hg
    intro operand
    exact spends_plain rfl (by simp)
  apply Spends.bind (spends_operator _)
  intro o
  exact .ite (hoperand o _ (spends_staticMember hm)) (hoperand o _ (spends_part hm))

theorem spends_update : Spends v 0 (update rs m levels c) (uses v) :=
  spends_node₃ rfl (spends_flag 50) (spends_operator _) (spends_target hm)

theorem spends_conditional : Spends v 0 (conditional m levels c) (uses v) :=
  spends_node₃ rfl (spends_part hm) (spends_part hm) (spends_part hm)

theorem spends_arrayElement : Spends v 0 (arrayElement rs m levels c) (uses v) := by
  apply Spends.bind spends_roll
  intro r
  apply Spends.ite (.pure (uses_absent v).le)
  exact .ite (spends_node₁ rfl (spends_part hm)) (spends_part hm)

theorem spends_array : Spends v 0 (array rs m levels c) (uses v) := by
  apply Spends.bind (spends_severalTrees 3 (spends_arrayElement hm))
  intro ts
  exact spends_plain rfl (by simp)

omit hm in
theorem spends_templateText : Spends v 0 (templateText rs) (uses v) :=
  spends_node₁ rfl (spends_letters _ _ _)

theorem spends_templatePairs (i : Nat) :
    Spends v 0 (templatePairs rs m levels c i) (usesAll v) := by
  induction i with
  | zero => exact .pure (usesAll_nil v).le
  | succ i ih =>
    apply Spends.bind (spends_part hm)
    intro e
    apply Spends.seq spends_templateText
    intro t
    apply Spends.seq ih
    intro ts
    exact .pure (by simp [Nat.add_assoc])

theorem spends_template : Spends v 0 (template rs m levels c) (uses v) := by
  apply Spends.bind spends_templateText
  intro first
  apply Spends.seq (spends_upTo 2)
  intro i
  apply Spends.seq (spends_templatePairs hm i)
  intro rest
  apply Spends.seq (spends_perhaps 20 (spends_part hm))
  intro tag
  exact spends_plain rfl (by simp; omega)

theorem spends_yieldExpression : Spends v 0 (yieldExpression rs m levels c) (uses v) :=
  spends_node₁ rfl (spends_perhaps 70 (spends_part hm))

theorem spends_awaitExpression : Spends v 0 (awaitExpression m levels c) (uses v) :=
  spends_node₁ rfl (spends_part hm)

end Parts

theorem spends_superMember : Spends v 0 (superMember rs) (uses v) :=
  spends_node₂ rfl (spends_node₀ rfl) spends_propertyText

/-! ## Functions -/

section Functions

variable (hm : Thrifty v m)

include hm

theorem spends_statementList : Spends v 0 (statementList rs m levels c) (uses v) := by
  apply Spends.bind (spends_severalTrees 3 (hm.statement _ _ _))
  intro ts
  exact .pure (uses_list v ts).le

theorem spends_parameter : Spends v 0 (parameter rs m levels c) (uses v) := by
  apply Spends.ite spends_binding
  apply Spends.bind (spends_chance 20)
  intro hasDefault
  exact .ite (spends_node₂ rfl spends_binding (spends_part hm)) spends_binding

theorem spends_parameters : Spends v 0 (parameters rs m levels c) (uses v) := by
  apply Spends.bind (spends_perhaps 15 spends_binding)
  intro rest
  apply Spends.seq (spends_severalTrees 2 (spends_parameter hm))
  intro ts
  exact spends_plain rfl (by simp; omega)

theorem spends_functionBody : Spends v 0 (functionBody rs m levels c) (uses v) := by
  apply Spends.bind (spends_statementList hm)
  intro statements
  exact spends_plain rfl (by simp)

theorem spends_functionParts (isAsync isGenerator superProperty superCall : Bool) :
    Spends v 0 (functionParts rs m levels c isAsync isGenerator superProperty superCall)
      fun parts => uses v parts.1 + uses v parts.2 := by
  apply Spends.bind (spends_parameters hm)
  intro params
  apply Spends.seq (spends_functionBody hm)
  intro body
  exact .pure le_rfl

/-- What a name costs that may be missing. -/
def nameCost (v : Tree) : Option Tree → Nat
  | none => 0
  | some name => uses v name

/-- The name is a credit. -/
theorem spends_functionDeclaration (name : Option Tree) :
    Spends v (nameCost v name) (functionDeclaration rs m levels c name) (uses v) := by
  apply Spends.seq (spends_chance 30)
  intro isAsync
  apply Spends.seq (spends_chance 20)
  intro isGenerator
  apply Spends.seq (spends_functionParts hm isAsync isGenerator false false)
  rintro ⟨params, body⟩
  cases name with
  | none =>
    apply Spends.seq spends_binding
    intro name
    exact spends_plain rfl (by simp [nameCost]; omega)
  | some name => exact spends_plain rfl (by simp [nameCost])

theorem spends_functionExpression : Spends v 0 (functionExpression rs m levels c) (uses v) := by
  apply Spends.bind (spends_chance 30)
  intro isAsync
  apply Spends.seq (spends_chance 20)
  intro isGenerator
  apply Spends.seq (spends_functionParts hm isAsync isGenerator false false)
  rintro ⟨params, body⟩
  apply Spends.seq (spends_perhaps 30 spends_binding)
  intro name
  exact spends_plain rfl (by simp; omega)

theorem spends_arrow : Spends v 0 (arrow rs m levels c) (uses v) := by
  apply Spends.bind (spends_chance 30)
  intro isAsync
  apply Spends.seq (spends_parameters hm)
  intro params
  have hbody : ∀ g : Gen σ Tree, Spends v 0 g (uses v) → Spends v (0 + uses v params)
      (do node .arrowExpression [.bool isAsync, params, ← g]) (uses v) := by
    intro g hg
    apply Spends.seq hg
    intro body
    exact spends_plain rfl (by simp)
  apply Spends.seq (spends_chance 50)
  intro hasBlock
  exact .ite (hbody _ (spends_functionBody hm)) (hbody _ (spends_part hm))

theorem spends_propertyName (first : String) (others : List String) :
    Spends v 0 (propertyName rs m levels c first others) (uses v) := by
  have hstatic : Spends v 0 (do node .staticPropertyName [← chooseText rs first others])
      (uses v) := spends_node₁ rfl (spends_chooseText first others)
  apply Spends.ite hstatic
  apply Spends.bind (spends_chance 20)
  intro isComputed
  exact .ite (spends_node₁ rfl (spends_part hm)) hstatic

/-- The name is a credit. -/
theorem spends_plainMethod (name : Tree) (isAsync isGenerator superCall : Bool) :
    Spends v (uses v name) (plainMethod rs m levels c name isAsync isGenerator superCall)
      (uses v) := by
  apply Spends.seq (spends_functionParts hm isAsync isGenerator true superCall)
  rintro ⟨params, body⟩
  exact spends_plain rfl (by simp)

theorem spends_method : Spends v 0 (method rs m levels c) (uses v) := by
  apply Spends.bind (spends_propertyName hm "m" otherMethods)
  intro name
  apply Spends.seq spends_roll
  intro r
  apply Spends.ite
  · apply Spends.seq (spends_chance 30)
    intro isAsync
    apply Spends.seq (spends_chance 20)
    intro isGenerator
    exact spends_plainMethod hm name isAsync isGenerator false
  apply Spends.ite
  · apply Spends.seq (spends_functionBody hm)
    intro body
    exact spends_plain rfl (by simp)
  · apply Spends.seq spends_binding
    intro param
    apply Spends.seq (spends_functionBody hm)
    intro body
    exact spends_plain rfl (by simp [Nat.add_assoc])

/-! ## Classes and objects -/

theorem spends_classElement : Spends v 0 (classElement rs m levels c) (uses v) :=
  spends_node₂ rfl (spends_flag 30) (spends_method hm)

/-- The elements are a credit, and the constructor is put between them. -/
theorem spends_withConstructor (derived : Bool) (elements : List Tree) :
    Spends v (usesAll v elements) (withConstructor rs m levels c derived elements)
      (usesAll v) := by
  have hname : Spends v 0 (node (σ := σ) .staticPropertyName [.str "constructor"]) (uses v) :=
    spends_plain rfl (by simp)
  apply Spends.seq hname
  intro name
  apply Spends.bind ((spends_plainMethod hm name false false derived).frame (usesAll v elements))
  intro constructor
  apply Spends.seq (spends_upTo _)
  intro i
  have helement : Spends v (uses v constructor)
      (node (σ := σ) .classElement [.bool false, constructor]) (uses v) :=
    spends_plain rfl (by simp)
  apply Spends.bind (helement.frame (usesAll v elements))
  intro element
  exact .pure (usesAll_insert v elements element i).le

theorem spends_classParts : Spends v 0 (classParts rs m levels c) fun parts =>
    uses v parts.1 + uses v parts.2 := by
  apply Spends.bind (spends_perhaps 30 (spends_part hm))
  intro superClass
  apply Spends.seq (spends_severalTrees 3 (spends_classElement hm))
  intro elements
  apply Spends.seq (spends_chance 30)
  intro hasConstructor
  apply Spends.ite
  · apply Spends.bind ((spends_withConstructor hm _ elements).frame (uses v superClass))
    intro elements
    exact .pure (by simp)
  · exact .pure (by simp)

/-- The name is a credit. -/
theorem spends_classDeclaration (name : Option Tree) :
    Spends v (nameCost v name) (classDeclaration rs m levels c name) (uses v) := by
  cases name with
  | none =>
    apply Spends.bind spends_binding
    intro name
    apply Spends.seq (spends_classParts hm)
    rintro ⟨superClass, elements⟩
    exact spends_plain rfl (by simp)
  | some name =>
    apply Spends.seq (spends_classParts hm)
    rintro ⟨superClass, elements⟩
    exact spends_plain rfl (by simp [nameCost])

theorem spends_classExpression : Spends v 0 (classExpression rs m levels c) (uses v) := by
  apply Spends.bind (spends_perhaps 30 spends_binding)
  intro name
  apply Spends.seq (spends_classParts hm)
  rintro ⟨superClass, elements⟩
  exact spends_plain rfl (by simp)

theorem spends_objectProperty : Spends v 0 (objectProperty rs m levels c) (uses v) := by
  apply Spends.bind spends_roll
  intro r
  apply Spends.ite (spends_node₂ rfl (spends_propertyName hm _ _) (spends_part hm))
  apply Spends.ite
  · apply Spends.bind spends_reference
    intro text
    apply Spends.bind (spends_around rfl text)
    intro name
    exact spends_around rfl name
  · exact spends_method hm

theorem spends_object : Spends v 0 (object rs m levels c) (uses v) := by
  apply Spends.bind (spends_severalTrees 3 (spends_objectProperty hm))
  intro ts
  exact spends_plain rfl (by simp)

theorem spends_compound : Spends v 0 (compound rs m levels c) (uses v) := by
  apply spends_chooseGen (spends_binary hm)
  simp only [List.forall_mem_append, List.forall_mem_cons]
  constructor
  · constructor
    · constructor
      · constructor
        · exact ⟨spends_binary hm, spends_callExpression hm, spends_staticMember hm,
            spends_computedMember hm, spends_assignment hm, spends_compoundAssignment hm,
            spends_unary hm, spends_update hm, spends_conditional hm, spends_array hm,
            spends_object hm, spends_template hm, spends_newExpression hm, spends_arrow hm,
            spends_functionExpression hm, spends_classExpression hm, nofun⟩
        · exact forall_mem_allowed fun _ => by simpa using spends_awaitExpression hm
      · exact forall_mem_allowed fun _ => by simpa using spends_yieldExpression hm
    · exact forall_mem_allowed fun _ => by simpa using spends_superMember
  · exact forall_mem_allowed fun _ => by simpa using spends_superCall hm

/-! ## Statements -/

theorem spends_expressionStatement : Spends v 0 (expressionStatement m levels c) (uses v) :=
  spends_node₁ rfl (spends_part hm)

theorem spends_throwStatement : Spends v 0 (throwStatement m levels c) (uses v) :=
  spends_node₁ rfl (spends_part hm)

theorem spends_returnStatement : Spends v 0 (returnStatement rs m levels c) (uses v) :=
  spends_node₁ rfl (spends_perhaps 60 (spends_part hm))

omit hm in
/-- A label that is jumped to is used, but not as a label of its own. -/
theorem spends_jumpLabel (labels : List (String × Bool)) (needed : Bool) :
    Spends v 0 (jumpLabel rs labels needed) (uses v) := by
  cases labels with
  | nil => exact .pure (uses_absent v).le
  | cons l ls =>
    apply Spends.bind (spends_chance 50)
    intro b
    apply Spends.ite
    · apply Spends.bind (spends_choose l ls)
      intro label
      exact .pure (uses_str v _).le
    · exact .pure (uses_absent v).le

omit hm in
theorem spends_breakStatement : Spends v 0 (breakStatement rs c) (uses v) :=
  spends_node₁ rfl (spends_jumpLabel _ _)

omit hm in
theorem spends_continueStatement : Spends v 0 (continueStatement rs c) (uses v) :=
  spends_node₁ rfl (spends_jumpLabel _ _)

theorem spends_simpleStatement : Spends v 0 (simpleStatement rs m levels c) (uses v) := by
  apply spends_chooseGen (spends_expressionStatement hm)
  simp only [List.forall_mem_append, List.forall_mem_cons]
  constructor
  · constructor
    · constructor
      · exact ⟨spends_node₀ rfl, spends_throwStatement hm, spends_node₀ rfl, nofun⟩
      · exact forall_mem_allowed fun _ => by simpa using spends_returnStatement hm
    · exact forall_mem_allowed fun _ => by simpa using spends_breakStatement
  · exact forall_mem_allowed fun _ => by simpa using spends_continueStatement

theorem spends_inner : Spends v 0 (inner m levels c) (uses v) := hm.statement _ _ _

theorem spends_block : Spends v 0 (block rs m levels c) (uses v) :=
  spends_node₁ rfl (spends_statementList hm)

theorem spends_blockStatement : Spends v 0 (blockStatement rs m levels c) (uses v) :=
  spends_node₁ rfl (spends_block hm)

theorem spends_ifStatement : Spends v 0 (ifStatement rs m levels c) (uses v) := by
  apply Spends.bind (spends_perhaps 50 (spends_inner hm))
  intro alternate
  apply Spends.seq (spends_part hm)
  intro test
  apply Spends.seq (spends_inner hm)
  intro consequent
  exact spends_plain rfl (by simp; omega)

theorem spends_declarator (isConst : Bool) :
    Spends v 0 (declarator rs m levels c isConst) (uses v) := by
  have hrest : ∀ init, Spends v (uses v init)
      (do node (σ := σ) .variableDeclarator [← binding, init]) (uses v) := by
    intro init
    apply Spends.seq spends_binding
    intro b
    exact spends_plain rfl (by simp; omega)
  apply Spends.ite
  · exact Spends.bind (spends_part hm) hrest
  · exact Spends.bind (spends_perhaps 60 (spends_part hm)) hrest

theorem spends_variableDeclaration (lexical : Bool) :
    Spends v 0 (variableDeclaration rs m levels c lexical) (uses v) := by
  have hrest : ∀ word, Spends v 0 (do
      let first ← declarator rs m levels c (word == "const")
      let others ← several rs 2 (declarator rs m levels c (word == "const"))
      node .variableDeclaration [.str word, .list (first :: others)]) (uses v) := by
    intro word
    apply Spends.bind (spends_declarator hm _)
    intro first
    apply Spends.seq (spends_severalTrees 2 (spends_declarator hm _))
    intro others
    exact spends_plain rfl (by simp)
  apply Spends.ite
  · exact Spends.bind (spends_choose _ _) hrest
  · exact hrest "var"

theorem spends_variableStatement (lexical : Bool) :
    Spends v 0 (variableStatement rs m levels c lexical) (uses v) :=
  spends_node₁ rfl (spends_variableDeclaration hm lexical)

theorem spends_forInit : Spends v 0 (forInit rs m levels c) (uses v) := by
  apply Spends.bind (spends_chance 50)
  intro declares
  apply Spends.ite
  · apply Spends.bind (spends_chance 50)
    intro lexical
    exact spends_variableDeclaration hm lexical
  · exact spends_perhaps 50 (spends_assignment hm)

theorem spends_loopStatement (bodyScene : Scene) :
    Spends v 0 (loopStatement rs m levels c bodyScene) (uses v) := by
  apply Spends.bind (spends_inner hm)
  intro body
  apply Spends.seq spends_roll
  intro r
  apply Spends.ite
  · apply Spends.seq (spends_part hm)
    intro test
    exact spends_plain rfl (by simp; omega)
  apply Spends.ite
  · apply Spends.seq (spends_part hm)
    intro test
    exact spends_plain rfl (by simp)
  · apply Spends.seq (spends_forInit hm)
    intro init
    apply Spends.seq (spends_perhaps 70 (spends_part hm))
    intro test
    apply Spends.seq (spends_perhaps 50 (spends_part hm))
    intro update
    exact spends_plain rfl (by simp; omega)

/-- The label is handed out first, and the body may be left by it. -/
theorem spends_labeledStatement : Spends v 0 (labeledStatement rs m levels c) (uses v) := by
  apply Spends.bind (spends_fresh (.inr rfl))
  intro label
  apply Spends.seq (spends_chance 60)
  intro isLoop
  have hrest : ∀ g : Gen σ Tree, Spends v 0 g (uses v) → Spends v ([Tree.str label].count v)
      (do node .labeledStatement [.str label, ← g]) (uses v) := by
    intro g hg
    apply Spends.seq hg
    intro body
    exact spends_node (by simp [uses_labeled])
  apply Spends.ite
  · exact hrest _ (spends_loopStatement hm _)
  · exact hrest _ (spends_blockStatement hm)

theorem spends_switchCase : Spends v 0 (switchCase rs m levels c) (uses v) :=
  spends_node₂ rfl (spends_part hm) (spends_statementList hm)

theorem spends_switchStatement : Spends v 0 (switchStatement rs m levels c) (uses v) := by
  apply Spends.bind (spends_part hm)
  intro discriminant
  apply Spends.seq (spends_chance 50)
  intro plain
  apply Spends.ite
  · apply Spends.seq (spends_severalTrees 3 (spends_switchCase hm))
    intro cases
    exact spends_plain rfl (by simp)
  · apply Spends.seq (spends_severalTrees 2 (spends_switchCase hm))
    intro before
    apply Spends.seq (spends_statementList hm)
    intro statements
    apply Spends.bind ((spends_around rfl statements).frame _)
    intro default
    apply Spends.seq (spends_severalTrees 2 (spends_switchCase hm))
    intro after
    exact spends_plain rfl (by simp; omega)

theorem spends_catchClause : Spends v 0 (catchClause rs m levels c) (uses v) :=
  spends_node₂ rfl (spends_perhaps 80 spends_binding) (spends_block hm)

theorem spends_tryStatement : Spends v 0 (tryStatement rs m levels c) (uses v) := by
  apply Spends.bind (spends_block hm)
  intro body
  apply Spends.seq (spends_chance 70)
  intro catches
  apply Spends.ite
  · apply Spends.seq (spends_catchClause hm)
    intro clause
    apply Spends.seq (spends_chance 50)
    intro plain
    apply Spends.ite
    · exact spends_plain rfl (by simp)
    · apply Spends.seq (spends_block hm)
      intro final
      exact spends_plain rfl (by simp [Nat.add_assoc])
  · apply Spends.seq (spends_block hm)
    intro final
    exact spends_plain rfl (by simp)

theorem spends_compoundStatement (declarations : Bool) :
    Spends v 0 (compoundStatement rs m levels c declarations) (uses v) := by
  apply spends_chooseGen (spends_simpleStatement hm)
  simp only [List.forall_mem_append, List.forall_mem_cons]
  constructor
  · exact ⟨spends_simpleStatement hm, spends_expressionStatement hm, spends_blockStatement hm,
      spends_ifStatement hm, spends_loopStatement hm c, spends_labeledStatement hm,
      spends_switchStatement hm, spends_tryStatement hm, spends_variableStatement hm false, nofun⟩
  · apply forall_mem_allowed
    intro _
    simp only [List.forall_mem_cons]
    exact ⟨spends_variableStatement hm true, spends_functionDeclaration hm none,
      spends_classDeclaration hm none, nofun⟩

end Functions

end Whittle.Sample
