/-!
# Node kinds

The kinds of syntax tree nodes, in the order in which the grammar declares them:
programs, bindings, classes, functions, object members, expressions and
statements. Each kind has one name, the one that trees are exchanged under.
-/

namespace Whittle

/-- The kind of a node. -/
inductive Kind
  | script | esModule | directive | exportDeclaration | exportDefault | bindingIdentifier
  | bindingWithDefault | assignmentTargetIdentifier | computedMemberAssignmentTarget
  | staticMemberAssignmentTarget | classDeclaration | classExpression | classElement
  | formalParameters | functionBody | functionDeclaration | functionExpression
  | arrowExpression | method | getter | setter | dataProperty | shorthandProperty
  | computedPropertyName | staticPropertyName | arrayExpression | assignmentExpression
  | awaitExpression | binaryExpression | callExpression | compoundAssignmentExpression
  | computedMemberExpression | conditionalExpression | identifierExpression
  | literalBooleanExpression | literalNullExpression | literalNumericExpression
  | literalRegExpExpression | literalStringExpression | newExpression | objectExpression
  | spreadElement | staticMemberExpression | super | templateElement | templateExpression
  | thisExpression | unaryExpression | updateExpression | yieldExpression | block
  | blockStatement | breakStatement | catchClause | continueStatement | debuggerStatement
  | doWhileStatement | emptyStatement | expressionStatement | forStatement | ifStatement
  | labeledStatement | returnStatement | switchCase | switchDefault | switchStatement
  | switchStatementWithDefault | throwStatement | tryCatchStatement | tryFinallyStatement
  | variableDeclaration | variableDeclarationStatement | variableDeclarator | whileStatement
deriving DecidableEq, Repr

namespace Kind

/-- The name a kind is written with. -/
def name : Kind → String
  | script => "Script"
  | esModule => "Module"
  | directive => "Directive"
  | exportDeclaration => "Export"
  | exportDefault => "ExportDefault"
  | bindingIdentifier => "BindingIdentifier"
  | bindingWithDefault => "BindingWithDefault"
  | assignmentTargetIdentifier => "AssignmentTargetIdentifier"
  | computedMemberAssignmentTarget => "ComputedMemberAssignmentTarget"
  | staticMemberAssignmentTarget => "StaticMemberAssignmentTarget"
  | classDeclaration => "ClassDeclaration"
  | classExpression => "ClassExpression"
  | classElement => "ClassElement"
  | formalParameters => "FormalParameters"
  | functionBody => "FunctionBody"
  | functionDeclaration => "FunctionDeclaration"
  | functionExpression => "FunctionExpression"
  | arrowExpression => "ArrowExpression"
  | method => "Method"
  | getter => "Getter"
  | setter => "Setter"
  | dataProperty => "DataProperty"
  | shorthandProperty => "ShorthandProperty"
  | computedPropertyName => "ComputedPropertyName"
  | staticPropertyName => "StaticPropertyName"
  | arrayExpression => "ArrayExpression"
  | assignmentExpression => "AssignmentExpression"
  | awaitExpression => "AwaitExpression"
  | binaryExpression => "BinaryExpression"
  | callExpression => "CallExpression"
  | compoundAssignmentExpression => "CompoundAssignmentExpression"
  | computedMemberExpression => "ComputedMemberExpression"
  | conditionalExpression => "ConditionalExpression"
  | identifierExpression => "IdentifierExpression"
  | literalBooleanExpression => "LiteralBooleanExpression"
  | literalNullExpression => "LiteralNullExpression"
  | literalNumericExpression => "LiteralNumericExpression"
  | literalRegExpExpression => "LiteralRegExpExpression"
  | literalStringExpression => "LiteralStringExpression"
  | newExpression => "NewExpression"
  | objectExpression => "ObjectExpression"
  | spreadElement => "SpreadElement"
  | staticMemberExpression => "StaticMemberExpression"
  | super => "Super"
  | templateElement => "TemplateElement"
  | templateExpression => "TemplateExpression"
  | thisExpression => "ThisExpression"
  | unaryExpression => "UnaryExpression"
  | updateExpression => "UpdateExpression"
  | yieldExpression => "YieldExpression"
  | block => "Block"
  | blockStatement => "BlockStatement"
  | breakStatement => "BreakStatement"
  | catchClause => "CatchClause"
  | continueStatement => "ContinueStatement"
  | debuggerStatement => "DebuggerStatement"
  | doWhileStatement => "DoWhileStatement"
  | emptyStatement => "EmptyStatement"
  | expressionStatement => "ExpressionStatement"
  | forStatement => "ForStatement"
  | ifStatement => "IfStatement"
  | labeledStatement => "LabeledStatement"
  | returnStatement => "ReturnStatement"
  | switchCase => "SwitchCase"
  | switchDefault => "SwitchDefault"
  | switchStatement => "SwitchStatement"
  | switchStatementWithDefault => "SwitchStatementWithDefault"
  | throwStatement => "ThrowStatement"
  | tryCatchStatement => "TryCatchStatement"
  | tryFinallyStatement => "TryFinallyStatement"
  | variableDeclaration => "VariableDeclaration"
  | variableDeclarationStatement => "VariableDeclarationStatement"
  | variableDeclarator => "VariableDeclarator"
  | whileStatement => "WhileStatement"

/-- Every kind, in declaration order. -/
def all : List Kind := [
  .script, .esModule, .directive, .exportDeclaration, .exportDefault, .bindingIdentifier,
  .bindingWithDefault, .assignmentTargetIdentifier, .computedMemberAssignmentTarget,
  .staticMemberAssignmentTarget, .classDeclaration, .classExpression, .classElement,
  .formalParameters, .functionBody, .functionDeclaration, .functionExpression,
  .arrowExpression, .method, .getter, .setter, .dataProperty, .shorthandProperty,
  .computedPropertyName, .staticPropertyName, .arrayExpression, .assignmentExpression,
  .awaitExpression, .binaryExpression, .callExpression, .compoundAssignmentExpression,
  .computedMemberExpression, .conditionalExpression, .identifierExpression,
  .literalBooleanExpression, .literalNullExpression, .literalNumericExpression,
  .literalRegExpExpression, .literalStringExpression, .newExpression, .objectExpression,
  .spreadElement, .staticMemberExpression, .super, .templateElement, .templateExpression,
  .thisExpression, .unaryExpression, .updateExpression, .yieldExpression, .block,
  .blockStatement, .breakStatement, .catchClause, .continueStatement, .debuggerStatement,
  .doWhileStatement, .emptyStatement, .expressionStatement, .forStatement, .ifStatement,
  .labeledStatement, .returnStatement, .switchCase, .switchDefault, .switchStatement,
  .switchStatementWithDefault, .throwStatement, .tryCatchStatement, .tryFinallyStatement,
  .variableDeclaration, .variableDeclarationStatement, .variableDeclarator, .whileStatement]

/-- The kind with a name. -/
def ofName? (s : String) : Option Kind :=
  all.find? (·.name == s)

theorem mem_all (k : Kind) : k ∈ all := by
  -- the list keeps the order of the declaration, so a kind stands at its own index
  have hplace : all[k.ctorIdx]? = some k := by cases k <;> rfl
  exact List.mem_of_getElem? hplace

/-- A statement about kinds that a test decides holds for each kind if it holds
throughout the list of all kinds. -/
theorem forall_of_all {p : Kind → Bool} (h : all.all p = true) (k : Kind) : p k = true :=
  List.all_eq_true.1 h k (mem_all k)

/-- Distinct kinds have distinct names, so a name is read back as its kind. -/
theorem ofName?_name (k : Kind) : ofName? k.name = some k := by
  have h : all.all (fun k => ofName? k.name == some k) = true := by decide
  simpa using forall_of_all h k

/-- A kind's place in the declaration order. -/
def place (k : Kind) : Nat := k.ctorIdx

end Kind

end Whittle
