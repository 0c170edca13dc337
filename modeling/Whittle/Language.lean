import Whittle.Grammar.Table
import Whittle.Grammar.Admits

/-!
# The JavaScript grammar

The fields of every node kind with their types. The order of the fields is the
order in which a tree is walked. Not covered are destructuring, imports, for-in and
for-of loops, `with`, `new.target` and spread properties.

A *slot* is a field together with the type of the position that it is, if it can
hold nodes at all.
-/

namespace Whittle

open Grammar

/-- The type of a field of the language. -/
abbrev TypeSpec := Spec Kind

/-- The type of a position in a program. -/
abbrev Position := PositionType Kind

namespace Language

/-! ## Named unions -/

def expression : TypeSpec := .unionOf [
  .arrayExpression, .arrowExpression, .assignmentExpression, .awaitExpression,
  .binaryExpression, .callExpression, .classExpression, .compoundAssignmentExpression,
  .computedMemberExpression, .conditionalExpression, .functionExpression,
  .identifierExpression, .literalBooleanExpression, .literalNullExpression,
  .literalNumericExpression, .literalRegExpExpression, .literalStringExpression,
  .newExpression, .objectExpression, .staticMemberExpression, .templateExpression,
  .thisExpression, .unaryExpression, .updateExpression, .yieldExpression]

def statement : TypeSpec := .unionOf [
  .blockStatement, .breakStatement, .classDeclaration, .continueStatement,
  .debuggerStatement, .doWhileStatement, .emptyStatement, .expressionStatement,
  .forStatement, .functionDeclaration, .ifStatement, .labeledStatement, .returnStatement,
  .switchStatement, .switchStatementWithDefault, .throwStatement, .tryCatchStatement,
  .tryFinallyStatement, .variableDeclarationStatement, .whileStatement]

def simpleTarget : TypeSpec := .unionOf [
  .assignmentTargetIdentifier, .computedMemberAssignmentTarget,
  .staticMemberAssignmentTarget]

def binding : TypeSpec := .unionOf [.bindingIdentifier]
def parameter : TypeSpec := .union [binding, .node .bindingWithDefault]
def propertyName : TypeSpec := .unionOf [.computedPropertyName, .staticPropertyName]
def methodDefinition : TypeSpec := .unionOf [.method, .getter, .setter]
def objectProperty : TypeSpec :=
  .union [methodDefinition, .node .dataProperty, .node .shorthandProperty]
def argument : TypeSpec := .union [.node .spreadElement, expression]
def memberObject : TypeSpec := .union [expression, .node .super]
def moduleItem : TypeSpec :=
  .union [.node .exportDeclaration, .node .exportDefault, statement]

/-! ## Operators -/

def binaryOperators : List String := [
  "==", "!=", "===", "!==", "<", "<=", ">", ">=", "in", "instanceof", "<<", ">>", ">>>",
  "+", "-", "*", "/", "%", "**", ",", "||", "&&", "|", "^", "&"]

def compoundOperators : List String := [
  "+=", "-=", "*=", "/=", "%=", "**=", "<<=", ">>=", ">>>=", "|=", "^=", "&="]

def unaryOperators : List String := ["+", "-", "!", "~", "typeof", "void", "delete"]

def updateOperators : List String := ["++", "--"]

def declarationKinds : List String := ["var", "let", "const"]

/-! ## Fields -/

def statements : String × TypeSpec := ("statements", .list statement)
def directives : String × TypeSpec := ("directives", .list (.node .directive))
def isAsync : String × TypeSpec := ("is_async", .boolean)
def isGenerator : String × TypeSpec := ("is_generator", .boolean)
def params : String × TypeSpec := ("params", .node .formalParameters)
def codeBody : String × TypeSpec := ("body", .node .functionBody)
def superClass : String × TypeSpec := ("super_class", .maybe expression)
def elements : String × TypeSpec := ("elements", .list (.node .classElement))
def named (field : String) (t : TypeSpec) : String × TypeSpec := (field, t)

end Language

open Whittle.Language in
/-- The fields of a kind, in order. -/
def Kind.fields : Kind → List (String × TypeSpec)
  | .script => [directives, statements]
  | .esModule => [directives, named "items" (.list moduleItem)]
  | .directive => [named "raw_value" .string]
  | .exportDeclaration => [named "declaration"
      (.unionOf [.functionDeclaration, .classDeclaration, .variableDeclaration])]
  | .exportDefault => [named "body"
      (.union [.node .functionDeclaration, .node .classDeclaration, expression])]
  | .bindingIdentifier => [named "name" .string]
  | .bindingWithDefault => [named "binding" binding, named "init" expression]
  | .assignmentTargetIdentifier => [named "name" .string]
  | .computedMemberAssignmentTarget =>
    [named "object" memberObject, named "expression" expression]
  | .staticMemberAssignmentTarget => [named "object" memberObject, named "property" .string]
  | .classDeclaration => [named "name" (.node .bindingIdentifier), superClass, elements]
  | .classExpression =>
    [named "name" (.maybe (.node .bindingIdentifier)), superClass, elements]
  | .classElement => [named "is_static" .boolean, named "method" methodDefinition]
  | .formalParameters => [named "items" (.list parameter), named "rest" (.maybe binding)]
  | .functionBody => [directives, statements]
  | .functionDeclaration =>
    [isAsync, isGenerator, named "name" (.node .bindingIdentifier), params, codeBody]
  | .functionExpression =>
    [isAsync, isGenerator, named "name" (.maybe (.node .bindingIdentifier)), params,
      codeBody]
  | .arrowExpression =>
    [isAsync, params, named "body" (.union [.node .functionBody, expression])]
  | .method => [isAsync, isGenerator, named "name" propertyName, params, codeBody]
  | .getter => [named "name" propertyName, codeBody]
  | .setter => [named "name" propertyName, named "param" parameter, codeBody]
  | .dataProperty => [named "name" propertyName, named "expression" expression]
  | .shorthandProperty => [named "name" (.node .identifierExpression)]
  | .computedPropertyName => [named "expression" expression]
  | .staticPropertyName => [named "value" .string]
  | .arrayExpression => [named "elements" (.list (.maybe argument))]
  | .assignmentExpression => [named "binding" simpleTarget, named "expression" expression]
  | .awaitExpression => [named "expression" expression]
  | .binaryExpression =>
    [named "left" expression, named "operator" (.enum binaryOperators),
      named "right" expression]
  | .callExpression => [named "callee" memberObject, named "arguments" (.list argument)]
  | .compoundAssignmentExpression =>
    [named "binding" simpleTarget, named "operator" (.enum compoundOperators),
      named "expression" expression]
  | .computedMemberExpression =>
    [named "object" memberObject, named "expression" expression]
  | .conditionalExpression =>
    [named "test" expression, named "consequent" expression, named "alternate" expression]
  | .identifierExpression => [named "name" .string]
  | .literalBooleanExpression => [named "value" .boolean]
  | .literalNullExpression => []
  | .literalNumericExpression => [named "value" .number]
  | .literalRegExpExpression =>
    [named "pattern" .string, named "is_global" .boolean, named "ignore_case" .boolean,
      named "multi_line" .boolean, named "dot_all" .boolean, named "unicode" .boolean,
      named "sticky" .boolean]
  | .literalStringExpression => [named "value" .string]
  | .newExpression => [named "callee" expression, named "arguments" (.list argument)]
  | .objectExpression => [named "properties" (.list objectProperty)]
  | .spreadElement => [named "expression" expression]
  | .staticMemberExpression => [named "object" memberObject, named "property" .string]
  | .super => []
  | .templateElement => [named "raw_value" .string]
  | .templateExpression =>
    [named "tag" (.maybe expression),
      named "elements" (.list (.union [expression, .node .templateElement]))]
  | .thisExpression => []
  | .unaryExpression =>
    [named "operator" (.enum unaryOperators), named "operand" expression]
  | .updateExpression =>
    [named "is_prefix" .boolean, named "operator" (.enum updateOperators),
      named "operand" simpleTarget]
  | .yieldExpression => [named "expression" (.maybe expression)]
  | .block => [statements]
  | .blockStatement => [named "block" (.node .block)]
  | .breakStatement => [named "label" (.maybe .string)]
  | .catchClause => [named "binding" (.maybe binding), named "body" (.node .block)]
  | .continueStatement => [named "label" (.maybe .string)]
  | .debuggerStatement => []
  | .doWhileStatement => [named "body" statement, named "test" expression]
  | .emptyStatement => []
  | .expressionStatement => [named "expression" expression]
  | .forStatement =>
    [named "init" (.maybe (.union [.node .variableDeclaration, expression])),
      named "test" (.maybe expression), named "update" (.maybe expression),
      named "body" statement]
  | .ifStatement =>
    [named "test" expression, named "consequent" statement,
      named "alternate" (.maybe statement)]
  | .labeledStatement => [named "label" .string, named "body" statement]
  | .returnStatement => [named "expression" (.maybe expression)]
  | .switchCase => [named "test" expression, named "consequent" (.list statement)]
  | .switchDefault => [named "consequent" (.list statement)]
  | .switchStatement =>
    [named "discriminant" expression, named "cases" (.list (.node .switchCase))]
  | .switchStatementWithDefault =>
    [named "discriminant" expression,
      named "pre_default_cases" (.list (.node .switchCase)),
      named "default_case" (.node .switchDefault),
      named "post_default_cases" (.list (.node .switchCase))]
  | .throwStatement => [named "expression" expression]
  | .tryCatchStatement =>
    [named "body" (.node .block), named "catch_clause" (.node .catchClause)]
  | .tryFinallyStatement =>
    [named "body" (.node .block), named "catch_clause" (.maybe (.node .catchClause)),
      named "finalizer" (.node .block)]
  | .variableDeclaration =>
    [named "kind" (.enum declarationKinds),
      named "declarators" (.list (.node .variableDeclarator))]
  | .variableDeclarationStatement => [named "declaration" (.node .variableDeclaration)]
  | .variableDeclarator => [named "binding" binding, named "init" (.maybe expression)]
  | .whileStatement => [named "test" expression, named "body" statement]

namespace Language

/-- The grammar as it is written. -/
def grammar : Declarations Kind :=
  Kind.all.map fun k => (k, k.fields)

/-- A field, its written type, and the type of the position that it is if it can
hold nodes. -/
structure Slot where
  name : String
  type : TypeSpec
  position : Option Position


/-- The slot of a field. -/
def Slot.of (field : String × TypeSpec) : Slot :=
  ⟨field.1, field.2, (slotType? field.2).toOption.join⟩

/-- The slots of all kinds, by place. -/
def slotTable : Array (List Slot) :=
  (Kind.all.map fun k => k.fields.map Slot.of).toArray

end Language

/-- The slots of a kind, in the order of its fields. -/
def Kind.slots (k : Kind) : List Language.Slot :=
  Language.slotTable.getD k.place []

theorem Kind.slots_eq (k : Kind) : k.slots = k.fields.map Language.Slot.of := by
  cases k <;> rfl

/-- The names of a kind's fields. -/
def Kind.fieldNames (k : Kind) : List String :=
  k.slots.map (·.name)

/-- Whether a field of the type may hold the value. -/
def Grammar.Spec.admits (t : TypeSpec) (v : Tree) : Bool :=
  t.admits? id v == some true

/-- The written form of a type of the language. -/
def Grammar.Spec.written (t : TypeSpec) : String :=
  t.text Kind.name

end Whittle
