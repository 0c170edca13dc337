import Whittle.Validity.Scope

/-!
# Rules

The rules that a node of each kind has to keep in its context. Every rule reports
errors at the node, at one of its fields, or at an item of a field. On a node of
another shape than its kind's a rule has no value.
-/

namespace Whittle

open Violation

/-- The error, if the condition holds. -/
def EarlyError.when (condition : Bool) (e : EarlyError) : List EarlyError :=
  if condition then [e] else []

namespace Rules

/-! ## Tokens -/

/-- Words that name no binding and no reference. -/
def reservedWords : List String := [
  "await", "break", "case", "catch", "class", "const", "continue", "debugger", "default",
  "delete", "do", "else", "enum", "export", "extends", "false", "finally", "for", "function",
  "if", "implements", "import", "in", "instanceof", "interface", "let", "new", "null",
  "package", "private", "protected", "public", "return", "static", "super", "switch", "this",
  "throw", "true", "try", "typeof", "var", "void", "while", "with", "yield"]

/-- Names that strict code may not bind. -/
def restrictedNames : List String := ["eval", "arguments"]

/-- Whether a character may begin an identifier. -/
def isIdentifierStart (c : Char) : Bool :=
  c.isAlpha || c == '_' || c == '$'

/-- Whether a text is spelled like an identifier: ASCII letters, digits, the low line
and the dollar sign, not beginning with a digit. -/
def isIdentifierName (s : String) : Bool :=
  match s.toList with
  | [] => false
  | c :: cs => isIdentifierStart c && cs.all fun c => isIdentifierStart c || c.isDigit

/-- The spelling of a property name or label, or with `reserved` of an identifier. -/
def spelling (name : String) (reserved : Bool) : List EarlyError :=
  if !isIdentifierName name then [(invalidIdentifier name).here]
  else EarlyError.when (reserved && reservedWords.contains name) (reservedWord name).here

/-! ## Functions -/

/-- Parameters that the body declares again lexically. -/
def redeclared (names : List String) : Tree → Option (List EarlyError)
  | .node .functionBody [_, .list statements] => do
    let lexical := (← statements.mapM (·.lexicalNames? true)).flatten
    return (shared names lexical).map fun n => (parameterRedeclared n).here
  | .node .functionBody _ => none
  | .node _ _ => some []
  | _ => none

/-- The rules of a function with parameters; `unique` if its parameters always have
distinct names. -/
def function (c : Context) (unique : Bool) (params body : Tree) :
    Option (List EarlyError) := do
  let names ← params.parameterNames?
  let redeclarations ← redeclared names body
  let simple ← params.isSimple?
  let directive ← body.hasUseStrict?
  return redeclarations
    ++ EarlyError.when (!simple && directive) strictDirectiveAfterParameters.here
    ++ if unique || !simple || c.strict || directive then
        (duplicates names).map fun n => (duplicateParameter n).atField "params"
      else []

/-- The rules of a setter. -/
def setter (param body : Tree) : Option (List EarlyError) := do
  let redeclarations ← redeclared [← param.parameterName?] body
  let directive ← body.hasUseStrict?
  return redeclarations
    ++ EarlyError.when (param.isKind .bindingWithDefault && directive)
        strictDirectiveAfterParameters.here

/-! ## Statements -/

/-- A field that holds a single statement may not hold a declaration. -/
def singleStatement (field : String) : Tree → Option (List EarlyError)
  | .absent => some []
  | .node .variableDeclarationStatement [d] => do
    return EarlyError.when ((← d.declared?).1 != "var")
      ((declarationAsStatement .variableDeclarationStatement).atField field)
  | .node .variableDeclarationStatement _ => none
  | .node k _ =>
    some (EarlyError.when (k == .classDeclaration || k == .functionDeclaration)
      ((declarationAsStatement k).atField field))
  | _ => none

/-- The head of a `for` that declares names lexically. -/
def forHead (init body : Tree) : Option (List EarlyError) := do
  if init.isKind .variableDeclaration then
    match ← init.letNames? with
    | [] => return []
    | names =>
      return (duplicates names).map (fun n => (duplicateLexical n).here)
        ++ (shared names (← body.hoistedNames?)).map fun n => (lexicalAndVar n).here
  else return []

/-- A catch parameter that its block declares again lexically. -/
def catchParameter (binding : Tree) : Tree → Option (List EarlyError)
  | .node .block [.list statements] => do
    if binding.isAbsent then return []
    else
      let name ← binding.bindingName?
      let lexical := (← statements.mapM (·.lexicalNames? false)).flatten
      return EarlyError.when (lexical.contains name) (catchRedeclared name).here
  | _ => none

/-- Whether a declarator has no initial value. -/
def lacksInit? : Tree → Option Bool
  | .node .variableDeclarator [_, init] => some init.isAbsent
  | _ => none

/-- Constants without an initial value, from declarator `i` on. -/
def uninitialised (i : Nat) : List Tree → Option (List EarlyError)
  | [] => some []
  | d :: ds => do
    return EarlyError.when (← lacksInit? d) (constWithoutInit.atItem "declarators" i)
      ++ (← uninitialised (i + 1) ds)

/-- The rules of a variable declaration. -/
def variableDeclaration (word : String) (ds : List Tree) : Option (List EarlyError) := do
  let constants ← if word == "const" then uninitialised 0 ds else some []
  return EarlyError.when ds.isEmpty noDeclarators.here ++ constants

/-- The rules of a label. -/
def label (c : Context) (name : String) : List EarlyError :=
  EarlyError.when (c.label? name).isSome (labelRedeclared name).here ++ spelling name true

/-- The rules of `break`. -/
def breakStatement (c : Context) : Tree → Option (List EarlyError)
  | .absent => some (EarlyError.when (!(c.inIteration || c.inSwitch)) breakOutside.here)
  | .str l => some (EarlyError.when (c.label? l).isNone (breakToUndeclared l).here)
  | _ => none

/-- The rules of `continue`. -/
def continueStatement (c : Context) : Tree → Option (List EarlyError)
  | .absent => some (EarlyError.when (!c.inIteration) continueOutside.here)
  | .str l =>
    some (match c.label? l with
      | none => [(continueToUndeclared l).here]
      | some isLoop => EarlyError.when (!isLoop) (continueToNonLoop l).here)
  | _ => none

/-! ## Expressions -/

/-- Property access on `super`. -/
def member (c : Context) (object : Tree) : List EarlyError :=
  EarlyError.when (object.isKind .super && !c.superProperty) superPropertyOutside.here

/-- The elements of a template, from element `i` on: text at even places, expressions
at odd ones. -/
def alternation (i : Nat) : List Tree → List EarlyError
  | [] => []
  | e :: es =>
    EarlyError.when (e.isKind .templateElement != (i % 2 == 0))
      (templateAlternation.atItem "elements" i)
      ++ alternation (i + 1) es

/-- The rules of a template. -/
def template (elements : List Tree) : List EarlyError :=
  EarlyError.when (elements.length % 2 == 0) templateEnds.here ++ alternation 0 elements

/-- A number that can be written as a literal. -/
def number : Tree → Option (List EarlyError)
  | .int i => some (EarlyError.when (decide (i < 0)) numberNegative.here)
  | .float x =>
    some (if !x.isFinite then [numberNotFinite.here]
      else EarlyError.when x.belowZero numberNegative.here)
  | _ => none

/-! ## Classes -/

/-- What is wrong with a method as a constructor. -/
def constructorFaults (i : Nat) : Tree → Option (List EarlyError)
  | .node .method [isAsync, isGenerator, _, _, _] => do
    let special := (← isAsync.flag?) || (← isGenerator.flag?)
    return EarlyError.when special (specialConstructor.atItem "elements" i)
  | .node .method _ => none
  | .node _ _ => some [accessorConstructor.atItem "elements" i]
  | _ => none

/-- The elements of a class, from element `i` on, after `seen` constructors. -/
def classElements (i seen : Nat) : List Tree → Option (List EarlyError)
  | [] => some []
  | .node .classElement [.bool true, method] :: es => do
    let isPrototype ← (← method.methodName?).isStaticName? "prototype"
    return EarlyError.when isPrototype (staticPrototype.atItem "elements" i)
      ++ (← classElements (i + 1) seen es)
  | .node .classElement [.bool false, method] :: es => do
    if ← method.isConstructor? then
      return EarlyError.when (decide (0 < seen)) (secondConstructor.atItem "elements" i)
        ++ (← constructorFaults i method)
        ++ (← classElements (i + 1) (seen + 1) es)
    else classElements (i + 1) seen es
  | _ => none

/-! ## Modules -/

/-- Default exports after the first, from item `i` on. -/
def defaultExports (i : Nat) (seen : Bool) : List Tree → List EarlyError
  | [] => []
  | t :: ts =>
    EarlyError.when (seen && t.isKind .exportDefault) (secondDefaultExport.atItem "items" i)
      ++ defaultExports (i + 1) (seen || t.isKind .exportDefault) ts

/-- The rules of a binding. -/
def binding (c : Context) (name : String) : List EarlyError :=
  if name == defaultExportName then EarlyError.when (!c.defaultName) misplacedDefaultName.here
  else spelling name true
    ++ EarlyError.when (c.strict && restrictedNames.contains name) (restrictedName name).here

/-- The statements of the cases of a switch, one case after the other. -/
def switchErrors (cases : List Tree) : Option (List EarlyError) := do
  scopeErrors false (← cases.mapM (·.caseStatements?)).flatten

end Rules

open Rules in
/-- The errors of a node of kind `k` itself, in its context. -/
def nodeErrors (c : Context) (k : Kind) (fields : List Tree) : Option (List EarlyError) :=
  match k, fields with
  | .script, [_, .list ss] => scopeErrors true ss
  | .esModule, [_, .list items] => do
    return (← scopeErrors false items) ++ defaultExports 0 false items
  | .functionBody, [_, .list ss] => scopeErrors true ss
  | .functionDeclaration, [_, _, _, params, body] => function c false params body
  | .functionExpression, [_, _, _, params, body] => function c false params body
  | .arrowExpression, [_, params, body] => function c true params body
  | .method, [_, _, _, params, body] => function c true params body
  | .setter, [_, param, body] => Rules.setter param body
  | .block, [.list ss] => scopeErrors false ss
  | .switchStatement, [_, .list cases] => switchErrors cases
  | .switchStatementWithDefault, [_, .list before, d, .list after] =>
    switchErrors (before ++ d :: after)
  | .catchClause, [binding, body] => catchParameter binding body
  | .variableDeclaration, [.str word, .list ds] => Rules.variableDeclaration word ds
  | .ifStatement, [_, consequent, alternate] => do
    return (← singleStatement "consequent" consequent)
      ++ (← singleStatement "alternate" alternate)
  | .doWhileStatement, [body, _] => singleStatement "body" body
  | .whileStatement, [_, body] => singleStatement "body" body
  | .forStatement, [init, _, _, body] => do
    return (← singleStatement "body" body) ++ (← forHead init body)
  | .labeledStatement, [.str name, body] => do
    return (← singleStatement "body" body) ++ Rules.label c name
  | .returnStatement, _ => some (EarlyError.when (!c.inFunction) returnOutside.here)
  | .awaitExpression, _ => some (EarlyError.when (!c.isAsync) awaitOutside.here)
  | .yieldExpression, _ => some (EarlyError.when (!c.isGenerator) yieldOutside.here)
  | .unaryExpression, [.str operator, operand] =>
    some (EarlyError.when
      (c.strict && operator == "delete" && operand.isKind .identifierExpression)
      strictDelete.here)
  | .breakStatement, [label] => Rules.breakStatement c label
  | .continueStatement, [label] => Rules.continueStatement c label
  | .callExpression, [callee, _] =>
    some (EarlyError.when (callee.isKind .super && !c.superCall) superCallOutside.here)
  | .computedMemberExpression, [object, _] => some (member c object)
  | .computedMemberAssignmentTarget, [object, _] => some (member c object)
  | .staticMemberExpression, [object, .str property] =>
    some (member c object ++ spelling property false)
  | .staticMemberAssignmentTarget, [object, .str property] =>
    some (member c object ++ spelling property false)
  | .templateExpression, [_, .list elements] => some (template elements)
  | .classDeclaration, [_, _, .list elements] => classElements 0 0 elements
  | .classExpression, [_, _, .list elements] => classElements 0 0 elements
  | .bindingIdentifier, [.str name] => some (Rules.binding c name)
  | .identifierExpression, [.str name] => some (spelling name true)
  | .assignmentTargetIdentifier, [.str name] => some (spelling name true)
  | .literalNumericExpression, [value] => number value
  | .literalRegExpExpression, .str pattern :: _ =>
    some (EarlyError.when pattern.isEmpty emptyPattern.here)
  | .script, _ | .esModule, _ | .functionBody, _ | .functionDeclaration, _
  | .functionExpression, _ | .arrowExpression, _ | .method, _ | .setter, _ | .block, _
  | .switchStatement, _ | .switchStatementWithDefault, _ | .catchClause, _
  | .variableDeclaration, _ | .ifStatement, _ | .doWhileStatement, _ | .whileStatement, _
  | .forStatement, _ | .labeledStatement, _ | .unaryExpression, _ | .breakStatement, _
  | .continueStatement, _ | .callExpression, _ | .computedMemberExpression, _
  | .computedMemberAssignmentTarget, _ | .staticMemberExpression, _
  | .staticMemberAssignmentTarget, _ | .templateExpression, _ | .classDeclaration, _
  | .classExpression, _ | .bindingIdentifier, _ | .identifierExpression, _
  | .assignmentTargetIdentifier, _ | .literalNumericExpression, _
  | .literalRegExpExpression, _ => none
  | _, _ => some []

end Whittle
