import Whittle.Grammar.PositionType
import Whittle.Validity.Context

/-!
# Declared names

The names that a list of statements declares: lexically, by `let`, `const`, classes
and in some scopes functions, and by `var`, which reaches up out of every nested
statement but no function.
-/

namespace Whittle

namespace Tree

/-- The name of a binding. -/
def bindingName? : Tree → Option String
  | .node .bindingIdentifier [.str n] => some n
  | _ => none

/-- The name that a parameter binds, with or without a default. -/
def parameterName? : Tree → Option String
  | .node .bindingWithDefault [b, _] => b.bindingName?
  | t => t.bindingName?

/-- The names that formal parameters bind, the rest parameter last. -/
def parameterNames? : Tree → Option (List String)
  | .node .formalParameters [.list items, .absent] => items.mapM parameterName?
  | .node .formalParameters [.list items, rest] => do
    return (← items.mapM parameterName?) ++ [← rest.bindingName?]
  | _ => none

/-- Whether formal parameters are plain names only. -/
def isSimple? : Tree → Option Bool
  | .node .formalParameters [.list items, rest] =>
    some (rest.isAbsent && items.all fun t => !t.isKind .bindingWithDefault)
  | _ => none

/-- The word that introduces a variable declaration, and the names it declares. -/
def declared? : Tree → Option (String × List String)
  | .node .variableDeclaration [.str word, .list ds] => do
    let names ← ds.mapM fun
      | .node .variableDeclarator [b, _] => b.bindingName?
      | _ => none
    return (word, names)
  | _ => none

/-- What is exported, or the item itself. -/
def unwrapExport? : Tree → Option Tree
  | .node .exportDeclaration [d] => some d
  | .node .exportDefault [b] => some b
  | .node .exportDeclaration _ => none
  | .node .exportDefault _ => none
  | .node k fs => some (.node k fs)
  | _ => none

/-- The names that a variable declaration declares lexically. -/
def letNames? (t : Tree) : Option (List String) := do
  let (word, names) ← t.declared?
  return if word == "var" then [] else names

/-- The names that a variable declaration declares by `var`. -/
def varNames? (t : Tree) : Option (List String) := do
  let (word, names) ← t.declared?
  return if word == "var" then names else []

/-- The name of a function or class declaration. -/
def declarationName? : Tree → Option String
  | .node .classDeclaration [name, _, _] => name.bindingName?
  | .node .functionDeclaration [_, _, name, _, _] => name.bindingName?
  | _ => none

/-- The names that an item declares lexically in its scope. -/
def lexicalNames? (functionsAreVar : Bool) (item : Tree) : Option (List String) := do
  match ← item.unwrapExport? with
  | .node .variableDeclarationStatement [d] => d.letNames?
  | .node .variableDeclarationStatement _ => none
  | .node .variableDeclaration fs => letNames? (.node .variableDeclaration fs)
  | .node .classDeclaration fs => return [← declarationName? (.node .classDeclaration fs)]
  | .node .functionDeclaration fs =>
    if functionsAreVar then return []
    else return [← declarationName? (.node .functionDeclaration fs)]
  | .node _ _ => return []
  | _ => none

/-- The kinds whose `var` declarations, or those of the statements in them, reach out. -/
def hoistingKinds : List Kind := [
  .variableDeclarationStatement, .blockStatement, .block, .ifStatement, .doWhileStatement,
  .whileStatement, .labeledStatement, .forStatement, .tryCatchStatement,
  .tryFinallyStatement, .catchClause, .switchStatement, .switchStatementWithDefault,
  .switchCase, .switchDefault]

mutual
/-- The names that a statement declares by `var`, those of nested statements included. -/
def hoistedNames? : Tree → Option (List String)
  | .absent => some []
  | .node .variableDeclarationStatement [d] => d.varNames?
  | .node .variableDeclaration fs => varNames? (.node .variableDeclaration fs)
  | .node .blockStatement [b] => hoistedNames? b
  | .node .block [.list ss] => allHoistedNames? ss
  | .node .ifStatement [_, c, a] => do return (← hoistedNames? c) ++ (← hoistedNames? a)
  | .node .doWhileStatement [body, _] => hoistedNames? body
  | .node .whileStatement [_, body] => hoistedNames? body
  | .node .labeledStatement [_, body] => hoistedNames? body
  | .node .forStatement [init, _, _, body] => do
    return (← hoistedNames? init) ++ (← hoistedNames? body)
  | .node .tryCatchStatement [b, c] => do
    return (← hoistedNames? b) ++ (← hoistedNames? c)
  | .node .tryFinallyStatement [b, c, f] => do
    return (← hoistedNames? b) ++ (← hoistedNames? c) ++ (← hoistedNames? f)
  | .node .catchClause [_, b] => hoistedNames? b
  | .node .switchStatement [_, .list cases] => allHoistedNames? cases
  | .node .switchStatementWithDefault [_, .list before, d, .list after] => do
    return (← allHoistedNames? before) ++ (← hoistedNames? d) ++ (← allHoistedNames? after)
  | .node .switchCase [_, .list ss] => allHoistedNames? ss
  | .node .switchDefault [.list ss] => allHoistedNames? ss
  | .node k _ => if hoistingKinds.contains k then none else some []
  | _ => none

/-- The names that several statements declare by `var`. -/
def allHoistedNames? : List Tree → Option (List String)
  | [] => some []
  | t :: ts => do return (← hoistedNames? t) ++ (← allHoistedNames? ts)
end

/-- The names that an item declares by `var` in its scope, a function declaration's
own name included where it counts as one. -/
def itemVarNames? (functionsAreVar : Bool) (item : Tree) : Option (List String) := do
  let item ← item.unwrapExport?
  let hoisted ← item.hoistedNames?
  if functionsAreVar && item.isKind .functionDeclaration then
    return (← item.declarationName?) :: hoisted
  else return hoisted

/-- The statements of a case or default of a switch. -/
def caseStatements? : Tree → Option (List Tree)
  | .node .switchCase [_, .list ss] => some ss
  | .node .switchDefault [.list ss] => some ss
  | _ => none

end Tree

/-! ## Clashes -/

/-- The names that occur more than once, in the order in which they occur for the
second time. -/
def repeated (seen : List String) : List String → List String
  | [] => []
  | n :: ns =>
    if seen.count n = 1 then n :: repeated (n :: seen) ns else repeated (n :: seen) ns

/-- The names that occur more than once. -/
def duplicates (names : List String) : List String := repeated [] names

/-- The names in both lists, each once, in order of their characters. -/
def shared (xs ys : List String) : List String :=
  Grammar.sortWords (xs.filter fun n => ys.contains n).eraseDups

/-- The clashes among the items of a scope. -/
def scopeErrors (functionsAreVar : Bool) (items : List Tree) : Option (List EarlyError) := do
  let lexical := (← items.mapM (·.lexicalNames? functionsAreVar)).flatten
  let vars := (← items.mapM (·.itemVarNames? functionsAreVar)).flatten
  return (duplicates lexical).map (fun n => (Violation.duplicateLexical n).here)
    ++ (shared lexical vars).map (fun n => (Violation.lexicalAndVar n).here)

end Whittle
