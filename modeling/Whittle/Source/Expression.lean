import Whittle.Exchange
import Whittle.Source.Member
import Whittle.Tree.Sum

/-!
# Expressions

The text of an expression from the pieces in its fields, with how tightly it binds.
Operands are put in parentheses where they bind less tightly than the operator.
-/

namespace Whittle.Source

namespace Piece

/-- What a property is read from. A whole number is followed by a point, which the
point of the property access would otherwise be taken for. -/
def memberObject (p : Piece) : Printing String := do
  match ← p.kind with
  | .super => return "super"
  | k =>
    let t ← p.expression call
    return if k == .literalNumericExpression && Text.allDigits t then t ++ "." else t

/-- An argument or element, perhaps spread. -/
def spreadable (p : Piece) : Printing String := do
  match ← p.kind with
  | .spreadElement => return "..." ++ (← p.expressionOf "expression" assignment)
  | _ => p.expression assignment

/-- The arguments of a node in parentheses. -/
def arguments (p : Piece) : Printing String := do
  return inParens (commaList (← (← p.itemsOf "arguments").mapM spreadable))

/-- An expression in brackets. -/
def subscript (p : Piece) : Printing String := do
  return "[" ++ (← p.expressionOf "expression" sequence) ++ "]"

/-- What the target of an assignment is printed as. -/
def targetValue (p : Piece) : Printing Tree := do
  match ← p.kind with
  | .assignmentTargetIdentifier => p.valueOf "name"
  | .staticMemberAssignmentTarget =>
    return .str ((← (← p.get "object").memberObject) ++ "." ++ (← p.textOf "property"))
  | _ => return .str ((← (← p.get "object").memberObject) ++ (← p.subscript))

/-- A property of an object. -/
def objectProperty (p : Piece) : Printing String := do
  match ← p.kind with
  | .dataProperty =>
    let name ← (← p.get "name").propertyName
    return name ++ ":" ++ (← p.expressionOf "expression" assignment)
  | .shorthandProperty => p.nameOf "name"
  | _ => p.method

/-- A part of a template between its back quotes. -/
def templatePart (p : Piece) : Printing String := do
  match ← p.kind with
  | .templateElement => p.textOf "raw_value"
  | _ => return "$" ++ braced (← p.expression sequence)

/-- A piece of an array: nothing for a hole. -/
def arrayElement (p : Piece) : Printing String :=
  if p.isAbsent then return "" else p.spreadable

end Piece

open Piece

/-- An array. A hole at the end needs a comma of its own. -/
def arrayText (p : Piece) : Printing String := do
  let elements ← p.itemsOf "elements"
  let texts ← elements.mapM arrayElement
  let hole := (elements.getLast?.map isAbsent).getD false
  return "[" ++ commaList texts ++ (if hole then "," else "") ++ "]"

/-- An arrow function. A body that begins with a brace is put in parentheses. -/
def arrowText (p : Piece) : Printing String := do
  let isAsync ← p.holdsAt "is_async"
  let params ← (← p.get "params").parameters
  let head := (if isAsync then "async " else "") ++ params ++ "=>"
  let body ← p.get "body"
  match ← body.kind with
  | .functionBody => return head ++ (← body.functionBody)
  | _ =>
    let t ← body.expression assignment
    return head ++ if beginsWith '\x7b' t.toList then inParens t else t

/-- The last character of an operator, if it is a sign. -/
def finalSign? (operator : String) : Option Char :=
  operator.toList.getLast?.filter fun c => c == '+' || c == '-'

/-- A binary operator and how tightly it binds. -/
def binaryOperator : Tree → Printing (String × Nat)
  | .str o =>
    match binaryPrecedence? o with
    | some n => .ok (o, n)
    | none => .error (.noPrinter (.str o))
  | v => .error (.noPrinter v)

/-- A binary operation. Exponentiation groups to the right and takes no unary operand on
the left. A sign is kept apart from one that follows it. -/
def binaryText (p : Piece) : Printing (String × Nat) := do
  let (operator, precedence) ← binaryOperator (← p.get "operator").tree
  let isPower := operator == "**"
  let left ← p.expressionOf "left" (if isPower then postfixed else precedence)
  let right ← p.expressionOf "right" (if isPower then precedence else precedence + 1)
  if operator == "in" || operator == "instanceof" then
    return (left ++ " " ++ operator ++ " " ++ right, precedence)
  else
    let clash := match finalSign? operator with
      | some c => beginsWith c right.toList
      | none => false
    return (left ++ operator ++ (if clash then " " else "") ++ right, precedence)

/-- Whether an operator must be kept apart from its operand: a word always, a sign from
the same sign. -/
def unarySpace (operator operand : String) : Bool :=
  Text.allLetters operator
    || ["", "+", "-", "+-"].contains operator
      && (afterWord? operator.toList operand.toList).isSome

/-- A unary operation. -/
def unaryText (p : Piece) : Printing String := do
  let operand ← p.expressionOf "operand" prefixed
  let operator ← p.textOf "operator"
  return operator ++ (if unarySpace operator operand then " " else "") ++ operand

/-- Two values side by side. -/
def beside (a b : Tree) : Printing Tree :=
  match a.sum? b with
  | some v => .ok v
  | none => .error .malformed

/-- An operation that updates its operand. -/
def updateValue (p : Piece) : Printing (Tree × Nat) := do
  let operand ← (← p.get "operand").targetValue
  let operator ← p.valueOf "operator"
  if ← p.holdsAt "is_prefix" then return (← beside operator operand, prefixed)
  else return (← beside operand operator, postfixed)

/-- An assignment with the given operator. -/
def assignmentValue (p : Piece) (operator : Tree) : Printing (Tree × Nat) := do
  let target ← beside (← (← p.get "binding").targetValue) operator
  let e ← (← p.get "expression").expressionValue assignment
  return (← beside target e, assignment)

/-- A template, between back quotes and after its tag. -/
def templateText (p : Piece) : Printing (String × Nat) := do
  let parts ← (← p.itemsOf "elements").mapM templatePart
  let text := "\x60" ++ String.join parts ++ "\x60"
  let tag ← p.get "tag"
  if tag.isAbsent then return (text, primary)
  else return ((← tag.expression call) ++ text, taggedTemplate)

/-- A regular expression with the letters of its flags. -/
def patternText (p : Piece) : Printing String := do
  let flags ← patternFlags.mapM fun (field, letter) => do
    return if ← p.holdsAt field then letter else ""
  return "/" ++ (← p.textOf "pattern") ++ "/" ++ String.join flags

/-- The text of a string literal, which is written as data is; a node is no data. -/
def dataText (v : Tree) : Printing String :=
  if v.containsWhere fun _ => true then .error .malformed
  else .ok (Exchange.toJson v)

/-- The text of an expression whose own fields are all printed into one. -/
def expressionText (k : Kind) (p : Piece) : Printing (String × Nat) := do
  match k with
  | .arrayExpression => return (← arrayText p, primary)
  | .arrowExpression => return (← arrowText p, assignment)
  | .awaitExpression => return ("await " ++ (← p.expressionOf "expression" prefixed), prefixed)
  | .binaryExpression => binaryText p
  | .callExpression =>
    let callee ← (← p.get "callee").memberObject
    return (callee ++ (← p.arguments), call)
  | .classExpression => return (← p.classText, primary)
  | .computedMemberExpression =>
    let object ← (← p.get "object").memberObject
    return (object ++ (← p.subscript), memberAccess)
  | .conditionalExpression =>
    let test ← p.expressionOf "test" (conditional + 1)
    let consequent ← p.expressionOf "consequent" assignment
    let alternate ← p.expressionOf "alternate" assignment
    return (test ++ "?" ++ consequent ++ ":" ++ alternate, conditional)
  | .functionExpression => return (← p.function, primary)
  | .literalBooleanExpression =>
    return (if ← p.holdsAt "value" then "true" else "false", primary)
  | .literalNullExpression => return ("null", primary)
  | .literalNumericExpression => return (numeral (← p.valueOf "value"), primary)
  | .literalRegExpExpression => return (← patternText p, primary)
  | .literalStringExpression => return (← dataText (← p.valueOf "value"), primary)
  | .newExpression =>
    let callee ← p.expressionOf "callee" memberAccess
    return ("new " ++ callee ++ (← p.arguments), construction)
  | .objectExpression =>
    let properties ← (← p.itemsOf "properties").mapM objectProperty
    return (braced (commaList properties), primary)
  | .staticMemberExpression =>
    let object ← (← p.get "object").memberObject
    return (object ++ "." ++ (← p.textOf "property"), memberAccess)
  | .templateExpression => templateText p
  | .thisExpression => return ("this", primary)
  | .unaryExpression => return (← unaryText p, prefixed)
  | .yieldExpression =>
    let e ← p.get "expression"
    if e.isAbsent then return ("yield", assignment)
    else return ("yield " ++ (← e.expression assignment), assignment)
  | _ => throw (.noPrinter (.str k.name))

/-- What an expression is printed as, and how tightly it binds. An identifier is printed
as its name, and updates and assignments put values side by side. -/
def expressionValue (k : Kind) (p : Piece) : Printing (Tree × Nat) := do
  match k with
  | .identifierExpression => return (← p.valueOf "name", primary)
  | .updateExpression => updateValue p
  | .assignmentExpression => assignmentValue p (.str "=")
  | .compoundAssignmentExpression => assignmentValue p (← p.valueOf "operator")
  | _ =>
    let (t, precedence) ← expressionText k p
    return (.str t, precedence)

end Whittle.Source
