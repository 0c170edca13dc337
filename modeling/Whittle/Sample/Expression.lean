import Whittle.Sample.Gen

/-!
# Random expressions

Generators of expressions. Those that contain other expressions or statements get them
from *makers*, which are given the number of levels that are left; the parts of a node
have one level less than the node.
-/

namespace Whittle.Sample

/-- Generators of expressions and statements with a number of levels left. The last
argument of `statement` tells whether declarations may be placed. -/
structure Makers (σ : Type) where
  expression : Nat → Scene → Gen σ Tree
  statement : Nat → Scene → Bool → Gen σ Tree

/-! ## Words -/

def otherIdentifiers : List String := ["b", "c", "x", "y", "foo", "bar", "console", "$", "_"]

def otherProperties : List String := ["q", "log", "length", "value", "then"]

def lowerLetters : List Char := "abcdefghijklmnopqrstuvwxyz".toList

def upperLetters : List Char := "ABCDEFGHIJKLMNOPQRSTUVWXYZ".toList

variable {σ : Type} (rs : RandomSource σ)

/-- A name to refer to. -/
def reference : Gen σ Tree := chooseText rs "a" otherIdentifiers

/-- A name of a property. -/
def propertyText : Gen σ Tree := chooseText rs "p" otherProperties

/-- An operator of a list. -/
def operator : List String → Gen σ Tree
  | [] => return .absent
  | o :: os => chooseText rs o os

/-! ## Expressions without parts -/

/-- A number: mostly a whole one, else one with two places below ten. -/
def number : Gen σ Tree := do
  if ← chance rs 80 then return .int (← upTo rs 100).val
  else return .float (((← roll rs).scale 10).roundPlaces 2)

/-- A regular expression. -/
def pattern : Gen σ Tree := do
  let text ← chooseText rs "a" ["b+", "[0-9]", "x|y"]
  let isGlobal ← flag rs 30
  let ignoreCase ← flag rs 30
  let multiLine ← flag rs 10
  let dotAll ← flag rs 10
  let unicode ← flag rs 10
  let sticky ← flag rs 10
  node .literalRegExpExpression [text, isGlobal, ignoreCase, multiLine, dotAll, unicode, sticky]

/-- An expression without parts. -/
def leaf : Gen σ Tree := do
  let r ← roll rs
  if r.less (hundredths 40) then node .identifierExpression [← reference rs]
  else if r.less (hundredths 55) then node .literalNumericExpression [← number rs]
  else if r.less (hundredths 70) then
    node .literalStringExpression [← letters rs 5 'a' (lowerLetters.tail ++ upperLetters)]
  else if r.less (hundredths 78) then node .literalBooleanExpression [← flag rs 50]
  else if r.less (hundredths 86) then node .literalNullExpression []
  else if r.less (hundredths 93) then node .thisExpression []
  else pattern rs

/-! ## Expressions with parts -/

variable (m : Makers σ) (levels : Nat) (c : Scene)

/-- An expression one level down. -/
def part : Gen σ Tree := m.expression (levels - 1) c

def binary : Gen σ Tree := do
  let left ← part m levels c
  let o ← operator rs Language.binaryOperators
  node .binaryExpression [left, o, ← part m levels c]

/-- An argument, sometimes spread. -/
def argument : Gen σ Tree := do
  if ← chance rs 10 then node .spreadElement [← part m levels c] else part m levels c

/-- Up to three arguments. -/
def arguments : Gen σ Tree := do
  return .list (← several rs 3 (argument rs m levels c))

def callExpression : Gen σ Tree := do
  let callee ← part m levels c
  node .callExpression [callee, ← arguments rs m levels c]

def newExpression : Gen σ Tree := do
  let callee ← part m levels c
  node .newExpression [callee, ← arguments rs m levels c]

/-- A call of `super`. -/
def superCall : Gen σ Tree := do
  let callee ← node .super []
  node .callExpression [callee, ← arguments rs m levels c]

/-- A property of `super`. -/
def superMember : Gen σ Tree := do
  let object ← node .super []
  node .staticMemberExpression [object, ← propertyText rs]

def staticMember : Gen σ Tree := do
  let object ← part m levels c
  node .staticMemberExpression [object, ← propertyText rs]

def computedMember : Gen σ Tree := do
  let object ← part m levels c
  node .computedMemberExpression [object, ← part m levels c]

/-- A target of an assignment; without levels left it is a name. -/
def target : Gen σ Tree := do
  let r ← roll rs
  if r.less (hundredths 60) || levels == 0 then
    node .assignmentTargetIdentifier [← reference rs]
  else if r.less (hundredths 80) then
    let object ← part m levels c
    node .staticMemberAssignmentTarget [object, ← propertyText rs]
  else
    let object ← part m levels c
    node .computedMemberAssignmentTarget [object, ← part m levels c]

def assignment : Gen σ Tree := do
  let t ← target rs m levels c
  node .assignmentExpression [t, ← part m levels c]

def compoundAssignment : Gen σ Tree := do
  let t ← target rs m levels c
  let o ← operator rs Language.compoundOperators
  node .compoundAssignmentExpression [t, o, ← part m levels c]

/-- A unary operation. Strict code may delete only a property. -/
def unary : Gen σ Tree := do
  let o ← operator rs Language.unaryOperators
  if o.isText "delete" && c.strict then
    node .unaryExpression [o, ← staticMember rs m levels c]
  else node .unaryExpression [o, ← part m levels c]

def update : Gen σ Tree := do
  let isPrefixed ← flag rs 50
  let o ← operator rs Language.updateOperators
  node .updateExpression [isPrefixed, o, ← target rs m levels c]

def conditional : Gen σ Tree := do
  let test ← part m levels c
  let consequent ← part m levels c
  node .conditionalExpression [test, consequent, ← part m levels c]

/-- An element of an array: sometimes a hole, sometimes spread. -/
def arrayElement : Gen σ Tree := do
  let r ← roll rs
  if r.less (hundredths 10) then return .absent
  else if r.less (hundredths 20) then node .spreadElement [← part m levels c]
  else part m levels c

def array : Gen σ Tree := do
  node .arrayExpression [.list (← several rs 3 (arrayElement rs m levels c))]

/-- A text in a template. -/
def templateText : Gen σ Tree := do
  node .templateElement [← letters rs 4 'a' (lowerLetters.tail ++ [' '])]

/-- So many expressions of a template, each with the text after it. -/
def templatePairs : Nat → Gen σ (List Tree)
  | 0 => return []
  | n + 1 => do
    let e ← part m levels c
    let t ← templateText rs
    return e :: t :: (← templatePairs n)

def template : Gen σ Tree := do
  let first ← templateText rs
  let rest ← templatePairs rs m levels c (← upTo rs 2)
  let tag ← perhaps rs 20 (part m levels c)
  node .templateExpression [tag, .list (first :: rest)]

def yieldExpression : Gen σ Tree := do
  node .yieldExpression [← perhaps rs 70 (part m levels c)]

def awaitExpression : Gen σ Tree := do
  node .awaitExpression [← part m levels c]

end Whittle.Sample
