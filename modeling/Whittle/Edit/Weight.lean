import Whittle.Edit.Promotion

/-!
# Weight

A measure of trees under which every edit of a well-typed tree goes down and no edit of
any tree goes up, so that no sequence of edits is endless. It is not the size: an edit may
add nodes. A node weighs its kind's own weight and what its fields weigh. `null` and the
empty statement are the lightest nodes, and statements that only wrap an expression or a
block come next, so that a wrapper is lighter than what it replaces; arrow functions,
declarations, classes and objects are so heavy that what they are simplified to is
lighter. A text that a simplification aims at is lighter than any other value in its
place, and *true* is heavier than *false*.
-/

namespace Whittle

/-- What a node of a kind weighs besides its fields. -/
def Kind.weight : Kind → Nat
  | .literalNullExpression | .emptyStatement => 1
  | .blockStatement => 2
  | .switchStatementWithDefault => 4
  | .computedMemberExpression | .computedMemberAssignmentTarget => 5
  | .objectExpression => 6
  | .classExpression => 7
  | .functionDeclaration => 8
  | .classDeclaration => 9
  | .arrowExpression => 17
  | _ => 3

/-- What a node weighs besides its fields. An expression statement is light only as the
wrapper of an expression. -/
def nodeWeight (k : Kind) (fields : List Tree) : Nat :=
  match k, fields with
  | .expressionStatement, [.node l _] => if l.isExpression then 1 else 3
  | k, _ => k.weight

/-- The text that simplifications put into a field, if any do. -/
def simplestText? (k : Kind) (field : String) : Option String :=
  match k with
  | .directive | .templateElement | .literalStringExpression | .staticPropertyName => some ""
  | .literalRegExpExpression =>
    if field == "pattern" then some Simplification.simplestPattern else none
  | .staticMemberExpression | .staticMemberAssignmentTarget =>
    if field == "property" then some Simplification.placeholderProperty else none
  | _ => none

mutual
/-- The weight of a value. -/
def Tree.weight : Tree → Nat
  | .absent => 0
  | .bool b => if b then 2 else 1
  | .list items => itemsWeight items
  | .node k fields => nodeWeight k fields + fieldsWeight k k.fieldNames fields
  | _ => 1

/-- The weight of the items of a list, each of which adds three of its own. -/
def itemsWeight : List Tree → Nat
  | [] => 0
  | t :: ts => 3 + t.weight + itemsWeight ts

/-- The weight of the fields of a node. -/
def fieldsWeight (k : Kind) : List String → List Tree → Nat
  | f :: fs, t :: ts =>
    (match simplestText? k f with
      | some s => if t.isText s then 1 else 2 + t.weight
      | none => t.weight) + fieldsWeight k fs ts
  | [], t :: ts => t.weight + fieldsWeight k [] ts
  | _, [] => 0
end

end Whittle
