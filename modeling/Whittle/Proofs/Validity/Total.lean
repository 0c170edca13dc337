import Whittle.Proofs.Validity.Located

/-!
# Validation always answers

Validation has a result for every value, however it was built. The typing walk asks each field
whether its type admits what is there, and there is an answer for any value. The rules are asked
only about well-typed trees, and there nothing that they read is missing: in whatever context,
a node's rules have a value and so has the context of each of its fields, and every part whose
kind a rule asks for is a node.
-/

namespace Whittle

open Grammar Whittle.Language

variable {loose : Bool}

/-! ## The typing walk -/

/-- The parts of a node that its own rules ask for their kind and read no further. -/
def askedParts : Kind → List Tree → List Tree
  | .callExpression, [callee, _] => [callee]
  | .computedMemberExpression, [object, _] => [object]
  | .computedMemberAssignmentTarget, [object, _] => [object]
  | .staticMemberExpression, [object, _] => [object]
  | .staticMemberAssignmentTarget, [object, _] => [object]
  | .templateExpression, [_, .list elements] => elements
  | .unaryExpression, [_, operand] => [operand]
  | .forStatement, [init, _, _, _] => if init.isAbsent then [] else [init]
  | _, _ => []

/-- Nothing that the rules read of a node is missing, in whatever context it stands. -/
structure Answers (k : Kind) (fields : List Tree) : Prop where
  rules : ∀ c : Context, ∃ own, nodeErrors c k fields = some own
  contexts : ∀ c : Context, ∀ name ∈ k.fieldNames, ∃ inner, c.ofField k fields name = some inner
  kinds : ∀ v ∈ askedParts k fields, v.isNode = true

/-- There is a list of early errors for every value. -/
theorem exists_earlyErrors? (t : Tree) : ∃ es, earlyErrors? t = some es := by
  unfold earlyErrors?
  cases htype : typeErrors t with
  | cons e es => exact ⟨_, rfl⟩
  | nil =>
    have ht : t.wellTyped = true := List.isEmpty_iff.2 htype
    cases t with
    | node k fields => exact exists_ruleErrors {} (wellTyped_iff.1 ht)
    | _ => cases ht

end Whittle
