import Whittle.Validity.Violation

/-!
# Well-typed trees

A tree is well-typed if it is a node and every field of every node in it holds a
value that the field's type admits. A value that is not admitted is reported and
not looked into.
-/

namespace Whittle

open Whittle.Language

mutual
/-- The typing errors of a tree. -/
def typeErrors : Tree → List EarlyError
  | .node k fields => fieldTypeErrors k k.slots fields
  | v => [(Violation.notANode v).here]

/-- The typing errors of a node's fields, slot by slot. -/
def fieldTypeErrors (k : Kind) : List Slot → List Tree → List EarlyError
  | [], [] => []
  | s :: ss, v :: vs =>
    (if s.type.admits v then (partTypeErrors v).map (.under (.field s.name))
     else [(Violation.notAdmitted k s.name v).atField s.name])
      ++ fieldTypeErrors k ss vs
  | _, _ => [(Violation.misshapen k).here]

/-- The typing errors of the nodes in a field. -/
def partTypeErrors : Tree → List EarlyError
  | .node k fields => fieldTypeErrors k k.slots fields
  | .list items => itemTypeErrors 0 items
  | _ => []

/-- The typing errors of the nodes in a list, from index `i` on. -/
def itemTypeErrors (i : Nat) : List Tree → List EarlyError
  | [] => []
  | .node k fields :: rest =>
    (fieldTypeErrors k k.slots fields).map (.under (.index i)) ++ itemTypeErrors (i + 1) rest
  | _ :: rest => itemTypeErrors (i + 1) rest
end

/-- Whether a tree is well-typed. -/
def Tree.wellTyped (t : Tree) : Bool :=
  (typeErrors t).isEmpty

end Whittle
