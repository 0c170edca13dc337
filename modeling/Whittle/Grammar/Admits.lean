import Whittle.Grammar.Spec
import Whittle.Tree

/-!
# Admissible values

Whether a value may stand in a field of a given type. A node is judged by its kind
alone; the values of its own fields are a matter of their own.
-/

namespace Whittle.Grammar

variable {α : Type} [DecidableEq α]

mutual
/-- Whether a node type is among the members of a type. -/
def Spec.hasMember (a : α) : Spec α → Bool
  | .of .union as => Spec.anyHasMember a as
  | .of (.named b) _ => a == b
  | _ => false

/-- Whether a node type is among the members of one of several types. -/
def Spec.anyHasMember (a : α) : List (Spec α) → Bool
  | [] => false
  | t :: ts => t.hasMember a || Spec.anyHasMember a ts
end

/-- Whether a field of the type may hold the value. There is no answer if it hangs
on the argument of a list or optional that has none. -/
def Spec.admits? (nameOf : Kind → α) : Spec α → Tree → Option Bool
  | .of .maybe _, .absent => some true
  | .of .maybe (a :: _), v => a.admits? nameOf v
  | .of .maybe [], _ => none
  | .of .list (a :: _), .list items =>
    items.foldr (fun v rest => do
      match ← a.admits? nameOf v with
      | true => rest
      | false => some false) (some true)
  | .of .list [], .list [] => some true
  | .of .list [], .list _ => none
  | .of .list _, _ => some false
  | .of .boolean _, .bool _ => some true
  | .of .string _, .str _ => some true
  | .of .number _, .int _ => some true
  | .of .number _, .float _ => some true
  | .of (.enum values) _, .str s => some (values.contains s)
  | t, .node k _ => some (t.hasMember (nameOf k))
  | _, _ => some false

end Whittle.Grammar
