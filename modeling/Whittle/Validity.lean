import Whittle.Validity.Rules
import Whittle.Validity.Typing

/-!
# Validity

A tree is a valid program if it is well-typed and no rule is broken anywhere in it.
Typing errors are reported alone, so the rules may rely on the shape of every node.
-/

namespace Whittle

mutual
/-- The broken rules in a tree whose surroundings are `c`: first the node's own, then
those of its fields in turn. -/
def ruleErrors (c : Context) : Tree → Option (List EarlyError)
  | .node k fields => do
    return (← nodeErrors c k fields) ++ (← fieldRuleErrors c k fields k.fieldNames fields)
  | _ => some []

/-- The broken rules in the fields of a node, of which `names` and the last argument
are still to be looked at. -/
def fieldRuleErrors (c : Context) (k : Kind) (fields : List Tree) :
    List String → List Tree → Option (List EarlyError)
  | n :: ns, .node l fs :: vs => do
    let inner ← c.ofField k fields n
    let here ← ruleErrors inner (.node l fs)
    return here.map (.under (.field n)) ++ (← fieldRuleErrors c k fields ns vs)
  | n :: ns, .list items :: vs => do
    let inner ← c.ofField k fields n
    let here ← itemRuleErrors inner 0 items
    return here.map (.under (.field n)) ++ (← fieldRuleErrors c k fields ns vs)
  | _ :: ns, _ :: vs => fieldRuleErrors c k fields ns vs
  | _, _ => some []

/-- The broken rules in the items of a list, from index `i` on. -/
def itemRuleErrors (c : Context) (i : Nat) : List Tree → Option (List EarlyError)
  | [] => some []
  | t :: ts => do
    return (← ruleErrors c t).map (.under (.index i)) ++ (← itemRuleErrors c (i + 1) ts)
end

/-- All early errors of a tree. There is a value for every tree: the rules are asked
only about well-typed ones. -/
def earlyErrors? (t : Tree) : Option (List EarlyError) :=
  match typeErrors t with
  | [] => ruleErrors {} t
  | errors => some errors

/-- All early errors of a tree. -/
def earlyErrors (t : Tree) : List EarlyError :=
  (earlyErrors? t).getD []

/-- Whether a tree is a valid program. -/
def Tree.isValid (t : Tree) : Bool :=
  (earlyErrors t).isEmpty

end Whittle
