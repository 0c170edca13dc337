import Whittle.Double
import Whittle.Kind

/-!
# Syntax trees

A tree is a node of some kind with one value per field, or one of the values that
fields hold: an absent value, a truth value, a number, a text or a list. Nothing
is required of the values, so that trees can be built first and judged later.

Two notions of equality live side by side. Structural equality tells all trees
apart. `Tree.equals` compares as values do: a truth value counts as the number
one or zero, and a whole number equals the double of the same value.
-/

namespace Whittle

/-- A value of a syntax tree. The fields of a node stand in the order in which its
kind declares them. -/
inductive Tree where
  | absent
  | bool (value : Bool)
  | int (value : Int)
  | float (value : Double)
  | str (value : String)
  | list (items : List Tree)
  | node (kind : Kind) (fields : List Tree)

namespace Tree

/-! ## Structural equality -/

mutual
/-- Whether two trees are the same. -/
def same : Tree → Tree → Bool
  | .absent, .absent => true
  | .bool a, .bool b => a == b
  | .int a, .int b => a == b
  | .float a, .float b => a == b
  | .str a, .str b => a == b
  | .list as, .list bs => sameAll as bs
  | .node k as, .node l bs => k == l && sameAll as bs
  | _, _ => false

/-- Whether two lists of trees are the same. -/
def sameAll : List Tree → List Tree → Bool
  | [], [] => true
  | a :: as, b :: bs => same a b && sameAll as bs
  | _, _ => false
end

mutual
theorem eq_of_same : ∀ (a b : Tree), same a b = true → a = b
  | .absent, b, h => by cases b <;> simp_all [same]
  | .bool _, b, h => by cases b <;> simp_all [same]
  | .int _, b, h => by cases b <;> simp_all [same]
  | .float _, b, h => by cases b <;> simp_all [same]
  | .str _, b, h => by cases b <;> simp_all [same]
  | .list as, b, h => by
      cases b with
      | list bs => rw [eq_of_sameAll as bs (by simpa [same] using h)]
      | _ => simp [same] at h
  | .node k as, b, h => by
      cases b with
      | node l bs =>
        simp only [same, Bool.and_eq_true, beq_iff_eq] at h
        rw [h.1, eq_of_sameAll as bs h.2]
      | _ => simp [same] at h

theorem eq_of_sameAll : ∀ (as bs : List Tree), sameAll as bs = true → as = bs
  | [], [], _ => rfl
  | [], _ :: _, h => by simp [sameAll] at h
  | _ :: _, [], h => by simp [sameAll] at h
  | a :: as, b :: bs, h => by
      simp only [sameAll, Bool.and_eq_true] at h
      rw [eq_of_same a b h.1, eq_of_sameAll as bs h.2]
end

mutual
theorem same_self : ∀ a : Tree, same a a = true
  | .absent | .bool _ | .int _ | .float _ | .str _ => by simp [same]
  | .list as => by simpa [same] using sameAll_self as
  | .node _ as => by simpa [same] using sameAll_self as

theorem sameAll_self : ∀ as : List Tree, sameAll as as = true
  | [] => by simp [sameAll]
  | a :: as => by simp [sameAll, same_self a, sameAll_self as]
end

instance : DecidableEq Tree := fun a b =>
  if h : same a b = true then isTrue (eq_of_same a b h)
  else isFalse fun e => h (e ▸ same_self a)

/-! ## Equality as values -/

/-- The whole number that a truth value or a whole number counts as. -/
def wholeNumber? : Tree → Option Int
  | .bool b => some (if b then 1 else 0)
  | .int i => some i
  | _ => none

/-- Equality of two values neither of which is a list or a node. -/
def leafEquals : Tree → Tree → Bool
  | .absent, .absent => true
  | .str a, .str b => a == b
  | .float x, .float y => x.equals y
  | .float x, t | t, .float x => match t.wholeNumber? with
    | some i => x.equalsInt i
    | none => false
  | a, b => match a.wholeNumber?, b.wholeNumber? with
    | some i, some j => i == j
    | _, _ => false

mutual
/-- Whether two trees are equal as values. -/
def equals : Tree → Tree → Bool
  | .list as, .list bs => equalsAll as bs
  | .node k as, .node l bs => k == l && equalsAll as bs
  | a, b => leafEquals a b

/-- Whether two lists hold equal values. -/
def equalsAll : List Tree → List Tree → Bool
  | [], [] => true
  | a :: as, b :: bs => equals a b && equalsAll as bs
  | _, _ => false
end

/-! ## Reading nodes -/

/-- The kind of a node. -/
def kind? : Tree → Option Kind
  | .node k _ => some k
  | _ => none

/-- Whether a tree is a node of the given kind. -/
def isKind (t : Tree) (k : Kind) : Bool :=
  t.kind? == some k

def isNode (t : Tree) : Bool :=
  t.kind?.isSome

def isAbsent : Tree → Bool
  | .absent => true
  | _ => false

/-- Whether a value is the truth value *true* itself, and not merely a number
that counts as one. -/
def isTrue : Tree → Bool
  | .bool b => b
  | _ => false

/-- Whether a value is a certain text. -/
def isText (s : String) : Tree → Bool
  | .str t => t == s
  | _ => false

/-! ## Measures -/

mutual
/-- The structural size: one for a node or list and the sizes below it, the number
of characters for a text, nothing for other values. It stands in for the length
of the printed program. -/
def size : Tree → Nat
  | .str s => s.length
  | .list items => 1 + sizeAll items
  | .node _ fields => 1 + sizeAll fields
  | _ => 0

/-- The sizes of a list of trees, added up. -/
def sizeAll : List Tree → Nat
  | [] => 0
  | t :: ts => size t + sizeAll ts
end

mutual
/-- The number of nodes whose kind satisfies a test. -/
def countWhere (p : Kind → Bool) : Tree → Nat
  | .list items => countWhereAll p items
  | .node l fields => (if p l then 1 else 0) + countWhereAll p fields
  | _ => 0

/-- The number of such nodes in a list of trees. -/
def countWhereAll (p : Kind → Bool) : List Tree → Nat
  | [] => 0
  | t :: ts => countWhere p t + countWhereAll p ts
end

mutual
/-- Whether a node whose kind satisfies a test occurs. -/
def containsWhere (p : Kind → Bool) : Tree → Bool
  | .list items => containsWhereAll p items
  | .node l fields => p l || containsWhereAll p fields
  | _ => false

/-- Whether such a node occurs in a list of trees. -/
def containsWhereAll (p : Kind → Bool) : List Tree → Bool
  | [] => false
  | t :: ts => containsWhere p t || containsWhereAll p ts
end

/-- Whether a node of a kind occurs in a tree. -/
def contains (k : Kind) (t : Tree) : Bool :=
  t.containsWhere (· == k)

/-- Whether a node occurs whose kind has the given name. -/
def containsNamed (name : String) (t : Tree) : Bool :=
  t.containsWhere (·.name == name)

/-- The number of nodes whose kind has the given name. -/
def countNamed (name : String) (t : Tree) : Nat :=
  t.countWhere (·.name == name)

end Tree

end Whittle
