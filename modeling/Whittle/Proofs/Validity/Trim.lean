import Whittle.Proofs.Frames
import Whittle.Proofs.Validity.Clean

/-!
# Trimmed trees

One tree is a trimmed form of another if it comes of it by dropping items of lists, removing
some optional fields, and putting nodes that mean nothing to their surroundings in the place of
nodes that may be replaced. What is put in must itself be as clean as what it replaces.

This is what the edits of a search do once what they aim at has become independent of its
surroundings.
-/

namespace Whittle

namespace Kind

/-- Whether a node of the kind stands where any expression or any statement, or what an arrow
function or the head of a loop has instead, may stand. -/
def isReplaceable : Kind → Bool
  | script | esModule | directive | bindingIdentifier | bindingWithDefault
  | assignmentTargetIdentifier | computedMemberAssignmentTarget
  | staticMemberAssignmentTarget | classElement | formalParameters | method | getter
  | setter | dataProperty | shorthandProperty | computedPropertyName | staticPropertyName
  | templateElement | block | catchClause | switchCase | switchDefault
  | variableDeclarator => false
  | _ => true

/-- Whether a node of the kind means nothing to the rules of the nodes around it: it declares
no name and is none, and no rule names its kind. -/
def isInert : Kind → Bool
  | arrayExpression | arrowExpression | assignmentExpression | awaitExpression
  | binaryExpression | callExpression | classExpression | compoundAssignmentExpression
  | computedMemberExpression | conditionalExpression | functionExpression
  | literalBooleanExpression | literalNullExpression | literalNumericExpression
  | literalRegExpExpression | literalStringExpression | newExpression | objectExpression
  | staticMemberExpression | templateExpression | thisExpression | unaryExpression
  | updateExpression | yieldExpression
  | emptyStatement | expressionStatement | returnStatement | throwStatement => true
  | _ => false

/-- Whether a node of the kind breaks no rule for want of the optional field at index `i`: the
tag of a template, the result of a function, its name, and its rest parameter. -/
def mayLack : Kind → Nat → Bool
  | templateExpression, 0 | returnStatement, 0 | functionExpression, 2
  | formalParameters, 1 => true
  | _, _ => false

end Kind

/-- Whether a loop under labels has been replaced by something else. -/
def LosesLoop (u v : Tree) : Prop :=
  u.isLabelledLoop? = some true ∧ v.isLabelledLoop? = some false

/-- Whether a value is clean wherever another one is, and in contexts that ask for less. -/
def AsClean (u v : Tree) : Prop :=
  ∀ c c', Eases (¬ LosesLoop u v) c c' → Clean c u → Clean c' v

/-- What the fields of some kinds keep when they are trimmed: the parts of a template alternate
by their places, a declaration keeps one declarator, and what is declared is a declaration. -/
def Kept : Kind → List Tree → List Tree → Prop
  | .templateExpression, [_, .list us], [_, .list vs] => us.length = vs.length
  | .variableDeclaration, [_, .list us], [_, .list vs] => vs = [] → us = []
  | .variableDeclarationStatement, [u], [v] => v.kind? = u.kind?
  | _, _, _ => True

mutual
/-- The second value is a trimmed form of the first. -/
inductive Trims : Tree → Tree → Prop
  | leaf (v : Tree) (h : v.isLeaf = true) : Trims v v
  | list {us vs : List Tree} (h : TrimsItems us vs) : Trims (.list us) (.list vs)
  | node {k : Kind} {us vs : List Tree} (h : TrimsFields k 0 us vs) (hk : Kept k us vs) :
    Trims (.node k us) (.node k vs)
  | swap {k l : Kind} {us vs : List Tree} (hk : k.isReplaceable = true)
    (hl : l.isInert = true) (h : AsClean (.node k us) (.node l vs)) :
    Trims (.node k us) (.node l vs)

/-- The second list is a trimmed form of the first. -/
inductive TrimsItems : List Tree → List Tree → Prop
  | nil : TrimsItems [] []
  | cons {u v : Tree} {us vs : List Tree} (h : Trims u v) (hs : TrimsItems us vs) :
    TrimsItems (u :: us) (v :: vs)
  | drop {u : Tree} {us vs : List Tree} (hs : TrimsItems us vs) : TrimsItems (u :: us) vs

/-- The second values are trimmed forms of the first as the fields of a node of kind `k`, from
the field at index `i` on. -/
inductive TrimsFields : Kind → Nat → List Tree → List Tree → Prop
  | nil (k : Kind) (i : Nat) : TrimsFields k i [] []
  | cons {k : Kind} {i : Nat} {u v : Tree} {us vs : List Tree} (h : TrimsField k i u v)
    (hs : TrimsFields k (i + 1) us vs) : TrimsFields k i (u :: us) (v :: vs)

/-- The second value is a trimmed form of the first as the field at index `i` of a node of
kind `k`. -/
inductive TrimsField : Kind → Nat → Tree → Tree → Prop
  | keep {k : Kind} {i : Nat} {u v : Tree} (h : Trims u v) : TrimsField k i u v
  | lack {k : Kind} {i : Nat} {u : Tree} (h : k.mayLack i = true) : TrimsField k i u .absent
end

/-! ## What a trimmed form looks like -/

theorem Trims.leaf_eq {u v : Tree} (h : Trims u v) (hu : u.isLeaf = true) : v = u := by
  cases h with
  | leaf _ _ => rfl
  | list _ => cases hu
  | node _ _ => cases hu
  | swap _ _ _ => cases hu

theorem Trims.str_eq {s : String} {v : Tree} (h : Trims (.str s) v) : v = .str s :=
  h.leaf_eq rfl

theorem Trims.bool_eq {b : Bool} {v : Tree} (h : Trims (.bool b) v) : v = .bool b :=
  h.leaf_eq rfl

theorem Trims.absent_eq {v : Tree} (h : Trims .absent v) : v = .absent :=
  h.leaf_eq rfl

/-- Trimming makes neither leaves out of nodes nor the other way round. -/
theorem Trims.isNode_eq {u v : Tree} (h : Trims u v) : v.isNode = u.isNode := by
  cases h <;> rfl

theorem Trims.isLeaf_eq {u v : Tree} (h : Trims u v) : v.isLeaf = u.isLeaf := by
  cases h <;> rfl

theorem Trims.list_inv {us : List Tree} {v : Tree} (h : Trims (.list us) v) :
    ∃ vs, v = .list vs ∧ TrimsItems us vs := by
  cases h with
  | leaf _ hleaf => cases hleaf
  | list h => exact ⟨_, rfl, h⟩

/-- A node is trimmed in its fields or replaced. -/
theorem Trims.node_inv {k : Kind} {us : List Tree} {v : Tree} (h : Trims (.node k us) v) :
    (∃ vs, v = .node k vs ∧ TrimsFields k 0 us vs ∧ Kept k us vs) ∨
      (k.isReplaceable = true ∧ ∃ l vs, v = .node l vs ∧ l.isInert = true) := by
  cases h with
  | leaf _ hleaf => cases hleaf
  | node h hk => exact .inl ⟨_, rfl, h, hk⟩
  | swap hk hl h => exact .inr ⟨hk, _, _, rfl, hl⟩

/-- A node that may not be replaced is trimmed in its fields. -/
theorem Trims.fields_inv {k : Kind} {us : List Tree} {v : Tree} (h : Trims (.node k us) v)
    (hk : k.isReplaceable = false) : ∃ vs, v = .node k vs ∧ TrimsFields k 0 us vs := by
  rcases h.node_inv with ⟨vs, rfl, hvs, -⟩ | ⟨hk', -⟩
  · exact ⟨vs, rfl, hvs⟩
  · rw [hk] at hk'
    cases hk'

theorem TrimsField.trims {k : Kind} {i : Nat} {u v : Tree} (h : TrimsField k i u v)
    (hi : k.mayLack i = false) : Trims u v := by
  cases h with
  | keep h => exact h
  | lack h =>
    rw [hi] at h
    cases h

theorem TrimsItems.sublistForall₂ : ∀ {us vs : List Tree}, TrimsItems us vs →
    List.SublistForall₂ (fun v u => Trims u v) vs us
  | _, _, .nil => .nil
  | _, _, .cons h hs => .cons h hs.sublistForall₂
  | _, _, .drop hs => .cons_right hs.sublistForall₂

theorem TrimsItems.exists_of_mem {v : Tree} : ∀ {us vs : List Tree}, TrimsItems us vs →
    v ∈ vs → ∃ u ∈ us, Trims u v
  | _, _, .nil, hv => nomatch hv
  | _, _, .cons (u := u) h hs, hv => by
      rcases List.mem_cons.1 hv with rfl | hv
      · exact ⟨u, List.mem_cons_self, h⟩
      · obtain ⟨u', hu', h'⟩ := hs.exists_of_mem hv
        exact ⟨u', List.mem_cons_of_mem _ hu', h'⟩
  | _, _, .drop hs, hv => by
      obtain ⟨u', hu', h'⟩ := hs.exists_of_mem hv
      exact ⟨u', List.mem_cons_of_mem _ hu', h'⟩

/-- A list that is trimmed without dropping anything is trimmed item by item. -/
theorem TrimsItems.forall₂ {us vs : List Tree} (h : TrimsItems us vs)
    (hlen : us.length = vs.length) : List.Forall₂ Trims us vs := by
  obtain ⟨ws, hws, hsub⟩ := List.sublistForall₂_iff.1 h.sublistForall₂
  obtain rfl := hsub.eq_of_length (hws.length_eq.symm.trans hlen.symm)
  exact hws.flip

/-! ## Ways to trim -/

mutual
theorem Trims.refl : ∀ t : Tree, Trims t t
  | .list items => .list (TrimsItems.refl items)
  | .node k fields => .node (TrimsFields.refl k 0 fields) (by unfold Kept; split <;> simp_all)
  | .absent | .bool _ | .int _ | .float _ | .str _ => .leaf _ rfl

theorem TrimsItems.refl : ∀ ts : List Tree, TrimsItems ts ts
  | [] => .nil
  | t :: ts => .cons (Trims.refl t) (TrimsItems.refl ts)

theorem TrimsFields.refl (k : Kind) (i : Nat) : ∀ ts : List Tree, TrimsFields k i ts ts
  | [] => .nil k i
  | t :: ts => .cons (.keep (Trims.refl t)) (TrimsFields.refl k (i + 1) ts)
end

theorem TrimsItems.append {us us' vs vs' : List Tree} (h : TrimsItems us vs)
    (h' : TrimsItems us' vs') : TrimsItems (us ++ us') (vs ++ vs') := by
  induction us generalizing vs with
  | nil =>
    cases h
    exact h'
  | cons u us ih =>
    cases h with
    | cons hu hs => exact .cons hu (ih hs)
    | drop hs => exact .drop (ih hs)

theorem TrimsItems.nothing : ∀ us : List Tree, TrimsItems us []
  | [] => .nil
  | _ :: us => .drop (.nothing us)

theorem TrimsItems.flatten {uss vss : List (List Tree)}
    (h : List.SublistForall₂ (fun vs us => TrimsItems us vs) vss uss) :
    TrimsItems uss.flatten vss.flatten := by
  induction h with
  | nil => exact .nothing _
  | cons h _ ih => exact h.append ih
  | cons_right _ ih => exact (TrimsItems.nothing _).append ih

theorem TrimsFields.middle {k : Kind} {u v : Tree} (before after : List Tree) {i : Nat}
    (h : TrimsField k (i + before.length) u v) :
    TrimsFields k i (before ++ u :: after) (before ++ v :: after) := by
  induction before generalizing i with
  | nil => exact .cons h (.refl k _ after)
  | cons b before ih =>
    refine .cons (.keep (.refl b)) (ih ?_)
    rwa [List.length_cons, Nat.add_comm before.length, ← Nat.add_assoc] at h

/-- Whether the fields of the node that a frame is are kept when the value in its hole
changes. -/
def Frame.Keeps : Frame → Tree → Tree → Prop
  | .field k before after, u, v => Kept k (before ++ u :: after) (before ++ v :: after)
  | .item _ _, _, _ => True

theorem Trims.plug {f : Frame} {u v : Tree} (h : Trims u v) (hf : f.Keeps u v) :
    Trims (f.plug u) (f.plug v) := by
  cases f with
  | field k before after => exact .node (.middle before after (.keep h)) hf
  | item before after =>
    exact .list ((TrimsItems.refl before).append (.cons h (.refl after)))

/-- Two values of which the rules on kept fields see the same. -/
def Alike : Tree → Tree → Prop
  | .node k _, .node l _ => k = l
  | .list us, .list vs => us.length = vs.length
  | u, v => u = v

theorem Alike.refl (t : Tree) : Alike t t := by
  cases t <;> simp [Alike]

theorem Kept.of_alike {k : Kind} {us vs : List Tree} (h : List.Forall₂ Alike us vs) :
    Kept k us vs := by
  unfold Kept
  split
  · obtain _ | ⟨-, _ | ⟨h, -⟩⟩ := h
    exact h
  · obtain _ | ⟨-, _ | ⟨h, -⟩⟩ := h
    intro hnil
    rw [Alike, hnil] at h
    exact List.eq_nil_of_length_eq_zero h
  · rename_i u v
    obtain _ | ⟨h, -⟩ := h
    cases u <;> cases v <;> simp_all [Alike, Tree.kind?]
  · trivial

theorem Frame.keeps_of_alike {f : Frame} {u v : Tree} (h : Alike u v) : f.Keeps u v := by
  cases f with
  | item before after => trivial
  | field k before after =>
    refine Kept.of_alike (List.rel_append ?_ (.cons h ?_))
    · exact List.forall₂_same.2 fun _ _ => .refl _
    · exact List.forall₂_same.2 fun _ _ => .refl _

theorem Frame.alike_plug (f : Frame) (u v : Tree) : Alike (f.plug u) (f.plug v) := by
  cases f <;> simp [plug, Alike]

/-- Where a part of a tree is trimmed so is the tree. -/
theorem Trims.plugAll {u v : Tree} (h : Trims u v) : ∀ {fs : List Frame},
    (∀ f ∈ fs.head?, f.Keeps u v) → Trims (Whittle.plugAll fs u) (Whittle.plugAll fs v)
  | [], _ => h
  | f :: fs, hhead => by
      have hf : f.Keeps u v := hhead f rfl
      refine Trims.plugAll (h.plug hf) ?_
      intro g _
      exact Frame.keeps_of_alike (f.alike_plug u v)

end Whittle
