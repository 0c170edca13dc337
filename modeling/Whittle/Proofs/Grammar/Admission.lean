import Whittle.Proofs.Grammar.Cores

/-!
# Admission

A field type that is built from node types admits exactly the inhabitants of the type of its
position: what may be put into a field when a node is made is what an edit may put at the
position.
-/

namespace Whittle.Grammar

variable {α : Type}

/-- The type is built from node types with unions, lists and optionals, where each list and
optional has one argument. -/
inductive Spec.OfNodes : Spec α → Prop
  | node (a : α) : OfNodes (.node a)
  | union {members : List (Spec α)} (h : ∀ t ∈ members, OfNodes t) : OfNodes (.union members)
  | list {t : Spec α} (h : OfNodes t) : OfNodes (.list t)
  | maybe {t : Spec α} (h : OfNodes t) : OfNodes (.maybe t)

/-- The value inhabits the position type: it is a node whose type is a member of the union, a
list of inhabitants, or an absent value or an inhabitant where the position is optional. -/
inductive PositionType.Inhabitant (nameOf : Kind → α) : PositionType α → Tree → Prop
  | node {ms : List (Head α)} {k : Kind} (h : .named (nameOf k) ∈ ms) (fields : List Tree) :
    Inhabitant nameOf (.union ms) (.node k fields)
  | list {t : PositionType α} {items : List Tree} (h : ∀ v ∈ items, Inhabitant nameOf t v) :
    Inhabitant nameOf (.list t) (.list items)
  | absent (t : PositionType α) : Inhabitant nameOf (.maybe t) .absent
  | present {t : PositionType α} {v : Tree} (h : Inhabitant nameOf t v) :
    Inhabitant nameOf (.maybe t) v

namespace PositionType

variable {nameOf : Kind → α} {p : PositionType α} {v : Tree}

theorem inhabitant_union_iff {ms : List (Head α)} : Inhabitant nameOf (.union ms) v ↔
    ∃ k fields, v = .node k fields ∧ .named (nameOf k) ∈ ms := by
  constructor
  · intro h
    cases h with
    | node h fields => exact ⟨_, fields, rfl, h⟩
  · rintro ⟨k, fields, rfl, h⟩
    exact .node h fields

theorem inhabitant_list_iff : Inhabitant nameOf (.list p) v ↔
    ∃ items, v = .list items ∧ ∀ w ∈ items, Inhabitant nameOf p w := by
  constructor
  · intro h
    cases h with
    | list h => exact ⟨_, rfl, h⟩
  · rintro ⟨items, rfl, h⟩
    exact .list h

theorem inhabitant_maybe_iff : Inhabitant nameOf (.maybe p) v ↔
    v = .absent ∨ Inhabitant nameOf p v := by
  constructor
  · intro h
    cases h with
    | absent => exact .inl rfl
    | present h => exact .inr h
  · rintro (rfl | h)
    · exact .absent p
    · exact .present h

variable [DecidableEq α]

theorem holds_iff_inhabitant : p.holds nameOf v = true ↔ Inhabitant nameOf p v := by
  induction p generalizing v with
  | union ms =>
    rw [inhabitant_union_iff]
    cases v <;> simp [holds]
  | list t ih =>
    rw [inhabitant_list_iff]
    cases v <;> simp [holds, ih]
  | maybe t ih =>
    rw [inhabitant_maybe_iff, ← ih]
    cases v <;> simp [holds]

end PositionType

namespace Spec

/-- Nothing that is built from node types is primitive. -/
theorem OfNodes.isPrimitive? {t : Spec α} (h : t.OfNodes) : t.isPrimitive? = some false := by
  induction h with
  | node a => rfl
  | union h ih => rfl
  | list h ih => rwa [Spec.list, Spec.isPrimitive?]
  | maybe h ih => rwa [Spec.maybe, Spec.isPrimitive?]

variable [DecidableEq α]

/-- A type that is built from node types and gives a position a type always answers whether it
admits a value: it admits the inhabitants of the position's type and nothing else. -/
theorem admitted_iff_inhabitant (nameOf : Kind → α) {t : Spec α} (ht : t.OfNodes)
    {p : PositionType α} (hp : t.positionType = .ok p) (v : Tree) :
    ∃ answer, t.admits? nameOf v = some answer ∧ (answer = true ↔ p.Inhabitant nameOf v) := by
  refine ⟨p.holds nameOf v, ?_, PositionType.holds_iff_inhabitant⟩
  exact admits?_eq_holds nameOf ht.isPrimitive? hp v

/-- The arguments of a call where they may be left out altogether, with a union in a union. -/
def optionalArguments : Spec String :=
  .maybe (.list (.union [.node "ThisExpression",
    .union [.node "SpreadElement", .node "ThisExpression"]]))

/-- The position of such arguments. -/
def argumentsPosition : PositionType String :=
  .maybe (.list (.union [.named "ThisExpression", .named "SpreadElement"]))

/-- `this` and a spread element may be arguments, and there may be none, but `super` is not one. -/
theorem admitted_iff_inhabitant_optionalArguments :
    optionalArguments.OfNodes ∧ optionalArguments.positionType = .ok argumentsPosition ∧
    argumentsPosition.Inhabitant Kind.name
      (.list [.node .thisExpression [], .node .spreadElement [.node .thisExpression []]]) ∧
    argumentsPosition.Inhabitant Kind.name .absent ∧
    ¬ argumentsPosition.Inhabitant Kind.name
      (.list [.node .thisExpression [], .node .super []]) := by
  have ht : optionalArguments.OfNodes := by
    refine .maybe (.list (.union ?_))
    rw [List.forall_mem_cons, List.forall_mem_singleton]
    refine ⟨.node _, .union ?_⟩
    rw [List.forall_mem_cons, List.forall_mem_singleton]
    exact ⟨.node _, .node _⟩
  have hp : optionalArguments.positionType = .ok argumentsPosition := rfl
  have hanswer : ∀ v answer, optionalArguments.admits? Kind.name v = some answer →
      (answer = true ↔ argumentsPosition.Inhabitant Kind.name v) := by
    intro v answer hv
    obtain ⟨answer', hv', hiff⟩ := admitted_iff_inhabitant Kind.name ht hp v
    obtain rfl : answer = answer' := Option.some.inj (hv.symm.trans hv')
    exact hiff
  refine ⟨ht, hp, (hanswer _ true rfl).1 rfl, (hanswer _ true rfl).1 rfl, fun hsuper => ?_⟩
  have hfalse := (hanswer _ false rfl).2 hsuper
  cases hfalse

end Spec

end Whittle.Grammar
