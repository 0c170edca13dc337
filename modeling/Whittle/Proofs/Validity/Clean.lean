import Whittle.Proofs.Typing
import Whittle.Validity

/-!
# Clean trees

A value is clean in a context if no rule is broken anywhere in it. A context eases another one
if it asks for no more: it allows whatever the other one allows, is no stricter, and has the
same labels around it. Whether a label of a loop still labels a loop is a matter of its own,
because the loop may be what is replaced.
-/

namespace Whittle

/-- No rule is broken in a value whose surroundings are `c`. -/
def Clean (c : Context) : Tree → Prop
  | .list items => ∀ t ∈ items, ruleErrors c t = some []
  | t => ruleErrors c t = some []

theorem ruleErrors_not_node (c : Context) {v : Tree} (h : v.isNode = false) :
    ruleErrors c v = some [] := by
  cases v with
  | node k fields => cases h
  | _ => exact ruleErrors.eq_2 c _ (by intro k fields h; cases h)

theorem clean_leaf {c : Context} {t : Tree} (h : t.isLeaf = true) : Clean c t := by
  cases t with
  | list items => cases h
  | node k fields => cases h
  | _ => exact ruleErrors_not_node c rfl

/-- Two sequences of errors together are none exactly if each of them is. -/
theorem append_eq_some_nil {α : Type} {x y : Option (List α)} :
    (do return (← x) ++ (← y)) = some [] ↔ x = some [] ∧ y = some [] := by
  cases x <;> cases y <;> simp

theorem itemRuleErrors_eq_nil {c : Context} {items : List Tree} {i : Nat} :
    itemRuleErrors c i items = some [] ↔ ∀ t ∈ items, ruleErrors c t = some [] := by
  induction items generalizing i with
  | nil => simp [itemRuleErrors]
  | cons t ts ih =>
    rw [itemRuleErrors, List.forall_mem_cons, ← ih (i := i + 1)]
    cases ruleErrors c t <;> cases itemRuleErrors c (i + 1) ts <;> simp

theorem fieldRuleErrors_eq_nil {c : Context} {k : Kind} {fields : List Tree}
    {names : List String} {vs : List Tree} :
    fieldRuleErrors c k fields names vs = some [] ↔
      ∀ n v, (n, v) ∈ names.zip vs → v.isLeaf = false →
        ∃ inner, c.ofField k fields n = some inner ∧ Clean inner v := by
  induction names generalizing vs with
  | nil => cases vs <;> simp [fieldRuleErrors]
  | cons n ns ih =>
    cases vs with
    | nil => simp [fieldRuleErrors]
    | cons v vs =>
      simp only [List.zip_cons_cons, List.mem_cons, Prod.mk.injEq, or_imp, forall_and]
      rw [← ih]
      cases v with
      | node l fs =>
        rw [fieldRuleErrors]
        cases hi : c.ofField k fields n with
        | none => simp [hi, Tree.isLeaf]
        | some inner =>
          cases hr : ruleErrors inner (.node l fs) <;>
            cases fieldRuleErrors c k fields ns vs <;> simp [hi, hr, Tree.isLeaf, Clean]
      | list items =>
        rw [fieldRuleErrors]
        cases hi : c.ofField k fields n with
        | none => simp [hi, Tree.isLeaf]
        | some inner =>
          have hclean : Clean inner (.list items) ↔ itemRuleErrors inner 0 items = some [] :=
            itemRuleErrors_eq_nil.symm
          cases hr : itemRuleErrors inner 0 items <;>
            cases fieldRuleErrors c k fields ns vs <;> simp [hi, hr, Tree.isLeaf, hclean]
      | _ =>
        rw [fieldRuleErrors] <;> simp [Tree.isLeaf]

/-- A node is clean if it breaks no rule itself and its fields are clean in their
contexts. -/
theorem clean_node {c : Context} {k : Kind} {fields : List Tree} :
    Clean c (.node k fields) ↔ nodeErrors c k fields = some [] ∧
      ∀ n v, (n, v) ∈ k.fieldNames.zip fields → v.isLeaf = false →
        ∃ inner, c.ofField k fields n = some inner ∧ Clean inner v := by
  rw [← fieldRuleErrors_eq_nil, ← append_eq_some_nil]
  rfl

theorem clean_list {c : Context} {items : List Tree} :
    Clean c (.list items) ↔ ∀ k fields, Tree.node k fields ∈ items → Clean c (.node k fields) := by
  constructor
  · intro h k fields hmem
    exact h _ hmem
  · intro h t ht
    cases t with
    | node k fields => exact h k fields ht
    | _ => exact ruleErrors_not_node c rfl

/-! ## Contexts that ask for less -/

/-- The context `c'` asks for no more than `c`. If `keep` holds, the labels of loops are still
labels of loops. -/
structure Eases (keep : Prop) (c c' : Context) : Prop where
  inFunction : c.inFunction = true → c'.inFunction = true
  isAsync : c.isAsync = true → c'.isAsync = true
  isGenerator : c.isGenerator = true → c'.isGenerator = true
  inIteration : c.inIteration = true → c'.inIteration = true
  inSwitch : c.inSwitch = true → c'.inSwitch = true
  superProperty : c.superProperty = true → c'.superProperty = true
  superCall : c.superCall = true → c'.superCall = true
  strict : c'.strict = true → c.strict = true
  derivedClass : c.derivedClass = true → c'.derivedClass = true
  derivedConstructor : c.derivedConstructor = true → c'.derivedConstructor = true
  defaultName : c.defaultName = true → c'.defaultName = true
  labels : List.Forall₂ (fun a b => a.1 = b.1 ∧ (keep → a.2 = true → b.2 = true))
    c.labels c'.labels

namespace Eases

variable {keep keep' : Prop} {c c' : Context}

theorem refl (keep : Prop) (c : Context) : Eases keep c c where
  inFunction := id
  isAsync := id
  isGenerator := id
  inIteration := id
  inSwitch := id
  superProperty := id
  superCall := id
  strict := id
  derivedClass := id
  derivedConstructor := id
  defaultName := id
  labels := List.forall₂_same.2 fun _ _ => ⟨rfl, fun _ => id⟩

theorem mono (h : Eases keep c c') (hk : keep' → keep) : Eases keep' c c' :=
  { h with labels := h.labels.imp fun _ _ ⟨hname, hloop⟩ => ⟨hname, fun hk' => hloop (hk hk')⟩ }

theorem inherited (h : Eases keep c c') : Eases keep c.inherited c'.inherited :=
  { h with
    derivedClass := id
    derivedConstructor := id
    defaultName := id }

/-- A label is found in both contexts or in neither, and what labels a loop still does if it is
to. -/
theorem label? (h : Eases keep c c') (name : String) :
    Option.Rel (fun a b => keep → a = true → b = true) (c.label? name) (c'.label? name) := by
  unfold Context.label?
  have hlabels := h.labels
  generalize c.labels = ls at hlabels ⊢
  generalize c'.labels = ls' at hlabels ⊢
  induction hlabels with
  | nil => exact .none
  | @cons a b as bs hab _ ih =>
    obtain ⟨hname, hloop⟩ := hab
    rw [List.find?_cons, List.find?_cons, hname]
    by_cases heq : b.1 = name
    · simp only [heq, beq_self_eq_true, Option.map_some]
      exact .some hloop
    · have hne : (b.1 == name) = false := by simpa using heq
      simp only [hne]
      exact ih

end Eases

end Whittle
