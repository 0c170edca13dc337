import Whittle.Proofs.Exchange
import Whittle.Proofs.Sample.Spec

/-!
# What generators spend

Names are counted. A generator *spends* what it has if no word is bound or used as a label more
often in its result than it was handed out meanwhile, apart from a credit that the generator is
given in the beginning. What one generator hands over is a credit for the next one, so that the
count of a whole program is had from the counts of its parts.
-/

namespace Whittle

/-! ## Names and labels in a tree -/

namespace Tree

/-- The name of a binding. -/
def boundName? : Tree → Option Tree
  | .node .bindingIdentifier [name] => some name
  | _ => none

/-- The label of a statement. -/
def ownLabel? : Tree → Option Tree
  | .node .labeledStatement [label, _] => some label
  | _ => none

mutual
/-- What is found in the nodes of a tree, in order. -/
def gather (find? : Tree → Option Tree) : Tree → List Tree
  | .node k fields => (find? (.node k fields)).toList ++ gatherAll find? fields
  | .list items => gatherAll find? items
  | _ => []

/-- What is found in the nodes of several trees, in order. -/
def gatherAll (find? : Tree → Option Tree) : List Tree → List Tree
  | [] => []
  | t :: ts => t.gather find? ++ gatherAll find? ts
end

/-- The names of all bindings, in order. -/
def boundNames (t : Tree) : List Tree := t.gather boundName?

/-- The labels of all statements, in order. -/
def ownLabels (t : Tree) : List Tree := t.gather ownLabel?

end Tree

namespace Sample

open Whittle.Tree

/-- How often a word is the name of a binding or the label of a statement. -/
def uses (v t : Tree) : Nat := t.boundNames.count v + t.ownLabels.count v

/-- How often a word is that in several trees. -/
def usesAll (v : Tree) (ts : List Tree) : Nat :=
  (gatherAll boundName? ts).count v + (gatherAll ownLabel? ts).count v

/-- Nodes of the kind introduce a word. -/
def introduces : Kind → Bool
  | .bindingIdentifier | .labeledStatement => true
  | _ => false

section Uses

variable (v : Tree) {k : Kind} (fields ts us : List Tree)

@[simp] theorem uses_absent : uses v .absent = 0 := rfl

@[simp] theorem uses_str (s : String) : uses v (.str s) = 0 := rfl

@[simp] theorem uses_bool (b : Bool) : uses v (.bool b) = 0 := rfl

@[simp] theorem uses_int (i : Int) : uses v (.int i) = 0 := rfl

@[simp] theorem uses_float (x : Double) : uses v (.float x) = 0 := rfl

@[simp] theorem uses_list : uses v (.list ts) = usesAll v ts := rfl

@[simp] theorem usesAll_nil : usesAll v [] = 0 := rfl

@[simp] theorem usesAll_cons (t : Tree) : usesAll v (t :: ts) = uses v t + usesAll v ts := by
  show (t.boundNames ++ gatherAll boundName? ts).count v
    + (t.ownLabels ++ gatherAll ownLabel? ts).count v = _
  rw [List.count_append, List.count_append, uses, usesAll]
  omega

theorem usesAll_eq_sum : usesAll v ts = (ts.map (uses v)).sum := by
  induction ts with
  | nil => simp
  | cons t ts ih => simp [ih]

theorem usesAll_append : usesAll v (ts ++ us) = usesAll v ts + usesAll v us := by
  simp [usesAll_eq_sum]

/-- It does not matter where a tree is put among the others. -/
theorem usesAll_insert (t : Tree) (i : Nat) :
    usesAll v (ts.take i ++ t :: ts.drop i) = usesAll v ts + uses v t := by
  have hsplit : usesAll v (ts.take i ++ ts.drop i) = usesAll v ts := by
    rw [List.take_append_drop]
  rw [usesAll_append] at hsplit
  rw [usesAll_append, usesAll_cons]
  omega

/-- A node uses the words that it introduces itself, and those that are used in its fields. -/
theorem uses_fields (k : Kind) : uses v (.node k fields)
    = (boundName? (.node k fields)).toList.count v + (ownLabel? (.node k fields)).toList.count v
      + usesAll v fields := by
  show ((boundName? (.node k fields)).toList ++ gatherAll boundName? fields).count v
    + ((ownLabel? (.node k fields)).toList ++ gatherAll ownLabel? fields).count v = _
  rw [List.count_append, List.count_append, usesAll]
  omega

theorem uses_node (hk : introduces k = false) : uses v (.node k fields) = usesAll v fields := by
  have hname : boundName? (.node k fields) = none := by
    unfold boundName?
    split
    · rename_i heq
      cases heq
      cases hk
    · rfl
  have hlabel : ownLabel? (.node k fields) = none := by
    unfold ownLabel?
    split
    · rename_i heq
      cases heq
      cases hk
    · rfl
  rw [uses_fields, hname, hlabel]
  exact Nat.zero_add _

theorem uses_binding (name : Tree) :
    uses v (.node .bindingIdentifier [name]) = [name].count v + uses v name := by
  have hfields : uses v (.node .bindingIdentifier [name])
      = [name].count v + [].count v + usesAll v [name] :=
    uses_fields v [name] .bindingIdentifier
  rw [usesAll_cons, usesAll_nil, List.count_nil] at hfields
  omega

theorem uses_labeled (label body : Tree) :
    uses v (.node .labeledStatement [label, body])
      = [label].count v + uses v label + uses v body := by
  have hfields : uses v (.node .labeledStatement [label, body])
      = [].count v + [label].count v + usesAll v [label, body] :=
    uses_fields v [label, body] .labeledStatement
  rw [usesAll_cons, usesAll_cons, usesAll_nil, List.count_nil] at hfields
  omega

end Uses

/-! ## Names that are handed out -/

/-- The word is the name or the label with the number. -/
def Stamps (v : Tree) (i : Nat) : Prop := v = .str (numbered "v" i) ∨ v = .str (numbered "L" i)

instance (v : Tree) (i : Nat) : Decidable (Stamps v i) := inferInstanceAs (Decidable (_ ∨ _))

/-- How often a word is handed out while the number of names grows from `n` to `k`. -/
def stamped (v : Tree) (n k : Nat) : Nat := ∑ i ∈ Finset.Ico n k, if Stamps v i then 1 else 0

variable {v : Tree} {n m k : Nat}

theorem numbered_v_ne_L (i j : Nat) : numbered "v" i ≠ numbered "L" j := by
  intro h
  have hhead : (numbered "v" i).toList.head? = (numbered "L" j).toList.head? := by rw [h]
  simp [numbered, String.toList_append] at hhead

/-- A word is handed out with one number only. -/
theorem Stamps.unique {i j : Nat} (hi : Stamps v i) (hj : Stamps v j) : i = j := by
  rcases hi with rfl | rfl
  · rcases hj with heq | heq
    · exact numbered_inj.1 (Tree.str.inj heq)
    · exact absurd (Tree.str.inj heq) (numbered_v_ne_L i j)
  · rcases hj with heq | heq
    · exact absurd (Tree.str.inj heq).symm (numbered_v_ne_L j i)
    · exact numbered_inj.1 (Tree.str.inj heq)

theorem stamped_add (hnm : n ≤ m) (hmk : m ≤ k) :
    stamped v n m + stamped v m k = stamped v n k :=
  Finset.sum_Ico_consecutive _ hnm hmk

theorem stamped_succ (n : Nat) : stamped v n (n + 1) = if Stamps v n then 1 else 0 := by
  rw [stamped, Nat.Ico_succ_singleton, Finset.sum_singleton]

theorem stamped_le_one (n k : Nat) : stamped v n k ≤ 1 := by
  rw [stamped, ← Finset.card_filter, Finset.card_le_one]
  intro i hi j hj
  exact (Finset.mem_filter.1 hi).2.unique (Finset.mem_filter.1 hj).2

theorem stamped_default (n k : Nat) : stamped (.str defaultExportName) n k = 0 := by
  have hnot : ∀ i, ¬ Stamps (.str defaultExportName) i := by
    intro i h
    rcases h with h | h
    · exact numbered_ne (by decide) (Tree.str.inj h).symm
    · exact numbered_ne (by decide) (Tree.str.inj h).symm
  simp [stamped, hnot]

/-! ## Spending -/

variable {σ α β : Type} {c : Nat}

/-- What the result of the generator costs is covered by the credit and by what is handed out
meanwhile. -/
def Spends (v : Tree) (c : Nat) (g : Gen σ α) (cost : α → Nat) : Prop :=
  ∀ stock a stock', g stock = (.ok a, stock') →
    stock.names ≤ stock'.names ∧ cost a ≤ c + stamped v stock.names stock'.names

/-- A result of two generators one after the other comes from results of both. -/
theorem exists_of_bind {g : Gen σ α} {f : α → Gen σ β} {stock stock' : Stock σ} {b : β}
    (h : (g >>= f) stock = (.ok b, stock')) :
    ∃ a middle, g stock = (.ok a, middle) ∧ f a middle = (.ok b, stock') := by
  simp only [Bind.bind, ExceptT.bind, ExceptT.mk, StateT.bind] at h
  cases hg : g stock with
  | mk answer middle =>
    rw [hg] at h
    cases answer with
    | error e => cases h
    | ok a => exact ⟨a, middle, rfl, h⟩

namespace Spends

variable {g : Gen σ α} {cost : α → Nat}

theorem pure {a : α} (h : cost a ≤ c) : Spends v c (Pure.pure a : Gen σ α) cost := by
  intro stock b stock' hrun
  cases hrun
  exact ⟨le_rfl, h.trans (Nat.le_add_right _ _)⟩

theorem mono {cost' : α → Nat} (h : Spends v c g cost) (hcost : ∀ a, cost' a ≤ cost a) :
    Spends v c g cost' := by
  intro stock a stock' hrun
  obtain ⟨hle, ha⟩ := h stock a stock' hrun
  exact ⟨hle, (hcost a).trans ha⟩

theorem more {d : Nat} (h : Spends v c g cost) (hcd : c ≤ d) : Spends v d g cost := by
  intro stock a stock' hrun
  obtain ⟨hle, ha⟩ := h stock a stock' hrun
  constructor
  · exact hle
  · omega

/-- Credit that is not used stays. -/
theorem frame (h : Spends v c g cost) (d : Nat) : Spends v (d + c) g fun a => d + cost a := by
  intro stock a stock' hrun
  obtain ⟨hle, ha⟩ := h stock a stock' hrun
  constructor
  · exact hle
  · show d + cost a ≤ _
    omega

/-- The second generator is given what the result of the first one costs. -/
theorem bind {f : α → Gen σ β} {cost' : β → Nat} (h : Spends v c g cost)
    (hf : ∀ a, Spends v (cost a) (f a) cost') : Spends v c (g >>= f) cost' := by
  intro stock b stock' hrun
  obtain ⟨a, middle, hg, hrest⟩ := exists_of_bind hrun
  obtain ⟨hle, ha⟩ := h stock a middle hg
  obtain ⟨hle', hb⟩ := hf a middle b stock' hrest
  have hadd := stamped_add (v := v) hle hle'
  constructor
  · exact hle.trans hle'
  · omega

/-- The second generator is given that in addition to the credit. -/
theorem seq {f : α → Gen σ β} {cost' : β → Nat} (h : Spends v 0 g cost)
    (hf : ∀ a, Spends v (c + cost a) (f a) cost') : Spends v c (g >>= f) cost' :=
  (h.frame c).bind hf

theorem ite {b : Prop} [Decidable b] {g' : Gen σ α} (h : Spends v c g cost)
    (h' : Spends v c g' cost) : Spends v c (if b then g else g') cost := by
  split
  · exact h
  · exact h'

end Spends

/-! ## Draws -/

variable {rs : RandomSource σ}

theorem spends_roll : Spends v 0 (roll rs) fun _ => 0 := by
  intro stock x stock' hrun
  cases hrun
  exact ⟨le_rfl, Nat.zero_le _⟩

theorem spends_upTo (i : Nat) : Spends v 0 (upTo rs i) fun _ => 0 := by
  intro stock x stock' hrun
  cases hrun
  exact ⟨le_rfl, Nat.zero_le _⟩

theorem spends_chance (percent : Nat) : Spends v 0 (chance rs percent) fun _ => 0 := by
  apply Spends.bind spends_roll
  intro x
  exact .pure le_rfl

theorem spends_choose (first : α) (others : List α) :
    Spends v 0 (choose rs first others) fun _ => 0 := by
  apply Spends.bind (spends_upTo _)
  intro i
  exact .pure le_rfl

theorem spends_chooseText (first : String) (others : List String) :
    Spends v 0 (chooseText rs first others) (uses v) := by
  apply Spends.bind (spends_choose first others)
  intro s
  exact .pure (uses_str v s).le

theorem spends_flag (percent : Nat) : Spends v 0 (flag rs percent) (uses v) := by
  apply Spends.bind (spends_chance percent)
  intro b
  exact .pure (uses_bool v b).le

/-! ## Several generators -/

section Several

variable {g : Gen σ α} {cost : α → Nat}

theorem spends_times (h : Spends v 0 g cost) (i : Nat) :
    Spends v 0 (times g i) fun as => (as.map cost).sum := by
  induction i with
  | zero => exact .pure (by simp)
  | succ i ih =>
    apply Spends.bind h
    intro a
    apply Spends.seq ih
    intro as
    exact .pure (by simp)

theorem spends_several (most : Nat) (h : Spends v 0 g cost) :
    Spends v 0 (several rs most g) fun as => (as.map cost).sum := by
  apply Spends.bind (spends_upTo most)
  intro i
  exact spends_times h i

/-- Whichever generator is chosen, what all of them cost is covered. -/
theorem spends_chooseGen {others : List (Gen σ α)} (hfirst : Spends v 0 g cost)
    (hothers : ∀ g ∈ others, Spends v 0 g cost) :
    Spends v 0 (chooseGen rs g others) cost := by
  intro stock a stock' hrun
  obtain ⟨chosen, middle, hchoose, hrest⟩ := exists_of_bind hrun
  obtain ⟨i, drawn, hdraw, hpure⟩ := exists_of_bind hchoose
  cases hdraw
  cases hpure
  -- the draw hands out nothing, and any of the generators may be the one that is run
  have hall : ∀ g' ∈ g :: others, Spends v 0 g' cost := List.forall_mem_cons.2 ⟨hfirst, hothers⟩
  have hspent := hall _ (List.getElem_mem _) _ a stock' hrest
  exact hspent

end Several

theorem spends_perhaps {g : Gen σ Tree} (percent : Nat) (h : Spends v 0 g (uses v)) :
    Spends v 0 (perhaps rs percent g) (uses v) := by
  apply Spends.bind (spends_chance percent)
  intro b
  apply Spends.ite h
  exact .pure (uses_absent v).le

theorem spends_timesTrees {g : Gen σ Tree} (h : Spends v 0 g (uses v)) (i : Nat) :
    Spends v 0 (times g i) (usesAll v) := by
  apply (spends_times h i).mono
  intro ts
  exact (usesAll_eq_sum v ts).le

theorem spends_severalTrees {g : Gen σ Tree} (most : Nat) (h : Spends v 0 g (uses v)) :
    Spends v 0 (several rs most g) (usesAll v) := by
  apply (spends_several most h).mono
  intro ts
  exact (usesAll_eq_sum v ts).le

theorem spends_letters (most : Nat) (first : Char) (others : List Char) :
    Spends v 0 (letters rs most first others) (uses v) := by
  have hletters : Spends v 0 (several rs most (choose rs first others)) fun _ => 0 :=
    (spends_several most (spends_choose first others)).mono fun _ => Nat.zero_le _
  apply Spends.bind hletters
  intro cs
  exact .pure (uses_str v _).le

/-! ## Names and nodes -/

theorem spends_fresh {letter : String} (hletter : letter = "v" ∨ letter = "L") :
    Spends v 0 (fresh (σ := σ) letter) fun s => [Tree.str s].count v := by
  intro stock s stock' hrun
  cases hrun
  constructor
  · exact Nat.le_succ _
  · show [Tree.str (numbered letter stock.names)].count v ≤ 0 + stamped v stock.names (stock.names + 1)
    rw [stamped_succ, List.count_singleton]
    by_cases heq : Tree.str (numbered letter stock.names) = v
    · have hstamps : Stamps v stock.names := by
        rcases hletter with rfl | rfl
        · exact .inl heq.symm
        · exact .inr heq.symm
      rw [if_pos hstamps]
      split_ifs <;> omega
    · simp [heq]

/-- A node costs what is used in its fields and its own word. -/
theorem spends_node {k : Kind} {fields : List Tree} (h : uses v (.node k fields) ≤ c) :
    Spends v c (node (σ := σ) k fields) (uses v) := by
  intro stock t stock' hrun
  rw [node, Prod.mk.injEq, Exchange.make_eq_ok] at hrun
  obtain ⟨⟨-, rfl⟩, rfl⟩ := hrun
  exact ⟨le_rfl, h.trans (Nat.le_add_right _ _)⟩

/-- The node of a kind that introduces no word costs what its fields cost. -/
theorem spends_plain {k : Kind} {fields : List Tree} (hk : introduces k = false)
    (h : usesAll v fields ≤ c) : Spends v c (node (σ := σ) k fields) (uses v) :=
  spends_node ((uses_node v fields hk).le.trans h)

/-- A node around one tree costs what the tree does. -/
theorem spends_around {k : Kind} (hk : introduces k = false) (t : Tree) :
    Spends v (uses v t) (node (σ := σ) k [t]) (uses v) :=
  spends_plain hk (by simp)

theorem spends_binding : Spends v 0 (binding (σ := σ)) (uses v) := by
  apply Spends.bind (spends_fresh (.inl rfl))
  intro s
  exact spends_node (by simp [uses_binding])

section Nodes

variable {k : Kind} {g₁ g₂ g₃ : Gen σ Tree} (hk : introduces k = false)
  (h₁ : Spends v 0 g₁ (uses v)) (h₂ : Spends v 0 g₂ (uses v)) (h₃ : Spends v 0 g₃ (uses v))

include hk in
theorem spends_node₀ : Spends v 0 (node (σ := σ) k []) (uses v) :=
  spends_plain hk (by simp)

include hk h₁ in
theorem spends_node₁ : Spends v 0 (do node k [← g₁]) (uses v) := by
  apply Spends.bind h₁
  intro a
  exact spends_around hk a

include hk h₁ h₂ in
theorem spends_node₂ : Spends v 0 (do let a ← g₁; node k [a, ← g₂]) (uses v) := by
  apply Spends.bind h₁
  intro a
  apply Spends.seq h₂
  intro b
  exact spends_plain hk (by simp)

include hk h₁ h₂ h₃ in
theorem spends_node₃ :
    Spends v 0 (do let a ← g₁; let b ← g₂; node k [a, b, ← g₃]) (uses v) := by
  apply Spends.bind h₁
  intro a
  apply Spends.seq h₂
  intro b
  apply Spends.seq h₃
  intro c
  exact spends_plain hk (by simp [Nat.add_assoc])

end Nodes

end Sample

end Whittle
