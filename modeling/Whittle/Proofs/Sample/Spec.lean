import Whittle.Proofs.Construction
import Whittle.Proofs.Sample.Names

/-!
# What generators make

A generator *makes* something if, for every random source, it ends with a result of which that
holds and not with an error. What holds may depend on how many names are handed out in the end,
provided that there were so many in the beginning. The rules follow the ways in which generators
are put together; whatever is drawn from the source is only known to be in its range.
-/

namespace Whittle.Sample

open Whittle.Language

variable {σ α β : Type} {n m k : Nat}

/-- With `n` names or more handed out, the generator gives a result that satisfies `Q`, which
is told how many names are handed out then. -/
def Makes (n : Nat) (g : Gen σ α) (Q : Nat → α → Prop) : Prop :=
  ∀ stock : Stock σ, n ≤ stock.names → ∃ a stock', g stock = (.ok a, stock') ∧
    stock.names ≤ stock'.names ∧ Q stock'.names a

/-- The generator gives a result that satisfies `P`, however many names are handed out. -/
abbrev Yields (n : Nat) (g : Gen σ α) (P : α → Prop) : Prop := Makes n g fun _ => P

/-! ## Rules for all generators -/

theorem bind_eq {g : Gen σ α} {f : α → Gen σ β} {stock stock' : Stock σ} {a : α}
    (h : g stock = (.ok a, stock')) : (g >>= f) stock = f a stock' := by
  simp only [Bind.bind, ExceptT.bind, ExceptT.mk, StateT.bind, h]
  rfl

namespace Makes

variable {g : Gen σ α} {P Q : Nat → α → Prop}

theorem pure {a : α} (h : ∀ k, n ≤ k → Q k a) : Makes n (Pure.pure a : Gen σ α) Q :=
  fun stock hn => ⟨a, stock, rfl, le_rfl, h _ hn⟩

theorem mono (h : Makes n g P) (hpq : ∀ k a, n ≤ k → P k a → Q k a) : Makes n g Q := by
  intro stock hn
  obtain ⟨a, stock', heq, hle, ha⟩ := h stock hn
  exact ⟨a, stock', heq, hle, hpq _ a (hn.trans hle) ha⟩

theorem later (h : Makes n g Q) (hm : n ≤ m) : Makes m g Q :=
  fun stock hn => h stock (hm.trans hn)

/-- Two generators one after the other: the second one begins where the first one ends. -/
theorem bind {f : α → Gen σ β} {R : Nat → β → Prop} (h : Makes n g P)
    (hf : ∀ a k, n ≤ k → P k a → Makes k (f a) R) : Makes n (g >>= f) R := by
  intro stock hn
  obtain ⟨a, stock', heq, hle, ha⟩ := h stock hn
  obtain ⟨b, stock'', heq', hle', hb⟩ := hf a _ (hn.trans hle) ha stock' le_rfl
  exact ⟨b, stock'', (bind_eq heq).trans heq', hle.trans hle', hb⟩

theorem ite {b : Prop} [Decidable b] {g' : Gen σ α} (h : b → Makes n g Q)
    (h' : ¬b → Makes n g' Q) : Makes n (if b then g else g') Q := by
  split
  · exact h ‹_›
  · exact h' ‹_›

end Makes

/-- Two generators one after the other, where the names of the first one do not matter. -/
theorem Yields.bind {g : Gen σ α} {P : α → Prop} {f : α → Gen σ β} {R : Nat → β → Prop}
    (h : Yields n g P) (hf : ∀ a, P a → Makes n (f a) R) : Makes n (g >>= f) R :=
  Makes.bind h fun a _ hk ha => (hf a ha).later hk

theorem Yields.mono {g : Gen σ α} {P Q : α → Prop} (h : Yields n g P) (hpq : ∀ a, P a → Q a) :
    Yields n g Q :=
  Makes.mono h fun _ a _ => hpq a

/-! ## Lists -/

/-- A list of things one after the other, each of them made with some of the names. -/
inductive Run (P : Nat → Nat → α → Prop) : Nat → Nat → List α → Prop
  | nil {n k : Nat} (h : n ≤ k) : Run P n k []
  | cons {n m k : Nat} {a : α} {as : List α} (hn : n ≤ m) (ha : P n m a) (has : Run P m k as) :
    Run P n k (a :: as)

namespace Run

variable {P : Nat → Nat → α → Prop} {as : List α}

theorem le (h : Run P n k as) : n ≤ k := by
  induction h with
  | nil h => exact h
  | cons hn _ _ ih => exact hn.trans ih

theorem extend (h : Run P n m as) (hk : m ≤ k) : Run P n k as := by
  induction h with
  | nil h => exact .nil (h.trans hk)
  | cons hn ha _ ih => exact .cons hn ha (ih hk)

theorem mono {Q : Nat → Nat → α → Prop} (h : Run P n k as) (hpq : ∀ n k a, P n k a → Q n k a) :
    Run Q n k as := by
  induction h with
  | nil h => exact .nil h
  | cons hn ha _ ih => exact .cons hn (hpq _ _ _ ha) ih

/-- Each thing of a run is made with names that the run has. -/
theorem forall_mem (h : Run P n k as) {a : α} (ha : a ∈ as) :
    ∃ n' k', n ≤ n' ∧ k' ≤ k ∧ P n' k' a := by
  induction h with
  | nil h => cases ha
  | @cons n m k b bs hn hb hbs ih =>
    obtain rfl | ha := List.mem_cons.1 ha
    · exact ⟨n, m, le_rfl, hbs.le, hb⟩
    · obtain ⟨n', k', hn', hk', hp⟩ := ih ha
      exact ⟨n', k', hn.trans hn', hk', hp⟩

end Run

section Lists

variable {g : Gen σ α} {P : Nat → Nat → α → Prop} {Q : α → Prop}

theorem makes_times (h : ∀ m, n ≤ m → Makes m g (P m)) (i : Nat) :
    Makes n (times g i) fun k => Run P n k := by
  induction i generalizing n with
  | zero => exact .pure fun k hk => .nil hk
  | succ i ih =>
    refine (h n le_rfl).bind fun a m hm ha => ?_
    refine (ih fun m' hm' => h m' (hm.trans hm')).bind fun as k hk has => ?_
    exact .pure fun k' hk' => .cons hm ha (has.extend hk')

theorem yields_times (h : Yields n g Q) (i : Nat) :
    Yields n (times g i) fun as => ∀ a ∈ as, Q a := by
  induction i with
  | zero => exact .pure fun _ _ => nofun
  | succ i ih =>
    refine Yields.bind h fun a ha => ?_
    refine Yields.bind ih fun as has => ?_
    exact .pure fun _ _ => List.forall_mem_cons.2 ⟨ha, has⟩

end Lists

/-! ## Draws -/

variable {rs : RandomSource σ}

theorem yields_roll {P : Double → Prop} (h : ∀ s, P (rs.unit s).1) : Yields n (roll rs) P :=
  fun stock _ => ⟨_, _, rfl, le_rfl, h stock.source⟩

theorem yields_draw : Yields n (roll rs) fun _ => True :=
  yields_roll fun _ => trivial

theorem yields_upTo (i : Nat) : Yields n (upTo rs i) fun _ => True :=
  fun _ _ => ⟨_, _, rfl, le_rfl, trivial⟩

theorem yields_chance (percent : Nat) : Yields n (chance rs percent) fun _ => True :=
  yields_draw.bind fun _ _ => .pure fun _ _ => trivial

theorem yields_choose (first : α) (others : List α) :
    Yields n (choose rs first others) (· ∈ first :: others) :=
  (yields_upTo _).bind fun _ _ => .pure fun _ _ => List.getElem_mem _

/-- What is allowed under a condition is right if it is right under that condition. -/
theorem forall_mem_allowed {α : Type} {b : Bool} {as : List α} {P : α → Prop}
    (h : b = true → ∀ a ∈ as, P a) : ∀ a ∈ if b then as else [], P a := by
  cases b with
  | true => exact h rfl
  | false => nofun

section Choices

variable {first : Gen σ α} {others : List (Gen σ α)} {Q : Nat → α → Prop} {P : α → Prop}

/-- Whichever generator is chosen, what holds of the results of all of them holds. -/
theorem makes_chooseGen (hfirst : Makes n first Q) (hothers : ∀ g ∈ others, Makes n g Q) :
    Makes n (chooseGen rs first others) Q := by
  refine (yields_choose first others).bind fun g hg => ?_
  obtain rfl | hg := List.mem_cons.1 hg
  · exact hfirst
  · exact hothers g hg

theorem makes_several {g : Gen σ α} {P : Nat → Nat → α → Prop} (most : Nat)
    (h : ∀ m, n ≤ m → Makes m g (P m)) : Makes n (several rs most g) fun k => Run P n k :=
  (yields_upTo most).bind fun i _ => makes_times h i

theorem yields_several {g : Gen σ α} (most : Nat) (h : Yields n g P) :
    Yields n (several rs most g) fun as => ∀ a ∈ as, P a :=
  (yields_upTo most).bind fun i _ => yields_times h i

theorem makes_perhaps {g : Gen σ Tree} {Q : Nat → Tree → Prop} (percent : Nat)
    (h : Makes n g Q) :
    Makes n (perhaps rs percent g) fun k t => t = .absent ∨ Q k t := by
  refine (yields_chance percent).bind fun b _ => .ite (fun _ => ?_) fun _ => ?_
  · exact h.mono fun _ _ _ => .inr
  · exact .pure fun _ _ => .inl rfl

end Choices

theorem yields_chooseText (first : String) (others : List String) :
    Yields n (chooseText rs first others) fun t => ∃ s ∈ first :: others, t = .str s :=
  (yields_choose first others).bind fun s hs => .pure fun _ _ => ⟨s, hs, rfl⟩

theorem yields_flag (percent : Nat) :
    Yields n (flag rs percent) fun t => ∃ b, t = .bool b :=
  (yields_chance percent).bind fun b _ => .pure fun _ _ => ⟨b, rfl⟩

theorem yields_letters (most : Nat) (first : Char) (others : List Char) :
    Yields n (letters rs most first others) fun t => ∃ s, t = .str s :=
  (yields_several most (yields_choose first others)).bind fun _ _ =>
    .pure fun _ _ => ⟨_, rfl⟩

/-! ## Names and nodes -/

/-- A fresh name has a number that no name before it has. -/
theorem makes_fresh (letter : String) : Makes n (fresh (σ := σ) letter) fun k s =>
    ∃ i, n ≤ i ∧ i < k ∧ s = numbered letter i :=
  fun stock hn => ⟨_, _, rfl, Nat.le_succ _, stock.names, hn, Nat.lt_succ_self _, rfl⟩

theorem makes_node {k : Kind} {fields : List Tree} {Q : Nat → Tree → Prop}
    (hmake : Node.make k fields = .ok (.node k fields))
    (h : ∀ m, n ≤ m → Q m (.node k fields)) : Makes n (node (σ := σ) k fields) Q :=
  fun stock hn => ⟨_, stock, by rw [node, hmake], le_rfl, h _ hn⟩

end Whittle.Sample
