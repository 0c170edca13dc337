import Whittle.Proofs.Sample.Class
import Whittle.Sample.Statement

/-!
# Random statements are placed

Every statement declares names that are handed out while it is made, so statements that are made
one after the other do not clash. A jump has something to jump to, because the contexts of a
scene have the labels of the scene, and a fresh label is none of those around it.
-/

namespace Whittle.Sample

open Grammar Whittle.Language

variable {σ : Type} {rs : RandomSource σ} {m : Makers σ} {levels n j k : Nat} {c : Scene}
  {declarations : Bool} {S : Set String}

/-! ## Statements other than declarations -/

theorem singleStatement_of_mayDeclare {k : Kind} (hk : k.mayDeclare = false)
    (fields : List Tree) (field : String) :
    Rules.singleStatement field (.node k fields) = some [] := by
  have hdeclaration : (k == .classDeclaration || k == .functionDeclaration) = false := by
    cases k <;> first | rfl | cases hk
  unfold Rules.singleStatement
  split <;> simp_all [EarlyError.when, Kind.mayDeclare]

/-- A statement that declares only what is hoisted out of it. -/
theorem madeStatement_node {k : Kind} {fields : List Tree} (hk : k.mayDeclare = false)
    (hmember : statement.hasMember k = true)
    (h : Placed (Agrees n c) (.node k) (.node k fields))
    (hhoists : Hoists (handedOut n j) (.node k fields)) :
    MadeStatement declarations c n j (.node k fields) where
  placed := h.member isUnion_statement hmember
  declares := declares_of_hoists hk hhoists
  single _ field := singleStatement_of_mayDeclare hk fields field

theorem makes_statement {k : Kind} {fields : List Tree}
    (h : Placed (Agrees n c) (.node k) (.node k fields))
    (hmade : MadeStatement declarations c n j (.node k fields)) :
    Makes j (node (σ := σ) k fields) fun j' t =>
      MadeStatement declarations c n j' t ∧ t = .node k fields := by
  refine Makes.mono (yields_self h) ?_
  rintro j' t hj rfl
  exact ⟨hmade.mono hj, rfl⟩

theorem hoists_nothing {k : Kind} (hk : Tree.hoistingKinds.contains k = false)
    (hd : k ≠ .variableDeclaration) (fields : List Tree) : Hoists S (.node k fields) :=
  ⟨[], hoistedNames?_of_not_hoisting hk hd fields, nofun⟩

/-- A statement out of which nothing is hoisted, with the context of the node in its fields. -/
theorem makes_simple {k : Kind} {fields : List Tree} (hk : k.mayDeclare = false)
    (hmember : statement.hasMember k = true)
    (hhoisting : Tree.hoistingKinds.contains k = false)
    (hcontext : ∀ (x : Context) name, x.ofField k fields name = some x.inherited)
    (herrors : ∀ x, Agrees n c x → nodeErrors x k fields = some [])
    (hparts : List.Forall₂ (fun f v => Placed (Agrees n c) f.2 v) k.fields fields) :
    Makes n (node (σ := σ) k fields) (MadeStatement declarations c n) := by
  have hd : k ≠ .variableDeclaration := by
    rintro rfl
    cases hk
  have hnode := placed_plain hcontext herrors hparts
  exact (makes_statement hnode (madeStatement_node hk hmember hnode
    (hoists_nothing hhoisting hd fields))).mono fun _ _ _ ht => ht.1

section Statements

variable (hm : MakesExpressions m) (hs : MakesStatements m)

include hm in
theorem makes_expressionStatement :
    Makes n (expressionStatement m levels c) (MadeStatement declarations c n) := by
  refine Yields.bind (yields_part hm) fun e he => ?_
  exact makes_simple rfl rfl rfl (fun _ _ => rfl) (fun _ _ => rfl) (.cons he .nil)

/-! ## Simple statements -/

include hm in
theorem makes_throwStatement :
    Makes n (throwStatement m levels c) (MadeStatement declarations c n) := by
  refine Yields.bind (yields_part hm) fun e he => ?_
  exact makes_simple rfl rfl rfl (fun _ _ => rfl) (fun _ _ => rfl) (.cons he .nil)

include hm in
theorem makes_returnStatement (hc : c.inFunction = true) :
    Makes n (returnStatement rs m levels c) (MadeStatement declarations c n) := by
  refine Yields.bind (makes_perhaps 60 (yields_part hm)) fun e he => ?_
  refine makes_simple rfl rfl rfl (fun _ _ => rfl) (fun x hx => ?_)
    (.cons (.maybe isUnion_expression he) .nil)
  simp [nodeErrors, EarlyError.when, hx.inFunction hc]

theorem yields_jumpLabel {labels : List (String × Bool)} {needed : Bool}
    (h : needed = true → labels ≠ []) : Yields n (jumpLabel rs labels needed) fun t =>
      (t = .absent ∧ needed = false) ∨ ∃ l ∈ labels, t = .str l.1 := by
  cases labels with
  | nil =>
    refine .pure fun _ _ => .inl ⟨rfl, ?_⟩
    simpa using h
  | cons l ls =>
    refine (yields_chance 50).bind fun b _ => .ite (fun _ => ?_) fun hb => ?_
    · exact (yields_choose l ls).bind fun l' hl => .pure fun _ _ => .inr ⟨l', hl, rfl⟩
    · exact .pure fun _ _ => .inl ⟨rfl, by simp_all⟩

theorem placed_label {C : Context → Prop} {t : Tree} (h : t = .absent ∨ ∃ s, t = .str s) :
    Placed C (.maybe .string) t := by
  obtain rfl | ⟨s, rfl⟩ := h <;> exact .leaf rfl rfl ((fitsType_leaf rfl).2 rfl)

theorem makes_breakStatement (hc : (c.inLoop || c.inSwitch || !c.labels.isEmpty) = true) :
    Makes n (breakStatement rs c) (MadeStatement declarations c n) := by
  have hneeded : (!(c.inLoop || c.inSwitch)) = true → c.labels ≠ [] := by
    intro h
    have hno : (c.inLoop || c.inSwitch) = false := by simpa using h
    simpa [hno] using hc
  refine Yields.bind (yields_jumpLabel hneeded) fun t ht => ?_
  refine makes_simple rfl rfl rfl (fun _ _ => rfl) (fun x hx => ?_)
    (.cons (placed_label (ht.imp (·.1) fun ⟨l, _, hl⟩ => ⟨l.1, hl⟩)) .nil)
  obtain ⟨rfl, hneeded⟩ | ⟨l, hl, rfl⟩ := ht
  · have hjump : (x.inIteration || x.inSwitch) = true := by
      rw [Bool.not_eq_false', Bool.or_eq_true] at hneeded
      rw [Bool.or_eq_true]
      exact hneeded.imp hx.inLoop hx.inSwitch
    simp only [nodeErrors, Rules.breakStatement, EarlyError.when, hjump]
    rfl
  · simp [nodeErrors, Rules.breakStatement, EarlyError.when, hx.labels l hl]

theorem makes_continueStatement (hc : (c.inLoop || c.labels.any (·.2)) = true) :
    Makes n (continueStatement rs c) (MadeStatement declarations c n) := by
  have hneeded : (!c.inLoop) = true → c.labels.filter (·.2) ≠ [] := by
    intro h
    have hno : c.inLoop = false := by simpa using h
    simpa [hno, List.filter_eq_nil_iff] using hc
  refine Yields.bind (yields_jumpLabel hneeded) fun t ht => ?_
  refine makes_simple rfl rfl rfl (fun _ _ => rfl) (fun x hx => ?_)
    (.cons (placed_label (ht.imp (·.1) fun ⟨l, _, hl⟩ => ⟨l.1, hl⟩)) .nil)
  obtain ⟨rfl, hneeded⟩ | ⟨l, hl, rfl⟩ := ht
  · rw [Bool.not_eq_false'] at hneeded
    simp [nodeErrors, Rules.continueStatement, EarlyError.when, hx.inLoop hneeded]
  · obtain ⟨hl, hloop⟩ := List.mem_filter.1 hl
    simp [nodeErrors, Rules.continueStatement, EarlyError.when, hx.labels l hl, hloop]

include hm in
theorem makes_simpleStatement :
    Makes n (simpleStatement rs m levels c) (MadeStatement declarations c n) := by
  refine makes_chooseGen (makes_expressionStatement hm) ?_
  refine List.forall_mem_append.2 ⟨List.forall_mem_append.2 ⟨List.forall_mem_append.2
    ⟨?_, ?_⟩, ?_⟩, ?_⟩
  · simp only [List.forall_mem_cons]
    exact ⟨makes_simple rfl rfl rfl (fun _ _ => rfl) (fun _ _ => rfl) .nil,
      makes_throwStatement hm,
      makes_simple rfl rfl rfl (fun _ _ => rfl) (fun _ _ => rfl) .nil, nofun⟩
  · exact forall_mem_allowed fun hc => by simpa using makes_returnStatement hm hc
  · exact forall_mem_allowed fun hc => by simpa using makes_breakStatement hc
  · exact forall_mem_allowed fun hc => by simpa using makes_continueStatement hc

/-! ## Blocks -/

/-- A block, the statements of which declare names of those that are handed out while it is
made. -/
inductive MadeBlock (c : Scene) (n k : Nat) : Tree → Prop
  | intro {items : List Tree} (h : MadeStatements c n k items) :
    MadeBlock c n k (.node .block [.list items])

namespace MadeBlock

variable {t : Tree}

theorem placed (h : MadeBlock c n k t) : Placed (Agrees n c) (.node .block) t := by
  obtain ⟨hitems⟩ := h
  exact placed_plain (fun _ _ => rfl) (fun _ _ => hitems.declares.scopeErrors false)
    (.cons hitems.list .nil)

theorem hoists (h : MadeBlock c n k t) : Hoists (handedOut n k) t := by
  obtain ⟨hitems⟩ := h
  obtain ⟨vs, hvs, hmem⟩ := hitems.hoists
  exact ⟨vs, by simpa [Tree.hoistedNames?] using hvs, hmem⟩

/-- A catch parameter that was bound before is not declared again in the block. -/
theorem catchParameter {binding : Tree} (h : MadeBlock c j k t)
    (hbinding : binding = .absent ∨ ∃ s ∈ handedOut n j, binding = bindingOf s) :
    Rules.catchParameter binding t = some [] := by
  obtain ⟨hitems⟩ := h
  obtain ⟨ls, vs, hls, -, hintroduces⟩ := hitems.declares false
  obtain rfl | ⟨s, hs, rfl⟩ := hbinding
  · rfl
  · have hnot : ∀ l ∈ ls, s ∉ l := fun l hl hmem =>
      Set.disjoint_left.1 (disjoint_handedOut n j k) hs
        (hintroduces.lexical_mem s (List.mem_flatten.2 ⟨l, hl, hmem⟩))
    have hname : (bindingOf s).bindingName? = some s := rfl
    have habsent : (bindingOf s).isAbsent = false := rfl
    simpa [Rules.catchParameter, habsent, hname, hls, EarlyError.when] using hnot

end MadeBlock

include hs in
theorem makes_block : Makes n (block rs m levels c) (MadeBlock c n) := by
  refine (makes_statementList hs).bind ?_
  rintro _ k hk ⟨items, rfl, hitems⟩
  refine Makes.mono (yields_self (MadeBlock.intro hitems).placed) ?_
  rintro k' t hk' rfl
  exact .intro (hitems.mono hk')

include hs in
theorem makes_blockStatement (declarations : Bool) :
    Makes n (blockStatement rs m levels c) fun k t =>
      MadeStatement declarations c n k t ∧ t.isLabelledLoop? = some false := by
  refine (makes_block hs).bind fun b k hk hb => ?_
  have hnode : Placed (Agrees n c) (.node .blockStatement) (.node .blockStatement [b]) :=
    placed_plain (fun _ _ => rfl) (fun _ _ => rfl) (.cons hb.placed .nil)
  have hmade : MadeStatement declarations c n k (.node .blockStatement [b]) :=
    madeStatement_node rfl rfl hnode hb.hoists
  refine (makes_statement hnode hmade).mono ?_
  rintro k' t - ⟨ht, rfl⟩
  exact ⟨ht, rfl⟩

/-! ## Conditional statements -/

theorem hoists_optional {t : Tree} (h : t = .absent ∨ Hoists S t) : Hoists S t := by
  obtain rfl | h := h
  · exact ⟨[], rfl, nofun⟩
  · exact h

/-- What is hoisted out of two parts of a statement. -/
theorem hoists_append {x y : Option (List String)}
    (hx : ∃ vs, x = some vs ∧ ∀ s ∈ vs, s ∈ S) (hy : ∃ vs, y = some vs ∧ ∀ s ∈ vs, s ∈ S) :
    ∃ vs, (do return (← x) ++ (← y)) = some vs ∧ ∀ s ∈ vs, s ∈ S := by
  obtain ⟨vs, rfl, hvs⟩ := hx
  obtain ⟨ws, rfl, hws⟩ := hy
  exact ⟨vs ++ ws, rfl, fun s hs => (List.mem_append.1 hs).elim (hvs s) (hws s)⟩

theorem hoists_append₃ {x y z : Option (List String)}
    (hx : ∃ vs, x = some vs ∧ ∀ s ∈ vs, s ∈ S) (hy : ∃ vs, y = some vs ∧ ∀ s ∈ vs, s ∈ S)
    (hz : ∃ vs, z = some vs ∧ ∀ s ∈ vs, s ∈ S) :
    ∃ vs, (do return (← x) ++ (← y) ++ (← z)) = some vs ∧ ∀ s ∈ vs, s ∈ S := by
  obtain ⟨us, rfl, hus⟩ := hx
  obtain ⟨vs, rfl, hvs⟩ := hy
  obtain ⟨ws, rfl, hws⟩ := hz
  refine ⟨us ++ vs ++ ws, rfl, fun s hs => (List.mem_append.1 hs).elim (fun hs => ?_) (hws s)⟩
  exact (List.mem_append.1 hs).elim (hus s) (hvs s)

/-- A statement that is no declaration may stand alone. -/
theorem MadeStatement.optional {t : Tree} (h : t = .absent ∨ MadeStatement false c n k t)
    (field : String) : Placed (Agrees n c) (.maybe statement) t ∧
      Rules.singleStatement field t = some [] ∧ Hoists (handedOut n k) t := by
  refine ⟨.maybe isUnion_statement (h.imp_right (·.placed)), ?_,
    hoists_optional (h.imp_right (·.hoists))⟩
  obtain rfl | h := h
  · rfl
  · exact h.single rfl field

include hm hs in
theorem makes_ifStatement :
    Makes n (ifStatement rs m levels c) (MadeStatement declarations c n) := by
  refine (makes_perhaps 50 (hs _ _ false _)).bind fun alternate j hj halternate => ?_
  refine Yields.bind ((yields_part hm).later hj) fun test htest => ?_
  refine (hs _ _ false _).bind fun consequent k hk hconsequent => ?_
  obtain ⟨hplaced, hsingle, hhoists⟩ := MadeStatement.optional halternate "alternate"
  have hnode : Placed (Agrees n c) (.node .ifStatement)
      (.node .ifStatement [test, consequent, alternate]) := by
    refine placed_plain (fun _ _ => rfl) (fun x _ => ?_)
      (.cons htest (.cons (hconsequent.placed.sooner hj) (.cons hplaced .nil)))
    simp [nodeErrors, hconsequent.single rfl, hsingle]
  have hmade : MadeStatement declarations c n k (.node .ifStatement [test, consequent, alternate]) :=
    madeStatement_node rfl rfl hnode (hoists_append
      (hconsequent.hoists.mono (handedOut_mono hj le_rfl))
      (hhoists.mono (handedOut_mono le_rfl hk)))
  exact (makes_statement hnode hmade).mono fun _ _ _ h => h.1

end Statements

end Whittle.Sample
