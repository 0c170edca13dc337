import Whittle.Proofs.Validity.Locations

/-!
# The name of a default export

A declaration that is exported by default and has no name of its own is given one that is no
identifier. The context allows it in what a default export holds, and from there only in the name
of a function or a class that is declared. So in a valid program it names at most the one
declaration that a module exports by default, and there it is never complained about.
-/

namespace Whittle

open Grammar Whittle.Language

/-- A binding of the name of a default export that has no name of its own. -/
def defaultBinding : Tree := .node .bindingIdentifier [.str defaultExportName]

/-- The path leads to the name of a function or a class that a module exports by default. -/
def NamesDefaultExport (t : Tree) (p : Path) : Prop :=
  ∃ (i : Nat) (k : Kind) (fields : List Tree),
    (k = .functionDeclaration ∨ k = .classDeclaration) ∧
    t.get [.field "items", .index i] = .ok (.node .exportDefault [.node k fields]) ∧
    p = [.field "items", .index i, .field "body", .field "name"]

/-! ## The node around a node -/

theorem ancestors_append {t u : Tree} {q : Path} (hq : t.get q = .ok u) (r : Path) :
    t.ancestors (q ++ r) = u.ancestors r ++ t.ancestors q := by
  induction q generalizing t with
  | nil =>
    cases hq
    rw [List.nil_append, Tree.ancestors, List.append_nil]
  | cons s q ih =>
    obtain ⟨v, hv, hq⟩ := Tree.get_cons_eq_ok.1 hq
    rw [List.cons_append, ancestors_cons hv, ih hq, ancestors_cons hv, List.append_assoc]

/-- The steps into a field of a node, or to an item of the list there. -/
def entry (field : String) : Option Nat → Path
  | none => [.field field]
  | some i => [.field field, .index i]

/-- A node of kind `l` is at the path `p`, in a field of the node `a` at `q` or in the list
there. -/
structure Around (t : Tree) (p : Path) (l : Kind) (q : Path) (a : Ancestor) (i : Option Nat) :
    Prop where
  path : p = q ++ entry a.field i
  get : t.get q = .ok a.node
  ancestors : t.ancestors p = a :: t.ancestors q
  slot : ∃ s ∈ a.kind.slots, s.name = a.field ∧ s.mayHold i.isSome l = true

variable {t : Tree} {p q : Path} {l k : Kind} {a : Ancestor} {i : Option Nat} {fields : List Tree}

/-- The last step of a path that leads into a value. -/
theorem exists_last {v : Tree} (hp : t.get p = .ok v) (hne : p ≠ []) :
    ∃ q s u, p = q ++ [s] ∧ t.get q = .ok u ∧ u.childAt s = .ok v := by
  obtain ⟨q, s, rfl⟩ := (List.eq_nil_or_concat' p).resolve_left hne
  obtain ⟨u, hu, hs⟩ := Tree.get_append_eq_ok.1 hp
  obtain ⟨w, hw, heq⟩ := Tree.get_cons_eq_ok.1 hs
  cases heq
  exact ⟨q, s, u, rfl, hu, hw⟩

/-- Every node but the root is in another one. -/
theorem exists_around (ht : t.IsFit false) (hp : t.get p = .ok (.node l fields)) (hne : p ≠ []) :
    ∃ q a i, Around t p l q a i := by
  obtain ⟨q, s, u, rfl, hu, hs⟩ := exists_last hp hne
  have hwalk := ht.walkable.get hu
  cases u with
  | node k fs =>
    obtain ⟨name, rfl, hmem⟩ := childAt_node.1 hs
    obtain ⟨slot, hslot, hname, hnode, -⟩ := FieldsFit.exists_slot hwalk hmem
    refine ⟨q, ⟨k, fs, name⟩, none, rfl, hu, ?_, slot, hslot, hname, hnode l fields rfl⟩
    rw [ancestors_append hu, ancestors_cons hs]
    rfl
  | list items =>
    obtain ⟨j, rfl, hj⟩ := childAt_list.1 hs
    -- the list is in a field of a node
    have hne : q ≠ [] := by
      rintro rfl
      cases hu
      exact ht.elim
    obtain ⟨q, s, u, rfl, hu', hs'⟩ := exists_last hu hne
    have hwalk := ht.walkable.get hu'
    cases u with
    | node k fs =>
      obtain ⟨name, rfl, hmem⟩ := childAt_node.1 hs'
      obtain ⟨slot, hslot, hname, -, hlist⟩ := FieldsFit.exists_slot hwalk hmem
      refine ⟨q, ⟨k, fs, name⟩, some j, ?_, hu', ?_, slot, hslot, hname,
        hlist items rfl l fields (List.mem_of_getElem? hj)⟩
      · rw [List.append_assoc]
        rfl
      · rw [ancestors_append hu, ancestors_append hu', ancestors_cons hs, ancestors_cons hs']
        rfl
    | list outer =>
      obtain ⟨j', -, hj'⟩ := childAt_list.1 hs'
      rcases hwalk _ (List.mem_of_getElem? hj') with h | h
      · cases h
      · exact h.elim
    | _ => exact absurd hs' (childAt_leaf rfl)
  | _ => exact absurd hs (childAt_leaf rfl)

/-! ## Which nodes can be around which -/

/-- What holds wherever a node of a kind may be by the grammar. -/
theorem Around.holds (h : Around t p l q a i) {P : Kind → String → Bool → Bool}
    (hP : (Kind.all.all fun k => k.slots.all fun s => [false, true].all fun b =>
      !s.mayHold b l || P k s.name b) = true) : P a.kind a.field i.isSome = true := by
  obtain ⟨s, hs, hname, hl⟩ := h.slot
  have hslots := List.all_eq_true.1 (Kind.forall_of_all hP a.kind) s hs
  have hb := List.all_eq_true.1 hslots i.isSome (by cases i.isSome <;> simp)
  rw [hl, Bool.not_true, Bool.false_or, hname] at hb
  exact hb

theorem Around.of_binding (h : Around t p .bindingIdentifier q a i) :
    a.kind ≠ .exportDefault ∧ (a.kind = .functionDeclaration ∨ a.kind = .classDeclaration →
      a.field = "name" → i = none) := by
  have := h.holds (P := fun k f b => k != .exportDefault &&
    (!(k == .functionDeclaration || k == .classDeclaration) || f != "name" || !b))
    (by decide)
  cases i <;> grind

theorem Around.of_declaration (hl : l = .functionDeclaration ∨ l = .classDeclaration)
    (h : Around t p l q a i) : a.kind ≠ .functionDeclaration ∧ a.kind ≠ .classDeclaration ∧
      (a.kind = .exportDefault → a.field = "body" ∧ i = none) := by
  have hP : (a.kind != .functionDeclaration && a.kind != .classDeclaration &&
      (a.kind != .exportDefault || a.field == "body" && !i.isSome)) = true := by
    rcases hl with rfl | rfl <;>
      exact h.holds (P := fun k f b => k != .functionDeclaration && k != .classDeclaration &&
        (k != .exportDefault || f == "body" && !b)) (by decide)
  cases i <;> grind

theorem Around.of_exportDefault (h : Around t p .exportDefault q a i) :
    a.kind = .esModule ∧ a.field = "items" ∧ ∃ j, i = some j := by
  have := h.holds (P := fun k f b => k == .esModule && f == "items" && b) (by decide)
  cases i <;> simp_all

theorem Around.not_esModule : ¬ Around t p .esModule q a i := by
  intro h
  exact Bool.false_ne_true (h.holds (P := fun _ _ _ => false) (by decide))

/-! ## What the context says -/

section Context

variable {c inner : Context} {field : String}

/-- The name is allowed in a default export, and from a declaration on in its name. -/
def Passes (k : Kind) (field : String) (allowed : Bool) : Prop :=
  k = .exportDefault ∨
    (k = .functionDeclaration ∨ k = .classDeclaration) ∧ field = "name" ∧ allowed = true

theorem ofFunction_defaultName {inBody isAsync isGenerator superProperty superCall : Bool}
    {body : Tree}
    (h : c.ofFunction inBody isAsync isGenerator superProperty superCall body = some inner) :
    inner.defaultName = false := by
  obtain ⟨_, -, h⟩ := Option.bind_eq_some_iff.1 h
  cases h
  rfl

theorem ofFlags_defaultName {inBody superProperty superCall : Bool}
    {isAsync isGenerator body : Tree}
    (h : (do
      c.ofFunction inBody (← isAsync.flag?) (← isGenerator.flag?) superProperty superCall body)
      = some inner) : inner.defaultName = false := by
  obtain ⟨_, -, h⟩ := Option.bind_eq_some_iff.1 h
  obtain ⟨_, -, h⟩ := Option.bind_eq_some_iff.1 h
  exact ofFunction_defaultName h

theorem ofClass_defaultName {isDeclaration : Bool} {superClass : Tree} :
    (c.ofClass isDeclaration superClass field).defaultName
      = (isDeclaration && field == "name" && c.defaultName) := by
  unfold Context.ofClass
  split
  · rename_i helements
    rw [beq_iff_eq] at helements
    subst helements
    simp [Context.inherited]
  · split
    · simp_all
    · cases isDeclaration <;> simp_all [Context.inherited]

/-- The permission to use the name lasts for one step, and for one more in a declaration. -/
theorem ofField_defaultName (h : c.ofField k fields field = some inner) :
    inner.defaultName = true ↔ Passes k field c.defaultName := by
  have hother : k ∉ [Kind.exportDefault, .functionDeclaration, .classDeclaration] →
      inner.defaultName = false → (inner.defaultName = true ↔ Passes k field c.defaultName) := by
    intro hk hinner
    rw [hinner]
    refine iff_of_false nofun ?_
    rintro (rfl | ⟨rfl | rfl, -⟩) <;> exact hk (by decide)
  unfold Context.ofField at h
  split at h
  case h_3 =>
    by_cases hname : field = "name"
    · subst hname
      cases h
      simp [Passes]
    · have hinner : inner.defaultName = false := by
        dsimp only at h
        split at h
        · exact ofFlags_defaultName h
        · rw [if_neg (by simpa using hname)] at h
          cases h
          rfl
      rw [hinner]
      simp [Passes, hname]
  case h_4 | h_5 =>
    refine hother (by decide) ?_
    dsimp only at h
    split at h
    · exact ofFlags_defaultName h
    · cases h
      rfl
  case h_6 | h_7 =>
    refine hother (by decide) ?_
    dsimp only at h
    split at h
    · exact ofFunction_defaultName h
    · cases h
      rfl
  case h_8 =>
    refine hother (by decide) ?_
    dsimp only at h
    split at h
    · obtain ⟨_, -, h⟩ := Option.bind_eq_some_iff.1 h
      obtain ⟨_, -, h⟩ := Option.bind_eq_some_iff.1 h
      cases h
      rfl
    · cases h
      rfl
  case h_9 =>
    cases h
    simp [ofClass_defaultName, Passes]
  case h_10 =>
    cases h
    exact hother (by decide) (by rw [ofClass_defaultName, Bool.false_and, Bool.false_and])
  case h_11 =>
    obtain ⟨_, -, h⟩ := Option.bind_eq_some_iff.1 h
    obtain ⟨_, -, h⟩ := Option.bind_eq_some_iff.1 h
    cases h
    exact hother (by decide) rfl
  case h_12 =>
    cases h
    exact iff_of_true rfl (.inl rfl)
  case h_2 | h_18 =>
    obtain ⟨_, -, h⟩ := Option.bind_eq_some_iff.1 h
    cases h
    exact hother (by decide) rfl
  case h_1 | h_13 | h_14 | h_15 | h_16 | h_17 =>
    cases h
    exact hother (by decide) rfl
  case h_29 =>
    cases h
    refine hother ?_ rfl
    simp only [List.mem_cons, List.not_mem_nil, or_false]
    tauto
  all_goals cases h

theorem Around.context (h : Around t p l q a i)
    (hc : contextIn? {} (t.ancestors p) = some inner) :
    ∃ outer, contextIn? {} (t.ancestors q) = some outer ∧
      (inner.defaultName = true ↔ Passes a.kind a.field outer.defaultName) := by
  rw [h.ancestors] at hc
  obtain ⟨outer, houter, hinner⟩ := Option.bind_eq_some_iff.1 hc
  exact ⟨outer, houter, ofField_defaultName hinner⟩

end Context

/-! ## Where the name is allowed -/

/-- A default export holds one node, its body. -/
theorem exportDefault_eq {d : Tree}
    (h : FieldsFit false .exportDefault Kind.exportDefault.slots fields)
    (hd : (Tree.node .exportDefault fields).childAt (.field "body") = .ok d) : fields = [d] := by
  obtain ⟨v, rfl⟩ := List.length_eq_one_iff.1 h.length_eq
  obtain ⟨name, -, hmem⟩ := childAt_node.1 hd
  have hv := (List.of_mem_zip hmem).2
  rw [List.mem_singleton.1 hv]

/-- In a program the context allows the name of a default export at no binding but the name of a
declaration that a module exports by default. -/
theorem namesDefaultExport_of_context (ht : t.IsFit false)
    (hroot : t.isKind .script = true ∨ t.isKind .esModule = true) {name : Tree} {c : Context}
    (hp : t.get p = .ok (.node .bindingIdentifier [name]))
    (hc : contextIn? {} (t.ancestors p) = some c) (hallowed : c.defaultName = true) :
    NamesDefaultExport t p := by
  have hne : ∀ {q : Path} {l : Kind} {fs : List Tree}, t.get q = .ok (.node l fs) →
      l ≠ .script → l ≠ .esModule → q ≠ [] := by
    rintro q l fs hq hscript hmodule rfl
    cases hq
    rcases hroot with h | h <;> simp_all [Tree.isKind, Tree.kind?]
  -- the binding is the name of a declaration
  obtain ⟨q₁, declaration, i₁, h₁⟩ := exists_around ht hp (hne hp (by decide) (by decide))
  obtain ⟨c₁, hc₁, hpass⟩ := h₁.context hc
  obtain ⟨hexport, hname⟩ := h₁.of_binding
  obtain ⟨hkind, hfield, hallowed₁⟩ := (hpass.1 hallowed).resolve_left hexport
  obtain rfl := hname hkind hfield
  -- the declaration is what a default export holds
  have hget₁ := h₁.get
  obtain ⟨q₂, holder, i₂, h₂⟩ := exists_around ht hget₁
    (hne hget₁ (by rcases hkind with h | h <;> rw [h] <;> decide)
      (by rcases hkind with h | h <;> rw [h] <;> decide))
  obtain ⟨c₂, -, hpass⟩ := h₂.context hc₁
  obtain ⟨hfunction, hclass, hbody⟩ := h₂.of_declaration hkind
  have hkind₂ := (hpass.1 hallowed₁).resolve_right fun h => h.1.elim hfunction hclass
  obtain ⟨hfield₂, rfl⟩ := hbody hkind₂
  -- the default export is an item of the module
  obtain ⟨k₂, fields₂, field₂⟩ := holder
  obtain rfl : k₂ = .exportDefault := hkind₂
  obtain rfl : field₂ = "body" := hfield₂
  have hget₂ : t.get q₂ = .ok (.node .exportDefault fields₂) := h₂.get
  obtain ⟨q₃, program, i₃, h₃⟩ := exists_around ht hget₂ (hne hget₂ (by decide) (by decide))
  obtain ⟨hmodule, hitems, j, rfl⟩ := h₃.of_exportDefault
  -- nothing is around a module
  obtain rfl : q₃ = [] := by
    by_contra hq₃
    obtain ⟨q₄, outer, i₄, h₄⟩ := exists_around ht h₃.get hq₃
    rw [hmodule] at h₄
    exact h₄.not_esModule
  have hpath₂ : q₂ = [.field "items", .index j] := by rw [h₃.path, hitems]; rfl
  have hpath₁ : q₁ = q₂ ++ [.field "body"] := h₂.path
  have hchild : (Tree.node .exportDefault fields₂).childAt (.field "body")
      = .ok (.node declaration.kind declaration.fields) := by
    rw [hpath₁, Tree.get_append_eq_ok] at hget₁
    obtain ⟨u, hu, hbody⟩ := hget₁
    cases hget₂.symm.trans hu
    obtain ⟨v, hv, heq⟩ := Tree.get_cons_eq_ok.1 hbody
    cases heq
    exact hv
  refine ⟨j, declaration.kind, declaration.fields, hkind, ?_, ?_⟩
  · rw [← hpath₂, hget₂, exportDefault_eq (ht.walkable.get hget₂) hchild]
  · rw [h₁.path, hpath₁, hpath₂, hfield]
    rfl

/-- At the name of a declaration that is exported by default the context allows it. -/
theorem defaultName_of_namesDefaultExport {name : Tree} {c : Context}
    (hp : t.get p = .ok name) (h : NamesDefaultExport t p)
    (hc : contextIn? {} (t.ancestors p) = some c) : c.defaultName = true := by
  obtain ⟨i, k, fields, hk, hexport, rfl⟩ := h
  have hsplit : t.get ([.field "items", .index i] ++ [.field "body", .field "name"])
      = .ok name := hp
  obtain ⟨u, hu, hbody⟩ := Tree.get_append_eq_ok.1 hsplit
  cases hexport.symm.trans hu
  have hd : (Tree.node .exportDefault [.node k fields]).childAt (.field "body")
      = .ok (.node k fields) := childAt_node.2 ⟨_, rfl, List.mem_of_getElem? (i := 0) rfl⟩
  obtain ⟨d, hd', hname⟩ := Tree.get_cons_eq_ok.1 hbody
  cases hd.symm.trans hd'
  obtain ⟨b, hb, -⟩ := Tree.get_cons_eq_ok.1 hname
  have hancestors : t.ancestors ([.field "items", .index i] ++ [.field "body", .field "name"])
      = ⟨k, fields, "name"⟩ :: ⟨.exportDefault, [.node k fields], "body"⟩ ::
        t.ancestors [.field "items", .index i] := by
    rw [ancestors_append hexport, ancestors_cons hd, ancestors_cons hb]
    rfl
  have hc : contextIn? {} (⟨k, fields, "name"⟩ :: ⟨.exportDefault, [.node k fields], "body"⟩ ::
      t.ancestors [.field "items", .index i]) = some c := by
    rw [← hancestors]
    exact hc
  obtain ⟨outer, houter, hinner⟩ := Option.bind_eq_some_iff.1 hc
  obtain ⟨_, -, houter⟩ := Option.bind_eq_some_iff.1 houter
  exact (ofField_defaultName hinner).2
    (.inr ⟨hk, rfl, (ofField_defaultName houter).2 (.inl rfl)⟩)

/-! ## At most one default export -/

/-- After a default export there is none without an error. -/
theorem pairwise_of_defaultExports {items : List Tree} {i : Nat} {seen : Bool}
    (h : Rules.defaultExports i seen items = []) :
    (seen = true → ∀ u ∈ items, u.isKind .exportDefault = false) ∧
      items.Pairwise fun u v =>
        u.isKind .exportDefault = true → v.isKind .exportDefault = false := by
  induction items generalizing i seen with
  | nil => exact ⟨fun _ _ h => absurd h List.not_mem_nil, .nil⟩
  | cons u us ih =>
    obtain ⟨hfirst, hrest⟩ := List.append_eq_nil_iff.1 h
    obtain ⟨hseen, hpairs⟩ := ih hrest
    have hu : seen = true → u.isKind .exportDefault = false := by
      intro hs
      cases hkind : u.isKind .exportDefault with
      | false => rfl
      | true => simp [hs, hkind, EarlyError.when] at hfirst
    refine ⟨fun hs => List.forall_mem_cons.2 ⟨hu hs, hseen (by rw [hs, Bool.true_or])⟩, ?_⟩
    exact List.pairwise_cons.2 ⟨fun v hv hkind => hseen (by rw [hkind, Bool.or_true]) v hv, hpairs⟩

/-- A script has no items. -/
theorem isKind_esModule_of_get (hroot : t.isKind .script = true ∨ t.isKind .esModule = true)
    {v : Tree} (hp : t.get (.field "items" :: p) = .ok v) : t.isKind .esModule = true := by
  rcases hroot with hscript | hmodule
  · obtain ⟨fs, rfl⟩ := isKind_iff.1 hscript
    obtain ⟨u, hu, -⟩ := Tree.get_cons_eq_ok.1 hp
    obtain ⟨name, heq, hmem⟩ := childAt_node.1 hu
    cases heq
    exact absurd (List.of_mem_zip hmem).1 (by decide)
  · exact hmodule

/-- A module without errors has one default export at most. -/
theorem exportDefault_unique (hmodule : t.isKind .esModule = true) (hvalid : t.isValid = true)
    {i j : Nat} {fs gs : List Tree}
    (hi : t.get [.field "items", .index i] = .ok (.node .exportDefault fs))
    (hj : t.get [.field "items", .index j] = .ok (.node .exportDefault gs)) : i = j := by
  obtain ⟨fields, rfl⟩ := isKind_iff.1 hmodule
  obtain ⟨hfit, hclean⟩ := isValid_iff.1 hvalid
  obtain ⟨ds, list, rfl, -, hlist⟩ := (fit_two rfl rfl).1 hfit
  obtain ⟨items, rfl, -⟩ := (fitsType_list rfl).1 hlist
  have hmem : ("items", Tree.list items) ∈ Kind.esModule.fieldNames.zip [ds, .list items] :=
    List.mem_of_getElem? (i := 1) rfl
  have hnone : Rules.defaultExports 0 false items = [] :=
    Option.some.inj (append_eq_some_nil (y := some _).1 (clean_node.1 hclean).1).2
  have hpairs := (pairwise_of_defaultExports hnone).2
  rw [List.pairwise_iff_getElem] at hpairs
  obtain ⟨hi', heqi⟩ := List.getElem?_eq_some_iff.1 ((get_item hmem).1 hi)
  obtain ⟨hj', heqj⟩ := List.getElem?_eq_some_iff.1 ((get_item hmem).1 hj)
  have hkindi : items[i].isKind .exportDefault = true := by rw [heqi]; rfl
  have hkindj : items[j].isKind .exportDefault = true := by rw [heqj]; rfl
  rcases lt_trichotomy i j with hlt | heq | hgt
  · rw [hpairs i j hi' hj' hlt hkindi] at hkindj
    cases hkindj
  · exact heq
  · rw [hpairs j i hj' hi' hgt hkindj] at hkindi
    cases hkindi

/-! ## The name of a default export -/

/-- In a valid tree every binding of the name is in a context that allows it. -/
theorem exists_allowed (hvalid : t.isValid = true) (hp : t.get p = .ok defaultBinding) :
    ∃ c, contextIn? {} (t.ancestors p) = some c ∧ c.defaultName = true := by
  have ht := wellTyped_iff.2 (isValid_iff.1 hvalid).1
  obtain ⟨c, own, hc, hown⟩ := exists_contextAt ht hp
  refine ⟨c, hc, ?_⟩
  cases hallowed : c.defaultName with
  | true => rfl
  | false =>
    have hmem : Violation.misplacedDefaultName.here ∈ own := by
      cases hown
      simp [Rules.binding, hallowed, EarlyError.when]
    have herror : ⟨p, .misplacedDefaultName⟩ ∈ earlyErrors t :=
      (mem_earlyErrors_at ht hp rfl).2
        ⟨_, _, c, own, rfl, List.mem_cons_self, hc, hown, hmem⟩
    rw [Tree.isValid, List.isEmpty_iff] at hvalid
    rw [hvalid] at herror
    cases herror

/-- No error has the path of the name of a declaration that is exported by default, if that is
the name of a default export. -/
theorem not_mem_earlyErrors (ht : t.wellTyped = true) (hp : t.get p = .ok defaultBinding)
    (hnames : NamesDefaultExport t p) (v : Violation) : ⟨p, v⟩ ∉ earlyErrors t := by
  intro hmem
  obtain ⟨q, k, fields, c, own, e, he, hget, hc, hown, heq⟩ := (mem_earlyErrors ht).1 hmem
  have hpath : p = q ++ e.path := congrArg EarlyError.path heq
  have hlast : p.getLast? = some (.field "name") := by
    obtain ⟨i, -, -, -, -, rfl⟩ := hnames
    rfl
  have htarget := target_of_mem_nodeErrors hown he
  generalize hr : e.path = r at hpath htarget
  cases htarget with
  | here =>
    -- the binding itself has nothing to report
    rw [List.append_nil] at hpath
    subst hpath
    cases hget.symm.trans hp
    cases hown
    have hallowed := defaultName_of_namesDefaultExport hp hnames hc
    simp [Rules.binding, hallowed, EarlyError.when] at he
  | field hname =>
    rw [hpath, List.getLast?_concat] at hlast
    cases hlast
    exact absurd hname (by decide)
  | item =>
    rw [hpath, List.append_cons, List.getLast?_concat] at hlast
    cases hlast

/-- The name of a default export stays where it belongs. In a valid program it is only the name
of a function or a class that a module exports by default, and names one at most; and in a
well-typed module no error is reported for it there. -/
theorem defaultExportName_stays (t : Tree) :
    ((t.isKind .script = true ∨ t.isKind .esModule = true) → t.isValid = true →
      (∀ p, t.get p = .ok defaultBinding → NamesDefaultExport t p) ∧
      ∀ p q, t.get p = .ok defaultBinding → t.get q = .ok defaultBinding → p = q) ∧
    (t.isKind .esModule = true → t.wellTyped = true →
      ∀ p, t.get p = .ok defaultBinding → NamesDefaultExport t p →
        ∀ v, ⟨p, v⟩ ∉ earlyErrors t) := by
  constructor
  · intro hroot hvalid
    have hnames : ∀ p, t.get p = .ok defaultBinding → NamesDefaultExport t p := by
      intro p hp
      obtain ⟨c, hc, hallowed⟩ := exists_allowed hvalid hp
      exact namesDefaultExport_of_context (isValid_iff.1 hvalid).1 hroot hp hc hallowed
    refine ⟨hnames, ?_⟩
    intro p q hp hq
    obtain ⟨i, _, _, -, hi, rfl⟩ := hnames p hp
    obtain ⟨j, _, _, -, hj, rfl⟩ := hnames q hq
    rw [exportDefault_unique (isKind_esModule_of_get hroot hi) hvalid hi hj]
  · intro _ ht p hp hnames v
    exact not_mem_earlyErrors ht hp hnames v

/-- A module that exports `n` functions without a name by default. -/
def namelessExports (n : Nat) : Tree :=
  .node .esModule [.list [], .list (List.replicate n (.node .exportDefault [
    .node .functionDeclaration [.bool false, .bool false, defaultBinding,
      .node .formalParameters [.list [], .absent], .node .functionBody [.list [], .list []]]]))]

/-- One such function may be exported. Of two, neither is complained about at its name. -/
theorem defaultExportName_stays_namelessExports :
    ((namelessExports 1).isKind .esModule = true ∧ (namelessExports 1).isValid = true ∧
      (namelessExports 1).get [.field "items", .index 0, .field "body", .field "name"]
        = .ok defaultBinding ∧
      ∀ p q, (namelessExports 1).get p = .ok defaultBinding →
        (namelessExports 1).get q = .ok defaultBinding → p = q) ∧
    (namelessExports 2).wellTyped = true ∧ (namelessExports 2).isValid = false ∧
      ∀ v, ⟨[.field "items", .index 1, .field "body", .field "name"], v⟩
        ∉ earlyErrors (namelessExports 2) := by
  have hvalid : (namelessExports 1).isValid = true := by decide +kernel
  have htyped : (namelessExports 2).wellTyped = true := by decide
  refine ⟨⟨rfl, hvalid, rfl, ?_⟩, htyped, by decide, ?_⟩
  · exact ((defaultExportName_stays (namelessExports 1)).1 (.inr rfl) hvalid).2
  · exact (defaultExportName_stays (namelessExports 2)).2 rfl htyped _ rfl
      ⟨1, .functionDeclaration, _, .inl rfl, rfl, rfl⟩

end Whittle
