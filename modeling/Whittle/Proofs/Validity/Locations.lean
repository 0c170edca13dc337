import Whittle.Proofs.Validity.Clashes
import Whittle.Proofs.Validity.Jumps
import Whittle.Proofs.Validity.Total

/-!
# Errors lead into the tree

Every early error of a value has a path that leads to a part of it, whether the value is
well-typed or not. A walk puts the path together from the way to a node and what the node
adds: nothing, a field, or an item of a field that holds a list. Of a value that is not
well-typed only typing errors are reported, of a well-typed one none.
-/

namespace Whittle

open Grammar Whittle.Language

/-- The path of the error leads to a part of the tree. -/
def EarlyError.LeadsInto (t : Tree) (e : EarlyError) : Prop := ∃ v, t.get e.path = .ok v

/-- Whether a rule is one of typing. -/
def Violation.isTyping : Violation → Bool
  | notANode _ | notAdmitted _ _ _ | misshapen _ => true
  | _ => false

theorem Violation.leadsInto_here (t : Tree) (v : Violation) : v.here.LeadsInto t := ⟨t, rfl⟩

theorem EarlyError.LeadsInto.under {t u : Tree} {s : Step} {e : EarlyError}
    (h : e.LeadsInto u) (hs : t.childAt s = .ok u) : (e.under s).LeadsInto t := by
  obtain ⟨v, hv⟩ := h
  exact ⟨v, Tree.get_cons_eq_ok.2 ⟨u, hs, hv⟩⟩

/-! ## Typing errors -/

/-- A typing error in the fields of a node is one of the node's shape, of a field, or of a part
in a field. -/
theorem mem_fieldTypeErrors {k : Kind} {ss : List Slot} {vs : List Tree} {e : EarlyError}
    (he : e ∈ fieldTypeErrors k ss vs) :
    e = (Violation.misshapen k).here ∨ ∃ s v, (s, v) ∈ ss.zip vs ∧
      (e = (Violation.notAdmitted k s.name v).atField s.name ∨
        ∃ e' ∈ partTypeErrors v, e = e'.under (.field s.name)) := by
  induction ss generalizing vs with
  | nil =>
    cases vs with
    | nil => cases he
    | cons v vs => exact .inl (List.mem_singleton.1 he)
  | cons s ss ih =>
    cases vs with
    | nil => exact .inl (List.mem_singleton.1 he)
    | cons v vs =>
      rw [fieldTypeErrors, List.mem_append] at he
      rcases he with he | he
      · refine .inr ⟨s, v, List.mem_cons_self, ?_⟩
        split at he
        · obtain ⟨e', he', rfl⟩ := List.mem_map.1 he
          exact .inr ⟨e', he', rfl⟩
        · exact .inl (List.mem_singleton.1 he)
      · rcases ih he with rfl | ⟨s', v', hmem, he⟩
        · exact .inl rfl
        · exact .inr ⟨s', v', List.mem_cons_of_mem _ hmem, he⟩

theorem mem_itemTypeErrors {items : List Tree} {i : Nat} {e : EarlyError}
    (he : e ∈ itemTypeErrors i items) : ∃ (j : Nat) (v : Tree), items[j]? = some v ∧
      ∃ e' ∈ partTypeErrors v, e = e'.under (.index (i + j : Nat)) := by
  induction items generalizing i with
  | nil => cases he
  | cons v vs ih =>
    -- an item that is no node is passed over
    have hrest : e ∈ itemTypeErrors (i + 1) vs → ∃ (j : Nat) (w : Tree), (v :: vs)[j]? = some w ∧
        ∃ e' ∈ partTypeErrors w, e = e'.under (.index (i + j : Nat)) := by
      intro he
      obtain ⟨j, w, hw, e', he', rfl⟩ := ih he
      exact ⟨j + 1, w, hw, e', he', by rw [Nat.add_right_comm, Nat.add_assoc]⟩
    cases v with
    | node k fields =>
      rw [itemTypeErrors, List.mem_append] at he
      rcases he with he | he
      · obtain ⟨e', he', rfl⟩ := List.mem_map.1 he
        exact ⟨0, .node k fields, rfl, e', he', rfl⟩
      · exact hrest he
    | _ => exact hrest he

/-- A typing error in a part leads into it. -/
theorem leadsInto_of_mem_partTypeErrors {t : Tree} {e : EarlyError} (he : e ∈ partTypeErrors t) :
    e.LeadsInto t ∧ e.violation.isTyping = true := by
  cases t with
  | node k fields =>
    rcases mem_fieldTypeErrors he with rfl | ⟨s, v, hmem, he⟩
    · exact ⟨Violation.leadsInto_here _ _, rfl⟩
    · have hchild : (Tree.node k fields).childAt (.field s.name) = .ok v := by
        refine childAt_node.2 ⟨s.name, rfl, ?_⟩
        rw [Kind.fieldNames, List.zip_map_left]
        exact List.mem_map.2 ⟨(s, v), hmem, rfl⟩
      rcases he with rfl | ⟨e', he', rfl⟩
      · exact ⟨⟨v, Tree.get_cons_eq_ok.2 ⟨v, hchild, rfl⟩⟩, rfl⟩
      · have := sizeOf_childAt hchild
        obtain ⟨hleads, htyping⟩ := leadsInto_of_mem_partTypeErrors he'
        exact ⟨hleads.under hchild, htyping⟩
  | list items =>
    obtain ⟨j, v, hv, e', he', rfl⟩ := mem_itemTypeErrors he
    have hchild : (Tree.list items).childAt (.index (0 + j : Nat)) = .ok v :=
      childAt_list.2 ⟨j, by rw [Nat.zero_add], hv⟩
    have := sizeOf_childAt hchild
    obtain ⟨hleads, htyping⟩ := leadsInto_of_mem_partTypeErrors he'
    exact ⟨hleads.under hchild, htyping⟩
  | _ => cases he
termination_by sizeOf t

theorem leadsInto_of_mem_typeErrors {t : Tree} {e : EarlyError} (he : e ∈ typeErrors t) :
    e.LeadsInto t ∧ e.violation.isTyping = true := by
  cases t with
  | node k fields => exact leadsInto_of_mem_partTypeErrors (t := .node k fields) he
  | _ =>
    obtain rfl := List.mem_singleton.1 he
    exact ⟨Violation.leadsInto_here _ _, rfl⟩

/-! ## What a rule adds to the path of a node -/

/-- Where the rules of a node report: at the node, at a field that holds parameters or a single
statement, or at an item of a field that holds a list. -/
inductive Target (k : Kind) (fields : List Tree) : Path → Prop
  | here : Target k fields []
  | field {name : String} {v : Tree} : name ∈ ["params", "body", "consequent", "alternate"] →
      (name, v) ∈ k.fieldNames.zip fields → Target k fields [.field name]
  | item {name : String} {items : List Tree} {j : Nat} :
      (name, .list items) ∈ k.fieldNames.zip fields → j < items.length →
      Target k fields [.field name, .index j]

theorem Target.exists_get {k : Kind} {fields : List Tree} {p : Path} (h : Target k fields p) :
    ∃ v, (Tree.node k fields).get p = .ok v := by
  cases h with
  | here => exact ⟨_, rfl⟩
  | field _ hmem =>
    exact ⟨_, Tree.get_cons_eq_ok.2 ⟨_, childAt_node.2 ⟨_, rfl, hmem⟩, rfl⟩⟩
  | item hmem hj => exact ⟨_, (get_item hmem).2 (List.getElem?_eq_getElem hj)⟩

/-- The error is about an item of a list that stands in a field from index `i` on. -/
def EarlyError.AtItem (name : String) (i : Nat) (items : List Tree) (e : EarlyError) : Prop :=
  ∃ j < items.length, e.path = [.field name, .index (i + j : Nat)]

theorem EarlyError.AtItem.cons {name : String} {i : Nat} {t : Tree} {items : List Tree}
    {e : EarlyError} (h : e.path = [.field name, .index i] ∨ e.AtItem name (i + 1) items) :
    e.AtItem name i (t :: items) := by
  rcases h with h | ⟨j, hj, h⟩
  · exact ⟨0, Nat.succ_pos _, h⟩
  · exact ⟨j + 1, Nat.succ_lt_succ hj, by rw [h, Nat.add_right_comm, Nat.add_assoc]⟩

theorem EarlyError.AtItem.target {k : Kind} {fields items : List Tree} {name : String}
    {e : EarlyError} (h : e.AtItem name 0 items)
    (hmem : (name, .list items) ∈ k.fieldNames.zip fields) : Target k fields e.path := by
  obtain ⟨j, hj, hpath⟩ := h
  rw [hpath, Nat.zero_add]
  exact .item hmem hj

section Rules

variable {e : EarlyError} {es : List EarlyError}

theorem atItem_uninitialised {ds : List Tree} {i : Nat} (h : Rules.uninitialised i ds = some es)
    (he : e ∈ es) : e.AtItem "declarators" i ds := by
  induction ds generalizing i es with
  | nil =>
    cases h
    cases he
  | cons d ds ih =>
    obtain ⟨b, -, h⟩ := Option.bind_eq_some_iff.1 h
    obtain ⟨rest, hrest, h⟩ := Option.bind_eq_some_iff.1 h
    cases h
    rcases List.mem_append.1 he with he | he
    · obtain ⟨-, rfl⟩ := mem_when.1 he
      exact .cons (.inl rfl)
    · exact .cons (.inr (ih hrest he))

/-- A variable declaration reports that it is empty, or constants without an initial value. -/
theorem mem_variableDeclaration {word : String} {ds : List Tree}
    (h : Rules.variableDeclaration word ds = some es) (he : e ∈ es) :
    e = Violation.noDeclarators.here ∨ e.AtItem "declarators" 0 ds := by
  unfold Rules.variableDeclaration at h
  split at h
  · obtain ⟨constants, hconstants, h⟩ := Option.bind_eq_some_iff.1 h
    cases h
    rcases List.mem_append.1 he with he | he
    · exact .inl (mem_when.1 he).2
    · exact .inr (atItem_uninitialised hconstants he)
  · cases h
    rw [List.append_nil] at he
    exact .inl (mem_when.1 he).2

theorem atItem_alternation {items : List Tree} {i : Nat} (he : e ∈ Rules.alternation i items) :
    e.AtItem "elements" i items := by
  induction items generalizing i with
  | nil => cases he
  | cons t items ih =>
    rcases List.mem_append.1 he with he | he
    · obtain ⟨-, rfl⟩ := mem_when.1 he
      exact .cons (.inl rfl)
    · exact .cons (.inr (ih he))

theorem path_constructorFaults {i : Nat} {method : Tree}
    (h : Rules.constructorFaults i method = some es) (he : e ∈ es) :
    e.path = [.field "elements", .index i] := by
  unfold Rules.constructorFaults at h
  split at h
  · obtain ⟨_, -, h⟩ := Option.bind_eq_some_iff.1 h
    obtain ⟨_, -, h⟩ := Option.bind_eq_some_iff.1 h
    cases h
    obtain ⟨-, rfl⟩ := mem_when.1 he
    rfl
  · cases h
  · cases h
    obtain rfl := List.mem_singleton.1 he
    rfl
  · cases h

theorem atItem_classElements {items : List Tree} {i seen : Nat}
    (h : Rules.classElements i seen items = some es) (he : e ∈ es) :
    e.AtItem "elements" i items := by
  induction items generalizing i seen es with
  | nil =>
    cases h
    cases he
  | cons t items ih =>
    rw [Rules.classElements.eq_def] at h
    split at h
    · cases h
      cases he
    · rename_i heq
      cases heq
      obtain ⟨_, -, h⟩ := Option.bind_eq_some_iff.1 h
      obtain ⟨_, -, h⟩ := Option.bind_eq_some_iff.1 h
      obtain ⟨rest, hrest, h⟩ := Option.bind_eq_some_iff.1 h
      cases h
      rcases List.mem_append.1 he with he | he
      · obtain ⟨-, rfl⟩ := mem_when.1 he
        exact .cons (.inl rfl)
      · exact .cons (.inr (ih hrest he))
    · rename_i heq
      cases heq
      obtain ⟨b, -, h⟩ := Option.bind_eq_some_iff.1 h
      cases b with
      | false => exact .cons (.inr (ih h he))
      | true =>
        obtain ⟨faults, hfaults, h⟩ := Option.bind_eq_some_iff.1 h
        obtain ⟨rest, hrest, h⟩ := Option.bind_eq_some_iff.1 h
        cases h
        rcases List.mem_append.1 he with he | he
        · rcases List.mem_append.1 he with he | he
          · obtain ⟨-, rfl⟩ := mem_when.1 he
            exact .cons (.inl rfl)
          · exact .cons (.inl (path_constructorFaults hfaults he))
        · exact .cons (.inr (ih hrest he))
    · cases h

/-- What scripts and setters report is reported at the node itself. -/
theorem Violation.isAtNode_of_reporters {v : Violation}
    (h : .script ∈ v.reporters ∨ .setter ∈ v.reporters) : v.isAtNode = true := by
  cases v <;> first | rfl | simp [Violation.reporters, Kind.functions] at h

theorem isAtNode_scopeErrors {items : List Tree} {functions : Bool}
    (h : scopeErrors functions items = some es) (he : e ∈ es) : e.violation.isAtNode = true :=
  Violation.isAtNode_of_reporters (.inl (Reports.scopeErrors (by decide) _ _ es h e he).mem)

theorem path_function {c : Context} {unique : Bool} {params body : Tree}
    (h : Rules.function c unique params body = some es) (he : e ∈ es)
    (hv : e.violation.isAtNode = false) : e.path = [.field "params"] := by
  obtain ⟨names, -, h⟩ := Option.bind_eq_some_iff.1 h
  obtain ⟨again, hagain, h⟩ := Option.bind_eq_some_iff.1 h
  obtain ⟨simple, -, h⟩ := Option.bind_eq_some_iff.1 h
  obtain ⟨directive, -, h⟩ := Option.bind_eq_some_iff.1 h
  cases h
  rcases List.mem_append.1 he with he | he
  · rcases List.mem_append.1 he with he | he
    · have hsetter := (Reports.redeclared List.mem_cons_self names body again hagain e he).mem
      rw [Violation.isAtNode_of_reporters (.inr hsetter)] at hv
      cases hv
    · obtain ⟨-, rfl⟩ := mem_when.1 he
      cases hv
  · split at he
    · obtain ⟨n, -, rfl⟩ := List.mem_map.1 he
      rfl
    · cases he

theorem isAtNode_forHead {init body : Tree} (h : Rules.forHead init body = some es)
    (he : e ∈ es) : e.violation.isAtNode = true := by
  unfold Rules.forHead at h
  split at h
  · obtain ⟨names, -, h⟩ := Option.bind_eq_some_iff.1 h
    split at h
    · cases h
      cases he
    · obtain ⟨hoisted, -, h⟩ := Option.bind_eq_some_iff.1 h
      cases h
      rcases List.mem_append.1 he with he | he
      · obtain ⟨n, -, rfl⟩ := List.mem_map.1 he
        rfl
      · obtain ⟨n, -, rfl⟩ := List.mem_map.1 he
        rfl
  · cases h
    cases he

theorem isAtNode_label {c : Context} {name : String} (he : e ∈ Rules.label c name) :
    e.violation.isAtNode = true := by
  rcases List.mem_append.1 he with he | he
  · obtain ⟨-, rfl⟩ := mem_when.1 he
    rfl
  · rcases mem_spelling he with h | h
    · rw [h]
      rfl
    · rw [h]
      rfl

/-- The kinds of nodes that report a broken rule at a field or at an item there. -/
def Kind.pointing : List Kind :=
  [.ifStatement, .doWhileStatement, .whileStatement, .forStatement, .labeledStatement,
    .variableDeclaration, .templateExpression, .classDeclaration, .classExpression, .esModule]
    ++ Kind.functions

theorem Violation.mem_pointing {v : Violation} {k : Kind} (hk : k ∈ v.reporters)
    (hv : v.isAtNode = false) : k ∈ Kind.pointing := by
  cases v <;> try cases hv
  all_goals
    simp only [Violation.reporters, Kind.pointing, Kind.functions, List.mem_cons,
      List.mem_append, List.not_mem_nil, or_false] at hk ⊢
    tauto

end Rules

/-- A rule of a node adds nothing to its path, a field, or an item of a field. -/
theorem target_of_mem_nodeErrors {c : Context} {k : Kind} {fields : List Tree}
    {own : List EarlyError} (hown : nodeErrors c k fields = some own) {e : EarlyError}
    (he : e ∈ own) : Target k fields e.path := by
  obtain ⟨hk, hpath⟩ := reports_nodeErrors c k fields own hown e he
  cases hv : e.violation.isAtNode with
  | true =>
    rw [hpath hv]
    exact .here
  | false =>
    have hk := Violation.mem_pointing hk hv
    have hnot : ∀ {P : Prop}, e.violation.isAtNode = true → P := by
      intro P h
      rw [hv] at h
      cases h
    unfold nodeErrors at hown
    split at hown
    case h_2 =>
      obtain ⟨clashes, hclashes, hown⟩ := Option.bind_eq_some_iff.1 hown
      cases hown
      rcases List.mem_append.1 he with he | he
      · exact hnot (isAtNode_scopeErrors hclashes he)
      · obtain ⟨j, hj, rfl⟩ := mem_defaultExports he
        rw [Nat.zero_add]
        exact .item (List.mem_of_getElem? (i := 1) rfl) hj
    case h_4 | h_5 | h_7 =>
      rw [path_function hown he hv]
      exact .field (by simp) (List.mem_of_getElem? (i := 3) rfl)
    case h_6 =>
      rw [path_function hown he hv]
      exact .field (by simp) (List.mem_of_getElem? (i := 1) rfl)
    case h_13 =>
      rcases mem_variableDeclaration hown he with rfl | hitem
      · exact .here
      · exact hitem.target (List.mem_of_getElem? (i := 1) rfl)
    case h_14 =>
      obtain ⟨first, hfirst, hown⟩ := Option.bind_eq_some_iff.1 hown
      obtain ⟨second, hsecond, hown⟩ := Option.bind_eq_some_iff.1 hown
      cases hown
      rcases List.mem_append.1 he with he | he
      · obtain ⟨_, rfl⟩ := mem_singleStatement hfirst he
        exact .field (by simp) (List.mem_of_getElem? (i := 1) rfl)
      · obtain ⟨_, rfl⟩ := mem_singleStatement hsecond he
        exact .field (by simp) (List.mem_of_getElem? (i := 2) rfl)
    case h_15 =>
      obtain ⟨_, rfl⟩ := mem_singleStatement hown he
      exact .field (by simp) (List.mem_of_getElem? (i := 0) rfl)
    case h_16 =>
      obtain ⟨_, rfl⟩ := mem_singleStatement hown he
      exact .field (by simp) (List.mem_of_getElem? (i := 1) rfl)
    case h_17 =>
      obtain ⟨single, hsingle, hown⟩ := Option.bind_eq_some_iff.1 hown
      obtain ⟨head, hhead, hown⟩ := Option.bind_eq_some_iff.1 hown
      cases hown
      rcases List.mem_append.1 he with he | he
      · obtain ⟨_, rfl⟩ := mem_singleStatement hsingle he
        exact .field (by simp) (List.mem_of_getElem? (i := 3) rfl)
      · exact hnot (isAtNode_forHead hhead he)
    case h_18 =>
      obtain ⟨single, hsingle, hown⟩ := Option.bind_eq_some_iff.1 hown
      cases hown
      rcases List.mem_append.1 he with he | he
      · obtain ⟨_, rfl⟩ := mem_singleStatement hsingle he
        exact .field (by simp) (List.mem_of_getElem? (i := 1) rfl)
      · exact hnot (isAtNode_label he)
    case h_30 =>
      cases hown
      rcases List.mem_append.1 he with he | he
      · obtain ⟨-, rfl⟩ := mem_when.1 he
        exact .here
      · exact (atItem_alternation he).target (List.mem_of_getElem? (i := 1) rfl)
    case h_31 | h_32 =>
      exact (atItem_classElements hown he).target (List.mem_of_getElem? (i := 2) rfl)
    -- the other kinds report at the node itself, and nodes of another shape have no value
    all_goals first | exact absurd hk (by decide) | cases hown
    cases he

/-! ## All errors -/

/-- Every early error leads into the value that it is reported for, whatever the value is; and
either all of them are typing errors, because the value is not well-typed, or none is. -/
theorem earlyErrors_leadInto (t : Tree) : ∃ es, earlyErrors? t = some es ∧
    (∀ e ∈ es, ∃ v, t.get e.path = .ok v) ∧
    (t.wellTyped = false ∧ (∀ e ∈ es, e.violation.isTyping = true) ∨
      t.wellTyped = true ∧ ∀ e ∈ es, e.violation.isTyping = false) := by
  obtain ⟨es, hes⟩ := exists_earlyErrors? t
  refine ⟨es, hes, ?_⟩
  cases ht : t.wellTyped with
  | false =>
    have htypes : es = typeErrors t := by
      unfold earlyErrors? at hes
      split at hes
      · rename_i hnil
        rw [Tree.wellTyped, hnil] at ht
        cases ht
      · exact (Option.some.inj hes).symm
    have hall : ∀ e ∈ es, e.LeadsInto t ∧ e.violation.isTyping = true := by
      intro e he
      exact leadsInto_of_mem_typeErrors (htypes ▸ he)
    exact ⟨fun e he => (hall e he).1, .inl ⟨rfl, fun e he => (hall e he).2⟩⟩
  | true =>
    have hall : ∀ e ∈ es, e.LeadsInto t ∧ e.violation.isTyping = false := by
      intro e he
      have hmem : e ∈ earlyErrors t := by
        rw [earlyErrors, hes]
        exact he
      obtain ⟨p, k, fields, c, own, e', he', hget, -, hown, rfl⟩ := (mem_earlyErrors ht).1 hmem
      obtain ⟨v, hv⟩ := (target_of_mem_nodeErrors hown he').exists_get
      refine ⟨⟨v, Tree.get_append_eq_ok.2 ⟨_, hget, hv⟩⟩, ?_⟩
      have hk := (reports_nodeErrors c k fields own hown e' he').mem
      show e'.violation.isTyping = false
      cases hviolation : e'.violation <;> rw [hviolation] at hk <;> first | rfl | cases hk
    exact ⟨fun e he => (hall e he).1, .inr ⟨rfl, fun e he => (hall e he).2⟩⟩

end Whittle
