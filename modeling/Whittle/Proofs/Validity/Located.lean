import Whittle.Proofs.Resolve
import Whittle.Proofs.Validity.Defined

/-!
# Where rules are broken

The early errors of a well-typed tree, told without the walk that finds them: the nodes that a
path leads through say what context the node at its end has, and a rule is broken there if the
node breaks it in that context. The path of an error is that of the node, and what the rule adds
to it if it is about a field of the node or an item there.
-/

namespace Whittle

open Grammar Whittle.Language

/-! ## The nodes around a node -/

/-- A node that a path leads through, and the field of it that the path enters. -/
structure Ancestor where
  kind : Kind
  fields : List Tree
  field : String

/-- The node that is entered with a step. -/
def Tree.entered : Tree → Step → List Ancestor
  | .node k fields, .field name => [⟨k, fields, name⟩]
  | _, _ => []

/-- The nodes that a path leads through, the innermost first. -/
def Tree.ancestors : Tree → Path → List Ancestor
  | _, [] => []
  | t, s :: p =>
    match t.childAt s with
    | .ok v => v.ancestors p ++ t.entered s
    | .error _ => []

/-- The context inside some nodes, the innermost first, that are themselves in the context
`c`. -/
def contextIn? (c : Context) : List Ancestor → Option Context
  | [] => some c
  | a :: as => do (← contextIn? c as).ofField a.kind a.fields a.field

theorem contextIn?_append (c : Context) (as bs : List Ancestor) :
    contextIn? c (as ++ bs) = (contextIn? c bs).bind (contextIn? · as) := by
  induction as with
  | nil =>
    rw [List.nil_append]
    cases contextIn? c bs <;> rfl
  | cons a as ih =>
    rw [List.cons_append, contextIn?, ih]
    cases contextIn? c bs <;> rfl

theorem ancestors_cons {t v : Tree} {s : Step} (h : t.childAt s = .ok v) (p : Path) :
    t.ancestors (s :: p) = v.ancestors p ++ t.entered s := by
  rw [Tree.ancestors, h]

/-! ## Steps into nodes and lists -/

/-- The steps into a node lead to its fields under their names. -/
theorem childAt_node {k : Kind} {fields : List Tree} {s : Step} {v : Tree} :
    (Tree.node k fields).childAt s = .ok v ↔
      ∃ name, s = .field name ∧ (name, v) ∈ k.fieldNames.zip fields := by
  rw [Tree.childAt_eq_ok]
  constructor
  · rintro ⟨i, hplace, hv⟩
    cases s with
    | field name =>
      simp only [Tree.place] at hplace
      split at hplace
      · rename_i j hj
        split at hplace
        · cases hplace
          obtain ⟨hlt, hname, -⟩ := List.idxOf?_eq_some_iff.1 hj
          refine ⟨name, rfl, List.mem_of_getElem? (i := i) (List.getElem?_zip_eq_some.2 ⟨?_, hv⟩)⟩
          rw [List.getElem?_eq_getElem hlt, hname]
        · cases hplace
      · cases hplace
    | _ => simp [Tree.place] at hplace
  · rintro ⟨name, rfl, hmem⟩
    obtain ⟨i, hi⟩ := List.mem_iff_getElem?.1 hmem
    obtain ⟨hname, hv⟩ := List.getElem?_zip_eq_some.1 hi
    have hidx : k.fieldNames.idxOf? name = some i := by
      rw [Kind.fieldNames, List.getElem?_map, Option.map_eq_some_iff] at hname
      obtain ⟨slot, hslot, rfl⟩ := hname
      exact idxOf?_fieldNames hslot
    refine ⟨i, ?_, hv⟩
    have hlt := (List.getElem?_eq_some_iff.1 hv).1
    simp [Tree.place, hidx, hlt]

/-- The steps into a list lead to its items. -/
theorem childAt_list {items : List Tree} {s : Step} {v : Tree} :
    (Tree.list items).childAt s = .ok v ↔ ∃ j : Nat, s = .index j ∧ items[j]? = some v := by
  rw [Tree.childAt_eq_ok]
  constructor
  · rintro ⟨i, hplace, hv⟩
    cases s with
    | index j =>
      simp only [Tree.place] at hplace
      split at hplace
      · cases hplace
        exact ⟨j.toNat, by rw [Int.toNat_of_nonneg (by omega)], hv⟩
      · cases hplace
    | _ => simp [Tree.place] at hplace
  · rintro ⟨j, rfl, hv⟩
    have hlt := (List.getElem?_eq_some_iff.1 hv).1
    exact ⟨j, by simp [Tree.place, hlt], hv⟩

theorem childAt_leaf {t : Tree} (h : t.isLeaf = true) {s : Step} {v : Tree} :
    t.childAt s ≠ .ok v := by
  intro hv
  obtain ⟨i, -, hpart⟩ := Tree.childAt_eq_ok.1 hv
  cases t <;> simp_all [Tree.isLeaf, Tree.parts]

theorem isKind_iff {t : Tree} {k : Kind} : t.isKind k = true ↔ ∃ fs, t = .node k fs := by
  cases t <;> simp [Tree.isKind, Tree.kind?]

/-- The nodes around a node are in the tree. -/
theorem exists_get_of_mem_ancestors {t : Tree} {p : Path} {a : Ancestor} (h : a ∈ t.ancestors p) :
    ∃ q, t.get q = .ok (.node a.kind a.fields) := by
  induction p generalizing t with
  | nil => cases h
  | cons s p ih =>
    cases hv : t.childAt s with
    | error e => simp [Tree.ancestors, hv] at h
    | ok v =>
      rw [ancestors_cons hv] at h
      rcases List.mem_append.1 h with h | h
      · obtain ⟨q, hq⟩ := ih h
        exact ⟨s :: q, Tree.get_cons_eq_ok.2 ⟨v, hv, hq⟩⟩
      · unfold Tree.entered at h
        split at h
        · obtain rfl := List.mem_singleton.1 h
          exact ⟨[], rfl⟩
        · cases h

/-! ## The walk -/

/-- The broken rules in a value, the items of a list included. -/
def valueErrors? (c : Context) : Tree → Option (List EarlyError)
  | .list items => itemRuleErrors c 0 items
  | t => ruleErrors c t

theorem mem_itemRuleErrors {c : Context} {items : List Tree} {i : Nat} {es : List EarlyError}
    (h : itemRuleErrors c i items = some es) {e : EarlyError} :
    e ∈ es ↔ ∃ (j : Nat) (w : Tree) (es' : List EarlyError), ∃ e' ∈ es', items[j]? = some w ∧
      ruleErrors c w = some es' ∧ e = e'.under (.index (i + j : Nat)) := by
  induction items generalizing i es with
  | nil =>
    cases h
    simp
  | cons w ws ih =>
    rw [itemRuleErrors] at h
    obtain ⟨here, hhere, h⟩ := Option.bind_eq_some_iff.1 h
    obtain ⟨rest, hrest, h⟩ := Option.bind_eq_some_iff.1 h
    cases h
    rw [List.mem_append, ih hrest, List.mem_map]
    constructor
    · rintro (⟨e', he', rfl⟩ | ⟨j, w', es', e', he', hw', hes', rfl⟩)
      · exact ⟨0, w, here, e', he', rfl, hhere, rfl⟩
      · exact ⟨j + 1, w', es', e', he', hw', hes', by rw [Nat.add_right_comm, Nat.add_assoc]⟩
    · rintro ⟨j, w', es', e', he', hw', hes', rfl⟩
      cases j with
      | zero =>
        cases hw'
        cases hhere.symm.trans hes'
        exact .inl ⟨e', he', rfl⟩
      | succ j =>
        exact .inr ⟨j, w', es', e', he', hw', hes', by rw [Nat.add_right_comm, Nat.add_assoc]⟩

theorem mem_fieldRuleErrors {c : Context} {k : Kind} {fields : List Tree} {names : List String}
    {vs : List Tree} {es : List EarlyError} (h : fieldRuleErrors c k fields names vs = some es)
    {e : EarlyError} : e ∈ es ↔ ∃ n v inner es', ∃ e' ∈ es', (n, v) ∈ names.zip vs ∧
      v.isLeaf = false ∧ c.ofField k fields n = some inner ∧
      valueErrors? inner v = some es' ∧ e = e'.under (.field n) := by
  induction names generalizing vs es with
  | nil =>
    cases vs <;> simp_all [fieldRuleErrors]
  | cons n ns ih =>
    cases vs with
    | nil => simp_all [fieldRuleErrors]
    | cons v vs =>
      -- the errors in the first field come before those in the rest
      have hcons : ∀ {inner here rest}, v.isLeaf = false → c.ofField k fields n = some inner →
          valueErrors? inner v = some here → fieldRuleErrors c k fields ns vs = some rest →
          es = here.map (.under (.field n)) ++ rest →
          (e ∈ es ↔ ∃ m w inner es', ∃ e' ∈ es', (m, w) ∈ (n :: ns).zip (v :: vs) ∧
            w.isLeaf = false ∧ c.ofField k fields m = some inner ∧
            valueErrors? inner w = some es' ∧ e = e'.under (.field m)) := by
        intro inner here rest hv hinner hhere hrest hes
        rw [hes, List.mem_append, ih hrest, List.mem_map]
        constructor
        · rintro (⟨e', he', rfl⟩ | ⟨m, w, inner', es', e', he', hmem, hw⟩)
          · exact ⟨n, v, inner, here, e', he', List.mem_cons_self, hv, hinner, hhere, rfl⟩
          · exact ⟨m, w, inner', es', e', he', List.mem_cons_of_mem _ hmem, hw⟩
        · rintro ⟨m, w, inner', es', e', he', hmem, hw, hinner', hes', rfl⟩
          rcases List.mem_cons.1 hmem with heq | hmem
          · cases heq
            cases hinner.symm.trans hinner'
            cases hhere.symm.trans hes'
            exact .inl ⟨e', he', rfl⟩
          · exact .inr ⟨m, w, inner', es', e', he', hmem, hw, hinner', hes', rfl⟩
      cases v with
      | node l fs =>
        rw [fieldRuleErrors] at h
        obtain ⟨inner, hinner, h⟩ := Option.bind_eq_some_iff.1 h
        obtain ⟨here, hhere, h⟩ := Option.bind_eq_some_iff.1 h
        obtain ⟨rest, hrest, h⟩ := Option.bind_eq_some_iff.1 h
        exact hcons rfl hinner hhere hrest (Option.some.inj h).symm
      | list items =>
        rw [fieldRuleErrors] at h
        obtain ⟨inner, hinner, h⟩ := Option.bind_eq_some_iff.1 h
        obtain ⟨here, hhere, h⟩ := Option.bind_eq_some_iff.1 h
        obtain ⟨rest, hrest, h⟩ := Option.bind_eq_some_iff.1 h
        exact hcons rfl hinner hhere hrest (Option.some.inj h).symm
      | _ =>
        rw [fieldRuleErrors.eq_3 _ _ _ _ _ _ _ (by simp) (by simp)] at h
        rw [ih h]
        constructor
        · rintro ⟨m, w, inner, es', e', he', hmem, hw⟩
          exact ⟨m, w, inner, es', e', he', List.mem_cons_of_mem _ hmem, hw⟩
        · rintro ⟨m, w, inner, es', e', he', hmem, hw, hrest⟩
          rcases List.mem_cons.1 hmem with heq | hmem
          · cases heq
            cases hw
          · exact ⟨m, w, inner, es', e', he', hmem, hw, hrest⟩

/-! ## Trees that the walk goes through -/

/-- A node that fits, a list of such nodes, some of them perhaps absent, or a value without
parts. -/
def Tree.Walkable : Tree → Prop
  | .node k fields => FieldsFit false k k.slots fields
  | .list items => ∀ v ∈ items, v = .absent ∨ v.IsFit false
  | _ => True

theorem FieldsFit.walkable {k : Kind} {fields : List Tree} (h : FieldsFit false k k.slots fields)
    {v : Tree} (hv : v ∈ fields) : v.Walkable := by
  obtain ⟨before, after, rfl⟩ := List.append_of_mem hv
  obtain ⟨s, hs, hfit⟩ := h.middle
  have hplain := isPlainSlot_of_mem (List.mem_of_getElem? hs)
  rw [isPlainSlot] at hplain
  rw [FitsSlot, slotPosition_strict] at hfit
  cases hp : s.position with
  | none =>
    rw [hp] at hplain hfit
    have hleaf := isLeaf_of_admits hplain hfit
    cases v with
    | list items => cases hleaf
    | node l fs => cases hleaf
    | _ => trivial
  | some type =>
    rw [hp] at hplain hfit
    cases v with
    | node l fs => exact hfit.2
    | list items =>
      obtain ⟨t, rfl, hitems⟩ := hfit
      intro w hw
      have hfit := itemsFit_iff.1 hitems w hw
      have hholds := ((fits_iff (isPlainType_of_item hplain) w).1 hfit).1
      rw [holds_item hplain] at hholds
      cases w with
      | absent => exact .inl rfl
      | node l fs => exact .inr hfit.2
      | _ => cases hholds
    | _ => trivial

theorem Tree.IsFit.walkable {t : Tree} (h : t.IsFit false) : t.Walkable := by
  cases t with
  | node k fields => exact h
  | _ => exact h.elim

theorem Tree.Walkable.child {t v : Tree} {s : Step} (h : t.Walkable) (hv : t.childAt s = .ok v) :
    v.Walkable := by
  cases t with
  | node k fields =>
    obtain ⟨name, -, hmem⟩ := childAt_node.1 hv
    exact FieldsFit.walkable h (List.of_mem_zip hmem).2
  | list items =>
    obtain ⟨j, -, hj⟩ := childAt_list.1 hv
    rcases h v (List.mem_of_getElem? hj) with rfl | hfit
    · trivial
    · cases v with
      | node k fields => exact hfit
      | _ => exact hfit.elim
  | _ => exact (childAt_leaf rfl hv).elim

theorem Tree.Walkable.get {t v : Tree} {p : Path} (h : t.Walkable) (hv : t.get p = .ok v) :
    v.Walkable := by
  induction p generalizing t with
  | nil =>
    cases hv
    exact h
  | cons s p ih =>
    obtain ⟨u, hu, hv⟩ := Tree.get_cons_eq_ok.1 hv
    exact ih (h.child hu) hv

/-- In a tree that breaks no rule a path leads to what breaks no rule in its context. -/
theorem Clean.get {c : Context} {t v : Tree} {p : Path} (ht : t.Walkable) (h : Clean c t)
    (hget : t.get p = .ok v) : ∃ inner, Clean inner v := by
  induction p generalizing c t with
  | nil =>
    obtain rfl := Except.ok.inj hget
    exact ⟨c, h⟩
  | cons s p ih =>
    obtain ⟨u, hu, hrest⟩ := Tree.get_cons_eq_ok.1 hget
    suffices hclean : ∃ inner, Clean inner u by
      obtain ⟨inner, hclean⟩ := hclean
      exact ih (ht.child hu) hclean hrest
    cases hleaf : u.isLeaf with
    | true => exact ⟨{}, clean_leaf hleaf⟩
    | false =>
      cases t with
      | node k fields =>
        obtain ⟨name, -, hmem⟩ := childAt_node.1 hu
        obtain ⟨inner, -, hclean⟩ := (clean_node.1 h).2 name u hmem hleaf
        exact ⟨inner, hclean⟩
      | list items =>
        obtain ⟨j, -, hj⟩ := childAt_list.1 hu
        have hmem := List.mem_of_getElem? hj
        rcases ht u hmem with rfl | hfit
        · cases hleaf
        · obtain ⟨k, fields, rfl⟩ : ∃ k fields, u = .node k fields := by
            cases u with
            | node k fields => exact ⟨k, fields, rfl⟩
            | _ => exact hfit.elim
          exact ⟨c, clean_list.1 h k fields hmem⟩
      | _ => exact absurd hu (childAt_leaf rfl)

/-- An ancestor that is a node that fits and is entered through one of its fields. -/
structure Ancestor.Fits (a : Ancestor) : Prop where
  fields : FieldsFit false a.kind a.kind.slots a.fields
  field : a.field ∈ a.kind.fieldNames

/-- The nodes that a path leads through fit. -/
theorem Tree.Walkable.ancestors {t : Tree} {p : Path} (h : t.Walkable) :
    ∀ a ∈ t.ancestors p, a.Fits := by
  induction p generalizing t with
  | nil => simp [Tree.ancestors]
  | cons s p ih =>
    cases hv : t.childAt s with
    | error e => simp [Tree.ancestors, hv]
    | ok v =>
      rw [ancestors_cons hv]
      intro a ha
      rcases List.mem_append.1 ha with ha | ha
      · exact ih (h.child hv) a ha
      · unfold Tree.entered at ha
        split at ha
        · obtain rfl := List.mem_singleton.1 ha
          obtain ⟨name, heq, hmem⟩ := childAt_node.1 hv
          cases heq
          exact ⟨h, (List.of_mem_zip hmem).1⟩
        · cases ha

/-- Every node around a node that fits hands a context down. -/
theorem exists_contextIn? (c : Context) {as : List Ancestor} (h : ∀ a ∈ as, a.Fits) :
    ∃ inner, contextIn? c as = some inner := by
  induction as with
  | nil => exact ⟨c, rfl⟩
  | cons a as ih =>
    obtain ⟨ha, has⟩ := List.forall_mem_cons.1 h
    obtain ⟨outer, houter⟩ := ih has
    obtain ⟨inner, hinner⟩ := exists_ofField outer ha.fields a.field
    exact ⟨inner, by rw [contextIn?, houter]; exact hinner⟩

/-- The rules have a value for what the walk goes through. -/
theorem exists_valueErrors? (c : Context) {t : Tree} (h : t.Walkable) :
    ∃ es, valueErrors? c t = some es := by
  cases t with
  | node k fields => exact exists_ruleErrors c h
  | list items =>
    refine exists_itemRuleErrors c (fun v hv => ?_) 0
    rcases h v hv with rfl | hfit
    · exact ⟨[], rfl⟩
    · cases v with
      | node k fields => exact exists_ruleErrors c hfit
      | _ => exact hfit.elim
  | _ => exact ⟨[], rfl⟩

theorem valueErrors?_leaf {c : Context} {t : Tree} (h : t.isLeaf = true) :
    valueErrors? c t = some [] := by
  cases t with
  | list items => cases h
  | node k fields => cases h
  | _ => rfl

/-- An error in a value is one of the node that the value is, or one in a part of it. -/
theorem mem_valueErrors? {c : Context} {t : Tree} {es : List EarlyError} (ht : t.Walkable)
    (h : valueErrors? c t = some es) {e : EarlyError} : e ∈ es ↔
      (∃ k fields, ∃ own, t = .node k fields ∧ nodeErrors c k fields = some own ∧ e ∈ own) ∨
      ∃ s v inner es', ∃ e' ∈ es', t.childAt s = .ok v ∧
        contextIn? c (t.entered s) = some inner ∧ valueErrors? inner v = some es' ∧
        e = e'.under s := by
  cases t with
  | node k fields =>
    rw [valueErrors?.eq_2 _ _ (by simp), ruleErrors] at h
    obtain ⟨own, hown, h⟩ := Option.bind_eq_some_iff.1 h
    obtain ⟨rest, hrest, h⟩ := Option.bind_eq_some_iff.1 h
    cases h
    rw [List.mem_append, mem_fieldRuleErrors hrest]
    refine or_congr ⟨fun he => ⟨k, fields, own, rfl, hown, he⟩, ?_⟩ ⟨?_, ?_⟩
    · rintro ⟨k', fields', own', hnode, hown', he⟩
      cases hnode
      cases hown.symm.trans hown'
      exact he
    · rintro ⟨n, v, inner, es', e', he', hmem, -, hinner, hes', rfl⟩
      exact ⟨.field n, v, inner, es', e', he', childAt_node.2 ⟨n, rfl, hmem⟩, hinner, hes', rfl⟩
    · rintro ⟨s, v, inner, es', e', he', hchild, hinner, hes', rfl⟩
      obtain ⟨n, rfl, hmem⟩ := childAt_node.1 hchild
      refine ⟨n, v, inner, es', e', he', hmem, ?_, hinner, hes', rfl⟩
      -- there are no errors in a value without parts
      cases hleaf : v.isLeaf with
      | false => rfl
      | true =>
        rw [valueErrors?_leaf hleaf] at hes'
        cases hes'
        cases he'
  | list items =>
    have hsame : ∀ {v : Tree}, v ∈ items → valueErrors? c v = ruleErrors c v := by
      intro v hv
      rcases ht v hv with rfl | hfit
      · rfl
      · cases v with
        | list items => exact hfit.elim
        | _ => rfl
    rw [mem_itemRuleErrors h]
    constructor
    · rintro ⟨j, v, es', e', he', hv, hes', rfl⟩
      refine .inr ⟨.index j, v, c, es', e', he', childAt_list.2 ⟨j, rfl, hv⟩, rfl, ?_, ?_⟩
      · rw [hsame (List.mem_of_getElem? hv), hes']
      · rw [Nat.zero_add]
    · rintro (⟨k, fields, own, hnode, -⟩ | ⟨s, v, inner, es', e', he', hchild, hinner, hes', rfl⟩)
      · cases hnode
      · obtain ⟨j, rfl, hv⟩ := childAt_list.1 hchild
        cases hinner
        refine ⟨j, v, es', e', he', hv, ?_, by rw [Nat.zero_add]⟩
        rw [← hsame (List.mem_of_getElem? hv), hes']
  | _ =>
    cases h
    refine iff_of_false (by simp) ?_
    rintro (⟨k, fields, own, hnode, -⟩ | ⟨s, v, inner, es', e', he', hchild, -⟩)
    · cases hnode
    · exact childAt_leaf rfl hchild

/-! ## Reported errors -/

/-- A node in a tree breaks a rule in its context; `c` is the context of the tree. -/
def Reported (c : Context) (t : Tree) (e : EarlyError) : Prop :=
  ∃ p k fields inner own, ∃ e' ∈ own, t.get p = .ok (.node k fields) ∧
    contextIn? c (t.ancestors p) = some inner ∧ nodeErrors inner k fields = some own ∧
    e = ⟨p ++ e'.path, e'.violation⟩

/-- An error is reported in a tree if the node that the tree is breaks a rule, or if one is
reported in a part of it. -/
theorem reported_iff {c : Context} {t : Tree} {e : EarlyError} : Reported c t e ↔
    (∃ k fields, ∃ own, t = .node k fields ∧ nodeErrors c k fields = some own ∧ e ∈ own) ∨
    ∃ s v inner e', t.childAt s = .ok v ∧ contextIn? c (t.entered s) = some inner ∧
      Reported inner v e' ∧ e = e'.under s := by
  constructor
  · rintro ⟨p, k, fields, inner, own, e', he', hget, hinner, hown, rfl⟩
    cases p with
    | nil =>
      cases hget
      cases hinner
      exact .inl ⟨k, fields, own, rfl, hown, he'⟩
    | cons s p =>
      obtain ⟨v, hv, hget⟩ := Tree.get_cons_eq_ok.1 hget
      rw [ancestors_cons hv, contextIn?_append, Option.bind_eq_some_iff] at hinner
      obtain ⟨outer, houter, hinner⟩ := hinner
      exact .inr ⟨s, v, outer, _, hv, houter, ⟨p, k, fields, inner, own, e', he', hget, hinner,
        hown, rfl⟩, rfl⟩
  · rintro (⟨k, fields, own, rfl, hown, he⟩ | ⟨s, v, outer, e', hv, houter, hreported, rfl⟩)
    · exact ⟨[], k, fields, c, own, e, he, rfl, rfl, hown, rfl⟩
    · obtain ⟨p, k, fields, inner, own, e'', he'', hget, hinner, hown, rfl⟩ := hreported
      refine ⟨s :: p, k, fields, inner, own, e'', he'', Tree.get_cons_eq_ok.2 ⟨v, hv, hget⟩, ?_,
        hown, rfl⟩
      rw [ancestors_cons hv, contextIn?_append, houter]
      exact hinner

theorem sizeOf_childAt {t v : Tree} {s : Step} (h : t.childAt s = .ok v) : sizeOf v < sizeOf t := by
  obtain ⟨i, -, hi⟩ := Tree.childAt_eq_ok.1 h
  have hlt := List.sizeOf_lt_of_mem (List.mem_of_getElem? hi)
  cases t <;> simp_all [Tree.parts] <;> omega

/-- What the walk finds in a value is what is reported in it. -/
theorem mem_iff_reported {c : Context} {t : Tree} {es : List EarlyError} (ht : t.Walkable)
    (h : valueErrors? c t = some es) {e : EarlyError} : e ∈ es ↔ Reported c t e := by
  rw [mem_valueErrors? ht h, reported_iff]
  refine or_congr_right ?_
  constructor
  · rintro ⟨s, v, inner, es', e', he', hv, hinner, hes', rfl⟩
    have := sizeOf_childAt hv
    exact ⟨s, v, inner, e', hv, hinner, (mem_iff_reported (ht.child hv) hes').1 he', rfl⟩
  · rintro ⟨s, v, inner, e', hv, hinner, hreported, rfl⟩
    have := sizeOf_childAt hv
    obtain ⟨es', hes'⟩ := exists_valueErrors? inner (ht.child hv)
    exact ⟨s, v, inner, es', e', (mem_iff_reported (ht.child hv) hes').2 hreported, hv, hinner,
      hes', rfl⟩
termination_by sizeOf t

/-- The early errors of a well-typed tree are those that its nodes report. -/
theorem mem_earlyErrors {t : Tree} (ht : t.wellTyped = true) {e : EarlyError} :
    e ∈ earlyErrors t ↔ Reported {} t e := by
  have hfit := wellTyped_iff.1 ht
  cases t with
  | node k fields =>
    obtain ⟨es, hes⟩ := exists_ruleErrors {} hfit
    have htype : typeErrors (.node k fields) = [] := List.isEmpty_iff.1 ht
    rw [earlyErrors, earlyErrors?, htype]
    simp only [hes, Option.getD_some]
    exact mem_iff_reported (t := .node k fields) hfit hes
  | _ => exact hfit.elim

end Whittle
