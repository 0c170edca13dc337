import Whittle.Proofs.Validity.Located
import Whittle.Proofs.Validity.Places

/-!
# Hoisted names

A `var` declaration is one of the function that it is in, however deep it is in statements there.
The names that are gathered from a statement are those of all `var` declarations in it that no
body of a function is around.
-/

namespace Whittle

open Grammar Whittle.Language

/-! ## Declarations at paths -/

/-- A variable declaration with the given word declares a name; the path is that of its
declarator. -/
inductive Declarator : Tree → String → Path → String → Prop
  | intro {word : String} {ds : List Tree} {i : Nat} {x : String} {init : Tree}
    (h : ds[i]? = some (.node .variableDeclarator [.node .bindingIdentifier [.str x], init])) :
    Declarator (.node .variableDeclaration [.str word, .list ds]) word
      [.field "declarators", .index i] x

/-- No step of the path enters the body of a function. -/
def EntersNoBody (t : Tree) (p : Path) : Prop :=
  ∀ q r u, p = q ++ r → q ≠ [] → t.get q = .ok u → u.isKind .functionBody = false

/-- In a tree a name is declared by `var`, in the body of no function that is in it. -/
def BindsVar (t : Tree) (x : String) : Prop :=
  ∃ p d q, t.get p = .ok d ∧ Declarator d "var" q x ∧ EntersNoBody t p

/-- The same of what is in a tree and is no body of a function itself. -/
def Reaches (t : Tree) (x : String) : Prop := t.isKind .functionBody = false ∧ BindsVar t x

variable {k : Kind} {fields : List Tree} {t v : Tree} {x : String} {s : Step} {p : Path}

theorem entersNoBody_cons (hv : t.childAt s = .ok v) :
    EntersNoBody t (s :: p) ↔ v.isKind .functionBody = false ∧ EntersNoBody v p := by
  constructor
  · intro h
    refine ⟨h [s] p v rfl (by simp) (Tree.get_cons_eq_ok.2 ⟨v, hv, rfl⟩), ?_⟩
    rintro q r u rfl - hu
    exact h (s :: q) r u rfl (by simp) (Tree.get_cons_eq_ok.2 ⟨v, hv, hu⟩)
  · rintro ⟨hbody, h⟩ q r u hq hne hu
    cases q with
    | nil => exact absurd rfl hne
    | cons s' q =>
      obtain ⟨rfl, rfl⟩ := List.cons.inj hq
      obtain ⟨v', hv', hu⟩ := Tree.get_cons_eq_ok.1 hu
      cases hv.symm.trans hv'
      cases q with
      | nil =>
        cases hu
        exact hbody
      | cons s' q => exact h (s' :: q) r u rfl (by simp) hu

/-- A tree declares a name itself or a part of it does. -/
theorem bindsVar_iff : BindsVar t x ↔
    (∃ q, Declarator t "var" q x) ∨ ∃ s v, t.childAt s = .ok v ∧ Reaches v x := by
  constructor
  · rintro ⟨p, d, q, hd, hx, hp⟩
    cases p with
    | nil =>
      cases hd
      exact .inl ⟨q, hx⟩
    | cons s p =>
      obtain ⟨v, hv, hd⟩ := Tree.get_cons_eq_ok.1 hd
      obtain ⟨hbody, hp⟩ := (entersNoBody_cons hv).1 hp
      exact .inr ⟨s, v, hv, hbody, p, d, q, hd, hx, hp⟩
  · rintro (⟨q, hx⟩ | ⟨s, v, hv, hbody, p, d, q, hd, hx, hp⟩)
    · refine ⟨[], t, q, rfl, hx, fun q r u hq hne => ?_⟩
      exact absurd (List.append_eq_nil_iff.1 hq.symm).1 hne
    · exact ⟨s :: p, d, q, Tree.get_cons_eq_ok.2 ⟨v, hv, hd⟩, hx,
        (entersNoBody_cons hv).2 ⟨hbody, hp⟩⟩

theorem BindsVar.of_declarator {q : Path} (h : Declarator t "var" q x) : BindsVar t x :=
  bindsVar_iff.2 (.inl ⟨q, h⟩)

theorem BindsVar.of_child (hv : t.childAt s = .ok v) (hbody : v.isKind .functionBody = false)
    (h : BindsVar v x) : BindsVar t x :=
  bindsVar_iff.2 (.inr ⟨s, v, hv, hbody, h⟩)

theorem bindsVar_node (hlen : fields.length = k.fieldNames.length)
    (hk : k ≠ .variableDeclaration) :
    BindsVar (.node k fields) x ↔ ∃ v ∈ fields, Reaches v x := by
  rw [bindsVar_iff]
  constructor
  · rintro (⟨q, ⟨⟩⟩ | ⟨s, v, hv, hreaches⟩)
    · exact absurd rfl hk
    · obtain ⟨name, -, hmem⟩ := childAt_node.1 hv
      exact ⟨v, (List.of_mem_zip hmem).2, hreaches⟩
  · rintro ⟨v, hv, hreaches⟩
    obtain ⟨i, hi⟩ := List.mem_iff_getElem?.1 hv
    have hlt : i < k.fieldNames.length := hlen ▸ (List.getElem?_eq_some_iff.1 hi).1
    have hzip : (k.fieldNames[i], v) ∈ k.fieldNames.zip fields :=
      List.mem_of_getElem? (List.getElem?_zip_eq_some.2 ⟨List.getElem?_eq_getElem hlt, hi⟩)
    exact .inr ⟨.field k.fieldNames[i], v, childAt_node.2 ⟨_, rfl, hzip⟩, hreaches⟩

theorem reaches_list {vs : List Tree} : Reaches (.list vs) x ↔ ∃ v ∈ vs, Reaches v x := by
  constructor
  · rintro ⟨-, h⟩
    rcases bindsVar_iff.1 h with ⟨q, ⟨⟩⟩ | ⟨s, v, hv, hreaches⟩
    obtain ⟨j, -, hj⟩ := childAt_list.1 hv
    exact ⟨v, List.mem_of_getElem? hj, hreaches⟩
  · rintro ⟨v, hv, hreaches⟩
    obtain ⟨j, hj⟩ := List.mem_iff_getElem?.1 hv
    exact ⟨rfl, bindsVar_iff.2 (.inr ⟨.index j, v, childAt_list.2 ⟨j, rfl, hj⟩, hreaches⟩)⟩

theorem not_reaches_leaf (h : v.isLeaf = true) : ¬ Reaches v x := by
  rintro ⟨-, hv⟩
  rcases bindsVar_iff.1 hv with ⟨q, ⟨⟩⟩ | ⟨s, u, hu, -⟩
  · cases h
  · exact childAt_leaf h hu

/-! ## Nodes without declarations -/

/-- Whether a node of kind `k` may be in a field of a node of this kind, or in a list there. -/
def Kind.mayHold (l k : Kind) : Bool :=
  l.slots.any fun s => s.position.any fun type =>
    type.required.takes k || (itemType? (some type)).any (·.required.takes k)

/-- Whether a node of kind `k` may be in a field, or in the list there. -/
def Language.Slot.mayHold (s : Slot) (inList : Bool) (k : Kind) : Bool :=
  s.position.any fun type =>
    if inList then (itemType? (some type)).any (·.required.takes k) else type.required.takes k

/-- What is in a field is of a kind that the field may hold. -/
theorem FieldsFit.exists_slot (h : FieldsFit false k k.slots fields) {name : String} {v : Tree}
    (hmem : (name, v) ∈ k.fieldNames.zip fields) : ∃ s ∈ k.slots, s.name = name ∧
      (∀ l fs, v = .node l fs → s.mayHold false l = true) ∧
      ∀ items, v = .list items → ∀ l fs, .node l fs ∈ items → s.mayHold true l = true := by
  obtain ⟨i, hi⟩ := List.mem_iff_getElem?.1 hmem
  obtain ⟨hname, hv⟩ := List.getElem?_zip_eq_some.1 hi
  obtain ⟨hlt, rfl⟩ := List.getElem?_eq_some_iff.1 hv
  rw [← List.take_append_drop i fields, List.drop_eq_getElem_cons hlt] at h
  obtain ⟨s, hs, hfit⟩ := h.middle
  rw [List.length_take_of_le hlt.le] at hs
  have hslot := List.mem_of_getElem? hs
  refine ⟨s, hslot, ?_, ?_⟩
  · rw [Kind.fieldNames, List.getElem?_map, hs] at hname
    exact Option.some.inj hname
  rw [FitsSlot, slotPosition_strict] at hfit
  cases htype : s.position with
  | none =>
    have hplain := isPlainSlot_of_mem hslot
    rw [htype] at hfit
    rw [isPlainSlot, htype] at hplain
    have hleaf := isLeaf_of_admits hplain hfit
    constructor
    · intro l fs heq
      rw [heq] at hleaf
      cases hleaf
    · intro items heq
      rw [heq] at hleaf
      cases hleaf
  | some type =>
    rw [htype] at hfit
    constructor
    · intro l fs heq
      rw [heq] at hfit
      simpa [Slot.mayHold, htype] using hfit.1
    · intro items heq l fs hl
      rw [heq] at hfit
      obtain ⟨t, rfl, hitems⟩ := hfit
      simpa [Slot.mayHold, htype, itemType?] using (itemsFit_iff.1 hitems _ hl).1

theorem FieldsFit.mayHold (h : FieldsFit false k k.slots fields) {v : Tree} (hv : v ∈ fields) :
    (∀ l fs, v = .node l fs → k.mayHold l = true) ∧
      ∀ items, v = .list items → ∀ l fs, .node l fs ∈ items → k.mayHold l = true := by
  have hslot : ∀ {s : Slot} {inList : Bool} {l : Kind}, s ∈ k.slots →
      s.mayHold inList l = true → k.mayHold l = true := by
    intro s inList l hs hl
    rw [Slot.mayHold, Option.any_eq_true] at hl
    obtain ⟨type, htype, hl⟩ := hl
    rw [Kind.mayHold, List.any_eq_true]
    refine ⟨s, hs, ?_⟩
    rw [htype, Option.any_some, Bool.or_eq_true]
    cases inList with
    | false => exact .inl hl
    | true => exact .inr hl
  obtain ⟨i, hi, rfl⟩ := List.mem_iff_getElem.1 hv
  have hnames : i < k.fieldNames.length := by
    rw [Kind.fieldNames, List.length_map, ← h.length_eq]
    exact hi
  have hmem : (k.fieldNames[i], fields[i]) ∈ k.fieldNames.zip fields :=
    List.mem_iff_getElem.2 ⟨i, by simp [hi, hnames], by simp⟩
  obtain ⟨s, hs, -, hnode, hlist⟩ := h.exists_slot hmem
  constructor
  · intro l fs heq
    exact hslot hs (hnode l fs heq)
  · intro items heq l fs hl
    exact hslot hs (hlist items heq l fs hl)

/-- The kinds of nodes that have statements and are in none, bodies of functions included. -/
def Kind.programParts : List Kind := [.script, .esModule, .exportDeclaration, .functionBody]

/-- The kinds of nodes in which there are no statements but in bodies of functions. -/
def Kind.isVarFree (k : Kind) : Bool :=
  !(Kind.programParts.contains k || k == .variableDeclaration || Tree.hoistingKinds.contains k)

theorem isVarFree_of_mayHold {k l : Kind} (hk : k.isVarFree = true) (hl : k.mayHold l = true) :
    l.isVarFree = true ∨ l = .functionBody := by
  have hall : Kind.all.all (fun k => !k.isVarFree || Kind.all.all fun l =>
      !k.mayHold l || l.isVarFree || l == .functionBody) = true := by
    decide +kernel
  have h := Kind.forall_of_all hall k
  rw [hk, Bool.not_true, Bool.false_or] at h
  have h := Kind.forall_of_all h l
  rw [hl, Bool.not_true, Bool.false_or, Bool.or_eq_true, beq_iff_eq] at h
  exact h

theorem not_bindsVar {k : Kind} {fields : List Tree} (hk : k.isVarFree = true)
    (h : FieldsFit false k k.slots fields) : ¬ BindsVar (.node k fields) x := by
  have hlen : fields.length = k.fieldNames.length := by
    rw [h.length_eq, Kind.fieldNames, List.length_map]
  have hdeclaration : k ≠ .variableDeclaration := by
    rintro rfl
    cases hk
  rw [bindsVar_node hlen hdeclaration]
  rintro ⟨v, hv, hreaches⟩
  -- a node in a field, or in a list there, is without statements too
  have hnode : ∀ l fs, sizeOf (Tree.node l fs) < sizeOf (Tree.node k fields) →
      k.mayHold l = true → FieldsFit false l l.slots fs → ¬ Reaches (.node l fs) x := by
    rintro l fs hlt hl hfs ⟨hbody, hbinds⟩
    rcases isVarFree_of_mayHold hk hl with hfree | rfl
    · exact not_bindsVar hfree hfs hbinds
    · cases hbody
  have hlt := List.sizeOf_lt_of_mem hv
  cases v with
  | node l fs =>
    refine hnode l fs ?_ ((h.mayHold hv).1 l fs rfl) ((h.part hv).1 l fs rfl) hreaches
    simp only [Tree.node.sizeOf_spec] at hlt ⊢
    omega
  | list items =>
    obtain ⟨w, hw, hreaches⟩ := reaches_list.1 hreaches
    have hlt' := List.sizeOf_lt_of_mem hw
    rcases h.walkable hv w hw with rfl | hfit
    · exact not_reaches_leaf rfl hreaches
    · cases w with
      | node l fs =>
        refine hnode l fs ?_ ((h.mayHold hv).2 items rfl l fs hw) hfit hreaches
        simp only [Tree.node.sizeOf_spec, Tree.list.sizeOf_spec] at hlt hlt' ⊢
        omega
      | _ => exact hfit.elim
  | _ => exact not_reaches_leaf rfl hreaches
termination_by sizeOf (Tree.node k fields)
decreasing_by assumption

/-- Positions that take only nodes without statements reach no declaration. -/
theorem not_reaches_of_union {t : TypeSpec} {ms : List (Head Kind)}
    (ht : positionOf t = some (.union ms))
    (hms : Kind.all.all (fun l => !(PositionType.union ms).takes l || l.isVarFree) = true)
    {v : Tree} (h : FitsType false t v) : ¬ Reaches v x := by
  obtain ⟨l, fs, rfl, hl, hfs⟩ := (fitsType_union ht).1 h
  have hfree := Kind.forall_of_all hms l
  rw [hl, Bool.not_true, Bool.false_or] at hfree
  exact fun hreaches => not_bindsVar hfree hfs hreaches.2

theorem not_reaches_of_maybe {t : TypeSpec} {ms : List (Head Kind)}
    (ht : positionOf t = some (.maybe (.union ms)))
    (hms : Kind.all.all (fun l => !(PositionType.union ms).takes l || l.isVarFree) = true)
    {v : Tree} (h : FitsType false t v) : ¬ Reaches v x := by
  rcases (fitsType_maybe ht).1 h with rfl | ⟨l, fs, rfl, hl, hfs⟩
  · exact not_reaches_leaf rfl
  · have hfree := Kind.forall_of_all hms l
    rw [hl, Bool.not_true, Bool.false_or] at hfree
    exact fun hreaches => not_bindsVar hfree hfs hreaches.2

theorem not_reaches_of_list {t : TypeSpec} {ms : List (Head Kind)}
    (ht : positionOf t = some (.union ms))
    (hms : Kind.all.all (fun l => !(PositionType.union ms).takes l || l.isVarFree) = true)
    {v : Tree} (h : FitsType false (.list t) v) : ¬ Reaches v x := by
  obtain ⟨items, rfl, hitems⟩ := (fitsType_list ht).1 h
  rw [reaches_list]
  rintro ⟨w, hw, hreaches⟩
  exact not_reaches_of_union ht hms (hitems w hw) hreaches

/-! ## Gathered names -/

theorem not_mem_programParts {k l : Kind} (hk : Tree.hoistingKinds.contains k = true)
    (hl : k.mayHold l = true) : l ∉ Kind.programParts := by
  have hall : Kind.all.all (fun k => !Tree.hoistingKinds.contains k || Kind.all.all fun l =>
      !k.mayHold l || !Kind.programParts.contains l) = true := by
    decide +kernel
  have h := Kind.forall_of_all hall k
  rw [hk, Bool.not_true, Bool.false_or] at h
  simpa [hl] using Kind.forall_of_all h l

theorem isKind_functionBody {k : Kind} (hk : k ∉ Kind.programParts) (fields : List Tree) :
    (Tree.node k fields).isKind .functionBody = false := by
  rw [Bool.eq_false_iff]
  intro hbody
  obtain rfl := Option.some.inj (beq_iff_eq.1 hbody)
  exact hk (by decide)

theorem mem_allHoistedNames? {items : List Tree} {ns : List String}
    (h : Tree.allHoistedNames? items = some ns) {P : Tree → Prop}
    (hP : ∀ v ∈ items, ∀ ns, v.hoistedNames? = some ns → (x ∈ ns ↔ P v)) :
    x ∈ ns ↔ ∃ v ∈ items, P v := by
  induction items generalizing ns with
  | nil =>
    cases h
    simp
  | cons v vs ih =>
    obtain ⟨ns, hns, h⟩ := Option.bind_eq_some_iff.1 h
    obtain ⟨ms, hms, h⟩ := Option.bind_eq_some_iff.1 h
    cases h
    rw [List.mem_append, hP v List.mem_cons_self ns hns,
      ih hms fun w hw => hP w (List.mem_cons_of_mem _ hw)]
    simp

/-- The names that are gathered from the nodes below a node are those that are declared there. -/
def GathersBelow (t : Tree) (x : String) : Prop :=
  ∀ l fs ns, sizeOf (Tree.node l fs) < sizeOf t → l ∉ Kind.programParts →
    FieldsFit false l l.slots fs → (Tree.node l fs).hoistedNames? = some ns →
    (x ∈ ns ↔ BindsVar (.node l fs) x)

section Gathers

variable {k : Kind} {fields : List Tree} {ns : List String}

theorem GathersBelow.node (hbelow : GathersBelow (.node k fields) x)
    (hk : Tree.hoistingKinds.contains k = true) {l : Kind} {fs : List Tree}
    (hlt : sizeOf (Tree.node l fs) < sizeOf (Tree.node k fields)) (hl : k.mayHold l = true)
    (hfs : FieldsFit false l l.slots fs) (hns : (Tree.node l fs).hoistedNames? = some ns) :
    x ∈ ns ↔ Reaches (.node l fs) x := by
  have hmem := not_mem_programParts hk hl
  rw [hbelow l fs ns hlt hmem hfs hns, Reaches, and_iff_right (isKind_functionBody hmem fs)]

theorem GathersBelow.part (hbelow : GathersBelow (.node k fields) x)
    (hk : Tree.hoistingKinds.contains k = true) (h : FieldsFit false k k.slots fields) {v : Tree}
    (hv : v ∈ fields) (hns : v.hoistedNames? = some ns) : x ∈ ns ↔ Reaches v x := by
  have hlt := List.sizeOf_lt_of_mem hv
  cases v with
  | absent =>
    cases hns
    exact iff_of_false nofun (not_reaches_leaf rfl)
  | node l fs =>
    refine hbelow.node hk ?_ ((h.mayHold hv).1 l fs rfl) ((h.part hv).1 l fs rfl) hns
    simp only [Tree.node.sizeOf_spec] at hlt ⊢
    omega
  | _ => cases hns

theorem GathersBelow.items (hbelow : GathersBelow (.node k fields) x)
    (hk : Tree.hoistingKinds.contains k = true) (h : FieldsFit false k k.slots fields)
    {items : List Tree} (hv : .list items ∈ fields)
    (hns : Tree.allHoistedNames? items = some ns) : x ∈ ns ↔ Reaches (.list items) x := by
  rw [reaches_list]
  refine mem_allHoistedNames? hns fun w hw ns hns => ?_
  have hlt := List.sizeOf_lt_of_mem hv
  have hlt' := List.sizeOf_lt_of_mem hw
  cases w with
  | absent =>
    cases hns
    exact iff_of_false nofun (not_reaches_leaf rfl)
  | node l fs =>
    refine hbelow.node hk ?_ ((h.mayHold hv).2 items rfl l fs hw)
      ((h.part hv).2 items rfl l fs hw) hns
    simp only [Tree.node.sizeOf_spec, Tree.list.sizeOf_spec] at hlt hlt' ⊢
    omega
  | _ => cases hns

end Gathers

/-- The names that a statement gathers from its parts are those of the declarations in it. -/
theorem mem_hoistedNames?_step {k : Kind} {fields : List Tree} {ns : List String}
    (hk : Tree.hoistingKinds.contains k = true) (h : FieldsFit false k k.slots fields)
    (hns : (Tree.node k fields).hoistedNames? = some ns)
    (hbelow : GathersBelow (.node k fields) x) : x ∈ ns ↔ BindsVar (.node k fields) x := by
  have hpart : ∀ v ∈ fields, ∀ ns, v.hoistedNames? = some ns → (x ∈ ns ↔ Reaches v x) :=
    fun _ hv _ hns => hbelow.part hk h hv hns
  have hitems : ∀ items, .list items ∈ fields → ∀ ns, Tree.allHoistedNames? items = some ns →
      (x ∈ ns ↔ Reaches (.list items) x) :=
    fun _ hv _ hns => hbelow.items hk h hv hns
  have hexpression : ∀ {v}, FitsType false expression v → ¬ Reaches v x := fun hv =>
    not_reaches_of_union rfl (by decide) hv
  have hmaybe : ∀ {v}, FitsType false (.maybe expression) v → ¬ Reaches v x := fun hv =>
    not_reaches_of_maybe rfl (by decide) hv
  have hlen : fields.length = k.fieldNames.length := by
    rw [h.length_eq, Kind.fieldNames, List.length_map]
  rw [bindsVar_node hlen (by rintro rfl; cases hk)]
  cases k
  case variableDeclarationStatement =>
    obtain ⟨d, rfl, hd⟩ := (fit_one rfl rfl).1 h
    obtain ⟨fs, rfl, -⟩ := fitsType_node.1 hd
    simp [hpart _ List.mem_cons_self ns hns]
  case blockStatement =>
    obtain ⟨b, rfl, -⟩ := (fit_one rfl rfl).1 h
    simp [hpart b List.mem_cons_self ns hns]
  case block | switchDefault =>
    obtain ⟨list, rfl, hlist⟩ := (fit_one rfl rfl).1 h
    obtain ⟨items, rfl, -⟩ := (fitsType_list rfl).1 hlist
    simp [hitems items List.mem_cons_self ns hns]
  case ifStatement =>
    obtain ⟨test, c, a, rfl, htest, -, -⟩ := (fit_three rfl rfl).1 h
    obtain ⟨cs, hcs, hns⟩ := Option.bind_eq_some_iff.1 hns
    obtain ⟨as, has, hns⟩ := Option.bind_eq_some_iff.1 hns
    cases hns
    simp [hpart c (by simp) cs hcs, hpart a (by simp) as has, hexpression htest]
  case doWhileStatement =>
    obtain ⟨b, test, rfl, -, htest⟩ := (fit_two rfl rfl).1 h
    simp [hpart b (by simp) ns hns, hexpression htest]
  case whileStatement =>
    obtain ⟨test, b, rfl, htest, -⟩ := (fit_two rfl rfl).1 h
    simp [hpart b (by simp) ns hns, hexpression htest]
  case labeledStatement =>
    obtain ⟨label, b, rfl, hlabel, -⟩ := (fit_two rfl rfl).1 h
    obtain ⟨s, rfl⟩ := fitsType_string.1 hlabel
    simp [hpart b (by simp) ns hns, not_reaches_leaf (v := .str s) rfl]
  case catchClause =>
    obtain ⟨param, b, rfl, hparam, -⟩ := (fit_two rfl rfl).1 h
    have hno : ¬ Reaches param x := not_reaches_of_maybe rfl (by decide) hparam
    simp [hpart b (by simp) ns hns, hno]
  case forStatement =>
    obtain ⟨init, test, update, b, rfl, -, htest, hupdate, -⟩ := (fit_four rfl rfl).1 h
    obtain ⟨is, his, hns⟩ := Option.bind_eq_some_iff.1 hns
    obtain ⟨bs, hbs, hns⟩ := Option.bind_eq_some_iff.1 hns
    cases hns
    simp [hpart init (by simp) is his, hpart b (by simp) bs hbs, hmaybe htest, hmaybe hupdate]
  case tryCatchStatement =>
    obtain ⟨b, c, rfl, -, -⟩ := (fit_two rfl rfl).1 h
    obtain ⟨bs, hbs, hns⟩ := Option.bind_eq_some_iff.1 hns
    obtain ⟨cs, hcs, hns⟩ := Option.bind_eq_some_iff.1 hns
    cases hns
    simp [hpart b (by simp) bs hbs, hpart c (by simp) cs hcs]
  case tryFinallyStatement =>
    obtain ⟨b, c, f, rfl, -, -, -⟩ := (fit_three rfl rfl).1 h
    obtain ⟨bs, hbs, hns⟩ := Option.bind_eq_some_iff.1 hns
    obtain ⟨cs, hcs, hns⟩ := Option.bind_eq_some_iff.1 hns
    obtain ⟨fs, hfs, hns⟩ := Option.bind_eq_some_iff.1 hns
    cases hns
    simp [hpart b (by simp) bs hbs, hpart c (by simp) cs hcs, hpart f (by simp) fs hfs]
  case switchStatement =>
    obtain ⟨subject, list, rfl, hsubject, hlist⟩ := (fit_two rfl rfl).1 h
    obtain ⟨items, rfl, -⟩ := (fitsType_list rfl).1 hlist
    simp [hitems items (by simp) ns hns, hexpression hsubject]
  case switchCase =>
    obtain ⟨test, list, rfl, htest, hlist⟩ := (fit_two rfl rfl).1 h
    obtain ⟨items, rfl, -⟩ := (fitsType_list rfl).1 hlist
    simp [hitems items (by simp) ns hns, hexpression htest]
  case switchStatementWithDefault =>
    obtain ⟨subject, before, d, after, rfl, hsubject, hbefore, -, hafter⟩ :=
      (fit_four rfl rfl).1 h
    obtain ⟨bs, rfl, -⟩ := (fitsType_list rfl).1 hbefore
    obtain ⟨as, rfl, -⟩ := (fitsType_list rfl).1 hafter
    obtain ⟨bns, hbns, hns⟩ := Option.bind_eq_some_iff.1 hns
    obtain ⟨dns, hdns, hns⟩ := Option.bind_eq_some_iff.1 hns
    obtain ⟨ans, hans, hns⟩ := Option.bind_eq_some_iff.1 hns
    cases hns
    simp [hitems bs (by simp) bns hbns, hpart d (by simp) dns hdns, hitems as (by simp) ans hans,
      hexpression hsubject]
  all_goals cases hk

/-! ## Declared names -/

theorem getElem?_of_mapM {α β : Type} {f : α → Option β} {xs : List α} {ys : List β}
    (h : xs.mapM f = some ys) (i : Nat) : ys[i]? = xs[i]?.bind f := by
  induction xs generalizing ys i with
  | nil =>
    cases h
    simp
  | cons x xs ih =>
    rw [List.mapM_cons] at h
    obtain ⟨y, hy, h⟩ := Option.bind_eq_some_iff.1 h
    obtain ⟨ys, hys, h⟩ := Option.bind_eq_some_iff.1 h
    cases h
    cases i with
    | zero => exact hy.symm
    | succ i => exact ih hys i

theorem mem_of_mapM {α β : Type} {f : α → Option β} {xs : List α} {ys : List β}
    (h : xs.mapM f = some ys) {y : β} (hy : y ∈ ys) : ∃ x ∈ xs, f x = some y := by
  obtain ⟨i, hi⟩ := List.mem_iff_getElem?.1 hy
  rw [getElem?_of_mapM h i] at hi
  obtain ⟨x, hx, hy⟩ := Option.bind_eq_some_iff.1 hi
  exact ⟨x, List.mem_of_getElem? hx, hy⟩

theorem exists_of_mapM {α β : Type} {f : α → Option β} {xs : List α} {ys : List β}
    (h : xs.mapM f = some ys) {x : α} (hx : x ∈ xs) : ∃ y ∈ ys, f x = some y := by
  induction xs generalizing ys with
  | nil => cases hx
  | cons x' xs ih =>
    rw [List.mapM_cons] at h
    obtain ⟨y, hy, h⟩ := Option.bind_eq_some_iff.1 h
    obtain ⟨ys, hys, h⟩ := Option.bind_eq_some_iff.1 h
    cases h
    rcases List.mem_cons.1 hx with rfl | hx
    · exact ⟨y, List.mem_cons_self, hy⟩
    · obtain ⟨z, hz, hfx⟩ := ih hys hx
      exact ⟨z, List.mem_cons_of_mem _ hz, hfx⟩

theorem bindingName?_eq_some {b : Tree} :
    b.bindingName? = some x ↔ b = .node .bindingIdentifier [.str x] := by
  constructor
  · intro h
    unfold Tree.bindingName? at h
    split at h
    · cases h
      rfl
    · cases h
  · rintro rfl
    rfl

/-- The names of a declaration stand at its declarators. -/
theorem places_declared? {d : Tree} {word : String} {names : List String}
    (h : d.declared? = some (word, names)) : Places names (Declarator d word) := by
  unfold Tree.declared? at h
  split at h
  · rename_i ds
    obtain ⟨ms, hms, h⟩ := Option.bind_eq_some_iff.1 h
    cases h
    refine ((Places.items names).under [.field "declarators"]).congr fun p x => ?_
    constructor
    · rintro ⟨_, rfl, i, rfl, hi⟩
      rw [getElem?_of_mapM hms i] at hi
      obtain ⟨d, hd, hx⟩ := Option.bind_eq_some_iff.1 hi
      split at hx
      · obtain rfl := bindingName?_eq_some.1 hx
        exact .intro hd
      · cases hx
    · rintro ⟨hd⟩
      rename_i i init
      refine ⟨[.index i], rfl, i, rfl, ?_⟩
      rw [getElem?_of_mapM hms i, hd]
      rfl
  · cases h

theorem Declarator.word_eq {d : Tree} {w word : String} {names : List String}
    (h : Declarator d w p x) (hd : d.declared? = some (word, names)) : word = w := by
  obtain ⟨h⟩ := h
  obtain ⟨ns, -, hd⟩ := Option.bind_eq_some_iff.1 hd
  cases hd
  rfl

theorem mem_varNames? {d : Tree} {ns : List String} (h : d.varNames? = some ns) :
    x ∈ ns ↔ ∃ q, Declarator d "var" q x := by
  obtain ⟨⟨word, names⟩, hd, h⟩ := Option.bind_eq_some_iff.1 h
  cases h
  by_cases hword : word = "var"
  · subst hword
    exact (places_declared? hd).mem
  · rw [if_neg (by simpa using hword)]
    exact iff_of_false nofun fun ⟨q, hq⟩ => hword (hq.word_eq hd)

/-- The names that a declaration declares lexically stand at its declarators. -/
theorem places_letNames? {d : Tree} {ns : List String} (h : d.letNames? = some ns) :
    Places ns fun p x => ∃ word, word ≠ "var" ∧ Declarator d word p x := by
  obtain ⟨⟨word, names⟩, hd, h⟩ := Option.bind_eq_some_iff.1 h
  cases h
  by_cases hword : word = "var"
  · rw [if_pos (by simpa using hword)]
    exact Places.nil.congr fun p x =>
      iff_of_false nofun fun ⟨w, hw, hp⟩ => hw (hp.word_eq hd ▸ hword)
  · rw [if_neg (by simpa using hword)]
    refine (places_declared? hd).congr fun p x => ⟨fun hp => ⟨word, hword, hp⟩, ?_⟩
    rintro ⟨w, -, hp⟩
    exact hp.word_eq hd ▸ hp

theorem bindsVar_declaration {fields : List Tree}
    (h : FieldsFit false .variableDeclaration Kind.variableDeclaration.slots fields) :
    BindsVar (.node .variableDeclaration fields) x ↔
      ∃ q, Declarator (.node .variableDeclaration fields) "var" q x := by
  obtain ⟨word, list, rfl, hword, hlist⟩ := (fit_two rfl rfl).1 h
  obtain ⟨word, rfl⟩ := exists_of_enum hword
  rw [bindsVar_iff, or_iff_left]
  rintro ⟨s, v, hv, hreaches⟩
  obtain ⟨name, -, hmem⟩ := childAt_node.1 hv
  rcases (List.of_mem_zip hmem).2 with _ | ⟨_, _ | ⟨_, _ | _⟩⟩
  · exact not_reaches_leaf rfl hreaches
  · exact not_reaches_of_list rfl (by decide) hlist hreaches

/-- The names that are gathered from a statement are those that `var` declarations in it
declare. -/
theorem mem_hoistedNames? {k : Kind} {fields : List Tree} {ns : List String}
    (hk : k ∉ Kind.programParts) (h : FieldsFit false k k.slots fields)
    (hns : (Tree.node k fields).hoistedNames? = some ns) :
    x ∈ ns ↔ BindsVar (.node k fields) x := by
  by_cases hhoisting : Tree.hoistingKinds.contains k = true
  · refine mem_hoistedNames?_step hhoisting h hns fun l fs ns hlt hl hfs hns => ?_
    exact mem_hoistedNames? hl hfs hns
  · by_cases hdeclaration : k = .variableDeclaration
    · subst hdeclaration
      rw [bindsVar_declaration h]
      exact mem_varNames? hns
    · have hfree : k.isVarFree = true := by
        simp_all [Kind.isVarFree]
      rw [hoistedNames?_of_not_hoisting (by simpa using hhoisting) hdeclaration] at hns
      cases hns
      exact iff_of_false nofun (not_bindsVar hfree h)
termination_by sizeOf (Tree.node k fields)
decreasing_by assumption

end Whittle
