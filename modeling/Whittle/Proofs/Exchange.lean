import Whittle.Proofs.Construction
import Whittle.Proofs.Frames
import Whittle.Proofs.Grammar.Entries
import Whittle.Exchange

/-!
# Trees that come back

What becomes of a tree that is exchanged as plain data and read in again. The names of fields
come back, each from its exchange name, so an object is checked with the very values that the
node had. The checks go from the innermost nodes outwards and look at the kinds of nested nodes
only; typing goes from the root inwards. Both accept the same trees.
-/

namespace Whittle

open Grammar Whittle.Language

/-- A node is made of its kind's name and its values under the names of its fields, in any order,
as it is made of its kind and its values in order. -/
theorem Node.makeNamed_of_perm {k : Kind} {vs : List Tree} {es : Entries String Tree}
    (hlen : vs.length = k.fieldNames.length) (hperm : (k.fieldNames.zip vs).Perm es) :
    Node.makeNamed (.value (.str k.name)) es = Node.make k vs := by
  have hkind : KindName.kind (.value (.str k.name)) = .ok k := by
    rw [KindName.kind, Kind.ofName?_name]
  have hnames : (k.fieldNames.zip vs).map (·.1) = k.fieldNames := List.map_fst_zip hlen.ge
  have hmem : ∀ f, f ∈ es.map (·.1) ↔ f ∈ k.fieldNames := fun f => by
    rw [← (hperm.map _).mem_iff, hnames]
  have hmissing : (k.fieldNames.filter fun f => !Entries.has f es) = [] := by
    refine List.filter_eq_nil_iff.2 fun f hf => ?_
    rw [Entries.has_iff.2 ((hmem f).2 hf)]
    exact Bool.false_ne_true
  have hunexpected : ((es.map (·.1)).filter fun f => !k.fieldNames.contains f) = [] :=
    List.filter_eq_nil_iff.2 fun f hf => by simpa using (hmem f).1 hf
  have hvalues : k.fieldNames.filterMap (fun f => Entries.get? f es) = vs := by
    have hget := fun f => Entries.get?_perm f (hnames.symm ▸ fieldNames_nodup k) hperm
    simp only [← hget]
    exact Entries.filterMap_get?_zip (fieldNames_nodup k) hlen
  simp only [makeNamed, hkind, bind, Except.bind, hmissing, hunexpected, hvalues]

mutual
/-- Whether every node in a value has as many values as its kind has fields. Also a node that is
put together unchecked has a value for each of its fields. -/
def Tree.isShaped : Tree → Bool
  | .node k fields => fields.length == k.fieldNames.length && areShaped fields
  | .list items => areShaped items
  | _ => true

/-- Whether every node in some values has as many values as its kind has fields. -/
def Tree.areShaped : List Tree → Bool
  | [] => true
  | t :: ts => t.isShaped && areShaped ts
end

namespace Exchange

/-! ## Names and fields -/

/-- A field is denoted by its exchange name, which is not the name that the kind stands under. -/
theorem fieldName_exchangeName {k : Kind} {f : String} (hf : f ∈ k.fieldNames) :
    exchangeName f ≠ "type" ∧ fieldName (exchangeName f) = f := by
  have h : Kind.all.all (fun k => k.fieldNames.all fun f =>
      exchangeName f != "type" && fieldName (exchangeName f) == f) = true := by decide
  simpa using List.all_eq_true.1 (Kind.forall_of_all h k) f hf

theorem length_toPlainAll (ts : List Tree) : (toPlainAll ts).length = ts.length := by
  induction ts with
  | nil => rfl
  | cons t ts ih => rw [toPlainAll, List.length_cons, List.length_cons, ih]

theorem length_ofPlainAll {ps : List Plain} {ts : List Tree} (h : ofPlainAll ps = .ok ts) :
    ts.length = ps.length := by
  induction ps generalizing ts with
  | nil => cases h; rfl
  | cons p ps ih =>
    rw [ofPlainAll] at h
    cases ht : ofPlain p with
    | error e => rw [ht] at h; cases h
    | ok t =>
      cases hts : ofPlainAll ps with
      | error e => rw [ht, hts] at h; cases h
      | ok ts' =>
        rw [ht, hts] at h
        cases h
        rw [List.length_cons, List.length_cons, ih hts]

/-- Entries under exchange names give the fields of these names. -/
theorem fieldsOf_zip {names : List String}
    (hnames : ∀ f ∈ names, exchangeName f ≠ "type" ∧ fieldName (exchangeName f) = f)
    {ps : List Plain} (hlen : ps.length = names.length) :
    fieldsOf ((names.map exchangeName).zip ps) = (ofPlainAll ps).map (names.zip ·) := by
  induction names generalizing ps with
  | nil =>
    obtain rfl := List.eq_nil_of_length_eq_zero hlen
    rfl
  | cons n ns ih =>
    cases ps with
    | nil => cases hlen
    | cons p ps =>
      obtain ⟨htype, hname⟩ := hnames n List.mem_cons_self
      have hrest := ih (fun f hf => hnames f (List.mem_cons_of_mem _ hf)) (Nat.succ.inj hlen)
      rw [List.map_cons, List.zip_cons_cons, fieldsOf, if_neg (by simpa using htype), ofPlainAll,
        hname, hrest]
      cases ofPlain p with
      | error e => rfl
      | ok t => cases ofPlainAll ps <;> rfl

/-- A node is read in by making it of what its values are read in as. -/
theorem ofPlain_node {k : Kind} {fields : List Tree}
    (hlen : fields.length = k.fieldNames.length) :
    ofPlain (toPlain (.node k fields))
      = (ofPlainAll (toPlainAll fields)).bind (Node.make k) := by
  have hps : (toPlainAll fields).length = k.fieldNames.length :=
    (length_toPlainAll fields).trans hlen
  have hfields : fieldsOf (("type", .str k.name) ::
      (k.fieldNames.map exchangeName).zip (toPlainAll fields))
        = (ofPlainAll (toPlainAll fields)).map (k.fieldNames.zip ·) := by
    rw [fieldsOf, if_pos (beq_self_eq_true _),
      fieldsOf_zip (fun f hf => fieldName_exchangeName hf) hps]
  rw [toPlain, ofPlain, Entries.get?, if_pos rfl]
  simp only [hfields, kindName]
  cases hread : ofPlainAll (toPlainAll fields) with
  | error e => rfl
  | ok vs =>
    have hvs : vs.length = k.fieldNames.length := (length_ofPlainAll hread).trans hps
    have hnames : (k.fieldNames.zip vs).map (·.1) = k.fieldNames := List.map_fst_zip hvs.ge
    show Node.makeNamed _ (Entries.ofList (k.fieldNames.zip vs)) = Node.make k vs
    rw [Entries.ofList_of_nodup (hnames.symm ▸ fieldNames_nodup k),
      Node.makeNamed_of_perm hvs (.refl _)]

/-! ## Values that come back -/

/-- The value is what its plain data is read in as. -/
def Returns (t : Tree) : Prop := ofPlain (toPlain t) = .ok t

/-- The plain data of the value is refused, because of a field that does not admit its value. -/
def Refused (t : Tree) : Prop :=
  ∃ k field v type, ofPlain (toPlain t) = .error (.notAdmitted k field v type)

theorem ofPlainAll_eq_ok {ts : List Tree} :
    ofPlainAll (toPlainAll ts) = .ok ts ↔ ∀ t ∈ ts, Returns t := by
  induction ts with
  | nil => simp [toPlainAll, ofPlainAll]
  | cons t ts ih =>
    rw [toPlainAll, ofPlainAll, List.forall_mem_cons, ← ih, Returns]
    cases ofPlain (toPlain t) with
    | error e => simp [bind, Except.bind]
    | ok u =>
      cases ofPlainAll (toPlainAll ts) <;> simp [bind, Except.bind, pure, Except.pure]

theorem returns_list {items : List Tree} : Returns (.list items) ↔ ∀ t ∈ items, Returns t := by
  rw [← ofPlainAll_eq_ok, Returns, toPlain, ofPlain]
  cases ofPlainAll (toPlainAll items) <;> simp [bind, Except.bind, pure, Except.pure]

theorem make_eq_ok {k : Kind} {vs : List Tree} {t : Tree} : Node.make k vs = .ok t ↔
    Node.checkValues k k.slots vs = .ok () ∧ t = .node k vs := by
  rw [Node.make]
  cases Node.checkValues k k.slots vs <;>
    simp [bind, Except.bind, pure, Except.pure, eq_comm]

/-- A node comes back if its values do and are admitted. -/
theorem returns_node {k : Kind} {fields : List Tree}
    (hlen : fields.length = k.fieldNames.length) : Returns (.node k fields) ↔
      (∀ v ∈ fields, Returns v) ∧ Node.checkValues k k.slots fields = .ok () := by
  rw [Returns, ofPlain_node hlen, ← ofPlainAll_eq_ok]
  cases hread : ofPlainAll (toPlainAll fields) with
  | error e => simp [Except.bind]
  | ok vs =>
    rw [Except.bind, make_eq_ok]
    constructor
    · rintro ⟨hcheck, heq⟩
      cases heq
      exact ⟨rfl, hcheck⟩
    · rintro ⟨heq, hcheck⟩
      cases heq
      exact ⟨hcheck, rfl⟩

/-! ## Values that are refused -/

theorem checkValues_cases {k : Kind} {ss : List Slot} {vs : List Tree}
    (hlen : vs.length = ss.length) : Node.checkValues k ss vs = .ok () ∨
      ∃ field v type, Node.checkValues k ss vs = .error (.notAdmitted k field v type) := by
  induction ss generalizing vs with
  | nil =>
    obtain rfl := List.eq_nil_of_length_eq_zero hlen
    exact .inl rfl
  | cons s ss ih =>
    cases vs with
    | nil => cases hlen
    | cons v vs =>
      rw [Node.checkValues]
      split
      · exact ih (Nat.succ.inj hlen)
      · exact .inr ⟨_, _, _, rfl⟩

mutual
/-- A value comes back or is refused. -/
theorem returns_or_refused : ∀ t : Tree, t.isShaped = true → Returns t ∨ Refused t
  | .absent, _ | .bool _, _ | .int _, _ | .float _, _ | .str _, _ => .inl rfl
  | .list items, h => by
      rcases returnAll_or_refused items h with hall | ⟨k, field, v, type, herror⟩
      · exact .inl (returns_list.2 (ofPlainAll_eq_ok.1 hall))
      · refine .inr ⟨k, field, v, type, ?_⟩
        rw [toPlain, ofPlain, herror]
        rfl
  | .node k fields, h => by
      obtain ⟨hlen, hfields⟩ := Bool.and_eq_true_iff.1 h
      rw [beq_iff_eq] at hlen
      rcases returnAll_or_refused fields hfields with hall | ⟨l, field, v, type, herror⟩
      · have hslots : fields.length = k.slots.length := by
          rw [hlen, Kind.fieldNames, List.length_map]
        rcases checkValues_cases (k := k) hslots with hcheck | ⟨field, v, type, herror⟩
        · exact .inl ((returns_node hlen).2 ⟨ofPlainAll_eq_ok.1 hall, hcheck⟩)
        · refine .inr ⟨k, field, v, type, ?_⟩
          rw [ofPlain_node hlen, hall, Except.bind, Node.make, herror]
          rfl
      · refine .inr ⟨l, field, v, type, ?_⟩
        rw [ofPlain_node hlen, herror]
        rfl

theorem returnAll_or_refused : ∀ ts : List Tree, Tree.areShaped ts = true →
    ofPlainAll (toPlainAll ts) = .ok ts ∨
      ∃ k field v type, ofPlainAll (toPlainAll ts) = .error (.notAdmitted k field v type)
  | [], _ => .inl rfl
  | t :: ts, h => by
      obtain ⟨ht, hts⟩ := Bool.and_eq_true_iff.1 h
      rw [toPlainAll, ofPlainAll]
      rcases returns_or_refused t ht with hreturns | ⟨k, field, v, type, herror⟩
      · rw [show ofPlain (toPlain t) = .ok t from hreturns]
        rcases returnAll_or_refused ts hts with hall | ⟨k, field, v, type, herror⟩
        · rw [hall]
          exact .inl rfl
        · rw [herror]
          exact .inr ⟨k, field, v, type, rfl⟩
      · rw [herror]
        exact .inr ⟨k, field, v, type, rfl⟩
end

/-! ## Values that fit -/

theorem returns_of_isLeaf {v : Tree} (h : v.isLeaf = true) : Returns v := by
  cases v with
  | list items => cases h
  | node k fields => cases h
  | _ => rfl

mutual
/-- What fits comes back. -/
theorem returns_of_fits {type : Position} : ∀ {v : Tree}, v.Fits false type → Returns v
  | .node _ _, h => returns_of_fieldsFit h.2
  | .list _, h => by
      obtain ⟨t, -, hitems⟩ := h
      exact returns_list.2 (returnAll_of_itemsFit hitems)
  | .absent, _ => rfl
  | .bool _, h | .int _, h | .float _, h | .str _, h => h.elim

theorem returns_of_fieldsFit {k : Kind} {fields : List Tree}
    (h : FieldsFit false k k.slots fields) : Returns (.node k fields) := by
  refine (returns_node ?_).2 ⟨returnAll_of_fieldsFit (fun _ hs => hs) h,
    checkValues_of_fieldsFit (.inl rfl) (fun _ hs => hs) h⟩
  rw [h.length_eq, Kind.fieldNames, List.length_map]

theorem returnAll_of_fieldsFit {k : Kind} : ∀ {ss : List Slot} {vs : List Tree},
    (∀ s ∈ ss, s ∈ k.slots) → FieldsFit false k ss vs → ∀ v ∈ vs, Returns v
  | _, [], _, _ => by simp
  | s :: ss, v :: vs, hss, h => by
      refine List.forall_mem_cons.2
        ⟨?_, returnAll_of_fieldsFit (fun s' hs' => hss s' (List.mem_cons_of_mem _ hs')) h.2⟩
      have hplain := isPlainSlot_of_mem (hss s List.mem_cons_self)
      have hv := h.1
      rw [slotPosition_strict] at hv
      rw [isPlainSlot] at hplain
      cases hp : s.position with
      | none =>
        rw [hp] at hv hplain
        exact returns_of_isLeaf (isLeaf_of_admits hplain hv)
      | some type =>
        rw [hp] at hv
        exact returns_of_fits hv
  | [], _ :: _, _, h => h.elim

theorem returnAll_of_itemsFit {type : Position} : ∀ {vs : List Tree},
    ItemsFit false type vs → ∀ v ∈ vs, Returns v
  | [], _ => by simp
  | _ :: _, h => List.forall_mem_cons.2 ⟨returns_of_fits h.1, returnAll_of_itemsFit h.2⟩
end

mutual
/-- What comes back fits where it is admitted. -/
theorem fits_of_returns {type : Position} (htype : isPlainType type = true) : ∀ v : Tree,
    v.isShaped = true → type.holds id v = true → Returns v → v.Fits false type
  | .node k fields, hs, hholds, h => by
      obtain ⟨hlen, hfields⟩ := Bool.and_eq_true_iff.1 hs
      rw [beq_iff_eq] at hlen
      obtain ⟨hall, hcheck⟩ := (returns_node hlen).1 h
      obtain ⟨t, rfl, -⟩ | hitem := plain_cases htype
      · cases hholds
      · rw [holds_item hitem] at hholds
        exact ⟨hholds, fieldsFit_of_returns fields (fun _ hs => hs) hfields hcheck hall⟩
  | .list items, hs, hholds, h => by
      obtain ⟨t, rfl, hitem⟩ | hitem := plain_cases htype
      · exact ⟨t, rfl, itemsFit_of_returns hitem items hs (List.all_eq_true.1 hholds)
          (returns_list.1 h)⟩
      · rw [holds_item hitem] at hholds
        cases hholds
  | .absent, _, hholds, _ => (fits_iff htype .absent).2 ⟨hholds, rfl⟩
  | .bool _, _, hholds, _ | .int _, _, hholds, _ | .float _, _, hholds, _
  | .str _, _, hholds, _ => (fits_iff htype _).2 ⟨hholds, rfl⟩

theorem fieldsFit_of_returns {k : Kind} : ∀ {ss : List Slot} (vs : List Tree),
    (∀ s ∈ ss, s ∈ k.slots) → Tree.areShaped vs = true → Node.checkValues k ss vs = .ok () →
    (∀ v ∈ vs, Returns v) → FieldsFit false k ss vs
  | [], [], _, _, _, _ => trivial
  | s :: ss, v :: vs, hss, hs, hcheck, hall => by
      obtain ⟨hv, hvs⟩ := Bool.and_eq_true_iff.1 hs
      obtain ⟨hreturns, hrest⟩ := List.forall_mem_cons.1 hall
      have hslot := hss s List.mem_cons_self
      have hplain := isPlainSlot_of_mem hslot
      rw [Node.checkValues] at hcheck
      split at hcheck
      case isFalse => cases hcheck
      case isTrue hadmits =>
      refine ⟨?_, fieldsFit_of_returns vs (fun s' hs' => hss s' (List.mem_cons_of_mem _ hs')) hvs
        hcheck hrest⟩
      rw [slotPosition_strict]
      rw [isPlainSlot] at hplain
      cases hp : s.position with
      | none => exact hadmits
      | some type =>
        rw [hp] at hplain
        rw [admits_eq_holds hslot hp] at hadmits
        exact fits_of_returns hplain v hv hadmits hreturns
  | [], _ :: _, _, _, hcheck, _ => by cases hcheck
  | _ :: _, [], _, _, hcheck, _ => by cases hcheck

theorem itemsFit_of_returns {type : Position} (htype : isItemType type = true) :
    ∀ vs : List Tree, Tree.areShaped vs = true → (∀ v ∈ vs, type.holds id v = true) →
    (∀ v ∈ vs, Returns v) → ItemsFit false type vs
  | [], _, _, _ => trivial
  | v :: vs, hs, hholds, hall => by
      obtain ⟨hv, hvs⟩ := Bool.and_eq_true_iff.1 hs
      obtain ⟨hhold, hholds⟩ := List.forall_mem_cons.1 hholds
      obtain ⟨hreturns, hall⟩ := List.forall_mem_cons.1 hall
      exact ⟨fits_of_returns (isPlainType_of_item htype) v hv hhold hreturns,
        itemsFit_of_returns htype vs hvs hholds hall⟩
end

/-- A node comes back from its plain data exactly if it is well-typed. Otherwise the data is
refused, because of a field in it that does not admit its value. -/
theorem ofPlain_toPlain {t : Tree} (hnode : t.isNode = true) (hshaped : t.isShaped = true) :
    (typeErrors t = [] → ofPlain (toPlain t) = .ok t) ∧
    (typeErrors t ≠ [] →
      ∃ k field v type, ofPlain (toPlain t) = .error (.notAdmitted k field v type)) := by
  cases t with
  | node k fields =>
    obtain ⟨hlen, hfields⟩ := Bool.and_eq_true_iff.1 hshaped
    rw [beq_iff_eq] at hlen
    have hfit : typeErrors (.node k fields) = [] ↔ FieldsFit false k k.slots fields :=
      (fieldsFit_iff k (fun _ hs => hs) fields).symm
    rw [hfit, Ne, hfit]
    refine ⟨returns_of_fieldsFit, fun hnot => ?_⟩
    rcases returns_or_refused _ hshaped with hreturns | hrefused
    · obtain ⟨hall, hcheck⟩ := (returns_node hlen).1 hreturns
      exact absurd (fieldsFit_of_returns fields (fun _ hs => hs) hfields hcheck hall) hnot
    · exact hrefused
  | _ => cases hnode

/-- A script with a class that extends what an expression gives. -/
def classOver (expression : Tree) : Tree :=
  .node .script [.list [], .list [.node .classDeclaration [
    .node .bindingIdentifier [.str "A"], expression, .list []]]]

/-- A regular expression with the flag `g`. -/
def globalPattern : Tree :=
  .node .literalRegExpExpression [.str "a", .bool true, .bool false, .bool false, .bool false,
    .bool false, .bool false]

/-- An operator that is applied to `super`, which is no expression. -/
def negatedSuper : Tree := .node .unaryExpression [.str "!", .node .super []]

/-- A class over a regular expression comes back, with the fields that are exchanged under names
of their own. A class over an operator that is applied to `super` is refused. -/
theorem ofPlain_toPlain_classOver :
    (typeErrors (classOver globalPattern) = [] ∧
      ofPlain (toPlain (classOver globalPattern)) = .ok (classOver globalPattern)) ∧
    typeErrors (classOver negatedSuper) ≠ [] ∧
      ∃ k field v type,
        ofPlain (toPlain (classOver negatedSuper)) = .error (.notAdmitted k field v type) := by
  have hpattern : typeErrors (classOver globalPattern) = [] := by decide
  have hsuper : typeErrors (classOver negatedSuper) ≠ [] := by decide
  refine ⟨⟨hpattern, ?_⟩, hsuper, ?_⟩
  · exact (ofPlain_toPlain rfl (by decide)).1 hpattern
  · exact (ofPlain_toPlain rfl (by decide)).2 hsuper

end Exchange

end Whittle
