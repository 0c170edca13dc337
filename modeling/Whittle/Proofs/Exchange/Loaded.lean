import Whittle.Proofs.Exchange.Json
import Whittle.Proofs.Validity.Located

/-!
# Trees from plain data

Whatever plain data a tree is read in from, it comes back from its own: the entries of an
object may stand in any order and under either spelling of a field, the node is made of a
value for each of its fields, and each was read in before. A node that comes back is
well-typed, and so are the nodes in it, because they come back too.
-/

namespace Whittle.Exchange

open Grammar Whittle.Language

/-! ## Nodes that are made by names -/

/-- A node that is made by names has values that were given and are admitted. -/
theorem makeNamed_eq_ok {name : KindName} {es : Entries String Tree} {t : Tree}
    (h : Node.makeNamed name es = .ok t) :
    ∃ k fields, t = .node k fields ∧ Node.checkValues k k.slots fields = .ok () ∧
      ∀ v ∈ fields, ∃ f, (f, v) ∈ es := by
  simp only [Node.makeNamed, bind, Except.bind] at h
  split at h
  · cases h
  · split at h
    · split at h
      · obtain ⟨hcheck, rfl⟩ := make_eq_ok.1 h
        refine ⟨_, _, rfl, hcheck, fun v hv => ?_⟩
        obtain ⟨f, -, hf⟩ := List.mem_filterMap.1 hv
        exact ⟨f, Entries.mem_of_get? hf⟩
      · cases h
    · cases h

/-- A node that is made by names of values that come back comes back. -/
theorem returns_of_makeNamed {name : KindName} {es : Entries String Tree} {t : Tree}
    (h : Node.makeNamed name es = .ok t) (hes : ∀ e ∈ es, Returns e.2) : Returns t := by
  obtain ⟨k, fields, rfl, hcheck, hfields⟩ := makeNamed_eq_ok h
  refine (returns_node (length_of_makeNamed h)).2 ⟨fun v hv => ?_, hcheck⟩
  obtain ⟨f, hf⟩ := hfields v hv
  exact hes _ hf

/-! ## What is read in comes back -/

mutual
/-- What is read in comes back. -/
theorem returns_of_ofPlain : ∀ {d : Plain} {t : Tree}, ofPlain d = .ok t → Returns t
  | .null, _, h | .bool _, _, h | .int _, _, h | .float _, _, h | .str _, _, h => by
      cases h
      rfl
  | .list items, t, h => by
      rw [ofPlain] at h
      cases hitems : ofPlainAll items with
      | error e => rw [hitems] at h; cases h
      | ok ts =>
        rw [hitems] at h
        cases h
        exact returns_list.2 (returns_of_ofPlainAll hitems)
  | .object es, t, h => by
      rw [ofPlain] at h
      split at h
      · cases h
      · cases hfields : fieldsOf es with
        | error e => rw [hfields] at h; cases h
        | ok fs =>
          rw [hfields] at h
          refine returns_of_makeNamed h fun e he => ?_
          exact returns_of_fieldsOf hfields e (Entries.mem_of_mem_ofList he)

theorem returns_of_ofPlainAll : ∀ {ds : List Plain} {ts : List Tree},
    ofPlainAll ds = .ok ts → ∀ t ∈ ts, Returns t
  | [], _, h => by cases h; simp
  | d :: ds, ts, h => by
      rw [ofPlainAll] at h
      cases hd : ofPlain d with
      | error e => rw [hd] at h; cases h
      | ok t =>
        cases hds : ofPlainAll ds with
        | error e => rw [hd, hds] at h; cases h
        | ok ts =>
          rw [hd, hds] at h
          cases h
          exact List.forall_mem_cons.2 ⟨returns_of_ofPlain hd, returns_of_ofPlainAll hds⟩

theorem returns_of_fieldsOf : ∀ {es : List (String × Plain)} {fs : List (String × Tree)},
    fieldsOf es = .ok fs → ∀ f ∈ fs, Returns f.2
  | [], _, h => by cases h; simp
  | (name, d) :: es, fs, h => by
      rw [fieldsOf] at h
      split at h
      · exact returns_of_fieldsOf h
      · cases hd : ofPlain d with
        | error e => rw [hd] at h; cases h
        | ok t =>
          cases hes : fieldsOf es with
          | error e => rw [hd, hes] at h; cases h
          | ok fs =>
            rw [hd, hes] at h
            cases h
            exact List.forall_mem_cons.2 ⟨returns_of_ofPlain hd, returns_of_fieldsOf hes⟩
end

/-! ## What comes back is well-typed throughout -/

mutual
theorem isShaped_of_returns : ∀ {t : Tree}, Returns t → t.isShaped = true
  | .absent, _ | .bool _, _ | .int _, _ | .float _, _ | .str _, _ => rfl
  | .list _, h => areShaped_of_returns (returns_list.1 h)
  | .node _ _, h => by
      have hlen := length_of_returns h
      rw [Tree.isShaped, areShaped_of_returns ((returns_node hlen).1 h).1, hlen]
      simp

theorem areShaped_of_returns : ∀ {ts : List Tree}, (∀ t ∈ ts, Returns t) →
    Tree.areShaped ts = true
  | [], _ => rfl
  | _ :: _, h => by
      obtain ⟨ht, hts⟩ := List.forall_mem_cons.1 h
      rw [Tree.areShaped, isShaped_of_returns ht, areShaped_of_returns hts]
      rfl
end

/-- A node that comes back is well-typed. -/
theorem typeErrors_of_returns {k : Kind} {fields : List Tree} (h : Returns (.node k fields)) :
    typeErrors (.node k fields) = [] := by
  obtain ⟨hfields, hcheck⟩ := (returns_node (length_of_returns h)).1 h
  exact (fieldsFit_iff k (fun _ hs => hs) fields).1
    (fieldsFit_of_returns fields (fun _ hs => hs) (areShaped_of_returns hfields) hcheck hfields)

theorem Returns.child {t v : Tree} {s : Step} (h : Returns t) (hv : t.childAt s = .ok v) :
    Returns v := by
  cases t with
  | list items =>
    obtain ⟨j, -, hj⟩ := childAt_list.1 hv
    exact returns_list.1 h v (List.mem_of_getElem? hj)
  | node k fields =>
    obtain ⟨name, -, hmem⟩ := childAt_node.1 hv
    exact ((returns_node (length_of_returns h)).1 h).1 v (List.of_mem_zip hmem).2
  | _ => exact absurd hv (childAt_leaf rfl)

/-- What stands anywhere in a value that comes back comes back. -/
theorem Returns.get {t v : Tree} {p : Path} (h : Returns t) (hv : t.get p = .ok v) :
    Returns v := by
  induction p generalizing t with
  | nil =>
    cases hv
    exact h
  | cons s p ih =>
    obtain ⟨c, hc, hp⟩ := Tree.get_cons_eq_ok.1 hv
    exact ih (h.child hc) hp

/-! ## What is read in -/

/-- Reading in lets only well-typed trees in. Whenever plain data are read in, every node
anywhere in the result is without type errors, and the result is what its own plain data are
read in as. -/
theorem ofPlain_wellTyped {d : Plain} {t : Tree} (h : ofPlain d = .ok t) :
    (∀ p n, t.get p = .ok n → n.isNode = true → typeErrors n = []) ∧
    ofPlain (toPlain t) = .ok t := by
  have hreturns := returns_of_ofPlain h
  refine ⟨?_, hreturns⟩
  intro p n hn hnode
  have hn := hreturns.get hn
  cases n with
  | node k fields => exact typeErrors_of_returns hn
  | _ => cases hnode

/-- A class whose superclass is given under three spellings, first as `super`, which is no
expression and which two later entries replace. -/
def spelledThrice : Plain :=
  .object [("elements", .list []), ("super_class", .object [("type", .str "Super")]),
    ("superClass", .null), ("type", .str "ClassDeclaration"),
    ("name", .object [("Name", .str "A"), ("type", .str "BindingIdentifier")]),
    ("super", .object [("name", .str "B"), ("type", .str "IdentifierExpression")])]

/-- The class that it stands for. -/
def spelledOnce : Tree :=
  .node .classDeclaration [.node .bindingIdentifier [.str "A"],
    .node .identifierExpression [.str "B"], .list []]

/-- The last spelling of a field counts, and the class is well-typed down to its names. -/
theorem ofPlain_wellTyped_spelledThrice :
    ofPlain spelledThrice = .ok spelledOnce ∧
    (∀ p n, spelledOnce.get p = .ok n → n.isNode = true → typeErrors n = []) ∧
    ofPlain (toPlain spelledOnce) = .ok spelledOnce := by
  have hread : ofPlain spelledThrice = .ok spelledOnce := by rfl
  exact ⟨hread, ofPlain_wellTyped hread⟩

end Whittle.Exchange
