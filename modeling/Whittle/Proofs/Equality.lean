import Whittle.Proofs.Weight

/-!
# Equal trees weigh the same

Two trees may be equal as values and yet not the same, since a number may be written in two
ways. Where both fit, they weigh the same all the same: a position for truth values has
nothing but truth values.
-/

namespace Whittle

open Grammar Whittle.Language

variable {loose : Bool}

/-- Equal values of a field without nodes weigh the same there. -/
theorem fieldWeight_of_equals {t : TypeSpec} (ht : isLeafType t = true) {a b : Tree}
    (ha : t.admits a = true) (hb : t.admits b = true) (h : a.equals b = true) (k : Kind)
    (name : String) : fieldWeight k name a = fieldWeight k name b := by
  unfold isLeafType at ht
  split at ht
  case h_3 =>
    -- numbers are no texts, and weigh one each
    cases a <;> cases b <;> first | rfl | simp [Spec.admits, Spec.admits?, Spec.hasMember] at ha hb
  case h_6 => cases ht
  case h_1 =>
    cases a <;> cases b <;> simp [Spec.admits, Spec.admits?, Spec.hasMember] at ha hb
    rename_i p q
    cases p <;> cases q <;> first | rfl | simp [Tree.equals, Tree.leafEquals, Tree.wholeNumber?] at h
  all_goals
    have hab : a = b := by
      cases a <;> cases b <;>
        simp_all [Spec.admits, Spec.admits?, Tree.equals, Tree.leafEquals, Tree.wholeNumber?,
          Spec.hasMember]
    rw [hab]

mutual
/-- Equal values that fit the same position weigh the same. -/
theorem weight_of_equals {type : Position} : ∀ {a b : Tree}, a.Fits loose type →
    b.Fits loose type → a.equals b = true → a.weight = b.weight
  | .node k as, .node l bs, ha, hb, h => by
      simp only [Tree.equals, Bool.and_eq_true, beq_iff_eq] at h
      obtain ⟨rfl, h⟩ := h
      rw [weight_of_fit ha.2, weight_of_fit hb.2, Kind.fieldNames,
        fieldsWeight_of_equals (fun _ hs => hs) ha.2 hb.2 h]
  | .list as, .list bs, ha, hb, h => by
      obtain ⟨t, rfl, has⟩ := ha
      obtain ⟨_, heq, hbs⟩ := hb
      cases heq
      exact itemsWeight_of_equals has hbs (by simpa [Tree.equals] using h)
  | .absent, .absent, _, _, _ => rfl
  | .absent, .node _ _, _, _, h | .absent, .list _, _, _, h | .node _ _, .absent, _, _, h
  | .list _, .absent, _, _, h | .node _ _, .list _, _, _, h | .list _, .node _ _, _, _, h => by
      simp [Tree.equals, Tree.leafEquals, Tree.wholeNumber?] at h
  | .bool _, _, ha, _, _ | .int _, _, ha, _, _ | .float _, _, ha, _, _
  | .str _, _, ha, _, _ => ha.elim
  | _, .bool _, _, hb, _ | _, .int _, _, hb, _ | _, .float _, _, hb, _
  | _, .str _, _, hb, _ => hb.elim

theorem fieldsWeight_of_equals {k : Kind} : ∀ {ss : List Slot}, (∀ s ∈ ss, s ∈ k.slots) →
    ∀ {as bs : List Tree}, FieldsFit loose k ss as → FieldsFit loose k ss bs →
    Tree.equalsAll as bs = true →
    fieldsWeight k (ss.map (·.name)) as = fieldsWeight k (ss.map (·.name)) bs
  | [], _, [], [], _, _, _ => rfl
  | s :: ss, hss, a :: as, b :: bs, ha, hb, h => by
      simp only [Tree.equalsAll, Bool.and_eq_true] at h
      have hs := hss s List.mem_cons_self
      have hrest := fieldsWeight_of_equals (fun s' hs' => hss s' (List.mem_cons_of_mem _ hs'))
        ha.2 hb.2 h.2
      rw [List.map_cons, fieldsWeight_cons, fieldsWeight_cons, hrest]
      congr 1
      have ha := ha.1
      have hb := hb.1
      cases hp : slotPosition loose k s with
      | none =>
        rw [hp] at ha hb
        have hleaf := isPlainSlot_of_mem hs
        rw [isPlainSlot, slotPosition_eq_none.1 hp] at hleaf
        exact fieldWeight_of_equals hleaf ha hb h.1 k s.name
      | some type =>
        rw [hp] at ha hb
        have hsome : s.position.isSome = true := by
          cases hnone : s.position with
          | none => simp [slotPosition_eq_none.2 hnone] at hp
          | some _ => rfl
        have hname := simplestText?_of_position hs hsome
        rw [fieldWeight_plain hname, fieldWeight_plain hname]
        exact weight_of_equals ha hb h.1
  | [], _, _ :: _, _, ha, _, _ | _ :: _, _, [], _, ha, _, _ => ha.elim
  | [], _, _, _ :: _, _, hb, _ | _ :: _, _, _, [], _, hb, _ => hb.elim

theorem itemsWeight_of_equals {type : Position} : ∀ {as bs : List Tree},
    ItemsFit loose type as → ItemsFit loose type bs → Tree.equalsAll as bs = true →
    itemsWeight as = itemsWeight bs
  | [], [], _, _, _ => rfl
  | a :: as, b :: bs, ha, hb, h => by
      simp only [Tree.equalsAll, Bool.and_eq_true] at h
      rw [itemsWeight, itemsWeight, weight_of_equals ha.1 hb.1 h.1,
        itemsWeight_of_equals ha.2 hb.2 h.2]
  | [], _ :: _, _, _, h | _ :: _, [], _, _, h => by simp [Tree.equalsAll] at h
end

/-- Two trees that fit and are equal weigh the same. -/
theorem weight_of_isFit_equals {a b : Tree} (ha : a.IsFit loose) (hb : b.IsFit loose)
    (h : a.equals b = true) : a.weight = b.weight := by
  cases a <;> cases b <;> try first | exact ha.elim | exact hb.elim
  simp only [Tree.equals, Bool.and_eq_true, beq_iff_eq] at h
  obtain ⟨rfl, h⟩ := h
  rw [weight_of_fit ha, weight_of_fit hb, Kind.fieldNames,
    fieldsWeight_of_equals (fun _ hs => hs) ha hb h]

end Whittle
