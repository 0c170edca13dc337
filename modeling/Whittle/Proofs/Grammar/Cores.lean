import Whittle.Proofs.Grammar.Inhabitants

/-!
# Cores of field types

The type of a field is a nest of lists and optionals around a core: a primitive, the name of a
node type, or a union. The core decides whether the field is primitive, whether its position has
a type, and which members that type mentions.
-/

namespace Whittle.Grammar

variable {α : Type}

/-! ## Members and cores -/

/-- The head is that of a member of the type, where unions in unions are collapsed. -/
inductive Spec.Member : Head α → Spec α → Prop
  | head {h : Head α} (hunion : h ≠ .union) (as : List (Spec α)) : Member h.bare (.of h as)
  | union {m : Head α} {a : Spec α} {as : List (Spec α)} (ha : a ∈ as) (hm : Member m a) :
      Member m (.of .union as)

/-- The second type is a nest of lists and optionals, each with one argument, around the first
one, which is neither. -/
inductive Spec.Core : Spec α → Spec α → Prop
  | self {h : Head α} (hlist : h ≠ .list) (hmaybe : h ≠ .maybe) (as : List (Spec α)) :
      Core (.of h as) (.of h as)
  | list {s a : Spec α} (h : Core s a) : Core s (.of .list [a])
  | maybe {s a : Spec α} (h : Core s a) : Core s (.of .maybe [a])

namespace Spec

/-- Each list and optional that the type is a nest of has exactly one argument. -/
def IsNest (t : Spec α) : Prop := ∃ s, Core s t

/-- The type is primitive, or a nest of lists and optionals around a primitive. -/
def IsPrimitive (t : Spec α) : Prop := ∃ s, Core s t ∧ s.head.isPrimitive = true

/-- A list or an optional is among the members of the union at the core. -/
def IsNontrivial (t : Spec α) : Prop :=
  ∃ as, Core (.of .union as) t ∧ (Member .list (.of .union as) ∨ Member .maybe (.of .union as))

/-- The core of the type has such a member. -/
def Mentions (t : Spec α) (m : Head α) : Prop := ∃ s, Core s t ∧ Member m s

/-- A position type is the nest of a written type around the union of the members of its core. -/
inductive Describes : Spec α → PositionType α → Prop
  | union {h : Head α} (hlist : h ≠ .list) (hmaybe : h ≠ .maybe) {as : List (Spec α)}
      {ms : List (Head α)} (hms : ∀ m, m ∈ ms ↔ Member m (.of h as)) :
      Describes (.of h as) (.union ms)
  | list {a : Spec α} {p : PositionType α} (h : Describes a p) :
      Describes (.of .list [a]) (.list p)
  | maybe {a : Spec α} {p : PositionType α} (h : Describes a p) :
      Describes (.of .maybe [a]) (.maybe p)

variable {s s' t : Spec α} {m : Head α}

theorem Core.unique (h : Core s t) (h' : Core s' t) : s = s' := by
  induction h with
  | self hlist hmaybe as =>
    cases h' with
    | self => rfl
    | list => exact absurd rfl hlist
    | maybe => exact absurd rfl hmaybe
  | list h ih =>
    cases h' with
    | self hlist => exact absurd rfl hlist
    | list h' => exact ih h'
  | maybe h ih =>
    cases h' with
    | self hlist hmaybe => exact absurd rfl hmaybe
    | maybe h' => exact ih h'

mutual
theorem mem_members_iff (m : Head α) : ∀ t : Spec α, m ∈ t.members ↔ Member m t
  | .of h as => by
    by_cases hunion : h = .union
    · subst hunion
      rw [members, mem_membersAll_iff m as]
      constructor
      · rintro ⟨a, ha, hm⟩
        exact .union ha hm
      · intro hm
        cases hm with
        | head h => exact absurd rfl h
        | union ha hm => exact ⟨_, ha, hm⟩
    · rw [members_of_ne_union hunion, List.mem_singleton]
      constructor
      · rintro rfl
        exact .head hunion as
      · intro hm
        cases hm with
        | head => rfl
        | union => exact absurd rfl hunion

theorem mem_membersAll_iff (m : Head α) :
    ∀ ts : List (Spec α), m ∈ membersAll ts ↔ ∃ t ∈ ts, Member m t
  | [] => by simp [membersAll]
  | t :: ts => by
    rw [membersAll, List.mem_append, mem_members_iff m t, mem_membersAll_iff m ts]
    simp
end

theorem Member.ne_union (h : Member m t) : m ≠ .union := by
  induction h with
  | @head h hunion as => cases h <;> simp_all [Head.bare]
  | union ha hm ih => exact ih

/-- Only a union has containers among its members. -/
theorem isNontrivial_iff (h : Core s t) :
    t.IsNontrivial ↔ ∃ m, Member m s ∧ m.isContainer = true := by
  constructor
  · rintro ⟨as, hcore, hm⟩
    obtain rfl := h.unique hcore
    rcases hm with hm | hm
    · exact ⟨_, hm, rfl⟩
    · exact ⟨_, hm, rfl⟩
  · rintro ⟨m, hm, hcontainer⟩
    obtain ⟨head, as⟩ := s
    have hne := hm.ne_union
    have hcore : head ≠ .list ∧ head ≠ .maybe := by
      clear hm hcontainer hne
      generalize hs : of head as = s at h
      induction h with
      | self hlist hmaybe as =>
        cases hs
        exact ⟨hlist, hmaybe⟩
      | list h ih => exact ih hs
      | maybe h ih => exact ih hs
    -- any other head is its own only member, and no container
    have hunion : head = .union := by
      cases hm with
      | head hunion => cases head <;> simp_all [Head.bare, Head.isContainer]
      | union => rfl
    subst hunion
    refine ⟨as, h, ?_⟩
    cases m <;> simp_all [Head.isContainer]

theorem IsNontrivial.of_mentions (hm : t.Mentions m) (hcontainer : m.isContainer = true) :
    t.IsNontrivial := by
  obtain ⟨s, hcore, hmember⟩ := hm
  exact (isNontrivial_iff hcore).2 ⟨m, hmember, hcontainer⟩

theorem Describes.mem_members_iff {p : PositionType α} (h : Describes t p) :
    m ∈ p.members ↔ t.Mentions m := by
  induction h with
  | @union head hlist hmaybe as ms hms =>
    rw [PositionType.members, hms]
    constructor
    · intro hm
      exact ⟨_, .self hlist hmaybe as, hm⟩
    · rintro ⟨s, hcore, hm⟩
      rwa [← hcore.unique (.self hlist hmaybe as)]
  | list h ih =>
    rw [PositionType.members, ih]
    constructor
    · rintro ⟨s, hcore, hm⟩
      exact ⟨s, .list hcore, hm⟩
    · rintro ⟨s, hcore, hm⟩
      cases hcore with
      | self hlist => exact absurd rfl hlist
      | list hcore => exact ⟨s, hcore, hm⟩
  | maybe h ih =>
    rw [PositionType.members, ih]
    constructor
    · rintro ⟨s, hcore, hm⟩
      exact ⟨s, .maybe hcore, hm⟩
    · rintro ⟨s, hcore, hm⟩
      cases hcore with
      | self hlist hmaybe => exact absurd rfl hmaybe
      | maybe hcore => exact ⟨s, hcore, hm⟩

/-! ## Types of positions -/

theorem isPrimitive?_of_core (h : Core s t) : t.isPrimitive? = some s.head.isPrimitive := by
  induction h with
  | @self head hlist hmaybe as => cases head <;> simp_all [isPrimitive?, Spec.head]
  | list h ih => rwa [isPrimitive?]
  | maybe h ih => rwa [isPrimitive?]

theorem isPrimitive_iff (h : Core s t) : t.IsPrimitive ↔ s.head.isPrimitive = true := by
  constructor
  · rintro ⟨s', hcore, hs⟩
    rwa [h.unique hcore]
  · intro hs
    exact ⟨s, h, hs⟩

variable [DecidableEq α]

/-- A type that is neither a list nor an optional is the union of its members if none of them is
a container. -/
theorem positionType_of_nil {h : Head α} {as : List (Spec α)} (hlist : h ≠ .list)
    (hmaybe : h ≠ .maybe)
    (hnested : (Spec.of h as).members.eraseDups.filter Head.isContainer = []) :
    (Spec.of h as).positionType = .ok (.union (Spec.of h as).members.eraseDups) := by
  rw [positionType]
  · simp only [hnested]
  all_goals simp_all

theorem positionType_of_cons {h m : Head α} {ms : List (Head α)} {as : List (Spec α)}
    (hlist : h ≠ .list) (hmaybe : h ≠ .maybe)
    (hnested : (Spec.of h as).members.eraseDups.filter Head.isContainer = m :: ms) :
    (Spec.of h as).positionType = .error (.nontrivialUnion (.of h as) (m :: ms)) := by
  rw [positionType]
  · simp only [hnested]
  all_goals simp_all

/-- A trivial core gives a position type, and any other core an error that says why. -/
theorem positionType_of_core (h : Core s t) :
    (¬ t.IsNontrivial ∧ ∃ p, t.positionType = .ok p ∧ Describes t p) ∨
    (t.IsNontrivial ∧ ∃ u ms, t.positionType = .error (.nontrivialUnion u ms)) := by
  rw [isNontrivial_iff h]
  induction h with
  | @self head hlist hmaybe as =>
    have hmem : ∀ m, m ∈ (Spec.of head as).members.eraseDups ↔ Member m (.of head as) := by
      intro m
      rw [List.mem_eraseDups, Spec.mem_members_iff]
    cases hnested : (Spec.of head as).members.eraseDups.filter Head.isContainer with
    | nil =>
      left
      constructor
      · rintro ⟨m, hm, hcontainer⟩
        have hin : m ∈ (Spec.of head as).members.eraseDups.filter Head.isContainer :=
          List.mem_filter.2 ⟨(hmem m).2 hm, hcontainer⟩
        rw [hnested] at hin
        exact List.not_mem_nil hin
      · exact ⟨_, positionType_of_nil hlist hmaybe hnested, .union hlist hmaybe hmem⟩
    | cons m ms =>
      right
      have hin : m ∈ (Spec.of head as).members.eraseDups.filter Head.isContainer := by
        rw [hnested]
        exact List.mem_cons_self
      obtain ⟨hm, hcontainer⟩ := List.mem_filter.1 hin
      exact ⟨⟨m, (hmem m).1 hm, hcontainer⟩, _, _, positionType_of_cons hlist hmaybe hnested⟩
  | list h ih =>
    rcases ih with ⟨hnot, p, hp, hdescribes⟩ | ⟨hcontainer, u, ms, herror⟩
    · left
      exact ⟨hnot, .list p, by rw [positionType, hp]; rfl, .list hdescribes⟩
    · right
      exact ⟨hcontainer, u, ms, by rw [positionType, herror]; rfl⟩
  | maybe h ih =>
    rcases ih with ⟨hnot, p, hp, hdescribes⟩ | ⟨hcontainer, u, ms, herror⟩
    · left
      exact ⟨hnot, .maybe p, by rw [positionType, hp]; rfl, .maybe hdescribes⟩
    · right
      exact ⟨hcontainer, u, ms, by rw [positionType, herror]; rfl⟩

/-- The type of the field's slot, and whether it has one, are those of its core. -/
theorem slotType?_of_isNest (h : t.IsNest) :
    (t.IsPrimitive ∧ slotType? t = .ok none) ∨
    (¬ t.IsPrimitive ∧ ¬ t.IsNontrivial ∧ ∃ p, slotType? t = .ok (some p) ∧ Describes t p) ∨
    (¬ t.IsPrimitive ∧ t.IsNontrivial ∧
      ∃ u ms, slotType? t = .error (.nontrivialUnion u ms)) := by
  obtain ⟨s, hcore⟩ := h
  by_cases hprimitive : s.head.isPrimitive = true
  · left
    constructor
    · exact (isPrimitive_iff hcore).2 hprimitive
    · rw [slotType?, isPrimitive?_of_core hcore, hprimitive]
      rfl
  · right
    have hnot : ¬ t.IsPrimitive := fun h => hprimitive ((isPrimitive_iff hcore).1 h)
    have hslot : slotType? t = (do return some (← t.positionType)) := by
      rw [slotType?, isPrimitive?_of_core hcore, eq_false_of_ne_true hprimitive]
    rcases positionType_of_core hcore with ⟨htrivial, p, hp, hdescribes⟩ | ⟨hnontrivial, u, ms, he⟩
    · left
      exact ⟨hnot, htrivial, p, by rw [hslot, hp]; rfl, hdescribes⟩
    · right
      exact ⟨hnot, hnontrivial, u, ms, by rw [hslot, he]; rfl⟩

end Spec

end Whittle.Grammar
