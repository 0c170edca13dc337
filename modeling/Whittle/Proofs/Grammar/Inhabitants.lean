import Mathlib
import Whittle.Language

/-!
# Inhabitants of position types

A value inhabits a position type if it is a node of one of a union's kinds, a list of
inhabitants, or absent where that is allowed. The written type of a field that holds nodes
admits exactly the inhabitants of the type of its position.
-/

namespace Whittle.Grammar

variable {α : Type} [DecidableEq α]

/-- Whether a value inhabits a position type. Nodes are judged by their kinds alone. -/
def PositionType.holds (nameOf : Kind → α) : PositionType α → Tree → Bool
  | .union ms, .node k _ => ms.contains (.named (nameOf k))
  | .list t, .list items => items.all fun v => t.holds nameOf v
  | .maybe _, .absent => true
  | .maybe t, v => t.holds nameOf v
  | _, _ => false

namespace Spec

omit [DecidableEq α] in
/-- Only an enumeration loses something when it stands as a member of a union. -/
theorem bare_eq_named {h : Head α} {a : α} : h.bare = .named a ↔ h = .named a := by
  cases h <;> simp [Head.bare]

omit [DecidableEq α] in
theorem members_of_ne_union {h : Head α} (hh : h ≠ .union) (as : List (Spec α)) :
    (Spec.of h as).members = [h.bare] := by
  cases h <;> simp_all [members]

theorem hasMember_of_ne_union {h : Head α} (hh : h ≠ .union) (a : α) (as : List (Spec α)) :
    (Spec.of h as).hasMember a = decide (h = .named a) := by
  cases h with
  | union => exact absurd rfl hh
  | named b => simp [hasMember, Bool.beq_eq_decide_eq, eq_comm]
  | _ => simp [hasMember]

mutual
/-- A node type is a member of a type exactly if it is among the collapsed members. -/
theorem mem_members (a : α) : ∀ t : Spec α, .named a ∈ t.members ↔ t.hasMember a = true
  | .of h as => by
    by_cases hh : h = .union
    · subst hh
      simpa only [members, hasMember] using mem_membersAll a as
    · rw [members_of_ne_union hh, hasMember_of_ne_union hh]
      simp [eq_comm (b := h.bare), bare_eq_named]

theorem mem_membersAll (a : α) :
    ∀ ts : List (Spec α), .named a ∈ membersAll ts ↔ anyHasMember a ts = true
  | [] => by simp [membersAll, anyHasMember]
  | t :: ts => by
    simp only [membersAll, anyHasMember, List.mem_append, Bool.or_eq_true]
    rw [mem_members a t, mem_membersAll a ts]
end

/-- A type that is neither a list nor an optional has a union for its position type. -/
theorem positionType_eq_union {h : Head α} {as : List (Spec α)} {p : PositionType α}
    (hl : h ≠ .list) (hm : h ≠ .maybe) (hp : (Spec.of h as).positionType = .ok p) :
    p = .union (Spec.of h as).members.eraseDups := by
  rw [positionType] at hp
  · split at hp
    · cases hp; rfl
    · cases hp
  all_goals simp_all

/-- Of a type that is neither primitive nor a list or an optional only nodes of its members
are admitted. -/
theorem admits?_of_members (nameOf : Kind → α) {h : Head α} (as : List (Spec α))
    (hl : h ≠ .list) (hm : h ≠ .maybe) (hp : h.isPrimitive = false) (v : Tree) :
    (Spec.of h as).admits? nameOf v
      = some (match v with
        | .node k _ => (Spec.of h as).hasMember (nameOf k)
        | _ => false) := by
  cases h <;> (try contradiction) <;> (try cases hp) <;> cases v <;> simp [admits?]

/-- The items of a list are looked at one after the other; if each of them has an answer,
so has the list. -/
theorem foldr_admits? (nameOf : Kind → α) (t : Spec α) (q : Tree → Bool)
    (h : ∀ v, t.admits? nameOf v = some (q v)) (items : List Tree) :
    items.foldr (fun v rest => do
      match ← t.admits? nameOf v with
      | true => rest
      | false => some false) (some true) = some (items.all q) := by
  induction items with
  | nil => rfl
  | cons v vs ih =>
    rw [List.foldr_cons, ih, h v]
    cases hq : q v <;> simp [hq]

/-- The written type of a field that holds nodes and its position type describe the same
values. -/
theorem admits?_eq_holds (nameOf : Kind → α) : ∀ {t : Spec α} {p : PositionType α},
    t.isPrimitive? = some false → t.positionType = .ok p →
    ∀ v, t.admits? nameOf v = some (p.holds nameOf v)
  | .of .list (a :: as), p, hprim, hp, v => by
    rw [positionType] at hp
    cases hq : a.positionType with
    | error e => simp [hq, bind, Except.bind] at hp
    | ok q =>
      simp only [hq, bind, Except.bind, pure, Except.pure, Except.ok.injEq] at hp
      subst hp
      have ih := admits?_eq_holds nameOf (t := a) (by simpa [isPrimitive?] using hprim) hq
      cases v with
      | list items =>
        rw [admits?, PositionType.holds]
        exact foldr_admits? nameOf a _ ih items
      | _ => simp [admits?, PositionType.holds]
  | .of .maybe (a :: as), p, hprim, hp, v => by
    rw [positionType] at hp
    cases hq : a.positionType with
    | error e => simp [hq, bind, Except.bind] at hp
    | ok q =>
      simp only [hq, bind, Except.bind, pure, Except.pure, Except.ok.injEq] at hp
      subst hp
      have ih := admits?_eq_holds nameOf (t := a) (by simpa [isPrimitive?] using hprim) hq
      cases v with
      | absent => simp [admits?, PositionType.holds]
      | _ => simp only [admits?, PositionType.holds, ih]
  | .of .list [], p, hprim, hp, v => by simp [isPrimitive?] at hprim
  | .of .maybe [], p, hprim, hp, v => by simp [isPrimitive?] at hprim
  | .of .union as, p, hprim, hp, v => by
    have hu := positionType_eq_union (by simp) (by simp) hp
    rw [admits?_of_members nameOf as (by simp) (by simp) rfl, hu]
    cases v <;> simp [PositionType.holds]
    rw [Bool.eq_iff_iff, ← mem_members]
    simp
  | .of (.named b) as, p, hprim, hp, v => by
    have hu := positionType_eq_union (by simp) (by simp) hp
    rw [admits?_of_members nameOf as (by simp) (by simp) rfl, hu]
    cases v <;> simp [PositionType.holds]
    rw [Bool.eq_iff_iff, ← mem_members]
    simp
  | .of .boolean as, p, hprim, hp, v => by simp [isPrimitive?, Head.isPrimitive] at hprim
  | .of .string as, p, hprim, hp, v => by simp [isPrimitive?, Head.isPrimitive] at hprim
  | .of .number as, p, hprim, hp, v => by simp [isPrimitive?, Head.isPrimitive] at hprim
  | .of (.enum vs) as, p, hprim, hp, v => by simp [isPrimitive?, Head.isPrimitive] at hprim

end Spec

end Whittle.Grammar
