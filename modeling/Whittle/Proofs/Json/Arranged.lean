import Whittle.Plain

/-!
# Arranged data

Plain data in the order in which it is written: the entries of every object stay in their order,
or are sorted by their keys.
-/

namespace Whittle

/-- Entries in the order in which they are written. -/
def Json.arrange {α : Type} (sort : Bool) (es : List (String × α)) : List (String × α) :=
  if sort then es.mergeSort fun a b => decide (a.1 ≤ b.1) else es

namespace Json

variable {α β : Type} (sort : Bool)

theorem arrange_perm (es : List (String × α)) : (arrange sort es).Perm es := by
  unfold arrange
  split
  · exact List.mergeSort_perm _ _
  · exact .refl _

/-- What stands under the keys does not matter for their order. -/
theorem arrange_map {f : String × α → String × β} (hf : ∀ e, (f e).1 = e.1)
    (es : List (String × α)) : arrange sort (es.map f) = (arrange sort es).map f := by
  unfold arrange
  split
  · rw [List.map_mergeSort (s := fun a b => decide (a.1 ≤ b.1)) fun a _ b _ => by rw [hf, hf]]
  · rfl

end Json

namespace Plain

mutual
/-- A value with the entries of all its objects in the order in which they are written. -/
def arranged (sort : Bool) : Plain → Plain
  | .list items => .list (arrangedItems sort items)
  | .object es => .object (Json.arrange sort (arrangedEntries sort es))
  | v => v

/-- Items with the entries in the order in which they are written. -/
def arrangedItems (sort : Bool) : List Plain → List Plain
  | [] => []
  | v :: vs => v.arranged sort :: arrangedItems sort vs

/-- Entries whose values have their entries in the order in which they are written. -/
def arrangedEntries (sort : Bool) : List (String × Plain) → List (String × Plain)
  | [] => []
  | (k, v) :: es => (k, v.arranged sort) :: arrangedEntries sort es
end

variable (sort : Bool)

theorem arrangedItems_eq_map (items : List Plain) :
    arrangedItems sort items = items.map (arranged sort) := by
  induction items with
  | nil => rfl
  | cons v vs ih => rw [arrangedItems, ih, List.map_cons]

theorem arrangedEntries_eq_map (es : List (String × Plain)) :
    arrangedEntries sort es = es.map fun e => (e.1, e.2.arranged sort) := by
  induction es with
  | nil => rfl
  | cons e es ih => rw [arrangedEntries, ih, List.map_cons]

/-! ## Keys -/

mutual
/-- No object gives a key twice. -/
def KeysDistinct : Plain → Prop
  | .list items => ItemsDistinct items
  | .object es => (es.map (·.1)).Nodup ∧ EntriesDistinct es
  | _ => True

/-- No object in the items gives a key twice. -/
def ItemsDistinct : List Plain → Prop
  | [] => True
  | v :: vs => v.KeysDistinct ∧ ItemsDistinct vs

/-- No object under the keys gives a key twice. -/
def EntriesDistinct : List (String × Plain) → Prop
  | [] => True
  | (_, v) :: es => v.KeysDistinct ∧ EntriesDistinct es
end

theorem itemsDistinct_iff {items : List Plain} :
    ItemsDistinct items ↔ ∀ v ∈ items, v.KeysDistinct := by
  induction items with
  | nil => simp [ItemsDistinct]
  | cons v vs ih => rw [ItemsDistinct, ih, List.forall_mem_cons]

theorem entriesDistinct_iff {es : List (String × Plain)} :
    EntriesDistinct es ↔ ∀ e ∈ es, e.2.KeysDistinct := by
  induction es with
  | nil => simp [EntriesDistinct]
  | cons e es ih => rw [EntriesDistinct, ih, List.forall_mem_cons]

mutual
/-- Sorting entries does not give a key twice. -/
theorem KeysDistinct.arranged : ∀ {v : Plain}, v.KeysDistinct → (v.arranged sort).KeysDistinct
  | .list items, h => by
      rw [Plain.arranged, arrangedItems_eq_map, KeysDistinct, itemsDistinct_iff,
        List.forall_mem_map]
      exact items_arranged h
  | .object es, h => by
      have hperm := Json.arrange_perm sort (arrangedEntries sort es)
      rw [Plain.arranged, KeysDistinct, entriesDistinct_iff, (hperm.map _).nodup_iff]
      refine ⟨?_, fun e he => ?_⟩
      · rw [arrangedEntries_eq_map, List.map_map]
        exact h.1
      · rw [hperm.mem_iff, arrangedEntries_eq_map] at he
        obtain ⟨entry, hentry, rfl⟩ := List.mem_map.1 he
        exact entries_arranged h.2 entry hentry
  | .null, _ | .bool _, _ | .int _, _ | .float _, _ | .str _, _ => trivial

theorem items_arranged : ∀ {items : List Plain}, ItemsDistinct items →
    ∀ v ∈ items, (v.arranged sort).KeysDistinct
  | [], _ => by simp
  | _ :: _, h => List.forall_mem_cons.2 ⟨h.1.arranged, items_arranged h.2⟩

theorem entries_arranged : ∀ {es : List (String × Plain)}, EntriesDistinct es →
    ∀ e ∈ es, (e.2.arranged sort).KeysDistinct
  | [], _ => by simp
  | _ :: _, h => List.forall_mem_cons.2 ⟨h.1.arranged, entries_arranged h.2⟩
end

end Plain

end Whittle
