import Whittle.Json.Read
import Whittle.Proofs.Grammar.Entries
import Whittle.Proofs.Json.Tokens

/-!
# What is written is read back

The tokens of a value bring the machine from expecting a value to having that value delivered,
whatever is still open and whatever follows. So a value is read back from every layout, with the
entries of its objects in the order in which they were written.
-/

namespace Whittle.Json

variable {m : Machine} {st : List Open} {t : Token} {ts us : List Token}

theorem run_cons : m.run (t :: ts) = (m.feed t).bind (·.run ts) := by
  rw [Machine.run]
  cases m.feed t <;> rfl

/-- The tokens deliver the value. -/
def Delivers (ts : List Token) (v : Plain) : Prop :=
  ∀ st us, Machine.run ⟨st, .value⟩ (ts ++ us) = (deliver v st).bind (·.run us)

/-! ## Lists -/

/-- The first item of a list may be any value. -/
theorem run_firstItem (v : Plain) (vs : List Plain) :
    Machine.run ⟨st, .firstItem⟩ ([.comma].intercalate ((v :: vs).map tokensOf) ++ us)
      = Machine.run ⟨st, .value⟩ ([.comma].intercalate ((v :: vs).map tokensOf) ++ us) := by
  have hfirst : ∀ us, Machine.run ⟨st, .firstItem⟩ (tokensOf v ++ us)
      = Machine.run ⟨st, .value⟩ (tokensOf v ++ us) := fun us => by cases v <;> rfl
  cases vs with
  | nil =>
    rw [List.map_singleton, List.intercalate_singleton]
    exact hfirst us
  | cons w vs =>
    rw [List.map_cons, List.map_cons, List.intercalate_cons_cons, List.append_assoc,
      List.append_assoc]
    exact hfirst _

/-- The items go to the list one after the other. -/
theorem run_items {items : List Plain} (hne : items ≠ [])
    (h : ∀ v ∈ items, Delivers (tokensOf v) v) (rev : List Plain) :
    Machine.run ⟨.list rev :: st, .value⟩
        ([.comma].intercalate (items.map tokensOf) ++ .closeList :: us)
      = (deliver (.list (rev.reverse ++ items)) st).bind (·.run us) := by
  induction items generalizing rev with
  | nil => exact absurd rfl hne
  | cons v vs ih =>
    obtain ⟨hv, hvs⟩ := List.forall_mem_cons.1 h
    have hrev : rev.reverse ++ v :: vs = (v :: rev).reverse ++ vs := by simp
    rw [hrev]
    cases vs with
    | nil =>
      rw [List.map_singleton, List.intercalate_singleton, hv, List.append_nil]
      exact run_cons
    | cons w vs =>
      rw [List.map_cons, List.map_cons, List.intercalate_cons_cons, List.append_assoc,
        List.append_assoc, hv]
      exact ih (List.cons_ne_nil _ _) hvs (v :: rev)

theorem delivers_list {items : List Plain} (h : ∀ v ∈ items, Delivers (tokensOf v) v) :
    Delivers (tokensOf (.list items)) (.list items) := by
  intro st us
  rw [tokensOf, itemTokens_eq_map, List.cons_append, List.cons_append, List.append_assoc,
    List.singleton_append, run_cons]
  show Machine.run ⟨.list [] :: st, .firstItem⟩ _ = _
  cases items with
  | nil => exact run_cons
  | cons v vs =>
    rw [run_firstItem]
    exact run_items (List.cons_ne_nil v vs) h []

/-! ## Objects -/

/-- The tokens of an entry. -/
abbrev entryTokensOf (e : String × Plain) : List Token := [.text e.1, .colon] ++ tokensOf e.2

/-- The first key of an object may be any key. -/
theorem run_firstKey (e : String × Plain) (es : List (String × Plain)) :
    Machine.run ⟨st, .firstKey⟩ ([.comma].intercalate ((e :: es).map entryTokensOf) ++ us)
      = Machine.run ⟨st, .key⟩ ([.comma].intercalate ((e :: es).map entryTokensOf) ++ us) := by
  cases es <;> rfl

/-- The entries go to the object one after the other. -/
theorem run_entries {es : List (String × Plain)} (hne : es ≠ [])
    (h : ∀ e ∈ es, Delivers (tokensOf e.2) e.2) (rev : List (String × Plain)) :
    Machine.run ⟨.object rev :: st, .key⟩
        ([.comma].intercalate (es.map entryTokensOf) ++ .closeObject :: us)
      = (deliver (.object (Grammar.Entries.ofList (rev.reverse ++ es))) st).bind (·.run us) := by
  induction es generalizing rev with
  | nil => exact absurd rfl hne
  | cons e es ih =>
    obtain ⟨he, hes⟩ := List.forall_mem_cons.1 h
    have hentry : ∀ us, Machine.run ⟨.object rev :: st, .key⟩ (entryTokensOf e ++ us)
        = Machine.run ⟨.object (e :: rev) :: st, .next⟩ us := fun us =>
      he (.member rev e.1 :: st) us
    have hrev : rev.reverse ++ e :: es = (e :: rev).reverse ++ es := by simp
    rw [hrev]
    cases es with
    | nil =>
      rw [List.map_singleton, List.intercalate_singleton, hentry, List.append_nil]
      exact run_cons
    | cons f es =>
      rw [List.map_cons, List.map_cons, List.intercalate_cons_cons, List.append_assoc,
        List.append_assoc, hentry]
      exact ih (List.cons_ne_nil _ _) hes (e :: rev)

theorem delivers_object {es : List (String × Plain)} (hnodup : (es.map (·.1)).Nodup)
    (h : ∀ e ∈ es, Delivers (tokensOf e.2) e.2) :
    Delivers (tokensOf (.object es)) (.object es) := by
  intro st us
  rw [tokensOf, entryTokens_eq_map, List.cons_append, List.cons_append, List.append_assoc,
    List.singleton_append, run_cons]
  show Machine.run ⟨.object [] :: st, .firstKey⟩ _ = _
  cases es with
  | nil => exact run_cons
  | cons e es =>
    rw [run_firstKey]
    refine (run_entries (List.cons_ne_nil e es) h []).trans ?_
    rw [List.reverse_nil, List.nil_append, Grammar.Entries.ofList_of_nodup hnodup]

/-! ## Values -/

mutual
/-- The tokens of a value deliver it. -/
theorem delivers_tokensOf : ∀ {v : Plain}, v.KeysDistinct → Delivers (tokensOf v) v
  | .list _, h => delivers_list (delivers_items h)
  | .object _, h => delivers_object h.1 (delivers_entries h.2)
  | .null, _ | .bool _, _ | .int _, _ | .float _, _ | .str _, _ => fun _ _ => run_cons

theorem delivers_items : ∀ {items : List Plain}, Plain.ItemsDistinct items →
    ∀ v ∈ items, Delivers (tokensOf v) v
  | [], _ => by simp
  | _ :: _, h => List.forall_mem_cons.2 ⟨delivers_tokensOf h.1, delivers_items h.2⟩

theorem delivers_entries : ∀ {es : List (String × Plain)}, Plain.EntriesDistinct es →
    ∀ e ∈ es, Delivers (tokensOf e.2) e.2
  | [], _ => by simp
  | _ :: _, h => List.forall_mem_cons.2 ⟨delivers_tokensOf h.1, delivers_entries h.2⟩
end

end Whittle.Json
