import Whittle.Proofs.Exchange
import Whittle.Proofs.Json.Read

/-!
# Trees that come back from text

A tree that comes back from its plain data also comes back from the text of these data. The text
may give the entries of an object in another order, but every entry names its field, so the node
is made of the same values.
-/

namespace Whittle.Exchange

open Grammar Whittle.Language

variable {sort : Bool}

/-! ## Entries in another order -/

/-- Each entry but the kind's gives the field that it names, with the tree of its value. -/
theorem fieldsOf_eq_ok {es : List (String × Plain)} {fs : List (String × Tree)} :
    fieldsOf es = .ok fs ↔ List.Forall₂ (fun e f => fieldName e.1 = f.1 ∧ ofPlain e.2 = .ok f.2)
      (es.filter (·.1 != "type")) fs := by
  induction es generalizing fs with
  | nil => simp [fieldsOf, eq_comm]
  | cons e es ih =>
    rw [fieldsOf]
    split
    · rename_i htype
      rw [ih, List.filter_cons_of_neg (by simpa using htype)]
    · rename_i htype
      rw [List.filter_cons_of_pos (by simpa using htype), List.forall₂_cons_left_iff]
      simp only [← ih]
      cases ofPlain e.2 <;> cases fieldsOf es <;>
        simp [bind, Except.bind, pure, Except.pure, eq_comm]

/-- Entries in another order give the same fields in another order. -/
theorem fieldsOf_perm {es es' : List (String × Plain)} (hperm : es.Perm es')
    {fs : List (String × Tree)} (h : fieldsOf es = .ok fs) :
    ∃ fs', fs.Perm fs' ∧ fieldsOf es' = .ok fs' := by
  obtain ⟨fs', hfs', hfs⟩ := List.perm_comp_forall₂ (hperm.filter _).symm (fieldsOf_eq_ok.1 h)
  exact ⟨fs', hfs.symm, fieldsOf_eq_ok.2 hfs'⟩

/-- The keys of a node's object are distinct. -/
theorem keys_nodup (k : Kind) {α : Type} {values : List α} {type : α}
    (hlen : values.length = k.fieldNames.length) :
    ((("type", type) :: (k.fieldNames.map exchangeName).zip values).map (·.1)).Nodup := by
  have hnames : ((k.fieldNames.map exchangeName).zip values).map (·.1)
      = k.fieldNames.map exchangeName := List.map_fst_zip (by simp [hlen])
  rw [List.map_cons, hnames, List.nodup_cons]
  constructor
  · rintro htype
    obtain ⟨f, hf, heq⟩ := List.mem_map.1 htype
    exact (fieldName_exchangeName hf).1 heq
  · refine List.Nodup.map_on (fun f hf g hg heq => ?_) (fieldNames_nodup k)
    rw [← (fieldName_exchangeName hf).2, heq, (fieldName_exchangeName hg).2]

/-- An object that has a node's entries in any order is read in by making the node. -/
theorem ofPlain_object {k : Kind} {values : List Plain} {fields : List Tree}
    {es : List (String × Plain)} (hlen : values.length = k.fieldNames.length)
    (hread : ofPlainAll values = .ok fields)
    (hperm : (("type", .str k.name) :: (k.fieldNames.map exchangeName).zip values).Perm es) :
    ofPlain (.object es) = Node.make k fields := by
  have hfields : fieldsOf (("type", .str k.name) :: (k.fieldNames.map exchangeName).zip values)
      = .ok (k.fieldNames.zip fields) := by
    rw [fieldsOf, if_pos (beq_self_eq_true _),
      fieldsOf_zip (fun f hf => fieldName_exchangeName hf) hlen, hread]
    rfl
  obtain ⟨fs, hfs, hread'⟩ := fieldsOf_perm hperm hfields
  have hlen' : fields.length = k.fieldNames.length := (length_ofPlainAll hread).trans hlen
  have hnames : (k.fieldNames.zip fields).map (·.1) = k.fieldNames := List.map_fst_zip hlen'.ge
  have hnodup : (fs.map (·.1)).Nodup :=
    (hfs.map _).nodup_iff.1 (hnames.symm ▸ fieldNames_nodup k)
  have hkind : Entries.get? "type" es = some (.str k.name) := by
    rw [← Entries.get?_perm _ (keys_nodup k hlen) hperm]
    rfl
  rw [ofPlain, hkind]
  simp only [hread', kindName]
  show Node.makeNamed _ (Entries.ofList fs) = _
  rw [Entries.ofList_of_nodup hnodup, Node.makeNamed_of_perm hlen' hfs]

/-! ## Trees -/

/-- A node that is made by names has a value for each of its fields. -/
theorem length_of_makeNamed {name : KindName} {es : Entries String Tree} {k : Kind}
    {fields : List Tree} (h : Node.makeNamed name es = .ok (.node k fields)) :
    fields.length = k.fieldNames.length := by
  simp only [Node.makeNamed, bind, Except.bind] at h
  split at h
  · cases h
  · split at h
    · rename_i l _ hmissing
      split at h
      · obtain ⟨-, heq⟩ := make_eq_ok.1 h
        cases heq
        rw [List.filterMap_length_eq_length]
        intro f hf
        simpa [Entries.has, Option.isSome_iff_ne_none]
          using List.filter_eq_nil_iff.1 hmissing f hf
      · cases h
    · cases h

/-- A node that comes back has a value for each of its fields. -/
theorem length_of_returns {k : Kind} {fields : List Tree} (h : Returns (.node k fields)) :
    fields.length = k.fieldNames.length := by
  rw [Returns, toPlain, ofPlain, Entries.get?, if_pos rfl] at h
  simp only [bind, Except.bind] at h
  split at h
  · cases h
  · exact length_of_makeNamed h

mutual
/-- What comes back does so with the entries of all objects in another order. -/
theorem ofPlain_arranged : ∀ {t : Tree}, Returns t → ofPlain ((toPlain t).arranged sort) = .ok t
  | .absent, _ | .bool _, _ | .int _, _ | .float _, _ | .str _, _ => rfl
  | .list items, h => by
      rw [toPlain, Plain.arranged, Plain.arrangedItems_eq_map, ofPlain,
        ofPlainAll_arranged (returns_list.1 h)]
      rfl
  | .node k fields, h => by
      have hlen := length_of_returns h
      obtain ⟨hfields, hcheck⟩ := (returns_node hlen).1 h
      have hread := ofPlainAll_arranged hfields
      have hentries : Plain.arrangedEntries sort (("type", .str k.name) ::
          (k.fieldNames.map exchangeName).zip (toPlainAll fields))
            = ("type", .str k.name) :: (k.fieldNames.map exchangeName).zip
              ((toPlainAll fields).map (Plain.arranged sort)) := by
        rw [Plain.arrangedEntries, Plain.arrangedEntries_eq_map, List.zip_map_right]
        rfl
      rw [toPlain, Plain.arranged, hentries,
        ofPlain_object (by simp [length_toPlainAll, hlen]) hread (Json.arrange_perm _ _).symm]
      exact make_eq_ok.2 ⟨hcheck, rfl⟩

theorem ofPlainAll_arranged : ∀ {ts : List Tree}, (∀ t ∈ ts, Returns t) →
    ofPlainAll ((toPlainAll ts).map (Plain.arranged sort)) = .ok ts
  | [], _ => rfl
  | t :: ts, h => by
      obtain ⟨ht, hts⟩ := List.forall_mem_cons.1 h
      rw [toPlainAll, List.map_cons, ofPlainAll, ofPlain_arranged ht, ofPlainAll_arranged hts]
      rfl
end

mutual
/-- The objects of a tree that comes back have distinct keys. -/
theorem keysDistinct_toPlain : ∀ {t : Tree}, Returns t → (toPlain t).KeysDistinct
  | .absent, _ | .bool _, _ | .int _, _ | .float _, _ | .str _, _ => trivial
  | .list _, h => Plain.itemsDistinct_iff.2 (keysDistinct_toPlainAll (returns_list.1 h))
  | .node k fields, h => by
      have hlen := length_of_returns h
      have hfields := keysDistinct_toPlainAll ((returns_node hlen).1 h).1
      rw [toPlain, Plain.KeysDistinct, Plain.entriesDistinct_iff]
      refine ⟨keys_nodup k ((length_toPlainAll fields).trans hlen), ?_⟩
      refine List.forall_mem_cons.2 ⟨trivial, fun e he => ?_⟩
      exact hfields _ (List.of_mem_zip he).2

theorem keysDistinct_toPlainAll : ∀ {ts : List Tree}, (∀ t ∈ ts, Returns t) →
    ∀ v ∈ toPlainAll ts, v.KeysDistinct
  | [], _ => by simp [toPlainAll]
  | t :: ts, h => by
      obtain ⟨ht, hts⟩ := List.forall_mem_cons.1 h
      exact List.forall_mem_cons.2 ⟨keysDistinct_toPlain ht, keysDistinct_toPlainAll hts⟩
end

/-! ## Texts -/

end Whittle.Exchange
