import Whittle.Proofs.Grammar.Cores
import Whittle.Proofs.Grammar.Entries

/-!
# Tables of grammars

A grammar has a table exactly if the cores of the fields that can hold nodes have neither lists
nor optionals among their members and mention declared types only. The table then has the types
of the grammar with these fields, in order.
-/

namespace Whittle.Grammar

variable {α : Type}

/-! ## Rows -/

/-- The second list has the fields of the first one that are not primitive, in order, each with
the type of its position. -/
inductive Keeps : List (String × Spec α) → List (String × PositionType α) → Prop
  | nil : Keeps [] []
  | drop {name : String} {t : Spec α} {fields : List (String × Spec α)}
      {slots : List (String × PositionType α)} (ht : t.IsPrimitive) (h : Keeps fields slots) :
      Keeps ((name, t) :: fields) slots
  | keep {name : String} {t : Spec α} {p : PositionType α} {fields : List (String × Spec α)}
      {slots : List (String × PositionType α)} (ht : ¬ t.IsPrimitive) (hp : t.Describes p)
      (h : Keeps fields slots) :
      Keeps ((name, t) :: fields) ((name, p) :: slots)

/-- A field that holds nodes but has no position type. -/
def Spec.IsUnusable (t : Spec α) : Prop := ¬ t.IsPrimitive ∧ t.IsNontrivial

namespace Keeps

variable {fields : List (String × Spec α)} {slots : List (String × PositionType α)}

theorem names_sublist (h : Keeps fields slots) :
    (slots.map (·.1)).Sublist (fields.map (·.1)) := by
  induction h with
  | nil => exact .slnil
  | drop ht h ih => exact ih.cons _
  | keep ht hp h ih => exact ih.cons_cons _

theorem exists_slot (h : Keeps fields slots) {f : String × Spec α} (hf : f ∈ fields)
    (hnot : ¬ f.2.IsPrimitive) : ∃ p, (f.1, p) ∈ slots ∧ f.2.Describes p := by
  induction h with
  | nil => exact absurd hf List.not_mem_nil
  | drop ht h ih =>
    rcases List.mem_cons.1 hf with rfl | hf
    · exact absurd ht hnot
    · exact ih hf
  | @keep name t p fields slots ht hp h ih =>
    rcases List.mem_cons.1 hf with rfl | hf
    · exact ⟨p, List.mem_cons_self, hp⟩
    · obtain ⟨q, hq, hdescribes⟩ := ih hf
      exact ⟨q, List.mem_cons_of_mem _ hq, hdescribes⟩

theorem exists_field (h : Keeps fields slots) {slot : String × PositionType α}
    (hslot : slot ∈ slots) :
    ∃ t, (slot.1, t) ∈ fields ∧ ¬ t.IsPrimitive ∧ t.Describes slot.2 := by
  induction h with
  | nil => exact absurd hslot List.not_mem_nil
  | drop ht h ih =>
    obtain ⟨t, hmem, hrest⟩ := ih hslot
    exact ⟨t, List.mem_cons_of_mem _ hmem, hrest⟩
  | @keep name t p fields slots ht hp h ih =>
    rcases List.mem_cons.1 hslot with rfl | hslot
    · exact ⟨t, List.mem_cons_self, ht, hp⟩
    · obtain ⟨t, hmem, hrest⟩ := ih hslot
      exact ⟨t, List.mem_cons_of_mem _ hmem, hrest⟩

end Keeps

variable [DecidableEq α]

/-- The fields of a type that hold nodes are found unless one of them has no position type. -/
theorem nodeFields_of_isNest {fields : List (String × Spec α)}
    (h : ∀ f ∈ fields, f.2.IsNest) :
    ((∀ f ∈ fields, ¬ f.2.IsUnusable) ∧
      ∃ slots, nodeFields fields = .ok slots ∧ Keeps fields slots) ∨
    ((∃ f ∈ fields, f.2.IsUnusable) ∧
      ∃ u ms, nodeFields fields = .error (.nontrivialUnion u ms)) := by
  induction fields with
  | nil =>
    left
    exact ⟨fun f hf => absurd hf List.not_mem_nil, [], rfl, .nil⟩
  | cons f fields ih =>
    obtain ⟨name, t⟩ := f
    rw [List.forall_mem_cons] at h
    rcases Spec.slotType?_of_isNest h.1 with
      ⟨hprimitive, hslot⟩ | ⟨hnot, htrivial, p, hslot, hp⟩ | ⟨hnot, hnontrivial, u, ms, hslot⟩
    · have hfields : nodeFields ((name, t) :: fields) = nodeFields fields := by
        rw [nodeFields, hslot]
        rfl
      have hhead : ¬ t.IsUnusable := fun hbad => hbad.1 hprimitive
      rw [hfields]
      rcases ih h.2 with ⟨hall, slots, hok, hkeeps⟩ | ⟨⟨f, hf, hbad⟩, herror⟩
      · left
        exact ⟨List.forall_mem_cons.2 ⟨hhead, hall⟩, slots, hok, .drop hprimitive hkeeps⟩
      · right
        exact ⟨⟨f, List.mem_cons_of_mem _ hf, hbad⟩, herror⟩
    · have hfields : nodeFields ((name, t) :: fields)
          = (do return (name, p) :: (← nodeFields fields)) := by
        rw [nodeFields, hslot]
        rfl
      have hhead : ¬ t.IsUnusable := fun hbad => htrivial hbad.2
      rw [hfields]
      rcases ih h.2 with ⟨hall, slots, hok, hkeeps⟩ | ⟨⟨f, hf, hbad⟩, u, ms, herror⟩
      · left
        exact ⟨List.forall_mem_cons.2 ⟨hhead, hall⟩, (name, p) :: slots, by rw [hok]; rfl,
          .keep hnot hp hkeeps⟩
      · right
        exact ⟨⟨f, List.mem_cons_of_mem _ hf, hbad⟩, u, ms, by rw [herror]; rfl⟩
    · right
      exact ⟨⟨(name, t), List.mem_cons_self, hnot, hnontrivial⟩, u, ms, by
        rw [nodeFields, hslot]; rfl⟩

/-! ## Tables -/

/-- The second list has the types of the first one, in order, each with its fields that hold
nodes. -/
inductive KeepsAll : Declarations α → Table α → Prop
  | nil : KeepsAll [] []
  | cons {name : α} {fields : List (String × Spec α)} {slots : List (String × PositionType α)}
      {g : Declarations α} {table : Table α} (hrow : Keeps fields slots) (h : KeepsAll g table) :
      KeepsAll ((name, fields) :: g) ((name, slots) :: table)

namespace KeepsAll

variable {g : Declarations α} {table : Table α}

omit [DecidableEq α] in
theorem names_eq (h : KeepsAll g table) : table.map (·.1) = g.map (·.1) := by
  induction h with
  | nil => rfl
  | cons hrow h ih => rw [List.map_cons, List.map_cons, ih]

omit [DecidableEq α] in
theorem exists_row (h : KeepsAll g table) {d : α × List (String × Spec α)} (hd : d ∈ g) :
    ∃ row ∈ table, Keeps d.2 row.2 := by
  induction h with
  | nil => exact absurd hd List.not_mem_nil
  | @cons name fields slots g table hrow h ih =>
    rcases List.mem_cons.1 hd with rfl | hd
    · exact ⟨(name, slots), List.mem_cons_self, hrow⟩
    · obtain ⟨row, hmem, hkeeps⟩ := ih hd
      exact ⟨row, List.mem_cons_of_mem _ hmem, hkeeps⟩

omit [DecidableEq α] in
theorem exists_declaration (h : KeepsAll g table)
    {row : α × List (String × PositionType α)} (hrow : row ∈ table) :
    ∃ d ∈ g, Keeps d.2 row.2 := by
  induction h with
  | nil => exact absurd hrow List.not_mem_nil
  | @cons name fields slots g table hkeeps h ih =>
    rcases List.mem_cons.1 hrow with rfl | hrow
    · exact ⟨(name, fields), List.mem_cons_self, hkeeps⟩
    · obtain ⟨d, hmem, hkeeps⟩ := ih hrow
      exact ⟨d, List.mem_cons_of_mem _ hmem, hkeeps⟩

end KeepsAll

/-- The row of a type. -/
def rowOf (d : α × List (String × Spec α)) :
    Except (GrammarError α) (α × Entries String (PositionType α)) := do
  return (d.1, Entries.ofList (← nodeFields d.2))

/-- There is a row for each type unless one of the fields has no position type. -/
theorem rowsOf_of_isNest {g : Declarations α} (hnodup : ∀ d ∈ g, (d.2.map (·.1)).Nodup)
    (hnest : ∀ d ∈ g, ∀ f ∈ d.2, f.2.IsNest) :
    ((∀ d ∈ g, ∀ f ∈ d.2, ¬ f.2.IsUnusable) ∧
      ∃ table, g.mapM rowOf = .ok table ∧ KeepsAll g table) ∨
    ((∃ d ∈ g, ∃ f ∈ d.2, f.2.IsUnusable) ∧
      ∃ u ms, g.mapM rowOf = .error (.nontrivialUnion u ms)) := by
  induction g with
  | nil =>
    left
    exact ⟨fun d hd => absurd hd List.not_mem_nil, [], rfl, .nil⟩
  | cons d g ih =>
    obtain ⟨name, fields⟩ := d
    rw [List.forall_mem_cons] at hnodup hnest
    rw [List.mapM_cons]
    rcases nodeFields_of_isNest hnest.1 with
      ⟨hall, slots, hok, hkeeps⟩ | ⟨hbad, u, ms, herror⟩
    -- no name is given twice, so putting the entries together changes nothing
    · have hslots : (slots.map (·.1)).Nodup := hnodup.1.sublist hkeeps.names_sublist
      have hrow : rowOf (name, fields) = .ok (name, slots) := by
        rw [rowOf, hok]
        show Except.ok (name, Entries.ofList slots) = _
        rw [Entries.ofList_of_nodup hslots]
      rw [hrow]
      rcases ih hnodup.2 hnest.2 with ⟨hrest, table, htable, hrows⟩ | ⟨⟨e, he, hbad⟩, u, ms, herror⟩
      · left
        exact ⟨List.forall_mem_cons.2 ⟨hall, hrest⟩, (name, slots) :: table, by rw [htable]; rfl,
          .cons hkeeps hrows⟩
      · right
        exact ⟨⟨e, List.mem_cons_of_mem _ he, hbad⟩, u, ms, by rw [herror]; rfl⟩
    · right
      exact ⟨⟨(name, fields), List.mem_cons_self, hbad⟩, u, ms, by rw [rowOf, herror]; rfl⟩

/-- The grammar has a type that is called what the member is called. -/
def Declarations.Declares (nameOf : α → String) (g : Declarations α) (m : Head α) : Prop :=
  ∃ d ∈ g, nameOf d.1 = m.word nameOf

/-- A field holds nodes, but has no position type or mentions a type that is not declared. -/
def Declarations.IsIllFormed (nameOf : α → String) (g : Declarations α) : Prop :=
  ∃ d ∈ g, ∃ f ∈ d.2, ¬ f.2.IsPrimitive ∧
    (f.2.IsNontrivial ∨ ∃ m, f.2.Mentions m ∧ ¬ g.Declares nameOf m)

/-- The members of all unions of the table are called like one of its types, and none is a
container. -/
def Table.IsClosed (nameOf : α → String) (table : Table α) : Prop :=
  ∀ row ∈ table, ∀ slot ∈ row.2, ∀ m ∈ slot.2.members,
    (∃ owner ∈ table.map (·.1), nameOf owner = m.word nameOf) ∧ m.isContainer = false

variable {nameOf : α → String} {g : Declarations α} {table : Table α}

omit [DecidableEq α] in
theorem declares_iff {m : Head α} :
    declares nameOf table m = true ↔ ∃ owner ∈ table.map (·.1), nameOf owner = m.word nameOf := by
  simp [declares]

omit [DecidableEq α] in
theorem KeepsAll.declares_iff (h : KeepsAll g table) {m : Head α} :
    declares nameOf table m = true ↔ g.Declares nameOf m := by
  rw [Grammar.declares_iff, h.names_eq]
  simp [Declarations.Declares]

omit [DecidableEq α] in
/-- All mentions are declared unless there is a first one that is not. -/
theorem firstUndeclared?_cases (nameOf : α → String) (table : Table α) :
    (firstUndeclared? nameOf table = none ∧
      ∀ row ∈ table, ∀ slot ∈ row.2, ∀ m ∈ slot.2.members, declares nameOf table m = true) ∨
    ((∃ row ∈ table, ∃ slot ∈ row.2, ∃ m ∈ slot.2.members, declares nameOf table m = false) ∧
      ∃ owner field m, firstUndeclared? nameOf table = some (.undeclared owner field m)) := by
  cases hfirst : firstUndeclared? nameOf table with
  | none =>
    left
    refine ⟨rfl, ?_⟩
    simpa [firstUndeclared?, List.findSome?_eq_none_iff] using hfirst
  | some e =>
    right
    obtain ⟨row, hrow, hrow'⟩ := List.exists_of_findSome?_eq_some hfirst
    obtain ⟨slot, hslot, hslot'⟩ := List.exists_of_findSome?_eq_some hrow'
    obtain ⟨m, hm, rfl⟩ := Option.map_eq_some_iff.1 hslot'
    have hnot : declares nameOf table m = false := by simpa using List.find?_some hm
    exact ⟨⟨row, hrow, slot, hslot, m, List.mem_of_find?_eq_some hm, hnot⟩, _, _, m, rfl⟩

omit [DecidableEq α] in
/-- The positions of a table mention what the fields of the grammar that hold nodes mention. -/
theorem KeepsAll.mentions_iff (h : KeepsAll g table) (P : Head α → Prop) :
    (∀ row ∈ table, ∀ slot ∈ row.2, ∀ m ∈ slot.2.members, P m) ↔
      ∀ d ∈ g, ∀ f ∈ d.2, ¬ f.2.IsPrimitive → ∀ m, f.2.Mentions m → P m := by
  constructor
  · intro hall d hd f hf hnot m hm
    obtain ⟨row, hrow, hkeeps⟩ := h.exists_row hd
    obtain ⟨p, hslot, hp⟩ := hkeeps.exists_slot hf hnot
    exact hall row hrow (f.1, p) hslot m (hp.mem_members_iff.2 hm)
  · intro hall row hrow slot hslot m hm
    obtain ⟨d, hd, hkeeps⟩ := h.exists_declaration hrow
    obtain ⟨t, hf, hnot, hp⟩ := hkeeps.exists_field hslot
    exact hall d hd (slot.1, t) hf hnot m (hp.mem_members_iff.1 hm)

/-- Rows make a table if no undeclared type is mentioned. -/
theorem tableOf_of_rows (htypes : (g.map (·.1)).Nodup) (hrows : g.mapM rowOf = .ok table) :
    tableOf nameOf g
      = match firstUndeclared? nameOf table with
        | some e => .error e
        | none => .ok table := by
  have hrows' : (Entries.ofList g).mapM rowOf = .ok table := by
    rw [Entries.ofList_of_nodup htypes, hrows]
  show (Entries.ofList g).mapM rowOf >>= _ = _
  rw [hrows']
  show (match firstUndeclared? nameOf table with
    | some e => throw e
    | none => return table) = _
  cases firstUndeclared? nameOf table with
  | none => rfl
  | some e => rfl

theorem tableOf_of_error {e : GrammarError α} (htypes : (g.map (·.1)).Nodup)
    (herror : g.mapM rowOf = .error e) : tableOf nameOf g = .error e := by
  have herror' : (Entries.ofList g).mapM rowOf = .error e := by
    rw [Entries.ofList_of_nodup htypes, herror]
  show (Entries.ofList g).mapM rowOf >>= _ = _
  rw [herror']
  rfl

/-- A grammar is ill-formed and rejected, or its table is closed. -/
theorem tableOf_of_isNest (nameOf : α → String) (htypes : (g.map (·.1)).Nodup)
    (hfields : ∀ d ∈ g, (d.2.map (·.1)).Nodup) (hnest : ∀ d ∈ g, ∀ f ∈ d.2, f.2.IsNest) :
    (g.IsIllFormed nameOf ∧ ∃ e, tableOf nameOf g = .error e ∧ e ≠ .missingArgument) ∨
    (¬ g.IsIllFormed nameOf ∧
      ∃ table, tableOf nameOf g = .ok table ∧ KeepsAll g table ∧ Table.IsClosed nameOf table) := by
  rcases rowsOf_of_isNest hfields hnest with
    ⟨husable, table, hrows, hkeeps⟩ | ⟨⟨d, hd, f, hf, hnot, hnontrivial⟩, u, ms, herror⟩
  · rw [tableOf_of_rows htypes hrows]
    rcases firstUndeclared?_cases nameOf table with
      ⟨hnone, hall⟩ | ⟨⟨row, hrow, slot, hslot, m, hm, hundeclared⟩, owner, field, member, hsome⟩
    · right
      have hdeclared := (hkeeps.mentions_iff _).1 hall
      constructor
      · rintro ⟨d, hd, f, hf, hnot, hnontrivial | ⟨m, hm, hundeclared⟩⟩
        · exact husable d hd f hf ⟨hnot, hnontrivial⟩
        · exact hundeclared (hkeeps.declares_iff.1 (hdeclared d hd f hf hnot m hm))
      · have hclosed : Table.IsClosed nameOf table := by
          rw [Table.IsClosed, hkeeps.mentions_iff]
          intro d hd f hf hnot m hm
          have hcontainer : m.isContainer ≠ true := fun hcontainer =>
            husable d hd f hf ⟨hnot, .of_mentions hm hcontainer⟩
          exact ⟨declares_iff.1 (hdeclared d hd f hf hnot m hm), eq_false_of_ne_true hcontainer⟩
        rw [hnone]
        exact ⟨table, rfl, hkeeps, hclosed⟩
    · left
      constructor
      -- in a well-formed grammar every mention would be declared
      · by_contra hwell
        have hall : ∀ d ∈ g, ∀ f ∈ d.2, ¬ f.2.IsPrimitive → ∀ m, f.2.Mentions m →
            declares nameOf table m = true := by
          intro d hd f hf hnot m hm
          rw [hkeeps.declares_iff]
          by_contra hmissing
          exact hwell ⟨d, hd, f, hf, hnot, .inr ⟨m, hm, hmissing⟩⟩
        have htrue := (hkeeps.mentions_iff _).2 hall row hrow slot hslot m hm
        rw [hundeclared] at htrue
        cases htrue
      · rw [hsome]
        exact ⟨_, rfl, by simp⟩
  · left
    constructor
    · exact ⟨d, hd, f, hf, hnot, .inl hnontrivial⟩
    · exact ⟨_, tableOf_of_error htypes herror, by simp⟩

/-! ## Grammars as they are written -/

/-- A field type as an author gives it: a bare name, or a type. -/
inductive FieldType where
  | name (word : String)
  | type (t : Spec String)

def FieldType.spec : FieldType → Spec String
  | .name word => .atom (.ofWord word)
  | .type t => t

/-- The declarations that a written grammar stands for. -/
def declarationsOf (raw : List (String × List (String × FieldType))) : Declarations String :=
  raw.map fun d => (d.1, d.2.map fun f => (f.1, f.2.spec))

/-- The heads of containers are the ones that their words denote. -/
theorem Head.isContainer_ofWord (w : String) :
    (Head.ofWord w).isContainer = true ↔ w ∈ ["Union", "List", "Maybe"] := by
  by_cases hunion : w = "Union"
  · subst hunion
    decide
  by_cases hlist : w = "List"
  · subst hlist
    decide
  by_cases hmaybe : w = "Maybe"
  · subst hmaybe
    decide
  have hnot : (Head.ofWord w).isContainer = false := by
    simp only [Head.ofWord, beq_iff_eq, hunion, hlist, hmaybe, if_false]
    split_ifs <;> rfl
  simp [hnot, hunion, hlist, hmaybe]

/-- No member of a union is called like a container. -/
def Table.LacksContainerNames (table : Table String) : Prop :=
  ∀ row ∈ table, ∀ slot ∈ row.2, ∀ m ∈ slot.2.members, ∀ w, Head.ofWord w = m →
    w ∉ ["Union", "List", "Maybe"]

theorem Table.IsClosed.lacksContainerNames {table : Table String}
    (h : Table.IsClosed id table) : Table.LacksContainerNames table := by
  intro row hrow slot hslot m hm w hw hname
  have hcontainer : m.isContainer = true := by rwa [← hw, Head.isContainer_ofWord]
  rw [(h row hrow slot hslot m hm).2] at hcontainer
  cases hcontainer

/-- A written grammar is rejected exactly if it is ill-formed. The table of any other has the
types of the grammar, with exactly the fields that are not primitive, in order, and the members
of its unions are declared types and not called like containers. -/
theorem tableOf_declarationsOf (raw : List (String × List (String × FieldType)))
    (htypes : (raw.map (·.1)).Nodup) (hfields : ∀ d ∈ raw, (d.2.map (·.1)).Nodup)
    (hnest : ∀ d ∈ raw, ∀ f ∈ d.2, f.2.spec.IsNest) :
    ((∃ e, tableOf id (declarationsOf raw) = .error e ∧ e ≠ .missingArgument) ↔
      (declarationsOf raw).IsIllFormed id) ∧
    (¬ (declarationsOf raw).IsIllFormed id →
      ∃ table, tableOf id (declarationsOf raw) = .ok table ∧
        KeepsAll (declarationsOf raw) table ∧ Table.IsClosed id table ∧
        Table.LacksContainerNames table) := by
  have htypes' : ((declarationsOf raw).map (·.1)).Nodup := by
    rwa [declarationsOf, List.map_map]
  have hfields' : ∀ d ∈ declarationsOf raw, (d.2.map (·.1)).Nodup := by
    intro d hd
    obtain ⟨written, hwritten, rfl⟩ := List.mem_map.1 hd
    show ((written.2.map _).map _).Nodup
    rw [List.map_map]
    exact hfields written hwritten
  have hnest' : ∀ d ∈ declarationsOf raw, ∀ f ∈ d.2, f.2.IsNest := by
    intro d hd f hf
    obtain ⟨written, hwritten, rfl⟩ := List.mem_map.1 hd
    obtain ⟨field, hfield, rfl⟩ := List.mem_map.1 hf
    exact hnest written hwritten field hfield
  rcases tableOf_of_isNest id htypes' hfields' hnest' with
    ⟨hill, e, herror, he⟩ | ⟨hwell, table, hok, hkeeps, hclosed⟩
  · constructor
    · exact ⟨fun _ => hill, fun _ => ⟨e, herror, he⟩⟩
    · intro hwell
      exact absurd hill hwell
  · constructor
    · constructor
      · rintro ⟨e, herror, -⟩
        rw [hok] at herror
        cases herror
      · intro hill
        exact absurd hill hwell
    · intro _
      exact ⟨table, hok, hkeeps, hclosed, hclosed.lacksContainerNames⟩

/-- Leaves, and pairs of them with a list of further leaves and pairs. -/
def pairs : List (String × List (String × FieldType)) :=
  [("Leaf", [("text", .name "String"), ("kind", .type (.enum ["a", "b"]))]),
    ("Pair", [("left", .name "Leaf"), ("tags", .type (.list .string)),
      ("rest", .type (.maybe (.list (.union [.node "Leaf", .union [.node "Pair"]]))))])]

theorem tableOf_declarationsOf_pairs :
    ∃ table, tableOf id (declarationsOf pairs) = .ok table ∧
      KeepsAll (declarationsOf pairs) table ∧ Table.IsClosed id table ∧
      Table.LacksContainerNames table := by
  have hnest : ∀ d ∈ pairs, ∀ f ∈ d.2, f.2.spec.IsNest := by
    simp only [pairs, List.forall_mem_cons, List.not_mem_nil, false_imp_iff, implies_true,
      and_true]
    have hatom : ∀ h : Head String, h ≠ .list → h ≠ .maybe → ∀ as, (Spec.of h as).IsNest :=
      fun h hlist hmaybe as => ⟨_, .self hlist hmaybe as⟩
    exact ⟨⟨hatom _ (by decide) (by decide) _, hatom _ (by decide) (by decide) _⟩,
      hatom _ (by decide) (by decide) _, ⟨_, .list (.self (by decide) (by decide) _)⟩,
      ⟨_, .maybe (.list (.self (by decide) (by decide) _))⟩⟩
  obtain ⟨hrejected, hclosed⟩ := tableOf_declarationsOf pairs (by decide) (by decide) hnest
  refine hclosed fun hill => ?_
  obtain ⟨e, herror, -⟩ := hrejected.2 hill
  have hok : ∃ table, tableOf id (declarationsOf pairs) = .ok table := ⟨_, rfl⟩
  obtain ⟨table, htable⟩ := hok
  rw [herror] at htable
  cases htable

end Whittle.Grammar
