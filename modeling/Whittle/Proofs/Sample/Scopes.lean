import Whittle.Proofs.Sample.Placed

/-!
# Names that do not clash

What a list of items declares is made up of what each of them declares. If the names come from
disjoint sets, and the names of each item do not clash among themselves, then no names clash in
the whole scope. Names that are handed out one after the other come from disjoint sets.
-/

namespace Whittle

open Grammar Whittle.Language

/-- Whether a node of the kind may declare names other than those that are hoisted out of it. -/
def Kind.mayDeclare : Kind → Bool
  | .variableDeclarationStatement | .variableDeclaration | .classDeclaration
  | .functionDeclaration | .exportDeclaration | .exportDefault => true
  | _ => false

namespace Sample

/-- Lexical and `var` names from a set that do not clash. -/
structure Introduces (S : Set String) (lexical vars : List String) : Prop where
  nodup : lexical.Nodup
  apart : ∀ s ∈ lexical, s ∉ vars
  lexical_mem : ∀ s ∈ lexical, s ∈ S
  vars_mem : ∀ s ∈ vars, s ∈ S

variable {S S' S'' : Set String} {n m k : Nat} {f : Bool}

namespace Introduces

variable {ls vs ls' vs' : List String}

theorem mono (h : Introduces S ls vs) (hS : S ⊆ S') : Introduces S' ls vs :=
  { h with
    lexical_mem := fun s hs => hS (h.lexical_mem s hs)
    vars_mem := fun s hs => hS (h.vars_mem s hs) }

theorem nil : Introduces S [] [] := ⟨.nil, nofun, nofun, nofun⟩

theorem vars (h : ∀ s ∈ vs, s ∈ S) : Introduces S [] vs := ⟨.nil, nofun, nofun, h⟩

theorem lexical (hnodup : ls.Nodup) (h : ∀ s ∈ ls, s ∈ S) : Introduces S ls [] :=
  ⟨hnodup, nofun, h, nofun⟩

/-- Names from disjoint sets do not clash. -/
theorem append (h : Introduces S ls vs) (h' : Introduces S' ls' vs') (hS : Disjoint S S') :
    Introduces (S ∪ S') (ls ++ ls') (vs ++ vs') where
  nodup := List.nodup_append.2 ⟨h.nodup, h'.nodup, fun s hs t ht heq =>
    Set.disjoint_left.1 hS (h.lexical_mem s hs) (heq ▸ h'.lexical_mem t ht)⟩
  apart := by
    intro s hs hmem
    obtain hs | hs := List.mem_append.1 hs <;> obtain hmem | hmem := List.mem_append.1 hmem
    · exact h.apart s hs hmem
    · exact Set.disjoint_left.1 hS (h.lexical_mem s hs) (h'.vars_mem s hmem)
    · exact Set.disjoint_left.1 hS (h.vars_mem s hmem) (h'.lexical_mem s hs)
    · exact h'.apart s hs hmem
  lexical_mem := fun s hs => (List.mem_append.1 hs).imp (h.lexical_mem s) (h'.lexical_mem s)
  vars_mem := fun s hs => (List.mem_append.1 hs).imp (h.vars_mem s) (h'.vars_mem s)

end Introduces

/-! ## Items -/

/-- What an item declares in its scope is from the set and does not clash, whether or not
functions count as `var`. -/
def Declares (S : Set String) (t : Tree) : Prop :=
  ∀ f, ∃ ls vs, t.lexicalNames? f = some ls ∧ t.itemVarNames? f = some vs ∧ Introduces S ls vs

/-- What a statement declares by `var`, in nested statements too, is from the set. -/
def Hoists (S : Set String) (t : Tree) : Prop :=
  ∃ vs, t.hoistedNames? = some vs ∧ ∀ s ∈ vs, s ∈ S

/-- What all items declare is from the set, and does not clash. -/
def DeclaresAll (S : Set String) (items : List Tree) : Prop :=
  ∀ f, ∃ ls vs, items.mapM (·.lexicalNames? f) = some ls ∧
    items.mapM (·.itemVarNames? f) = some vs ∧ Introduces S ls.flatten vs.flatten

variable {t : Tree} {items items' : List Tree}

theorem Declares.mono (h : Declares S t) (hS : S ⊆ S') : Declares S' t := fun f =>
  let ⟨ls, vs, hls, hvs, hnames⟩ := h f
  ⟨ls, vs, hls, hvs, hnames.mono hS⟩

theorem Hoists.mono (h : Hoists S t) (hS : S ⊆ S') : Hoists S' t :=
  let ⟨vs, hvs, hmem⟩ := h
  ⟨vs, hvs, fun s hs => hS (hmem s hs)⟩

section Kinds

variable {k : Kind} {fields : List Tree}

theorem unwrapExport?_of_mayDeclare (hk : k.mayDeclare = false) :
    (Tree.node k fields).unwrapExport? = some (.node k fields) := by
  unfold Tree.unwrapExport?
  split <;> simp_all [Kind.mayDeclare]

theorem lexicalNames?_of_mayDeclare (hk : k.mayDeclare = false) :
    (Tree.node k fields).lexicalNames? f = some [] := by
  unfold Tree.lexicalNames?
  rw [unwrapExport?_of_mayDeclare hk]
  simp only [Option.bind_eq_bind, Option.bind_some]
  split <;> first | rfl | simp_all [Kind.mayDeclare]

theorem itemVarNames?_of_mayDeclare (hk : k.mayDeclare = false) :
    (Tree.node k fields).itemVarNames? f = (Tree.node k fields).hoistedNames? := by
  have hfunction : (Tree.node k fields).isKind .functionDeclaration = false := by
    cases k <;> first | rfl | cases hk
  simp [Tree.itemVarNames?, unwrapExport?_of_mayDeclare hk, hfunction]

/-- Most statements declare only what is hoisted out of them. -/
theorem declares_of_hoists (hk : k.mayDeclare = false) (h : Hoists S (.node k fields)) :
    Declares S (.node k fields) := by
  obtain ⟨vs, hvs, hmem⟩ := h
  intro f
  refine ⟨[], vs, lexicalNames?_of_mayDeclare hk, ?_, .vars hmem⟩
  rw [itemVarNames?_of_mayDeclare hk, hvs]

end Kinds

/-- What is hoisted out of an item that is not exported is among what it declares. -/
theorem hoists_of_declares (ht : t.unwrapExport? = some t) (h : Declares S t) : Hoists S t := by
  obtain ⟨ls, vs, -, hvs, hnames⟩ := h false
  refine ⟨vs, ?_, hnames.vars_mem⟩
  simpa [Tree.itemVarNames?, ht] using hvs

namespace DeclaresAll

theorem nil : DeclaresAll S [] := fun _ => ⟨[], [], rfl, rfl, .nil⟩

theorem mono (h : DeclaresAll S items) (hS : S ⊆ S') : DeclaresAll S' items := fun f =>
  let ⟨ls, vs, hls, hvs, hnames⟩ := h f
  ⟨ls, vs, hls, hvs, hnames.mono hS⟩

theorem cons (ht : Declares S t) (h : DeclaresAll S' items) (hS : Disjoint S S') :
    DeclaresAll (S ∪ S') (t :: items) := by
  intro f
  obtain ⟨ls, vs, hls, hvs, hnames⟩ := ht f
  obtain ⟨lss, vss, hlss, hvss, hnames'⟩ := h f
  exact ⟨ls :: lss, vs :: vss, by simp [hls, hlss], by simp [hvs, hvss], hnames.append hnames' hS⟩

theorem append (h : DeclaresAll S items) (h' : DeclaresAll S' items') (hS : Disjoint S S') :
    DeclaresAll (S ∪ S') (items ++ items') := by
  intro f
  obtain ⟨lss, vss, hlss, hvss, hnames⟩ := h f
  obtain ⟨lss', vss', hlss', hvss', hnames'⟩ := h' f
  refine ⟨lss ++ lss', vss ++ vss', by simp [hlss, hlss'], by simp [hvss, hvss'], ?_⟩
  rw [List.flatten_append, List.flatten_append]
  exact hnames.append hnames' hS

/-- No names clash in a scope of such items. -/
theorem scopeErrors (h : DeclaresAll S items) (f : Bool) : scopeErrors f items = some [] := by
  obtain ⟨ls, vs, hls, hvs, hnames⟩ := h f
  exact (scopeErrors_eq_nil hls hvs).2 ⟨hnames.nodup, hnames.apart⟩

end DeclaresAll

/-! ## Statements -/

/-- The statement is placed in its scene, declares some of the names that are handed out while
it is made, and is no declaration unless there may be one. -/
structure MadeStatement (declarations : Bool) (c : Scene) (n k : Nat) (t : Tree) : Prop where
  placed : Placed (Agrees n c) statement t
  declares : Declares (handedOut n k) t
  single : declarations = false → ∀ field, Rules.singleStatement field t = some []

/-- The statements are placed in their scene, and declare distinct names of those that are
handed out while they are made. -/
structure MadeStatements (c : Scene) (n k : Nat) (items : List Tree) : Prop where
  placed : ∀ t ∈ items, Placed (Agrees n c) statement t
  declares : DeclaresAll (handedOut n k) items
  hoists : ∃ vs, Tree.allHoistedNames? items = some vs ∧ ∀ s ∈ vs, s ∈ handedOut n k

variable {c : Scene} {declarations : Bool}

theorem unwrapExport?_of_placed {C : Context → Prop} (h : Placed C statement t) :
    t.unwrapExport? = some t := by
  obtain ⟨k, fields, rfl, hk, -⟩ := (fitsType_isUnion isUnion_statement).1 h.1
  have hexports : k ≠ .exportDeclaration ∧ k ≠ .exportDefault := by
    constructor <;> (rintro rfl; cases hk)
  unfold Tree.unwrapExport?
  split <;> simp_all

theorem MadeStatement.mono (h : MadeStatement declarations c n m t) (hk : m ≤ k) :
    MadeStatement declarations c n k t :=
  { h with declares := h.declares.mono (handedOut_mono le_rfl hk) }

theorem MadeStatement.hoists (h : MadeStatement declarations c n k t) :
    Hoists (handedOut n k) t :=
  hoists_of_declares (unwrapExport?_of_placed h.placed) h.declares

namespace MadeStatements

theorem nil : MadeStatements c n k [] := ⟨nofun, .nil, [], rfl, nofun⟩

/-- A statement is made before others. -/
theorem cons (hn : n ≤ m) (hk : m ≤ k) (ht : MadeStatement declarations c n m t)
    (h : MadeStatements c m k items) : MadeStatements c n k (t :: items) where
  placed := List.forall_mem_cons.2 ⟨ht.placed, fun u hu => (h.placed u hu).sooner hn⟩
  declares := by
    refine (DeclaresAll.cons ht.declares h.declares (disjoint_handedOut n m k)).mono ?_
    exact Set.union_subset (handedOut_mono le_rfl hk) (handedOut_mono hn le_rfl)
  hoists := by
    obtain ⟨vs, hvs, hmem⟩ := ht.hoists
    obtain ⟨ws, hws, hmem'⟩ := h.hoists
    refine ⟨vs ++ ws, by simp [Tree.allHoistedNames?, hvs, hws], fun s hs => ?_⟩
    obtain hs | hs := List.mem_append.1 hs
    · exact handedOut_mono le_rfl hk (hmem s hs)
    · exact handedOut_mono hn le_rfl (hmem' s hs)

theorem mono (h : MadeStatements c n m items) (hk : m ≤ k) : MadeStatements c n k items where
  placed := h.placed
  declares := h.declares.mono (handedOut_mono le_rfl hk)
  hoists :=
    let ⟨vs, hvs, hmem⟩ := h.hoists
    ⟨vs, hvs, fun s hs => handedOut_mono le_rfl hk (hmem s hs)⟩

/-- Statements that are made one after the other do not clash. -/
theorem of_run (h : Run (MadeStatement declarations c) n k items) : MadeStatements c n k items := by
  induction h with
  | nil h => exact .nil
  | cons hn ha has ih => exact ih.cons hn has.le ha

theorem list (h : MadeStatements c n k items) :
    Placed (Agrees n c) (.list statement) (.list items) :=
  .list isUnion_statement h.placed

end MadeStatements

end Sample

end Whittle
