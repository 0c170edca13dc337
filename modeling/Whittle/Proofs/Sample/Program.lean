import Whittle.Proofs.Sample.Compound
import Whittle.Proofs.Validity.Defined
import Whittle.Sample

/-!
# Random programs are valid

The makers for any number of levels give expressions and statements that are placed, by
induction on the number. A program is made from them for the context in which it is judged.
-/

namespace Whittle.Sample

open Grammar Whittle.Language

variable {σ : Type} {rs : RandomSource σ} {m : Makers σ} {levels n j k : Nat} {c : Scene}
  {S : Set String} {f : Bool}

/-! ## Makers -/

/-- With one more level, the makers do what they did before or make something with parts. -/
theorem makes_succ (hrs : GivesLiterals rs) {i : Nat} (hm : MakesExpressions (makers rs i))
    (hs : MakesStatements (makers rs i)) :
    MakesExpressions (makers rs (i + 1)) ∧ MakesStatements (makers rs (i + 1)) := by
  constructor
  · intro levels c n
    refine .ite (fun _ => hm levels c n) fun _ => ?_
    refine (yields_chance 30).bind fun b _ => .ite (fun _ => ?_) fun _ => ?_
    · exact yields_leaf hrs
    · exact yields_compound hm hs
  · intro levels c declarations n
    exact .ite (fun _ => hs levels c declarations n) fun _ => makes_compoundStatement hm hs

theorem makes_makers (hrs : GivesLiterals rs) (i : Nat) :
    MakesExpressions (makers rs i) ∧ MakesStatements (makers rs i) := by
  induction i with
  | zero =>
    have hleaf : MakesExpressions (σ := σ) ⟨fun _ _ => leaf rs, fun _ _ _ => leaf rs⟩ :=
      fun _ _ _ => yields_leaf hrs
    exact ⟨hleaf, fun _ _ _ _ => makes_simpleStatement hleaf⟩
  | succ i ih => exact makes_succ hrs ih.1 ih.2

/-! ## Scripts -/

/-- The context in which a program is judged. -/
def IsOutermost (x : Context) : Prop := x = {}

/-- The context in a program agrees with the scene in it. -/
theorem agrees_outermost (strict : Bool) : Agrees n { strict } { strict } where
  inFunction := nofun
  isAsync := nofun
  isGenerator := nofun
  inLoop := nofun
  inSwitch := nofun
  labels := nofun
  bounded := nofun
  superProperty := nofun
  superCall := nofun
  strict := id

section Programs

variable (hm : MakesExpressions m) (hs : MakesStatements m)

theorem placed_directive {C : Context → Prop} (s : String) :
    Placed C (.node .directive) (.node .directive [.str s]) :=
  placed_node (.cons (.leaf (fitsType_string.2 ⟨s, rfl⟩) rfl) .nil) fun _ _ => rfl

include hs in
theorem yields_script :
    Yields n (script rs m levels) (Placed IsOutermost (.node .script)) := by
  refine (yields_chance 20).bind fun strict _ => ?_
  have hmake : ∀ ds : List Tree, (∀ d ∈ ds, Placed (fun _ => True) (.node .directive) d) →
      (∀ ss, (Tree.node .script [.list ds, ss]).hasUseStrict? = some strict) →
      Yields n (do
        let i ← upTo rs 3
        let statements ← times (m.statement levels { strict } true) (i.val + 1)
        node .script [.list ds, .list statements]) (Placed IsOutermost (.node .script)) := by
    intro ds hds hstrict
    refine (yields_upTo 3).bind fun i _ => ?_
    refine (makes_times (fun n' _ => hs levels { strict } true n') (i.val + 1)).bind
      fun statements k hk hrun => ?_
    have hmade := MadeStatements.of_run hrun
    have hfield : ∀ name x, IsOutermost x →
        x.ofField .script [.list ds, .list statements] name = some { strict } := by
      rintro name x rfl
      rw [Context.ofField, hstrict]
      rfl
    refine yields_node (placed_node ?_ fun x _ => hmade.declares.scopeErrors true)
    refine .cons ?_ (.cons ?_ .nil)
    · exact (Placed.list (isUnion_node _) hds).field fun x hx => ⟨_, hfield _ x hx, trivial⟩
    · exact hmade.list.field fun x hx => ⟨_, hfield _ x hx, agrees_outermost strict⟩
  refine .ite (fun hstrict => ?_) fun hsloppy => ?_
  · refine Yields.bind (yields_self (placed_directive (C := fun _ => True) "use strict")) ?_
    rintro _ rfl
    refine hmake _ (by simpa using placed_directive "use strict") fun ss => ?_
    rw [hstrict]
    rfl
  · refine hmake [] (by simp) fun ss => ?_
    rw [Bool.not_eq_true] at hsloppy
    rw [hsloppy]
    rfl

/-! ## Modules -/

/-- The scene in a module. -/
def moduleScene : Scene := { strict := true }

/-- The names that items of a module declare; one of them may be a default export if there is
none before. -/
def itemNames (hasDefault : Bool) (n k : Nat) : Set String :=
  handedOut n k ∪ if hasDefault then ∅ else {defaultExportName}

/-- Items of a module that are placed and do not clash, after a default export if there is
one. -/
structure MadeItems (hasDefault : Bool) (n k : Nat) (items : List Tree) : Prop where
  placed : ∀ t ∈ items, Placed (Agrees n moduleScene) moduleItem t
  declares : DeclaresAll (itemNames hasDefault n k) items
  exports : ∀ i, Rules.defaultExports i hasDefault items = []

theorem isUnion_moduleItem : IsUnion moduleItem := rfl

/-- What is exported declares the same names. -/
theorem declares_export {k : Kind} (hk : k = .exportDeclaration ∨ k = .exportDefault) {t : Tree}
    (ht : t.unwrapExport? = some t) (h : Declares S t) : Declares S (.node k [t]) := by
  intro f
  obtain ⟨ls, vs, hls, hvs, hnames⟩ := h f
  have hunwrap : (Tree.node k [t]).unwrapExport? = t.unwrapExport? := by
    rw [ht]
    obtain rfl | rfl := hk <;> rfl
  exact ⟨ls, vs, by rw [Tree.lexicalNames?, hunwrap]; exact hls,
    by rw [Tree.itemVarNames?, hunwrap]; exact hvs, hnames⟩

theorem mem_itemNames {hasDefault : Bool} {s : String} : s ∈ itemNames hasDefault n k ↔
    s ∈ handedOut n k ∨ hasDefault = false ∧ s = defaultExportName := by
  cases hasDefault <;> simp [itemNames, or_comm]

theorem itemNames_mono {hasDefault hasDefault' : Bool} {n' k' : Nat}
    (h : hasDefault' = true → hasDefault = true) (hn : n' ≤ n) (hk : k ≤ k') :
    itemNames hasDefault n k ⊆ itemNames hasDefault' n' k' := by
  intro s hs
  rw [mem_itemNames] at hs ⊢
  refine hs.imp (fun hs => handedOut_mono hn hk hs) fun ⟨hno, heq⟩ => ⟨?_, heq⟩
  cases hasDefault' with
  | false => rfl
  | true => rw [h rfl] at hno; cases hno

/-- There is one default export only. -/
theorem disjoint_itemNames {hasDefault hasDefault' : Bool}
    (h : hasDefault = true ∨ hasDefault' = true) (n j k : Nat) :
    Disjoint (itemNames hasDefault n j) (itemNames hasDefault' j k) := by
  refine Set.disjoint_left.2 fun s hs hs' => ?_
  rw [mem_itemNames] at hs hs'
  obtain hs | ⟨hno, heq⟩ := hs <;> obtain hs' | ⟨hno', heq'⟩ := hs'
  · exact Set.disjoint_left.1 (disjoint_handedOut n j k) hs hs'
  · exact defaultExportName_notMem_handedOut (heq' ▸ hs)
  · exact defaultExportName_notMem_handedOut (heq ▸ hs')
  · simp [hno, hno'] at h

namespace MadeItems

variable {hasDefault isDefault : Bool} {t : Tree} {items : List Tree}

theorem nil : MadeItems hasDefault n k [] := ⟨nofun, .nil, fun _ => rfl⟩

/-- An item before others; only the first default export may declare the name of one. -/
theorem cons (isDefault : Bool) (hj : n ≤ j) (hk : j ≤ k) (hplaced : Placed (Agrees n moduleScene) moduleItem t)
    (hdeclares : Declares (itemNames (!isDefault) n j) t)
    (hkind : t.isKind .exportDefault = isDefault)
    (hfirst : isDefault = true → hasDefault = false)
    (h : MadeItems (hasDefault || isDefault) j k items) :
    MadeItems hasDefault n k (t :: items) where
  placed := List.forall_mem_cons.2 ⟨hplaced, fun u hu => (h.placed u hu).sooner hj⟩
  declares := by
    have hone : (!isDefault) = true ∨ (hasDefault || isDefault) = true := by
      cases isDefault <;> simp
    refine (DeclaresAll.cons hdeclares h.declares (disjoint_itemNames hone n j k)).mono ?_
    refine Set.union_subset (itemNames_mono ?_ le_rfl hk) (itemNames_mono ?_ hj le_rfl)
    · intro hhas
      cases isDefault with
      | false => rfl
      | true => rw [hfirst rfl] at hhas; cases hhas
    · intro hhas
      rw [hhas, Bool.true_or]
  exports i := by
    have hrest := h.exports (i + 1)
    have hnone : (hasDefault && isDefault) = false := by
      cases isDefault with
      | false => exact Bool.and_false _
      | true => rw [hfirst rfl]; rfl
    simp only [Rules.defaultExports, hkind, hnone]
    exact hrest

/-- An item that is no default export. -/
theorem cons_other (hj : n ≤ j) (hk : j ≤ k)
    (hplaced : Placed (Agrees n moduleScene) moduleItem t) (hdeclares : Declares (handedOut n j) t)
    (hkind : t.isKind .exportDefault = false) (h : MadeItems hasDefault j k items) :
    MadeItems hasDefault n k (t :: items) := by
  refine .cons false hj hk hplaced (hdeclares.mono fun s hs => .inl hs) hkind nofun ?_
  rwa [Bool.or_false]

theorem extend {k' : Nat} (h : MadeItems hasDefault n k items) (hk : k ≤ k') :
    MadeItems hasDefault n k' items :=
  { h with declares := h.declares.mono (itemNames_mono id le_rfl hk) }

end MadeItems

section Items

variable (hm : MakesExpressions m) (hs : MakesStatements m)

/-- What may be exported under its own name. -/
def exportedType : TypeSpec :=
  .unionOf [.functionDeclaration, .classDeclaration, .variableDeclaration]

theorem isUnion_exportedType : IsUnion exportedType := rfl

/-- What is exported under its own name: a declaration of names that are handed out while it
is made. -/
structure MadeExport (n k : Nat) (t : Tree) : Prop where
  placed : Placed (Agrees n moduleScene) exportedType t
  declares : Declares (handedOut n k) t
  unwrap : t.unwrapExport? = some t

include hm hs in
theorem makes_exportDeclaration :
    Makes n (exportDeclaration rs m levels moduleScene) (MadeExport n) := by
  have hnone : NamesDefault none := nofun
  refine yields_draw.bind fun r _ => .ite (fun _ => ?_) fun _ => .ite (fun _ => ?_) fun _ => ?_
  · refine (makes_functionDeclaration hm hs hnone).mono fun k t _ ⟨ht, hdeclares⟩ => ?_
    refine ⟨(ht.weaken fun x hx => ⟨hx, nofun⟩).member isUnion_exportedType rfl, hdeclares, ?_⟩
    obtain ⟨fields, rfl, -⟩ := fitsType_node.1 ht.1
    rfl
  · refine (makes_classDeclaration hm hs hnone).mono fun k t _ ⟨ht, hdeclares⟩ => ?_
    refine ⟨(ht.weaken fun x hx => ⟨hx, nofun⟩).member isUnion_exportedType rfl, hdeclares, ?_⟩
    obtain ⟨fields, rfl, -⟩ := fitsType_node.1 ht.1
    rfl
  · refine (makes_variableDeclaration hm).mono fun k t _ ht => ?_
    obtain ⟨fields, rfl, -⟩ := fitsType_node.1 ht.placed.1
    refine ⟨ht.placed.member isUnion_exportedType rfl, fun f => ?_, rfl⟩
    obtain ⟨ls, vs, hls, hvs, hnames⟩ := ht.names
    have hfunction : (Tree.node .variableDeclaration fields).isKind .functionDeclaration
      = false := rfl
    refine ⟨ls, vs, hls, ?_, hnames⟩
    simp [Tree.itemVarNames?, Tree.unwrapExport?, Tree.hoistedNames?, hvs, hfunction]

/-- What is exported as the default. -/
def defaultType : TypeSpec :=
  .union [.node .functionDeclaration, .node .classDeclaration, expression]

theorem isUnion_defaultType : IsUnion defaultType := rfl

theorem defaultType_of_expression (k : Kind) (h : expression.hasMember k = true) :
    defaultType.hasMember k = true := by
  simp [defaultType, Spec.union, Spec.hasMember, Spec.anyHasMember, h]

/-- What is exported as the default: it may have the name of a default export. -/
structure MadeDefault (n k : Nat) (t : Tree) : Prop where
  placed : Placed (fun x => Agrees n moduleScene x ∧ x.defaultName = true) defaultType t
  declares : Declares (itemNames false n k) t
  unwrap : t.unwrapExport? = some t

theorem ownNames_subset (name : Option Tree) : ownNames name n k ⊆ itemNames false n k := by
  intro s hs
  cases name with
  | none => exact .inl hs
  | some t => exact .inr hs

theorem mayDeclare_of_expression {k : Kind} (h : expression.hasMember k = true) :
    k.mayDeclare = false := by
  cases k <;> first | rfl | cases h

theorem MadeDefault.of_expression {t : Tree} (h : Placed (Agrees n moduleScene) expression t) :
    MadeDefault n k t := by
  obtain ⟨l, fields, rfl, hl, -⟩ := (fitsType_isUnion isUnion_expression).1 h.1
  have hdeclare := mayDeclare_of_expression hl
  exact ⟨(h.weaken fun x hx => hx.1).widen isUnion_expression isUnion_defaultType
      defaultType_of_expression,
    declares_of_hoists hdeclare (hoists_expression h), unwrapExport?_of_mayDeclare hdeclare⟩

/-- The name of a default export may be bound where a default export is. -/
theorem placed_defaultName : Placed (fun x => x.defaultName = true) (.node .bindingIdentifier)
    (bindingOf defaultExportName) := by
  have hown : defaultExportName ∈ ownNames (some (bindingOf defaultExportName)) 0 0 := rfl
  exact (placed_ownName hown).weaken fun _ hx _ => hx

include hm hs in
theorem makes_exportDefaultBody :
    Makes n (exportDefaultBody rs m levels moduleScene) (MadeDefault n) := by
  refine yields_draw.bind fun r _ => ?_
  have hmake : ∀ name, NamesDefault name → Makes n (
      if r.less (hundredths 40) then functionDeclaration rs m (levels - 1) moduleScene name
      else if r.less (hundredths 60) then classDeclaration rs m (levels - 1) moduleScene name
      else m.expression (levels - 1) moduleScene) (MadeDefault n) := by
    intro name hname
    refine .ite (fun _ => ?_) fun _ => .ite (fun _ => ?_) fun _ => ?_
    · refine (makes_functionDeclaration hm hs hname).mono fun k t _ ⟨ht, hdeclares⟩ => ?_
      refine ⟨(ht.weaken fun x hx => ⟨hx.1, fun _ => hx.2⟩).member isUnion_defaultType rfl,
        hdeclares.mono (ownNames_subset name), ?_⟩
      obtain ⟨fields, rfl, -⟩ := fitsType_node.1 ht.1
      rfl
    · refine (makes_classDeclaration hm hs hname).mono fun k t _ ⟨ht, hdeclares⟩ => ?_
      refine ⟨(ht.weaken fun x hx => ⟨hx.1, fun _ => hx.2⟩).member isUnion_defaultType rfl,
        hdeclares.mono (ownNames_subset name), ?_⟩
      obtain ⟨fields, rfl, -⟩ := fitsType_node.1 ht.1
      rfl
    · exact Makes.mono (hm (levels - 1) moduleScene n) fun k t _ ht => .of_expression ht
  refine (yields_chance 50).bind fun b _ => .ite (fun _ => ?_) fun _ => ?_
  · refine Yields.bind (yields_self placed_defaultName) ?_
    rintro _ rfl
    exact hmake (some (bindingOf defaultExportName)) fun t ht => (Option.some.inj ht).symm
  · exact hmake none nofun

include hm hs in
/-- The items of a module, of which the default export is remembered. -/
theorem makes_moduleItems (hasDefault : Bool) (i : Nat) :
    Makes n (moduleItems rs m levels hasDefault i) (MadeItems hasDefault n) := by
  induction i generalizing n hasDefault with
  | zero => exact .pure fun _ _ => .nil
  | succ i ih =>
    refine yields_draw.bind fun r _ => .ite (fun _ => ?_) fun _ => .ite (fun hdefault => ?_)
      fun _ => ?_
    · refine (makes_exportDeclaration hm hs).bind fun d j hj hd => ?_
      have hnode : Placed (Agrees n moduleScene) (.node .exportDeclaration)
          (.node .exportDeclaration [d]) :=
        placed_plain (fun _ _ => rfl) (fun _ _ => rfl) (.cons hd.placed .nil)
      refine Makes.bind (yields_self hnode) ?_
      rintro _ j' hj' rfl
      refine (ih hasDefault).bind fun items k hk hitems => .pure fun k' hk' => ?_
      have hdeclares := (declares_export (.inl rfl) hd.unwrap hd.declares).mono
        (handedOut_mono le_rfl hj')
      exact (MadeItems.cons_other (hj.trans hj') hk (hnode.member isUnion_moduleItem rfl)
        hdeclares rfl hitems).extend hk'
    · obtain ⟨-, hnone⟩ := Bool.and_eq_true_iff.1 hdefault
      obtain rfl : hasDefault = false := by simpa using hnone
      refine (makes_exportDefaultBody hm hs).bind fun body j hj hbody => ?_
      have hnode : Placed (Agrees n moduleScene) (.node .exportDefault)
          (.node .exportDefault [body]) :=
        placed_node (.cons (hbody.placed.field fun x hx => ⟨_, rfl, { hx with }, rfl⟩) .nil)
          fun _ _ => rfl
      refine Makes.bind (yields_self hnode) ?_
      rintro _ j' hj' rfl
      refine (ih true).bind fun items k hk hitems => .pure fun k' hk' => ?_
      have hdeclares := (declares_export (.inr rfl) hbody.unwrap hbody.declares).mono
        (itemNames_mono id le_rfl hj')
      exact (MadeItems.cons true (hj.trans hj') hk (hnode.member isUnion_moduleItem rfl)
        hdeclares rfl (fun _ => rfl) hitems).extend hk'
    · refine (hs levels moduleScene true n).bind fun item j hj hitem => ?_
      refine (ih hasDefault).bind fun items k hk hitems => .pure fun k' hk' => ?_
      have hplaced : Placed (Agrees n moduleScene) moduleItem item :=
        hitem.placed.widen isUnion_statement isUnion_moduleItem fun k hk => by
          simp [moduleItem, Spec.union, Spec.hasMember, Spec.anyHasMember, hk]
      have hkind : item.isKind .exportDefault = false := by
        obtain ⟨k, fields, rfl, hk, -⟩ := (fitsType_isUnion isUnion_statement).1 hitem.placed.1
        cases k <;> first | rfl | cases hk
      exact (MadeItems.cons_other hj hk hplaced hitem.declares hkind hitems).extend hk'

include hm hs in
theorem yields_moduleProgram :
    Yields n (moduleProgram rs m levels) (Placed IsOutermost (.node .esModule)) := by
  refine (yields_upTo 3).bind fun i _ => ?_
  refine (makes_moduleItems hm hs false (i.val + 1)).bind fun items k hk hitems => ?_
  have hinside : ∀ x, IsOutermost x → ∃ inner,
      some { x.inherited with strict := true } = some inner ∧ Agrees n moduleScene inner := by
    rintro x rfl
    exact ⟨_, rfl, agrees_outermost true⟩
  have hdirectives : Placed (Agrees n moduleScene) (.list (.node .directive)) (.list []) :=
    .list (isUnion_node _) nofun
  refine yields_node (placed_node ?_ fun x _ => ?_)
  · exact .cons (hdirectives.field hinside)
      (.cons ((Placed.list isUnion_moduleItem hitems.placed).field hinside) .nil)
  · have hscope := hitems.declares.scopeErrors false
    simp [nodeErrors, hscope, hitems.exports]

end Items

end Programs

/-! ## Programs -/

/-- The source that answers by the numbers of a list gives a thousand doubles, and all of them
round to literals. -/
theorem givesLiterals_listed : GivesLiterals listed := by
  have hall : ∀ i : Fin 1000, RoundsToLiteral (Double.ofRatio false i 1000) := by
    unfold RoundsToLiteral
    decide +kernel
  intro s
  have hlt : (s.state.headD 0 % 1000).toNat < 1000 := by omega
  exact hall ⟨_, hlt⟩

/-- Whatever the source answers, a random program is a program without errors: no node in it is
refused, and no rule is broken. The doubles of the source only have to round to literals. -/
theorem program_valid (hrs : GivesLiterals rs) (isModule : Bool) (maxDepth : Int) (s : σ) :
    ∃ t s', program rs isModule maxDepth s = (.ok t, s') ∧ earlyErrors t = [] := by
  obtain ⟨hm, hs⟩ := makes_makers hrs maxDepth.toNat
  have hmakes : ∀ g : Gen σ Tree, ∀ k, Yields 0 g (Placed IsOutermost (.node k)) →
      ∃ t stock, g ⟨s, 0⟩ = (.ok t, stock) ∧ earlyErrors t = [] := by
    intro g k hg
    obtain ⟨t, stock, heq, -, hfit, hclean⟩ := hg ⟨s, 0⟩ le_rfl
    obtain ⟨fields, rfl, hfields⟩ := fitsType_node.1 hfit
    have hvalid : (Tree.node k fields).isValid = true :=
      isValid_iff.2 ⟨hfields, hclean {} rfl⟩
    exact ⟨_, stock, heq, List.isEmpty_iff.1 hvalid⟩
  let levels := maxDepth.toNat
  cases isModule with
  | true =>
    obtain ⟨t, stock, heq, hvalid⟩ := hmakes (moduleProgram rs (makers rs levels) levels)
      .esModule (yields_moduleProgram hm hs)
    exact ⟨t, stock.source, by simp [program, levels, heq], hvalid⟩
  | false =>
    obtain ⟨t, stock, heq, hvalid⟩ := hmakes (script rs (makers rs levels) levels)
      .script (yields_script hs)
    exact ⟨t, stock.source, by simp [program, levels, heq], hvalid⟩

/-- A listed source leads to a valid module. -/
theorem program_valid_listed : GivesLiterals listed ∧ ∃ t s',
    program listed true 4 (draws [3, 1, 4, 1, 5, 9]) = (.ok t, s') ∧ earlyErrors t = [] :=
  ⟨givesLiterals_listed, program_valid givesLiterals_listed true 4 (draws [3, 1, 4, 1, 5, 9])⟩

end Whittle.Sample
