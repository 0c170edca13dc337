import Whittle.Proofs.Sample.Statement

/-!
# Random compound statements are placed

Variable declarations, loops, labels and switches. The head of a loop is made after its body, and
the label of a statement before both.
-/

namespace Whittle.Sample

open Grammar Whittle.Language

variable {σ : Type} {rs : RandomSource σ} {m : Makers σ} {levels n j k : Nat} {c : Scene}
  {declarations lexical isConst : Bool} {S : Set String}

/-! ## Variable declarations -/

/-- The name that a declarator binds. -/
def declaratorName? : Tree → Option String
  | .node .variableDeclarator [b, _] => b.bindingName?
  | _ => none

theorem declared?_variableDeclaration {word : String} {ds : List Tree} {names : List String}
    (h : ds.mapM declaratorName? = some names) :
    (Tree.node .variableDeclaration [.str word, .list ds]).declared? = some (word, names) := by
  have hdeclared : (Tree.node .variableDeclaration [.str word, .list ds]).declared? =
      (do return (word, ← ds.mapM declaratorName?)) := rfl
  rw [hdeclared, h]
  rfl

theorem uninitialised_eq_nil {ds : List Tree}
    (h : ∀ d ∈ ds, Rules.lacksInit? d = some false) (i : Nat) :
    Rules.uninitialised i ds = some [] := by
  induction ds generalizing i with
  | nil => rfl
  | cons d ds ih =>
    have hrest := ih (fun d hd => h d (List.mem_cons_of_mem _ hd)) (i + 1)
    simp [Rules.uninitialised, EarlyError.when, h d List.mem_cons_self, hrest]

/-- A declarator that binds a name of those that are handed out while it is made; that of a
constant has an initial value. -/
structure MadeDeclarator (isConst : Bool) (c : Scene) (n k : Nat) (t : Tree) : Prop where
  placed : Placed (Agrees n c) (.node .variableDeclarator) t
  name : ∃ s ∈ handedOut n k, declaratorName? t = some s
  init : isConst = true → Rules.lacksInit? t = some false

/-- A variable declaration that declares names of those that are handed out while it is made. -/
structure MadeVariables (lexical : Bool) (c : Scene) (n k : Nat) (t : Tree) : Prop where
  placed : Placed (Agrees n c) (.node .variableDeclaration) t
  declared : ∃ word names, t.declared? = some (word, names) ∧ (word == "var") = !lexical ∧
    names.Nodup ∧ ∀ s ∈ names, s ∈ handedOut n k

namespace MadeVariables

variable {t : Tree}

/-- The names are all declared lexically or all by `var`. -/
theorem names (h : MadeVariables lexical c n k t) :
    ∃ ls vs, t.letNames? = some ls ∧ t.varNames? = some vs ∧
      Introduces (handedOut n k) ls vs := by
  obtain ⟨word, names, hdeclared, hword, hnodup, hmem⟩ := h.declared
  cases lexical with
  | true => exact ⟨names, [], by simp_all [Tree.letNames?], by simp_all [Tree.varNames?],
      .lexical hnodup hmem⟩
  | false => exact ⟨[], names, by simp_all [Tree.letNames?], by simp_all [Tree.varNames?],
      .vars hmem⟩

end MadeVariables

section Statements

variable (hm : MakesExpressions m) (hs : MakesStatements m)

include hm in
theorem makes_declarator :
    Makes n (declarator rs m levels c isConst) (MadeDeclarator isConst c n) := by
  have hmake : ∀ init, Placed (Agrees n c) (.maybe expression) init →
      (isConst = true → init.isAbsent = false) →
      Makes n (do node (σ := σ) .variableDeclarator [← binding, init])
        (MadeDeclarator isConst c n) := by
    intro init hinit hconst
    refine makes_binding.bind ?_
    rintro _ k hk ⟨s, hs, rfl⟩
    have hnode : Placed (Agrees n c) (.node .variableDeclarator)
        (.node .variableDeclarator [bindingOf s, init]) :=
      placed_plain (fun _ _ => rfl) (fun _ _ => rfl)
        (.cons ((placed_bindingOf hs).member isUnion_binding rfl) (.cons hinit .nil))
    refine Makes.mono (yields_self hnode) ?_
    rintro k' t hk' rfl
    exact ⟨hnode, ⟨s, handedOut_mono le_rfl hk' hs, rfl⟩, fun h => congrArg some (hconst h)⟩
  refine .ite (fun _ => ?_) fun hvar => ?_
  · refine Yields.bind (yields_part hm) fun init hinit => ?_
    refine hmake init (.maybe isUnion_expression (.inr hinit)) fun _ => ?_
    obtain ⟨k, fields, rfl, -⟩ := (fitsType_isUnion isUnion_expression).1 hinit.1
    rfl
  · refine Yields.bind (makes_perhaps 60 (yields_part hm)) fun init hinit => ?_
    exact hmake init (.maybe isUnion_expression hinit) fun h => absurd h hvar

include hm in
theorem makes_variableDeclaration :
    Makes n (variableDeclaration rs m levels c lexical) (MadeVariables lexical c n) := by
  have hmake : ∀ word : String, word ∈ declarationKinds → (word == "var") = !lexical →
      Makes n (do
        let first ← declarator rs m levels c (word == "const")
        let others ← several rs 2 (declarator rs m levels c (word == "const"))
        node .variableDeclaration [.str word, .list (first :: others)])
        (MadeVariables lexical c n) := by
    intro word hword hlexical
    refine (makes_declarator hm).bind fun first j hj hfirst => ?_
    refine (makes_several 2 fun _ _ => makes_declarator hm).bind fun others k hk hothers => ?_
    -- all declarators together, the first one included
    have hrun : Run (MadeDeclarator (word == "const") c) n k (first :: others) :=
      .cons hj hfirst hothers
    have hplaced : ∀ d ∈ first :: others, Placed (Agrees n c) (.node .variableDeclarator) d := by
      intro d hd
      obtain ⟨n', k', hn', -, hmade⟩ := hrun.forall_mem hd
      exact hmade.placed.sooner hn'
    have hrules : Rules.variableDeclaration word (first :: others) = some [] := by
      have hinit : word == "const" → Rules.uninitialised 0 (first :: others) = some [] := by
        refine fun hconst => uninitialised_eq_nil (fun d hd => ?_) 0
        obtain ⟨n', k', -, -, hmade⟩ := hrun.forall_mem hd
        exact hmade.init hconst
      by_cases hconst : word == "const"
      · simp [Rules.variableDeclaration, EarlyError.when, hconst, hinit hconst]
      · simp [Rules.variableDeclaration, EarlyError.when, hconst]
    have hnode : Placed (Agrees n c) (.node .variableDeclaration)
        (.node .variableDeclaration [.str word, .list (first :: others)]) :=
      placed_plain (fun _ _ => rfl) (fun _ _ => hrules)
        (.cons (.word hword) (.cons (.list (isUnion_node _) hplaced) .nil))
    obtain ⟨names, hnames, hnodup, hmem⟩ := (hrun.mono fun _ _ _ h => h.name).names
    refine Makes.mono (yields_self hnode) ?_
    rintro k' t hk' rfl
    exact ⟨hnode, word, names, declared?_variableDeclaration hnames, hlexical, hnodup,
      fun s hs => handedOut_mono le_rfl hk' (hmem s hs)⟩
  refine .ite (fun hlexical => ?_) fun hvar => ?_
  · refine (yields_choose "let" ["const"]).bind fun word hword => ?_
    refine hmake word ?_ ?_
    · exact List.mem_cons_of_mem _ hword
    · obtain rfl | hword := List.mem_cons.1 hword
      · simp [hlexical]
      · obtain rfl := List.mem_singleton.1 hword
        simp [hlexical]
  · refine Yields.bind (P := (· = "var")) (.pure fun _ _ => rfl) ?_
    rintro _ rfl
    exact hmake "var" List.mem_cons_self (by simpa using hvar)

include hm in
/-- A `var` statement may stand anywhere, a lexical declaration only where declarations may. -/
theorem makes_variableStatement (h : lexical = true → declarations = true) :
    Makes n (variableStatement rs m levels c lexical) (MadeStatement declarations c n) := by
  refine (makes_variableDeclaration hm).bind fun d k hk hd => ?_
  have hnode : Placed (Agrees n c) (.node .variableDeclarationStatement)
      (.node .variableDeclarationStatement [d]) :=
    placed_plain (fun _ _ => rfl) (fun _ _ => rfl) (.cons hd.placed .nil)
  obtain ⟨ls, vs, hls, hvs, hnames⟩ := hd.names
  have hdeclares : Declares (handedOut n k) (.node .variableDeclarationStatement [d]) := by
    intro f
    refine ⟨ls, vs, hls, ?_, hnames⟩
    have hfunction : (Tree.node .variableDeclarationStatement [d]).isKind .functionDeclaration
      = false := rfl
    simp [Tree.itemVarNames?, Tree.unwrapExport?, Tree.hoistedNames?, hvs, hfunction]
  have hmade : MadeStatement declarations c n k (.node .variableDeclarationStatement [d]) := by
    refine ⟨hnode.member isUnion_statement rfl, hdeclares, fun hno field => ?_⟩
    obtain ⟨word, names, hdeclared, hword, -⟩ := hd.declared
    have hvar : lexical = false := by
      cases lexical with
      | false => rfl
      | true => rw [h rfl] at hno; cases hno
    obtain rfl : word = "var" := by simpa [hvar] using hword
    simp [Rules.singleStatement, hdeclared, EarlyError.when]
  exact (makes_statement hnode hmade).mono fun _ _ _ h => h.1

/-! ## Loops -/

/-- What may stand first in the head of a `for`. -/
def initType : TypeSpec := .union [.node .variableDeclaration, expression]

theorem isUnion_initType : IsUnion initType := rfl

theorem initType_of_expression (k : Kind) (h : expression.hasMember k = true) :
    initType.hasMember k = true := by
  simp [initType, Spec.union, Spec.hasMember, Spec.anyHasMember, h]

/-- The first part of the head of a `for`, made after the body: what it declares is not hoisted
out of the body. -/
structure MadeInit (c : Scene) (n j k : Nat) (t : Tree) : Prop where
  placed : Placed (Agrees n c) (.maybe initType) t
  hoists : Hoists (handedOut j k) t
  head : ∀ body, Hoists (handedOut n j) body → Rules.forHead t body = some []

omit hm in
theorem MadeVariables.init {t : Tree} (hj : n ≤ j) (h : MadeVariables lexical c j k t) :
    MadeInit c n j k t := by
  obtain ⟨ls, vs, hls, hvs, hnames⟩ := h.names
  obtain ⟨fields, rfl, -⟩ := fitsType_node.1 h.placed.1
  refine ⟨.maybe isUnion_initType (.inr ((h.placed.sooner hj).member isUnion_initType rfl)),
    ⟨vs, by simpa [Tree.hoistedNames?] using hvs, hnames.vars_mem⟩, ?_⟩
  rintro body ⟨hoisted, hhoisted, hmem⟩
  have hapart : ∀ s ∈ ls, s ∉ hoisted := fun s hs hs' =>
    Set.disjoint_left.1 (disjoint_handedOut n j k) (hmem s hs') (hnames.lexical_mem s hs)
  have hkind : (Tree.node .variableDeclaration fields).isKind .variableDeclaration = true := rfl
  cases ls with
  | nil => simp [Rules.forHead, hkind, hls]
  | cons l ls =>
    simp [Rules.forHead, hkind, hls, hhoisted, duplicates_eq_nil.2 hnames.nodup,
      shared_eq_nil.2 hapart]

omit hm in
theorem hoists_expression {C : Context → Prop} {t : Tree} (h : Placed C expression t) :
    Hoists S t := by
  obtain ⟨k, fields, rfl, hk, -⟩ := (fitsType_isUnion isUnion_expression).1 h.1
  refine hoists_nothing ?_ ?_ fields
  · cases k <;> first | rfl | cases hk
  · rintro rfl
    cases hk

include hm in
theorem makes_forInit (hj : n ≤ j) : Makes j (forInit rs m levels c) (MadeInit c n j) := by
  refine (yields_chance 50).bind fun b _ => .ite (fun _ => ?_) fun _ => ?_
  · refine (yields_chance 50).bind fun lexical _ => ?_
    exact (makes_variableDeclaration hm).mono fun k t _ ht => ht.init hj
  · refine (makes_perhaps 50 (yields_assignment hm)).mono fun k t _ ht => ?_
    have hkind : t.isKind .variableDeclaration = false := by
      obtain rfl | ht := ht
      · rfl
      · exact ht.isKind_eq_false rfl
    refine ⟨.maybe isUnion_initType (ht.imp_right fun ht => (ht.sooner hj).widen
        isUnion_expression isUnion_initType initType_of_expression),
      hoists_optional (ht.imp_right hoists_expression), fun body _ => ?_⟩
    simp [Rules.forHead, hkind]

/-- Outside of the body, the context in a loop agrees with the scene around it. -/
theorem Agrees.loopHead {x : Context} (hx : Agrees n c x) (b : Bool) :
    Agrees n c { x.inherited with inIteration := x.inherited.inIteration || b } :=
  { hx with inLoop := fun h => Bool.or_eq_true_iff.2 (.inl (hx.inLoop h)) }

theorem Agrees.loopBody {x : Context} (hx : Agrees n c x) :
    Agrees n { c with inLoop := true }
      { x.inherited with inIteration := x.inherited.inIteration || true } :=
  { hx with inLoop := fun _ => Bool.or_true _ }

include hm hs in
/-- The body of a loop is made in a scene that has all of the scene around it. -/
theorem makes_loopStatement (declarations : Bool) {bodyScene : Scene}
    (hscene : ∀ n x, Agrees n bodyScene x → Agrees n c x) :
    Makes n (loopStatement rs m levels c bodyScene) fun k t =>
      MadeStatement declarations bodyScene n k t ∧ t.isLabelledLoop? = some true := by
  refine (hs _ _ false _).bind fun body j hj hbody => ?_
  have hinside : ∀ x, Agrees n bodyScene x → ∃ inner,
      some { x.inherited with inIteration := x.inherited.inIteration || true } = some inner ∧
        Agrees n { bodyScene with inLoop := true } inner :=
    fun x hx => ⟨_, rfl, hx.loopBody⟩
  have hhead : ∀ x, Agrees n bodyScene x → ∃ inner,
      some { x.inherited with inIteration := x.inherited.inIteration || false } = some inner ∧
        Agrees n c inner :=
    fun x hx => ⟨_, rfl, (hscene n x hx).loopHead false⟩
  refine yields_draw.bind fun r _ => .ite (fun _ => ?_) fun _ => .ite (fun _ => ?_) fun _ => ?_
  · refine Yields.bind ((yields_part hm).later hj) fun test htest => ?_
    have hnode : Placed (Agrees n bodyScene) (.node .whileStatement)
        (.node .whileStatement [test, body]) :=
      placed_node (.cons (htest.field hhead) (.cons (hbody.placed.field hinside) .nil))
        fun _ _ => hbody.single rfl _
    have hmade : MadeStatement declarations bodyScene n j (.node .whileStatement [test, body]) :=
      madeStatement_node rfl rfl hnode hbody.hoists
    refine (makes_statement hnode hmade).mono ?_
    rintro k t - ⟨ht, rfl⟩
    exact ⟨ht, rfl⟩
  · refine Yields.bind ((yields_part hm).later hj) fun test htest => ?_
    have hnode : Placed (Agrees n bodyScene) (.node .doWhileStatement)
        (.node .doWhileStatement [body, test]) :=
      placed_node (.cons (hbody.placed.field hinside) (.cons (htest.field hhead) .nil))
        fun _ _ => hbody.single rfl _
    have hmade : MadeStatement declarations bodyScene n j
        (.node .doWhileStatement [body, test]) :=
      madeStatement_node rfl rfl hnode hbody.hoists
    refine (makes_statement hnode hmade).mono ?_
    rintro k t - ⟨ht, rfl⟩
    exact ⟨ht, rfl⟩
  · refine (makes_forInit hm hj).bind fun init k hk hinit => ?_
    refine Yields.bind (makes_perhaps 70 ((yields_part hm).later (hj.trans hk)))
      fun test htest => ?_
    refine Yields.bind (makes_perhaps 50 ((yields_part hm).later (hj.trans hk)))
      fun update hupdate => ?_
    have hnode : Placed (Agrees n bodyScene) (.node .forStatement)
        (.node .forStatement [init, test, update, body]) := by
      refine placed_node (.cons (hinit.placed.field hhead)
        (.cons ((Placed.maybe isUnion_expression htest).field hhead)
          (.cons ((Placed.maybe isUnion_expression hupdate).field hhead)
            (.cons (hbody.placed.field hinside) .nil)))) fun x _ => ?_
      simp [nodeErrors, hbody.single rfl, hinit.head body hbody.hoists]
    have hmade : MadeStatement declarations bodyScene n k
        (.node .forStatement [init, test, update, body]) :=
      madeStatement_node rfl rfl hnode (hoists_append
        (hinit.hoists.mono (handedOut_mono hj le_rfl))
        (hbody.hoists.mono (handedOut_mono le_rfl hk)))
    refine (makes_statement hnode hmade).mono ?_
    rintro k' t - ⟨ht, rfl⟩
    exact ⟨ht, rfl⟩

/-! ## Labels -/

/-- A fresh label is none of those around it. -/
theorem Agrees.label?_numbered {x : Context} (hx : Agrees n c x) {i : Nat} (hi : n ≤ i) :
    x.label? (numbered "L" i) = none := by
  rw [Context.label?, Option.map_eq_none_iff, List.find?_eq_none]
  intro l hl heq
  obtain ⟨i', hi', hname⟩ := hx.bounded l hl
  rw [hname, beq_iff_eq, numbered_inj] at heq
  omega

/-- The context after a fresh label agrees with the scene after it. -/
theorem Agrees.labelled {x : Context} (hx : Agrees n c x) {i : Nat} (hi : n ≤ i) (hj : i < j)
    (isLoop : Bool) :
    Agrees j { c with labels := c.labels ++ [(numbered "L" i, isLoop)] }
      { x.inherited with labels := x.inherited.labels ++ [(numbered "L" i, isLoop)] } where
  inFunction := hx.inFunction
  isAsync := hx.isAsync
  isGenerator := hx.isGenerator
  inLoop := hx.inLoop
  inSwitch := hx.inSwitch
  labels l hl := by
    have hfresh := hx.label?_numbered hi
    rw [Context.label?, Option.map_eq_none_iff] at hfresh
    obtain hl | hl := List.mem_append.1 hl
    · have hfound := hx.labels l hl
      rw [Context.label?, Option.map_eq_some_iff] at hfound ⊢
      obtain ⟨l', hl', heq⟩ := hfound
      exact ⟨l', by rw [Context.inherited, List.find?_append, hl']; rfl, heq⟩
    · obtain rfl := List.mem_singleton.1 hl
      simp [Context.label?, Context.inherited, List.find?_append, hfresh]
  bounded l hl := by
    obtain hl | hl := List.mem_append.1 hl
    · obtain ⟨i', hi', heq⟩ := hx.bounded l hl
      exact ⟨i', by omega, heq⟩
    · obtain rfl := List.mem_singleton.1 hl
      exact ⟨i, hj, rfl⟩
  superProperty := hx.superProperty
  superCall := hx.superCall
  strict := hx.strict

include hm hs in
theorem makes_labeledStatement :
    Makes n (labeledStatement rs m levels c) (MadeStatement declarations c n) := by
  refine (makes_fresh "L").bind ?_
  rintro _ j hj ⟨i, hi, hij, rfl⟩
  refine (yields_chance 60).bind fun isLoop _ => ?_
  have hmake : ∀ body k, j ≤ k → MadeStatement false
      { c with labels := c.labels ++ [(numbered "L" i, isLoop)] } j k body →
      body.isLabelledLoop? = some isLoop →
      Makes k (node (σ := σ) .labeledStatement [.str (numbered "L" i), body])
        (MadeStatement declarations c n) := by
    intro body k hk hbody hloop
    have hnode : Placed (Agrees n c) (.node .labeledStatement)
        (.node .labeledStatement [.str (numbered "L" i), body]) := by
      refine placed_node (.cons (.leaf (fitsType_string.2 ⟨_, rfl⟩) rfl) (.cons ?_ .nil))
        fun x hx => ?_
      · refine hbody.placed.field fun x hx => ⟨_, ?_, hx.labelled hi hij isLoop⟩
        simp [Context.ofField, hloop]
      · have hspelling : Rules.spelling (numbered "L" i) true = [] :=
          spelling_numbered (by decide)
        simp [nodeErrors, hbody.single rfl, Rules.label, hx.label?_numbered hi, hspelling,
          EarlyError.when]
    have hmade : MadeStatement declarations c n k
        (.node .labeledStatement [.str (numbered "L" i), body]) :=
      madeStatement_node rfl rfl hnode (hbody.hoists.mono (handedOut_mono hj le_rfl))
    exact (makes_statement hnode hmade).mono fun _ _ _ h => h.1
  refine .ite (fun hloop => ?_) fun hblock => ?_
  · refine (makes_loopStatement hm hs false fun n x hx => ?_).bind fun body k hk hmade => ?_
    · exact { hx with labels := fun l hl => hx.labels l (List.mem_append_left _ hl) }
    · obtain ⟨hbody, hlabelled⟩ := hmade
      exact hmake body k hk hbody (hlabelled.trans (by rw [hloop]))
  · refine (makes_blockStatement hs false).bind fun body k hk hmade => ?_
    obtain ⟨hbody, hlabelled⟩ := hmade
    exact hmake body k hk hbody (hlabelled.trans (by simp [hblock]))

/-! ## Switches -/

/-- In front of the cases, the context in a switch agrees with the scene around it. -/
theorem Agrees.switchHead {x : Context} (hx : Agrees n c x) (b : Bool) :
    Agrees n c { x.inherited with inSwitch := x.inherited.inSwitch || b } :=
  { hx with inSwitch := fun h => Bool.or_eq_true_iff.2 (.inl (hx.inSwitch h)) }

theorem Agrees.switchCases {x : Context} (hx : Agrees n c x) :
    Agrees n { c with inSwitch := true }
      { x.inherited with inSwitch := x.inherited.inSwitch || true } :=
  { hx with inSwitch := fun _ => Bool.or_true _ }

theorem Agrees.aroundSwitch {x : Context} (hx : Agrees n { c with inSwitch := true } x) :
    Agrees n c x :=
  { hx with inSwitch := fun _ => hx.inSwitch rfl }

/-- A case or the default of a switch, with its statements. -/
structure MadeCase (kind : Kind) (c : Scene) (n k : Nat) (t : Tree) : Prop where
  placed : Placed (Agrees n { c with inSwitch := true }) (.node kind) t
  statements : ∃ items, t.caseStatements? = some items ∧
    t.hoistedNames? = Tree.allHoistedNames? items ∧
    MadeStatements { c with inSwitch := true } n k items

/-- Cases the statements of which do not clash. -/
structure MadeCases (n k : Nat) (cases : List Tree) : Prop where
  declares : ∃ items, cases.mapM Tree.caseStatements? = some items ∧
    DeclaresAll (handedOut n k) items.flatten
  hoists : ∃ vs, Tree.allHoistedNames? cases = some vs ∧ ∀ s ∈ vs, s ∈ handedOut n k

omit hm hs in
theorem MadeCase.hoists {kind : Kind} {t : Tree} (h : MadeCase kind c n k t) :
    Hoists (handedOut n k) t := by
  obtain ⟨items, -, hhoisted, hitems⟩ := h.statements
  obtain ⟨vs, hvs, hmem⟩ := hitems.hoists
  exact ⟨vs, hhoisted.trans hvs, hmem⟩

namespace MadeCases

variable {kind : Kind} {t : Tree} {cases others : List Tree}

omit hm hs in
theorem nil : MadeCases n k [] := ⟨⟨[], rfl, .nil⟩, [], rfl, nofun⟩

omit hm hs in
theorem cons (hj : n ≤ j) (hk : j ≤ k) (ht : MadeCase kind c n j t) (h : MadeCases j k cases) :
    MadeCases n k (t :: cases) where
  declares := by
    obtain ⟨items, hcase, -, hitems⟩ := ht.statements
    obtain ⟨itemss, hcases, hdeclares⟩ := h.declares
    refine ⟨items :: itemss, by simp [hcase, hcases], ?_⟩
    refine (hitems.declares.append hdeclares (disjoint_handedOut n j k)).mono ?_
    exact Set.union_subset (handedOut_mono le_rfl hk) (handedOut_mono hj le_rfl)
  hoists := by
    obtain ⟨vs, hvs, hmem⟩ := ht.hoists.mono (handedOut_mono le_rfl hk)
    obtain ⟨ws, hws, hmem'⟩ := h.hoists
    refine ⟨vs ++ ws, by simp [Tree.allHoistedNames?, hvs, hws], fun s hs => ?_⟩
    exact (List.mem_append.1 hs).elim (hmem s) fun h => handedOut_mono hj le_rfl (hmem' s h)

omit hm hs in
theorem widen {n' k' : Nat} (h : MadeCases n k cases) (hn : n' ≤ n) (hk : k ≤ k') :
    MadeCases n' k' cases where
  declares :=
    let ⟨items, hcases, hdeclares⟩ := h.declares
    ⟨items, hcases, hdeclares.mono (handedOut_mono hn hk)⟩
  hoists :=
    let ⟨vs, hvs, hmem⟩ := h.hoists
    ⟨vs, hvs, fun s hs => handedOut_mono hn hk (hmem s hs)⟩

omit hm hs in
theorem of_run (h : Run (MadeCase kind c) n k cases) : MadeCases n k cases := by
  induction h with
  | nil _ => exact .nil
  | cons hn ha has ih => exact ih.cons hn has.le ha

omit hm hs in
/-- The declarations of all cases of a switch, in two parts made one after the other. -/
theorem append (hj : n ≤ j) (hk : j ≤ k) (h : MadeCases n j cases) (h' : MadeCases j k others) :
    ∃ items, (cases ++ others).mapM Tree.caseStatements? = some items ∧
      DeclaresAll (handedOut n k) items.flatten := by
  obtain ⟨items, hcases, hdeclares⟩ := h.declares
  obtain ⟨items', hothers, hdeclares'⟩ := h'.declares
  refine ⟨items ++ items', by simp [hcases, hothers], ?_⟩
  rw [List.flatten_append]
  refine (hdeclares.append hdeclares' (disjoint_handedOut n j k)).mono ?_
  exact Set.union_subset (handedOut_mono le_rfl hk) (handedOut_mono hj le_rfl)

end MadeCases

omit hm hs in
/-- No names clash in the one scope that all cases of a switch are. -/
theorem switchErrors_eq_nil {cases : List Tree}
    (h : ∃ items, cases.mapM Tree.caseStatements? = some items ∧ DeclaresAll S items.flatten) :
    Rules.switchErrors cases = some [] := by
  obtain ⟨items, hitems, hdeclares⟩ := h
  have hscope := hdeclares.scopeErrors false
  simp only [Rules.switchErrors, hitems]
  exact hscope

include hm hs in
theorem makes_switchCase :
    Makes n (switchCase rs m levels c) (MadeCase .switchCase c n) := by
  refine Yields.bind (yields_part hm) fun test htest => ?_
  refine (makes_statementList hs).bind ?_
  rintro _ k hk ⟨items, rfl, hitems⟩
  have hnode : Placed (Agrees n { c with inSwitch := true }) (.node .switchCase)
      (.node .switchCase [test, .list items]) := by
    refine placed_plain (fun _ _ => rfl) (fun _ _ => rfl) (.cons ?_ (.cons hitems.list .nil))
    exact htest.weaken fun x hx => hx.aroundSwitch
  refine Makes.mono (yields_self hnode) ?_
  rintro k' t hk' rfl
  exact ⟨hnode, items, rfl, by simp [Tree.hoistedNames?], hitems.mono hk'⟩

omit hm hs in
theorem makes_switchDefault {items : List Tree}
    (hitems : MadeStatements { c with inSwitch := true } n k items) :
    Makes k (node (σ := σ) .switchDefault [.list items]) (MadeCase .switchDefault c n) := by
  have hnode : Placed (Agrees n { c with inSwitch := true }) (.node .switchDefault)
      (.node .switchDefault [.list items]) :=
    placed_plain (fun _ _ => rfl) (fun _ _ => rfl) (.cons hitems.list .nil)
  refine Makes.mono (yields_self hnode) ?_
  rintro k' t hk' rfl
  exact ⟨hnode, items, rfl, by simp [Tree.hoistedNames?], hitems.mono hk'⟩

omit hm hs in
theorem placed_cases {kind : Kind} {cases : List Tree} (hn : n ≤ j)
    (h : Run (MadeCase kind c) j k cases) :
    Placed (Agrees n { c with inSwitch := true }) (.list (.node kind)) (.list cases) := by
  refine .list (isUnion_node kind) fun t ht => ?_
  obtain ⟨n', k', hn', -, hmade⟩ := h.forall_mem ht
  exact hmade.placed.sooner (hn.trans hn')

include hm hs in
theorem makes_switchStatement :
    Makes n (switchStatement rs m levels c) (MadeStatement declarations c n) := by
  have hhead : ∀ x, Agrees n c x → ∃ inner,
      some { x.inherited with inSwitch := x.inherited.inSwitch || false } = some inner ∧
        Agrees n c inner :=
    fun x hx => ⟨_, rfl, hx.switchHead false⟩
  have hcases : ∀ x, Agrees n c x → ∃ inner,
      some { x.inherited with inSwitch := x.inherited.inSwitch || true } = some inner ∧
        Agrees n { c with inSwitch := true } inner :=
    fun x hx => ⟨_, rfl, hx.switchCases⟩
  refine Yields.bind (yields_part hm) fun discriminant hdiscriminant => ?_
  refine (yields_chance 50).bind fun b _ => .ite (fun _ => ?_) fun _ => ?_
  · refine (makes_several 3 fun _ _ => makes_switchCase hm hs).bind fun cases k hk hrun => ?_
    have hmade := MadeCases.of_run hrun
    have hnode : Placed (Agrees n c) (.node .switchStatement)
        (.node .switchStatement [discriminant, .list cases]) :=
      placed_node (.cons (hdiscriminant.field hhead)
        (.cons ((placed_cases le_rfl hrun).field hcases) .nil))
        fun _ _ => switchErrors_eq_nil hmade.declares
    have hhoists : Hoists (handedOut n k) (.node .switchStatement [discriminant, .list cases]) := by
      obtain ⟨vs, hvs, hmem⟩ := hmade.hoists
      exact ⟨vs, by simpa [Tree.hoistedNames?] using hvs, hmem⟩
    have hstatement : MadeStatement declarations c n k
        (.node .switchStatement [discriminant, .list cases]) :=
      madeStatement_node rfl rfl hnode hhoists
    exact (makes_statement hnode hstatement).mono fun _ _ _ h => h.1
  · refine (makes_several 2 fun _ _ => makes_switchCase hm hs).bind fun before j hj hbefore => ?_
    refine (makes_statementList hs).bind ?_
    rintro _ i' hi' ⟨items, rfl, hitems⟩
    refine (makes_switchDefault hitems).bind fun default i hii hdefault => ?_
    have hi := hi'.trans hii
    refine (makes_several 2 fun _ _ => makes_switchCase hm hs).bind fun after k hk hafter => ?_
    have hbeforeMade := MadeCases.of_run hbefore
    have hafterMade := MadeCases.of_run hafter
    have hall : MadeCases j k (default :: after) := .cons hi hk hdefault hafterMade
    have hnode : Placed (Agrees n c) (.node .switchStatementWithDefault)
        (.node .switchStatementWithDefault [discriminant, .list before, default, .list after]) :=
      placed_node (.cons (hdiscriminant.field hhead)
        (.cons ((placed_cases le_rfl hbefore).field hcases)
          (.cons ((hdefault.placed.sooner hj).field hcases)
            (.cons ((placed_cases (hj.trans hi) hafter).field hcases) .nil))))
        fun _ _ => switchErrors_eq_nil (hbeforeMade.append hj (hi.trans hk) hall)
    have hhoists : Hoists (handedOut n k) (.node .switchStatementWithDefault
        [discriminant, .list before, default, .list after]) := by
      have hfirst := (hbeforeMade.widen le_rfl (hi.trans hk)).hoists
      have hmiddle := hdefault.hoists.mono (handedOut_mono hj hk)
      have hlast := (hafterMade.widen (hj.trans hi) le_rfl).hoists
      exact hoists_append₃ hfirst hmiddle hlast
    have hstatement : MadeStatement declarations c n k (.node .switchStatementWithDefault
        [discriminant, .list before, default, .list after]) :=
      madeStatement_node rfl rfl hnode hhoists
    exact (makes_statement hnode hstatement).mono fun _ _ _ h => h.1

/-! ## Blocks with handlers -/

include hs in
theorem makes_catchClause :
    Makes n (catchClause rs m levels c) fun k t =>
      Placed (Agrees n c) (.node .catchClause) t ∧ Hoists (handedOut n k) t := by
  refine (makes_perhaps 80 makes_binding).bind fun b j hj hb => ?_
  refine (makes_block hs).bind fun body k hk hbody => ?_
  have hbinding : Placed (Agrees n c) (.maybe Language.binding) b := by
    refine .maybe isUnion_binding (hb.imp_right ?_)
    rintro ⟨s, hs, rfl⟩
    exact (placed_bindingOf hs).member isUnion_binding rfl
  have hnode : Placed (Agrees n c) (.node .catchClause) (.node .catchClause [b, body]) :=
    placed_plain (fun _ _ => rfl) (fun _ _ => hbody.catchParameter hb)
      (.cons hbinding (.cons (hbody.placed.sooner hj) .nil))
  refine Makes.mono (yields_self hnode) ?_
  rintro k' t hk' rfl
  exact ⟨hnode, hbody.hoists.mono (handedOut_mono hj hk')⟩

include hs in
theorem makes_tryStatement :
    Makes n (tryStatement rs m levels c) (MadeStatement declarations c n) := by
  refine (makes_block hs).bind fun body j hj hbody => ?_
  refine (yields_chance 70).bind fun b _ => .ite (fun _ => ?_) fun _ => ?_
  · refine (makes_catchClause hs).bind fun clause i hi hclause => ?_
    refine (yields_chance 50).bind fun b _ => .ite (fun _ => ?_) fun _ => ?_
    · have hnode : Placed (Agrees n c) (.node .tryCatchStatement)
          (.node .tryCatchStatement [body, clause]) :=
        placed_plain (fun _ _ => rfl) (fun _ _ => rfl)
          (.cons hbody.placed (.cons (hclause.1.sooner hj) .nil))
      have hmade : MadeStatement declarations c n i (.node .tryCatchStatement [body, clause]) :=
        madeStatement_node rfl rfl hnode (hoists_append
          (hbody.hoists.mono (handedOut_mono le_rfl hi))
          (hclause.2.mono (handedOut_mono hj le_rfl)))
      exact (makes_statement hnode hmade).mono fun _ _ _ h => h.1
    · refine (makes_block hs).bind fun finalizer k hk hfinalizer => ?_
      have hnode : Placed (Agrees n c) (.node .tryFinallyStatement)
          (.node .tryFinallyStatement [body, clause, finalizer]) :=
        placed_plain (fun _ _ => rfl) (fun _ _ => rfl) (.cons hbody.placed
          (.cons (.maybe (isUnion_node _) (.inr (hclause.1.sooner hj)))
            (.cons (hfinalizer.placed.sooner (hj.trans hi)) .nil)))
      have hmade : MadeStatement declarations c n k
          (.node .tryFinallyStatement [body, clause, finalizer]) :=
        madeStatement_node rfl rfl hnode (hoists_append₃
          (hbody.hoists.mono (handedOut_mono le_rfl (hi.trans hk)))
          (hclause.2.mono (handedOut_mono hj hk))
          (hfinalizer.hoists.mono (handedOut_mono (hj.trans hi) le_rfl)))
      exact (makes_statement hnode hmade).mono fun _ _ _ h => h.1
  · refine (makes_block hs).bind fun finalizer k hk hfinalizer => ?_
    have hnode : Placed (Agrees n c) (.node .tryFinallyStatement)
        (.node .tryFinallyStatement [body, .absent, finalizer]) :=
      placed_plain (fun _ _ => rfl) (fun _ _ => rfl) (.cons hbody.placed
        (.cons (.maybe (isUnion_node _) (.inl rfl)) (.cons (hfinalizer.placed.sooner hj) .nil)))
    have hmade : MadeStatement declarations c n k
        (.node .tryFinallyStatement [body, .absent, finalizer]) :=
      madeStatement_node rfl rfl hnode (hoists_append₃
        (hbody.hoists.mono (handedOut_mono le_rfl hk)) (hoists_optional (.inl rfl))
        (hfinalizer.hoists.mono (handedOut_mono hj le_rfl)))
    exact (makes_statement hnode hmade).mono fun _ _ _ h => h.1

/-! ## All statements -/

include hm hs in
theorem makes_declaration (name : Option Tree) (hname : name = none) :
    Makes n (functionDeclaration rs m levels c name) (MadeStatement true c n) ∧
      Makes n (classDeclaration rs m levels c name) (MadeStatement true c n) := by
  subst hname
  have hnone : NamesDefault none := nofun
  constructor
  · refine (makes_functionDeclaration hm hs hnone).mono fun k t _ ⟨ht, hdeclares⟩ => ?_
    exact ⟨(ht.weaken fun x hx => ⟨hx, nofun⟩).member isUnion_statement rfl, hdeclares, nofun⟩
  · refine (makes_classDeclaration hm hs hnone).mono fun k t _ ⟨ht, hdeclares⟩ => ?_
    exact ⟨(ht.weaken fun x hx => ⟨hx, nofun⟩).member isUnion_statement rfl, hdeclares, nofun⟩

include hm hs in
/-- Every kind of statement that the scene allows is placed in it. -/
theorem makes_compoundStatement : Makes n (compoundStatement rs m levels c declarations)
    (MadeStatement declarations c n) := by
  refine makes_chooseGen (makes_simpleStatement hm) ?_
  refine List.forall_mem_append.2 ⟨?_, ?_⟩
  · simp only [List.forall_mem_cons]
    exact ⟨makes_simpleStatement hm, makes_expressionStatement hm,
      (makes_blockStatement hs declarations).mono fun _ _ _ h => h.1, makes_ifStatement hm hs,
      (makes_loopStatement hm hs declarations fun _ _ => id).mono fun _ _ _ h => h.1,
      makes_labeledStatement hm hs, makes_switchStatement hm hs, makes_tryStatement hs,
      makes_variableStatement hm nofun, nofun⟩
  · refine forall_mem_allowed fun hdeclarations => ?_
    subst hdeclarations
    simp only [List.forall_mem_cons]
    exact ⟨makes_variableStatement hm fun _ => rfl, (makes_declaration hm hs none rfl).1,
      (makes_declaration hm hs none rfl).2, nofun⟩

end Statements

end Whittle.Sample
