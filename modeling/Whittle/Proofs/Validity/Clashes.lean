import Whittle.Proofs.Validity.Hoisting
import Whittle.Proofs.Validity.Reporters

/-!
# Clashing declarations

A name may be declared lexically once in a scope, and then it may not be declared there by `var`
too. What is declared lexically is declared directly in the scope; what is declared by `var` may
be as deep in it as functions allow. The clashes that are reported are the declarations at such
places that have a name in common.
-/

namespace Whittle

open Grammar Whittle.Language

/-! ## What stands in a scope -/

/-- The scopes in which functions are declared as with `var`. -/
def Kind.hoistsFunctions : Kind → Bool
  | script | functionBody => true
  | _ => false

/-- The paths from a switch to its cases. -/
inductive Kind.HasCaseAt : Kind → Path → Prop
  | case (i : Nat) : HasCaseAt .switchStatement [.field "cases", .index i]
  | before (i : Nat) : HasCaseAt .switchStatementWithDefault [.field "pre_default_cases", .index i]
  | default : HasCaseAt .switchStatementWithDefault [.field "default_case"]
  | after (i : Nat) : HasCaseAt .switchStatementWithDefault [.field "post_default_cases", .index i]

/-- The field of a scope, but of a switch, that its statements are in. -/
def Kind.scopeField? : Kind → Option String
  | script | functionBody | block => some "statements"
  | esModule => some "items"
  | _ => none

/-- The paths from a scope to the statements directly in it. -/
inductive Kind.HasStatementAt : Kind → Path → Prop
  | list {k : Kind} {name : String} (h : k.scopeField? = some name) (i : Nat) :
    HasStatementAt k [.field name, .index i]
  | case {k : Kind} {q : Path} (h : k.HasCaseAt q) (i : Nat) :
    HasStatementAt k (q ++ [.field "consequent", .index i])

/-- What stands somewhere, or what is exported there. -/
inductive Exports : Tree → Path → Tree → Prop
  | itself (item : Tree) : Exports item [] item
  | declaration (d : Tree) : Exports (.node .exportDeclaration [d]) [.field "declaration"] d
  | default (d : Tree) : Exports (.node .exportDefault [d]) [.field "body"] d

/-- What stands directly in a scope, exported or not. -/
def DirectlyIn (k : Kind) (fields : List Tree) (p : Path) (d : Tree) : Prop :=
  ∃ q r item, p = q ++ r ∧ k.HasStatementAt q ∧ (Tree.node k fields).get q = .ok item ∧
    Exports item r d

/-- A declaration declares a name lexically; the path is that of the declarator or the name. -/
inductive DeclaresLexically (functions : Bool) : Tree → Path → String → Prop
  | declaration {d : Tree} {word : String} {p : Path} {x : String} (hword : word ≠ "var")
    (h : Declarator d word p x) : DeclaresLexically functions d p x
  | statement {d : Tree} {word : String} {p : Path} {x : String} (hword : word ≠ "var")
    (h : Declarator d word p x) :
    DeclaresLexically functions (.node .variableDeclarationStatement [d])
      (.field "declaration" :: p) x
  | classDeclaration {x : String} {superClass elements : Tree} :
    DeclaresLexically functions
      (.node .classDeclaration [.node .bindingIdentifier [.str x], superClass, elements])
      [.field "name"] x
  | functionDeclaration {x : String} {isAsync isGenerator params body : Tree}
    (h : functions = true) :
    DeclaresLexically functions (.node .functionDeclaration
      [isAsync, isGenerator, .node .bindingIdentifier [.str x], params, body]) [.field "name"] x

/-- A name is declared lexically, directly in a scope. -/
def LexicallyIn (k : Kind) (fields : List Tree) (p : Path) (x : String) : Prop :=
  ∃ q r d, p = q ++ r ∧ DirectlyIn k fields q d ∧ DeclaresLexically (!k.hoistsFunctions) d r x

/-- Two declarations in a scope, or in a `for` statement, with the same name. -/
inductive Clashing : Tree → Violation → Prop
  /-- Two lexical declarations. -/
  | twice {k : Kind} {fields : List Tree} {p q : Path} {x : String} (hne : p ≠ q)
    (hp : LexicallyIn k fields p x) (hq : LexicallyIn k fields q x) :
    Clashing (.node k fields) (.duplicateLexical x)
  /-- A lexical declaration and a function. -/
  | withFunction {k : Kind} {fields : List Tree} {p q : Path} {x : String}
    {isAsync isGenerator params body : Tree} (hk : k.hoistsFunctions = true)
    (hp : LexicallyIn k fields p x)
    (hq : DirectlyIn k fields q (.node .functionDeclaration
      [isAsync, isGenerator, .node .bindingIdentifier [.str x], params, body])) :
    Clashing (.node k fields) (.lexicalAndVar x)
  /-- A lexical declaration and one by `var`. -/
  | withVar {k : Kind} {fields : List Tree} {p : Path} {x : String}
    (hp : LexicallyIn k fields p x) (h : BindsVar (.node k fields) x) :
    Clashing (.node k fields) (.lexicalAndVar x)
  /-- Two lexical declarations in the head of a `for`. -/
  | headTwice {init test update body : Tree} {word : String} {p q : Path} {x : String}
    (hword : word ≠ "var") (hne : p ≠ q) (hp : Declarator init word p x)
    (hq : Declarator init word q x) :
    Clashing (.node .forStatement [init, test, update, body]) (.duplicateLexical x)
  /-- A lexical declaration in the head of a `for` and one by `var` in its body. -/
  | headWithVar {init test update body : Tree} {word : String} {p : Path} {x : String}
    (hword : word ≠ "var") (hp : Declarator init word p x) (h : BindsVar body x) :
    Clashing (.node .forStatement [init, test, update, body]) (.lexicalAndVar x)

/-! ## Names of items -/

variable {k : Kind} {fields items : List Tree} {item d : Tree} {p : Path} {x : String}
  {ns : List String} {functionsAreVar : Bool}

/-- Whether a node is one that exports. -/
def Tree.isExport : Tree → Bool
  | .node k _ => k.exports
  | _ => false

/-- What is taken for an item is all that it may be, or may export. -/
theorem exists_exports (h : item.unwrapExport? = some d) : ∃ r, Exports item r d ∧
    ∀ r' d', Exports item r' d' → d'.isExport = false → r' = r ∧ d' = d := by
  unfold Tree.unwrapExport? at h
  split at h
  · cases h
    refine ⟨_, .declaration d, fun r' d' h hd' => ?_⟩
    cases h with
    | itself => cases hd'
    | declaration => exact ⟨rfl, rfl⟩
  · cases h
    refine ⟨_, .default d, fun r' d' h hd' => ?_⟩
    cases h with
    | itself => cases hd'
    | default => exact ⟨rfl, rfl⟩
  · cases h
  · cases h
  · cases h
    rename_i k fs hdeclaration hdefault _ _
    refine ⟨[], .itself _, fun r' d' h hd' => ?_⟩
    cases h with
    | itself => exact ⟨rfl, rfl⟩
    | declaration => exact (hdeclaration _ rfl rfl).elim
    | default => exact (hdefault _ rfl rfl).elim
  · cases h

theorem DeclaresLexically.not_isExport {functions : Bool} (h : DeclaresLexically functions d p x) :
    d.isExport = false := by
  cases h with
  | declaration _ h =>
    cases h
    rfl
  | _ => rfl

theorem declarationName?_class {fs : List Tree}
    (h : (Tree.node .classDeclaration fs).declarationName? = some x) :
    ∃ superClass elements, fs = [.node .bindingIdentifier [.str x], superClass, elements] := by
  unfold Tree.declarationName? at h
  split at h
  · rename_i heq
    cases heq
    obtain rfl := bindingName?_eq_some.1 h
    exact ⟨_, _, rfl⟩
  · rename_i heq
    cases heq
  · cases h

theorem declarationName?_function {fs : List Tree}
    (h : (Tree.node .functionDeclaration fs).declarationName? = some x) :
    ∃ isAsync isGenerator params body,
      fs = [isAsync, isGenerator, .node .bindingIdentifier [.str x], params, body] := by
  unfold Tree.declarationName? at h
  split at h
  · rename_i heq
    cases heq
  · rename_i heq
    cases heq
    obtain rfl := bindingName?_eq_some.1 h
    exact ⟨_, _, _, _, rfl⟩
  · cases h

/-- The names that an item declares lexically stand at their declarations. -/
theorem places_lexicalNames? (h : item.lexicalNames? functionsAreVar = some ns) :
    Places ns fun p x => ∃ q r d, p = q ++ r ∧ Exports item q d ∧
      DeclaresLexically (!functionsAreVar) d r x := by
  obtain ⟨d, hd, h⟩ := Option.bind_eq_some_iff.1 h
  obtain ⟨q, hq, hunique⟩ := exists_exports hd
  suffices hplaces : Places ns (DeclaresLexically (!functionsAreVar) d) by
    refine (hplaces.under q).congr fun p x => ⟨?_, ?_⟩
    · rintro ⟨r, rfl, hr⟩
      exact ⟨q, r, d, rfl, hq, hr⟩
    · rintro ⟨q', r, d', rfl, hq', hr⟩
      obtain ⟨rfl, rfl⟩ := hunique q' d' hq' hr.not_isExport
      exact ⟨r, rfl, hr⟩
  split at h
  · refine ((places_letNames? h).under [.field "declaration"]).congr fun p x => ⟨?_, ?_⟩
    · rintro ⟨q, rfl, word, hword, hq⟩
      exact .statement hword hq
    · intro h
      cases h with
      | declaration _ h => cases h
      | statement hword h => exact ⟨_, rfl, _, hword, h⟩
  · cases h
  · refine (places_letNames? h).congr fun p x => ⟨?_, ?_⟩
    · rintro ⟨word, hword, hp⟩
      exact .declaration hword hp
    · intro h
      cases h with
      | declaration hword h => exact ⟨_, hword, h⟩
  · obtain ⟨n, hn, h⟩ := Option.bind_eq_some_iff.1 h
    cases h
    obtain ⟨superClass, elements, rfl⟩ := declarationName?_class hn
    refine (Places.single [.field "name"] n).congr fun p x => ⟨?_, ?_⟩
    · rintro ⟨rfl, rfl⟩
      exact .classDeclaration
    · intro h
      cases h with
      | declaration _ h => cases h
      | classDeclaration => exact ⟨rfl, rfl⟩
  · split at h
    · rename_i hvar
      cases h
      refine Places.nil.congr fun p x => iff_of_false nofun fun h => ?_
      cases h with
      | declaration _ h => cases h
      | functionDeclaration h => simp [hvar] at h
    · rename_i hvar
      obtain ⟨n, hn, h⟩ := Option.bind_eq_some_iff.1 h
      cases h
      obtain ⟨isAsync, isGenerator, params, body, rfl⟩ := declarationName?_function hn
      refine (Places.single [.field "name"] n).congr fun p x => ⟨?_, ?_⟩
      · rintro ⟨rfl, rfl⟩
        exact .functionDeclaration (by simpa using hvar)
      · intro h
        cases h with
        | declaration _ h => cases h
        | functionDeclaration => exact ⟨rfl, rfl⟩
  · rename_i hstatement hdeclaration hclass hfunction
    cases h
    refine Places.nil.congr fun p x => iff_of_false nofun fun h => ?_
    cases h with
    | declaration _ h =>
      cases h
      exact hdeclaration rfl
    | statement => exact hstatement rfl
    | classDeclaration => exact hclass rfl
    | functionDeclaration => exact hfunction rfl
  · cases h

/-- What reaches out of an item is what reaches out of what is exported. -/
theorem mem_hoistedNames?_unwrap {k : Kind} {fields : List Tree}
    (hk : k ∉ [.script, .esModule, .functionBody]) (h : FieldsFit false k k.slots fields)
    (hd : (Tree.node k fields).unwrapExport? = some d) (hns : d.hoistedNames? = some ns) :
    x ∈ ns ↔ Reaches (.node k fields) x := by
  obtain ⟨l, fs, hunwrap, hfs⟩ := exists_unwrapExport? h
  cases hd.symm.trans hunwrap
  by_cases hexports : k.exports = true
  · have hfields : fields = [.node l fs] := by
      unfold Tree.unwrapExport? at hunwrap
      split at hunwrap
      · simp_all
      · simp_all
      · cases hunwrap
      · cases hunwrap
      · cases hunwrap
        cases k <;> simp_all [Kind.exports]
      · cases hunwrap
    subst hfields
    have hl : l ∉ Kind.programParts := by
      have hall : Kind.all.all (fun k => !k.exports || Kind.all.all fun l =>
          !k.mayHold l || !Kind.programParts.contains l) = true := by
        decide
      have hmay := (h.mayHold List.mem_cons_self).1 l fs rfl
      have hk := Kind.forall_of_all hall k
      rw [hexports, Bool.not_true, Bool.false_or] at hk
      simpa [hmay] using Kind.forall_of_all hk l
    have hbody : (Tree.node k [.node l fs]).isKind .functionBody = false := by
      cases k <;> first | rfl | cases hexports
    have hlen : [Tree.node l fs].length = k.fieldNames.length := by
      rw [h.length_eq, Kind.fieldNames, List.length_map]
    rw [mem_hoistedNames? hl hfs hns, Reaches, and_iff_right hbody,
      bindsVar_node hlen (by rintro rfl; cases hexports)]
    simp [Reaches, isKind_functionBody hl]
  · have hparts : k ∉ Kind.programParts := by
      simp only [Kind.programParts, List.mem_cons, List.not_mem_nil, or_false] at hk ⊢
      rintro (rfl | rfl | rfl | rfl)
      · exact hk (.inl rfl)
      · exact hk (.inr (.inl rfl))
      · exact hexports rfl
      · exact hk (.inr (.inr rfl))
    have hitself : Tree.node l fs = .node k fields := by
      unfold Tree.unwrapExport? at hunwrap
      split at hunwrap <;> simp_all [Kind.exports]
    rw [hitself] at hns
    rw [mem_hoistedNames? hparts h hns, Reaches, and_iff_right (isKind_functionBody hparts fields)]

/-- The names that an item declares by `var` are that of a function, where it counts as one, and
those that reach out of it. -/
theorem mem_itemVarNames? {k : Kind} {fields : List Tree}
    (hk : k ∉ [.script, .esModule, .functionBody]) (h : FieldsFit false k k.slots fields)
    (hns : (Tree.node k fields).itemVarNames? functionsAreVar = some ns) :
    x ∈ ns ↔ (functionsAreVar = true ∧ ∃ r isAsync isGenerator params body,
        Exports (.node k fields) r (.node .functionDeclaration
          [isAsync, isGenerator, .node .bindingIdentifier [.str x], params, body])) ∨
      Reaches (.node k fields) x := by
  obtain ⟨d, hd, hns⟩ := Option.bind_eq_some_iff.1 hns
  obtain ⟨hs, hhs, hns⟩ := Option.bind_eq_some_iff.1 hns
  obtain ⟨q, hq, hunique⟩ := exists_exports hd
  have hhoisted : x ∈ hs ↔ Reaches (.node k fields) x := mem_hoistedNames?_unwrap hk h hd hhs
  split at hns
  · rename_i hfunction
    obtain ⟨hvar, hkind⟩ := Bool.and_eq_true_iff.1 hfunction
    obtain ⟨n, hn, hns⟩ := Option.bind_eq_some_iff.1 hns
    cases hns
    rw [List.mem_cons, hhoisted]
    obtain ⟨l, fs, hunwrap, -⟩ := exists_unwrapExport? h
    cases hd.symm.trans hunwrap
    obtain rfl := Option.some.inj (beq_iff_eq.1 hkind)
    obtain ⟨isAsync, isGenerator, params, body, rfl⟩ := declarationName?_function hn
    refine or_congr_left ⟨?_, ?_⟩
    · rintro rfl
      exact ⟨hvar, q, isAsync, isGenerator, params, body, hq⟩
    · rintro ⟨-, r, _, _, _, _, hr⟩
      obtain ⟨-, heq⟩ := hunique r _ hr rfl
      cases heq
      rfl
  · rename_i hfunction
    cases hns
    rw [hhoisted, or_iff_right]
    rintro ⟨hvar, r, isAsync, isGenerator, params, body, hr⟩
    obtain ⟨-, rfl⟩ := hunique r _ hr rfl
    exact hfunction (by simp [hvar, Tree.isKind, Tree.kind?])

/-! ## Statements of scopes -/

/-- The statements of a scope are those directly in it, and what is declared by `var` in the scope
is declared in one of them. -/
structure Statements (k : Kind) (fields items : List Tree) : Prop where
  places : Places items fun q item => k.HasStatementAt q ∧ (Tree.node k fields).get q = .ok item
  fit : ∀ item ∈ items, ∃ l fs, item = .node l fs ∧ l ∉ [.script, .esModule, .functionBody] ∧
    FieldsFit false l l.slots fs
  bindsVar : ∀ x, BindsVar (.node k fields) x ↔ ∃ item ∈ items, Reaches item x

theorem get_index {vs : List Tree} {i : Nat} {v : Tree} :
    (Tree.list vs).get [.index i] = .ok v ↔ vs[i]? = some v := by
  rw [Tree.get_cons_eq_ok]
  constructor
  · rintro ⟨u, hu, hv⟩
    cases hv
    obtain ⟨j, hj, hv⟩ := childAt_list.1 hu
    cases hj
    exact hv
  · intro hv
    exact ⟨v, childAt_list.2 ⟨i, rfl, hv⟩, rfl⟩

/-- The items of a list in a field. -/
theorem get_item {name : String} {ss : List Tree}
    (hmem : (name, .list ss) ∈ k.fieldNames.zip fields) {i : Nat} :
    (Tree.node k fields).get [.field name, .index i] = .ok item ↔ ss[i]? = some item := by
  have hchild := childAt_node.2 ⟨name, rfl, hmem⟩
  rw [← get_index, Tree.get_cons_eq_ok]
  constructor
  · rintro ⟨v, hv, hitem⟩
    cases hchild.symm.trans hv
    exact hitem
  · exact fun hitem => ⟨_, hchild, hitem⟩

/-- What fits a type of nodes is of no kind that the type does not take. -/
theorem fitsType_notKinds {t : TypeSpec} {ms : List (Head Kind)}
    (ht : positionOf t = some (.union ms)) (ks : List Kind)
    (hms : ks.all (fun l => !(PositionType.union ms).takes l) = true) {v : Tree}
    (h : FitsType false t v) :
    ∃ l fs, v = .node l fs ∧ l ∉ ks ∧ FieldsFit false l l.slots fs := by
  obtain ⟨l, fs, rfl, hl, hfs⟩ := (fitsType_union ht).1 h
  refine ⟨l, fs, rfl, fun hmem => ?_, hfs⟩
  have hno := List.all_eq_true.1 hms l hmem
  rw [hl] at hno
  cases hno

/-- A scope whose statements are a list in one of its fields. -/
theorem statements_of_list {t : TypeSpec} {ms : List (Head Kind)} {name : String} {ss : List Tree}
    (hname : k.scopeField? = some name)
    (hmem : (name, .list ss) ∈ k.fieldNames.zip fields)
    (ht : positionOf t = some (.union ms))
    (hms : [.script, .esModule, .functionBody].all
      (fun l => !(PositionType.union ms).takes l) = true)
    (hss : ∀ s ∈ ss, FitsType false t s)
    (hbinds : ∀ x, BindsVar (.node k fields) x ↔ Reaches (.list ss) x) :
    Statements k fields ss where
  places := by
    refine ((Places.items ss).under [.field name]).congr fun q item => ⟨?_, ?_⟩
    · rintro ⟨_, rfl, i, rfl, hi⟩
      exact ⟨.list hname i, (get_item hmem).2 hi⟩
    · rintro ⟨hq, hitem⟩
      cases hq with
      | list h i =>
        cases hname.symm.trans h
        exact ⟨[.index i], rfl, i, rfl, (get_item hmem).1 hitem⟩
      | case h => cases h <;> cases hname
  fit item hitem := fitsType_notKinds ht _ hms (hss item hitem)
  bindsVar x := (hbinds x).trans reaches_list

/-- The statements of a case stand in it. -/
theorem places_caseStatements? {c : Tree} {ss : List Tree} (h : c.caseStatements? = some ss) :
    Places ss fun r s => ∃ i : Nat, r = [.field "consequent", .index i] ∧ c.get r = .ok s := by
  have hplaces : ∀ {k fields}, ("consequent", Tree.list ss) ∈ k.fieldNames.zip fields →
      Places ss fun r s => ∃ i : Nat, r = [.field "consequent", .index i] ∧
        (Tree.node k fields).get r = .ok s := by
    intro k fields hmem
    refine ((Places.items ss).under [.field "consequent"]).congr fun r s => ⟨?_, ?_⟩
    · rintro ⟨_, rfl, i, rfl, hi⟩
      exact ⟨i, rfl, (get_item hmem).2 hi⟩
    · rintro ⟨i, rfl, hi⟩
      exact ⟨[.index i], rfl, i, rfl, (get_item hmem).1 hi⟩
  unfold Tree.caseStatements? at h
  split at h
  · cases h
    exact hplaces (List.mem_of_getElem? (i := 1) rfl)
  · cases h
    exact hplaces (List.mem_of_getElem? (i := 0) rfl)
  · cases h

/-- The names in a case are those in its statements. -/
theorem reaches_case {c : Tree} {ss : List Tree} (h : c.caseStatements? = some ss)
    (hfit : FitsType false (.node .switchCase) c ∨ FitsType false (.node .switchDefault) c) :
    Reaches c x ↔ ∃ s ∈ ss, Reaches s x := by
  rw [← reaches_list]
  rcases hfit with hfit | hfit
  · obtain ⟨fs, rfl, hfs⟩ := fitsType_node.1 hfit
    obtain ⟨test, list, rfl, htest, hlist⟩ := (fit_two rfl rfl).1 hfs
    obtain ⟨items, rfl, -⟩ := (fitsType_list rfl).1 hlist
    cases h
    have hno : ¬ Reaches test x := not_reaches_of_union rfl (by decide) htest
    rw [Reaches, bindsVar_node rfl (by decide)]
    simp [hno, Tree.isKind, Tree.kind?]
  · obtain ⟨fs, rfl, hfs⟩ := fitsType_node.1 hfit
    obtain ⟨list, rfl, hlist⟩ := (fit_one rfl rfl).1 hfs
    obtain ⟨items, rfl, -⟩ := (fitsType_list rfl).1 hlist
    cases h
    rw [Reaches, bindsVar_node rfl (by decide)]
    simp [Tree.isKind, Tree.kind?]

/-- A switch, whose statements are those of its cases. -/
theorem statements_of_cases {cases : List Tree} {sss : List (List Tree)}
    (hplaces : Places cases fun q c => k.HasCaseAt q ∧ (Tree.node k fields).get q = .ok c)
    (hname : k.scopeField? = none)
    (hcases : ∀ c ∈ cases, FitsType false (.node .switchCase) c ∨
      FitsType false (.node .switchDefault) c)
    (hsss : cases.mapM (·.caseStatements?) = some sss)
    (hbinds : ∀ x, BindsVar (.node k fields) x ↔ ∃ c ∈ cases, Reaches c x) :
    Statements k fields sss.flatten where
  places := by
    refine (hplaces.mapM hsss fun c _ ss h => places_caseStatements? h).congr fun p s => ⟨?_, ?_⟩
    · rintro ⟨q, r, c, rfl, ⟨hq, hc⟩, i, rfl, hs⟩
      exact ⟨.case hq i, Tree.get_append hc hs⟩
    · rintro ⟨hp, hs⟩
      cases hp with
      | list h => cases hname.symm.trans h
      | case hq i =>
        obtain ⟨c, hc, hs⟩ := Tree.get_append_eq_ok.1 hs
        exact ⟨_, _, c, rfl, ⟨hq, hc⟩, i, rfl, hs⟩
  fit := by
    intro s hs
    obtain ⟨ss, hss, hs⟩ := List.mem_flatten.1 hs
    obtain ⟨c, hc, h⟩ := mem_of_mapM hsss hss
    obtain ⟨ss', hss', hfit⟩ := Rules.exists_caseStatements? (hcases c hc)
    cases h.symm.trans hss'
    exact fitsType_notKinds rfl _ (by decide) (hfit s hs)
  bindsVar x := by
    rw [hbinds]
    constructor
    · rintro ⟨c, hc, hreaches⟩
      obtain ⟨ss, hss, h⟩ := exists_of_mapM hsss hc
      obtain ⟨s, hs, hreaches⟩ := (reaches_case h (hcases c hc)).1 hreaches
      exact ⟨s, List.mem_flatten.2 ⟨ss, hss, hs⟩, hreaches⟩
    · rintro ⟨s, hs, hreaches⟩
      obtain ⟨ss, hss, hs⟩ := List.mem_flatten.1 hs
      obtain ⟨c, hc, h⟩ := mem_of_mapM hsss hss
      exact ⟨c, hc, (reaches_case h (hcases c hc)).2 ⟨s, hs, hreaches⟩⟩

theorem places_cases (subject : Tree) {cases : List Tree} :
    Places cases fun q c => Kind.switchStatement.HasCaseAt q ∧
      (Tree.node .switchStatement [subject, .list cases]).get q = .ok c := by
  refine ((Places.items cases).under [.field "cases"]).congr fun q c => ⟨?_, ?_⟩
  · rintro ⟨_, rfl, i, rfl, hi⟩
    exact ⟨.case i, (get_item (List.mem_of_getElem? (i := 1) rfl)).2 hi⟩
  · rintro ⟨⟨i⟩, hc⟩
    exact ⟨_, rfl, i, rfl, (get_item (List.mem_of_getElem? (i := 1) rfl)).1 hc⟩

theorem places_withDefault (subject d : Tree) {before after : List Tree} :
    Places (before ++ d :: after) fun q c => Kind.switchStatementWithDefault.HasCaseAt q ∧
      (Tree.node .switchStatementWithDefault [subject, .list before, d, .list after]).get q
        = .ok c := by
  have hbefore := (Places.items before).under [.field "pre_default_cases"]
  have hd := Places.single [.field "default_case"] d
  have hafter := (Places.items after).under [.field "post_default_cases"]
  refine (hbefore.append (hd.append hafter ?_) ?_).congr fun q c => ?_
  · rintro p x q y ⟨rfl, -⟩ ⟨q, rfl, -⟩
    exact .of_step_ne (by decide) _ _
  · rintro p x q y ⟨p, rfl, -⟩ (⟨rfl, -⟩ | ⟨q, rfl, -⟩)
    · exact .of_step_ne (by decide) _ _
    · exact .of_step_ne (by decide) _ _
  · have hchild : ∀ {name v}, (name, v) ∈ Kind.switchStatementWithDefault.fieldNames.zip
        [subject, .list before, d, .list after] →
        (Tree.node .switchStatementWithDefault [subject, .list before, d, .list after]).get
          [.field name] = .ok v :=
      fun hmem => Tree.get_cons_eq_ok.2 ⟨_, childAt_node.2 ⟨_, rfl, hmem⟩, rfl⟩
    constructor
    · rintro (⟨_, rfl, i, rfl, hi⟩ | ⟨rfl, rfl⟩ | ⟨_, rfl, i, rfl, hi⟩)
      · exact ⟨.before i, (get_item (List.mem_of_getElem? (i := 1) rfl)).2 hi⟩
      · exact ⟨.default, hchild (List.mem_of_getElem? (i := 2) rfl)⟩
      · exact ⟨.after i, (get_item (List.mem_of_getElem? (i := 3) rfl)).2 hi⟩
    · rintro ⟨hq, hc⟩
      cases hq with
      | before i =>
        exact .inl ⟨_, rfl, i, rfl, (get_item (List.mem_of_getElem? (i := 1) rfl)).1 hc⟩
      | default =>
        have hdefault := @hchild "default_case" d (List.mem_of_getElem? (i := 2) rfl)
        exact .inr (.inl ⟨rfl, (Except.ok.inj (hdefault.symm.trans hc)).symm⟩)
      | after i =>
        exact .inr (.inr ⟨_, rfl, i, rfl, (get_item (List.mem_of_getElem? (i := 3) rfl)).1 hc⟩)

/-- Of the items of a module a second default export is reported, at that item. -/
theorem mem_defaultExports {i : Nat} {seen : Bool} {ts : List Tree} {e : EarlyError}
    (he : e ∈ Rules.defaultExports i seen ts) :
    ∃ j < ts.length, e = Violation.secondDefaultExport.atItem "items" (i + j) := by
  induction ts generalizing i seen with
  | nil => cases he
  | cons t ts ih =>
    rcases List.mem_append.1 he with he | he
    · obtain ⟨-, rfl⟩ := mem_when.1 he
      exact ⟨0, Nat.succ_pos _, rfl⟩
    · obtain ⟨j, hj, rfl⟩ := ih he
      exact ⟨j + 1, Nat.succ_lt_succ hj, by rw [Nat.add_right_comm, Nat.add_assoc]⟩

/-- The errors of a scope about its statements come first. -/
theorem exists_statements {c : Context} {own : List EarlyError} (hk : k ∈ Kind.scopes)
    (h : FieldsFit false k k.slots fields) (hown : nodeErrors c k fields = some own) :
    ∃ items es rest, Statements k fields items ∧
      scopeErrors k.hoistsFunctions items = some es ∧ own = es ++ rest ∧
      ∀ e ∈ rest, e.violation = .secondDefaultExport := by
  simp only [Kind.scopes, List.mem_cons, List.not_mem_nil, or_false] at hk
  rcases hk with rfl | rfl | rfl | rfl | rfl | rfl
  case inl | inr.inr.inl =>
    obtain ⟨ds, list, rfl, hds, hlist⟩ := (fit_two rfl rfl).1 h
    obtain ⟨ss, rfl, hss⟩ := (fitsType_list rfl).1 hlist
    have hno : ∀ x, ¬ Reaches ds x := fun x => not_reaches_of_list rfl (by decide) hds
    refine ⟨ss, own, [], statements_of_list rfl (List.mem_of_getElem? (i := 1) rfl) rfl
      (by decide) hss fun x => ?_, hown, by simp, by simp⟩
    rw [bindsVar_node rfl (by decide)]
    simp [hno]
  case inr.inl =>
    obtain ⟨ds, list, rfl, hds, hlist⟩ := (fit_two rfl rfl).1 h
    obtain ⟨items, rfl, hitems⟩ := (fitsType_list rfl).1 hlist
    have hno : ∀ x, ¬ Reaches ds x := fun x => not_reaches_of_list rfl (by decide) hds
    obtain ⟨es, hes, hown⟩ := Option.bind_eq_some_iff.1 hown
    cases hown
    refine ⟨items, es, _, statements_of_list rfl (List.mem_of_getElem? (i := 1) rfl) rfl
      (by decide) hitems fun x => ?_, hes, rfl, fun e he => ?_⟩
    · rw [bindsVar_node rfl (by decide)]
      simp [hno]
    · obtain ⟨j, -, rfl⟩ := mem_defaultExports he
      rfl
  case inr.inr.inr.inl =>
    obtain ⟨list, rfl, hlist⟩ := (fit_one rfl rfl).1 h
    obtain ⟨ss, rfl, hss⟩ := (fitsType_list rfl).1 hlist
    refine ⟨ss, own, [], statements_of_list rfl (List.mem_of_getElem? (i := 0) rfl) rfl
      (by decide) hss fun x => ?_, hown, by simp, by simp⟩
    rw [bindsVar_node rfl (by decide)]
    simp
  case inr.inr.inr.inr.inl =>
    obtain ⟨subject, list, rfl, hsubject, hlist⟩ := (fit_two rfl rfl).1 h
    obtain ⟨cases, rfl, hcases⟩ := (fitsType_list rfl).1 hlist
    have hno : ∀ x, ¬ Reaches subject x := fun x =>
      not_reaches_of_union rfl (by decide) hsubject
    obtain ⟨sss, hsss, hown⟩ := Option.bind_eq_some_iff.1 hown
    refine ⟨sss.flatten, own, [], statements_of_cases (places_cases subject) rfl
      (fun c hc => .inl (hcases c hc)) hsss fun x => ?_, hown, by simp, by simp⟩
    rw [bindsVar_node rfl (by decide)]
    simp [hno, reaches_list]
  case inr.inr.inr.inr.inr =>
    obtain ⟨subject, bs, d, as, rfl, hsubject, hbs, hd, has⟩ := (fit_four rfl rfl).1 h
    obtain ⟨before, rfl, hbefore⟩ := (fitsType_list rfl).1 hbs
    obtain ⟨after, rfl, hafter⟩ := (fitsType_list rfl).1 has
    have hno : ∀ x, ¬ Reaches subject x := fun x =>
      not_reaches_of_union rfl (by decide) hsubject
    obtain ⟨sss, hsss, hown⟩ := Option.bind_eq_some_iff.1 hown
    have hcases : ∀ c ∈ before ++ d :: after, FitsType false (.node .switchCase) c ∨
        FitsType false (.node .switchDefault) c := by
      intro c hc
      rcases List.mem_append.1 hc with hc | hc
      · exact .inl (hbefore c hc)
      · rcases List.mem_cons.1 hc with rfl | hc
        · exact .inr hd
        · exact .inl (hafter c hc)
    refine ⟨sss.flatten, own, [], statements_of_cases (places_withDefault subject d) rfl hcases hsss
      fun x => ?_, hown, by simp, by simp⟩
    rw [bindsVar_node rfl (by decide)]
    simp [hno, reaches_list, or_and_right, exists_or]

/-! ## Reported clashes -/

/-- Whether a rule is about clashing declarations. -/
def Violation.isClash : Violation → Bool
  | duplicateLexical _ | lexicalAndVar _ => true
  | _ => false

variable {v : Violation} {es : List EarlyError}

/-- What is declared lexically in a scope, and where. -/
theorem Statements.places_lexical (h : Statements k fields items) {nss : List (List String)}
    (hnss : items.mapM (·.lexicalNames? k.hoistsFunctions) = some nss) :
    Places nss.flatten (LexicallyIn k fields) := by
  refine (h.places.mapM hnss fun _ _ _ => places_lexicalNames?).congr fun p x => ⟨?_, ?_⟩
  · rintro ⟨q, _, item, rfl, ⟨hq, hitem⟩, r, s, d, rfl, hr, hs⟩
    exact ⟨q ++ r, s, d, (List.append_assoc ..).symm, ⟨q, r, item, rfl, hq, hitem, hr⟩, hs⟩
  · rintro ⟨_, s, d, rfl, ⟨q, r, item, rfl, hq, hitem, hr⟩, hs⟩
    exact ⟨q, r ++ s, item, List.append_assoc .., ⟨hq, hitem⟩, r, s, d, rfl, hr, hs⟩

/-- What is declared by `var` in a scope, or as if it were. -/
theorem Statements.mem_vars (h : Statements k fields items) {nss : List (List String)}
    (hnss : items.mapM (·.itemVarNames? k.hoistsFunctions) = some nss) :
    x ∈ nss.flatten ↔ (k.hoistsFunctions = true ∧ ∃ q isAsync isGenerator params body,
        DirectlyIn k fields q (.node .functionDeclaration
          [isAsync, isGenerator, .node .bindingIdentifier [.str x], params, body])) ∨
      BindsVar (.node k fields) x := by
  rw [h.bindsVar]
  constructor
  · intro hx
    obtain ⟨ns, hns, hx⟩ := List.mem_flatten.1 hx
    obtain ⟨item, hitem, hns⟩ := mem_of_mapM hnss hns
    obtain ⟨l, fs, rfl, hl, hfs⟩ := h.fit item hitem
    rcases (mem_itemVarNames? hl hfs hns).1 hx with ⟨hk, r, isAsync, isGenerator, params, body, hr⟩
      | hreaches
    · obtain ⟨q, hq, hget⟩ := h.places.mem.1 hitem
      exact .inl ⟨hk, q ++ r, isAsync, isGenerator, params, body, q, r, _, rfl, hq, hget, hr⟩
    · exact .inr ⟨_, hitem, hreaches⟩
  · have hmem : ∀ item ∈ items, ∀ ns, item.itemVarNames? k.hoistsFunctions = some ns → x ∈ ns →
        x ∈ nss.flatten := by
      intro item hitem ns hns hx
      obtain ⟨ns', hns', heq⟩ := exists_of_mapM hnss hitem
      cases hns.symm.trans heq
      exact List.mem_flatten.2 ⟨ns, hns', hx⟩
    have hnames : ∀ item ∈ items, ∃ ns, item.itemVarNames? k.hoistsFunctions = some ns :=
      fun item hitem => (exists_of_mapM hnss hitem).imp fun _ h => h.2
    rintro (⟨hk, _, isAsync, isGenerator, params, body, q, r, item, rfl, hq, hget, hr⟩
      | ⟨item, hitem, hreaches⟩)
    · have hitem := h.places.mem.2 ⟨q, hq, hget⟩
      obtain ⟨ns, hns⟩ := hnames item hitem
      obtain ⟨l, fs, rfl, hl, hfs⟩ := h.fit item hitem
      exact hmem _ hitem ns hns ((mem_itemVarNames? hl hfs hns).2
        (.inl ⟨hk, r, isAsync, isGenerator, params, body, hr⟩))
    · obtain ⟨ns, hns⟩ := hnames item hitem
      obtain ⟨l, fs, rfl, hl, hfs⟩ := h.fit item hitem
      exact hmem _ hitem ns hns ((mem_itemVarNames? hl hfs hns).2 (.inr hreaches))

/-- A scope reports the clashes among its statements. -/
theorem Statements.mem_scopeErrors (h : Statements k fields items)
    (hes : scopeErrors k.hoistsFunctions items = some es) :
    v.here ∈ es ↔
      (∃ x p q, v = .duplicateLexical x ∧ p ≠ q ∧ LexicallyIn k fields p x ∧
        LexicallyIn k fields q x) ∨
      ∃ x, v = .lexicalAndVar x ∧ (∃ p, LexicallyIn k fields p x) ∧
        ((k.hoistsFunctions = true ∧ ∃ q isAsync isGenerator params body,
          DirectlyIn k fields q (.node .functionDeclaration
            [isAsync, isGenerator, .node .bindingIdentifier [.str x], params, body])) ∨
        BindsVar (.node k fields) x) := by
  obtain ⟨lexical, hlexical, hes⟩ := Option.bind_eq_some_iff.1 hes
  obtain ⟨vars, hvars, hes⟩ := Option.bind_eq_some_iff.1 hes
  cases hes
  have hplaces := h.places_lexical hlexical
  rw [List.mem_append, List.mem_map, List.mem_map]
  refine or_congr ⟨?_, ?_⟩ ⟨?_, ?_⟩
  · rintro ⟨x, hx, heq⟩
    obtain ⟨p, q, hne, hp, hq⟩ := hplaces.two_le_count.1 (mem_duplicates.1 hx)
    exact ⟨x, p, q, (here_inj.1 heq).symm, hne, hp, hq⟩
  · rintro ⟨x, p, q, rfl, hne, hp, hq⟩
    exact ⟨x, mem_duplicates.2 (hplaces.two_le_count.2 ⟨p, q, hne, hp, hq⟩), rfl⟩
  · rintro ⟨x, hx, heq⟩
    obtain ⟨hlex, hvar⟩ := mem_shared.1 hx
    exact ⟨x, (here_inj.1 heq).symm, hplaces.mem.1 hlex, (h.mem_vars hvars).1 hvar⟩
  · rintro ⟨x, rfl, hlex, hvar⟩
    exact ⟨x, mem_shared.2 ⟨hplaces.mem.2 hlex, (h.mem_vars hvars).2 hvar⟩, rfl⟩

/-- A `for` statement reports the clashes of its head. -/
theorem mem_forHead {init body : Tree}
    (hbody : ∀ ns, body.hoistedNames? = some ns → ∀ x, x ∈ ns ↔ BindsVar body x)
    (hes : Rules.forHead init body = some es) :
    v.here ∈ es ↔
      (∃ x word p q, v = .duplicateLexical x ∧ word ≠ "var" ∧ p ≠ q ∧ Declarator init word p x ∧
        Declarator init word q x) ∨
      ∃ x word p, v = .lexicalAndVar x ∧ word ≠ "var" ∧ Declarator init word p x ∧
        BindsVar body x := by
  -- without names in the head there is nothing to report
  have hnone : (∀ word p x, word ≠ "var" → ¬ Declarator init word p x) → es = [] →
      (v.here ∈ es ↔ (∃ x word p q, v = .duplicateLexical x ∧ word ≠ "var" ∧ p ≠ q ∧
        Declarator init word p x ∧ Declarator init word q x) ∨
        ∃ x word p, v = .lexicalAndVar x ∧ word ≠ "var" ∧ Declarator init word p x ∧
          BindsVar body x) := by
    rintro hno rfl
    refine iff_of_false (by simp) ?_
    rintro (⟨x, word, p, q, -, hword, -, hp, -⟩ | ⟨x, word, p, -, hword, hp, -⟩)
    · exact hno word p x hword hp
    · exact hno word p x hword hp
  unfold Rules.forHead at hes
  split at hes
  swap
  · rename_i hkind
    cases hes
    refine hnone (fun word p x _ hp => ?_) rfl
    cases hp
    exact hkind rfl
  obtain ⟨names, hnames, hes⟩ := Option.bind_eq_some_iff.1 hes
  have hplaces := places_letNames? hnames
  split at hes
  · cases hes
    refine hnone (fun word p x hword hp => ?_) rfl
    exact List.not_mem_nil (hplaces.mem.2 ⟨p, word, hword, hp⟩)
  obtain ⟨vars, hvars, hes⟩ := Option.bind_eq_some_iff.1 hes
  cases hes
  rw [List.mem_append, List.mem_map, List.mem_map]
  refine or_congr ⟨?_, ?_⟩ ⟨?_, ?_⟩
  · rintro ⟨x, hx, heq⟩
    obtain ⟨p, q, hne, ⟨word, hword, hp⟩, word', -, hq⟩ :=
      hplaces.two_le_count.1 (mem_duplicates.1 hx)
    obtain rfl : word' = word := by
      cases hp
      cases hq
      rfl
    exact ⟨x, word', p, q, (here_inj.1 heq).symm, hword, hne, hp, hq⟩
  · rintro ⟨x, word, p, q, rfl, hword, hne, hp, hq⟩
    exact ⟨x, mem_duplicates.2 (hplaces.two_le_count.2
      ⟨p, q, hne, ⟨word, hword, hp⟩, word, hword, hq⟩), rfl⟩
  · rintro ⟨x, hx, heq⟩
    obtain ⟨hlex, hvar⟩ := mem_shared.1 hx
    obtain ⟨p, word, hword, hp⟩ := hplaces.mem.1 hlex
    exact ⟨x, word, p, (here_inj.1 heq).symm, hword, hp, (hbody vars hvars x).1 hvar⟩
  · rintro ⟨x, word, p, rfl, hword, hp, hvar⟩
    exact ⟨x, mem_shared.2 ⟨hplaces.mem.2 ⟨p, word, hword, hp⟩, (hbody vars hvars x).2 hvar⟩, rfl⟩

theorem LexicallyIn.mem_scopes (h : LexicallyIn k fields p x) : k ∈ Kind.scopes := by
  obtain ⟨_, _, _, -, ⟨_, _, _, -, hq, -⟩, -⟩ := h
  cases hq with
  | list hname => cases k <;> first | decide | cases hname
  | case hcase => cases hcase <;> decide

theorem Clashing.mem_reporters (h : Clashing (.node k fields) v) : k ∈ v.reporters := by
  cases h with
  | twice _ hp => exact List.mem_cons_of_mem _ hp.mem_scopes
  | withFunction _ hp => exact List.mem_cons_of_mem _ hp.mem_scopes
  | withVar hp => exact List.mem_cons_of_mem _ hp.mem_scopes
  | headTwice => exact List.mem_cons_self
  | headWithVar => exact List.mem_cons_self

/-- A node reports the clashes of the declarations in it. -/
theorem here_mem_iff_clashing {c : Context} {own : List EarlyError}
    (hfields : FieldsFit false k k.slots fields) (hown : nodeErrors c k fields = some own)
    (hv : v.isClash = true) : v.here ∈ own ↔ Clashing (.node k fields) v := by
  by_cases hk : k ∈ Kind.forStatement :: Kind.scopes
  swap
  · have hreporters : v.reporters = Kind.forStatement :: Kind.scopes := by
      cases v <;> first | rfl | cases hv
    refine iff_of_false (fun h => hk ?_) fun h => hk ?_
    · exact hreporters ▸ (reports_nodeErrors c k fields own hown _ h).mem
    · exact hreporters ▸ h.mem_reporters
  rcases List.mem_cons.1 hk with rfl | hk
  · obtain ⟨init, test, update, body, rfl, -, -, -, hbody⟩ := (fit_four rfl rfl).1 hfields
    obtain ⟨single, hsingle, hown⟩ := Option.bind_eq_some_iff.1 hown
    obtain ⟨es, hes, hown⟩ := Option.bind_eq_some_iff.1 hown
    cases hown
    have hnot : v.here ∉ single := by
      intro h
      obtain ⟨k, hk⟩ := mem_singleStatement hsingle h
      rw [show v = .declarationAsStatement k from congrArg EarlyError.violation hk] at hv
      cases hv
    have hnames : ∀ ns, body.hoistedNames? = some ns → ∀ x, x ∈ ns ↔ BindsVar body x := by
      intro ns hns x
      obtain ⟨l, fs, rfl, hl, hfs⟩ :=
        fitsType_notKinds rfl Kind.programParts (by decide) hbody
      exact mem_hoistedNames? hl hfs hns
    rw [List.mem_append, or_iff_right hnot, mem_forHead hnames hes]
    constructor
    · rintro (⟨x, word, p, q, rfl, hword, hne, hp, hq⟩ | ⟨x, word, p, rfl, hword, hp, hvar⟩)
      · exact .headTwice hword hne hp hq
      · exact .headWithVar hword hp hvar
    · intro h
      cases h with
      | headTwice hword hne hp hq => exact .inl ⟨_, _, _, _, rfl, hword, hne, hp, hq⟩
      | headWithVar hword hp hvar => exact .inr ⟨_, _, _, rfl, hword, hp, hvar⟩
      | twice _ hp => exact absurd hp.mem_scopes (by decide)
      | withFunction _ hp => exact absurd hp.mem_scopes (by decide)
      | withVar hp => exact absurd hp.mem_scopes (by decide)
  · obtain ⟨items, es, rest, hstatements, hes, rfl, hrest⟩ := exists_statements hk hfields hown
    have hnot : v.here ∉ rest := by
      intro h
      rw [show v = .secondDefaultExport from hrest _ h] at hv
      cases hv
    rw [List.mem_append, or_iff_left hnot, hstatements.mem_scopeErrors hes]
    constructor
    · rintro (⟨x, p, q, rfl, hne, hp, hq⟩ | ⟨x, rfl, ⟨p, hp⟩,
        ⟨hfunctions, q, isAsync, isGenerator, params, body, hq⟩ | hvar⟩)
      · exact .twice hne hp hq
      · exact .withFunction hfunctions hp hq
      · exact .withVar hp hvar
    · intro h
      cases h with
      | twice hne hp hq => exact .inl ⟨_, _, _, rfl, hne, hp, hq⟩
      | withFunction hfunctions hp hq =>
        exact .inr ⟨_, rfl, ⟨_, hp⟩, .inl ⟨hfunctions, _, _, _, _, _, hq⟩⟩
      | withVar hp hvar => exact .inr ⟨_, rfl, ⟨_, hp⟩, .inr hvar⟩
      | headTwice => exact absurd hk (by decide)
      | headWithVar => exact absurd hk (by decide)

/-- The errors about clashing declarations are reported at just those nodes in which there are
declarations that clash. -/
theorem mem_earlyErrors_clash {t n : Tree} {p : Path} (ht : t.wellTyped = true)
    (hn : t.get p = .ok n) (hv : v.isClash = true) :
    ⟨p, v⟩ ∈ earlyErrors t ↔ Clashing n v := by
  have hat : v.isAtNode = true := by
    cases v <;> first | rfl | cases hv
  have hwalk := (wellTyped_iff.1 ht).walkable
  rw [mem_earlyErrors_at ht hn hat]
  constructor
  · rintro ⟨k, fields, c, own, rfl, -, -, hown, h⟩
    exact (here_mem_iff_clashing (hwalk.get hn) hown hv).1 h
  · intro h
    obtain ⟨k, fields, rfl⟩ : ∃ k fields, n = .node k fields := by
      cases h <;> exact ⟨_, _, rfl⟩
    obtain ⟨c, own, hc, hown⟩ := exists_contextAt ht hn
    exact ⟨k, fields, c, own, rfl, h.mem_reporters, hc, hown,
      (here_mem_iff_clashing (hwalk.get hn) hown hv).2 h⟩

/-- A variable declaration of one name. -/
def declarationOf (word x : String) : Tree :=
  .node .variableDeclaration [.str word, .list [
    .node .variableDeclarator [.node .bindingIdentifier [.str x], .absent]]]

/-- A module that exports a class `A` and by default a function `A`, a switch with a case that
declares `x` by `let` and a default that declares it by `var`, in what it does finally, and a loop
over `y` that declares `y` by `var` under a label. -/
def clashingModule : Tree :=
  .node .esModule [.list [], .list [
    .node .exportDeclaration [.node .classDeclaration [
      .node .bindingIdentifier [.str "A"], .absent, .list []]],
    .node .exportDefault [.node .functionDeclaration [.bool false, .bool false,
      .node .bindingIdentifier [.str "A"], .node .formalParameters [.list [], .absent],
      .node .functionBody [.list [], .list []]]],
    .node .switchStatementWithDefault [.node .thisExpression [],
      .list [.node .switchCase [.node .thisExpression [],
        .list [.node .variableDeclarationStatement [declarationOf "let" "x"]]]],
      .node .switchDefault [.list [.node .tryFinallyStatement [.node .block [.list []], .absent,
        .node .block [.list [.node .variableDeclarationStatement [declarationOf "var" "x"]]]]]],
      .list []],
    .node .forStatement [declarationOf "let" "y", .absent, .absent,
      .node .labeledStatement [.str "L",
        .node .variableDeclarationStatement [declarationOf "var" "y"]]]]]

/-- Exports clash in the module, and `var` clashes with `let` in the switch and in the loop. -/
theorem mem_earlyErrors_clash_clashingModule :
    clashingModule.wellTyped = true ∧
    ⟨[], .duplicateLexical "A"⟩ ∈ earlyErrors clashingModule ∧
    ⟨[.field "items", .index 2], .lexicalAndVar "x"⟩ ∈ earlyErrors clashingModule ∧
    ⟨[.field "items", .index 3], .lexicalAndVar "y"⟩ ∈ earlyErrors clashingModule := by
  have ht : clashingModule.wellTyped = true := by decide
  refine ⟨ht, ?_, ?_, ?_⟩
  · refine (mem_earlyErrors_clash ht rfl rfl).2 (.twice
      (p := [.field "items", .index 0, .field "declaration", .field "name"])
      (q := [.field "items", .index 1, .field "body", .field "name"]) (by decide) ?_ ?_)
    · exact ⟨_, _, _, rfl, ⟨_, _, _, rfl, .list rfl 0, rfl, .declaration _⟩, .classDeclaration⟩
    · exact ⟨_, _, _, rfl, ⟨_, _, _, rfl, .list rfl 1, rfl, .default _⟩, .functionDeclaration rfl⟩
  · refine (mem_earlyErrors_clash ht rfl rfl).2 (.withVar
      (p := [.field "pre_default_cases", .index 0, .field "consequent", .index 0,
        .field "declaration", .field "declarators", .index 0]) ?_ ?_)
    · exact ⟨_, _, _, rfl, ⟨_, _, _, rfl, .case (.before 0) 0, rfl, .itself _⟩,
        .statement (by decide) (.intro (i := 0) rfl)⟩
    · refine .of_child (s := .field "default_case") rfl rfl ?_
      refine .of_child (s := .field "consequent") rfl rfl (.of_child (s := .index 0) rfl rfl ?_)
      refine .of_child (s := .field "finalizer") rfl rfl ?_
      refine .of_child (s := .field "statements") rfl rfl (.of_child (s := .index 0) rfl rfl ?_)
      exact .of_child (s := .field "declaration") rfl rfl (.of_declarator (.intro (i := 0) rfl))
  · refine (mem_earlyErrors_clash ht rfl rfl).2 (.headWithVar ?_ (.intro (i := 0) rfl) ?_)
    · decide
    · refine .of_child (s := .field "body") rfl rfl ?_
      exact .of_child (s := .field "declaration") rfl rfl (.of_declarator (.intro (i := 0) rfl))

end Whittle
