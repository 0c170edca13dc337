import Whittle.Proofs.Source.Expressions

/-!
# Well-typed trees are printed

Every printer of a statement or a fragment succeeds on a node that fits, if the printers of its
parts do. So, by induction, every well-typed tree whose root has a printer is printed, and its
text is within an alphabet just if its raw texts are. A root without a printer is refused for its
kind.
-/

namespace Whittle.Source

open Grammar Whittle.Language

variable {extra : Char → Bool} {k : Kind} {fields items : List Tree} {v : Tree} {p : Piece}
  {form : Printing Form}

/-! ## Parts of statements -/

/-- Whether a statement ends in an open `if` is told by the statements that it ends with. -/
theorem gives_endsInOpenIf (h : v.Each (Printed extra)) (hv : v.isNode = true) :
    Gives (pieceOf v).endsInOpenIf fun _ => True := by
  induction h with
  | intro own parts ih =>
    rename_i t
    -- The statement that another one ends with is a part of it.
    cases t with
    | node k fields =>
      have hfits := (own k fields rfl).fits
      have hpart : ∀ b ∈ fields, FitsType false statement b →
          Gives (pieceOf b).endsInOpenIf fun _ => True := by
        intro b hb hfit
        obtain ⟨l, fs, rfl, -⟩ := (fitsType_union rfl).1 hfit
        exact ih _ hb rfl
      cases k
      case ifStatement =>
        obtain ⟨test, consequent, alternate, rfl, -, -, halternate⟩ := (fit_three rfl rfl).1 hfits
        rcases (fitsType_optional rfl).1 halternate with rfl | ⟨-, halternate⟩
        · exact ⟨true, by simp [pieceOf, piecesOf, Piece.endsInOpenIf]; rfl, trivial⟩
        · have hrest := hpart _ (by simp) halternate
          obtain ⟨l, fs, rfl, -⟩ := (fitsType_union rfl).1 halternate
          rw [pieceOf, piecesOf, piecesOf, piecesOf, piecesOf, pieceOf, Piece.endsInOpenIf]
          · exact hrest
          · intro h
            cases h
      case whileStatement | labeledStatement =>
        obtain ⟨_, body, rfl, -, hbody⟩ := (fit_two rfl rfl).1 hfits
        rw [pieceOf, piecesOf, piecesOf, piecesOf, Piece.endsInOpenIf]
        exact hpart _ (by simp) hbody
      case forStatement =>
        obtain ⟨_, _, _, body, rfl, -, -, -, hbody⟩ := (fit_four rfl rfl).1 hfits
        rw [pieceOf, piecesOf, piecesOf, piecesOf, piecesOf, piecesOf, Piece.endsInOpenIf]
        exact hpart _ (by simp) hbody
      all_goals exact ⟨false, by simp [pieceOf, Piece.endsInOpenIf]; rfl, trivial⟩
    | _ => cases hv

/-- A case or the default of a switch. -/
theorem writes_switchCase (h : v.Each (Printed extra))
    (hv : FitsType false (.node .switchCase) v ∨ FitsType false (.node .switchDefault) v) :
    WritesStatement extra (pieceOf v).switchCase (RawWithin extra v) := by
  unfold Piece.switchCase
  rcases hv with hv | hv
  · obtain ⟨fields, rfl, hfits⟩ := fitsType_node.1 hv
    obtain ⟨test, list, rfl, htest, hlist⟩ := (fit_two rfl rfl).1 hfits
    obtain ⟨items, rfl, hitems⟩ := (fitsType_list rfl).1 hlist
    apply Gives.step rfl
    refine (writes_expression (h.part (by simp)) htest sequence).bind fun text htext => ?_
    apply Gives.step rfl
    refine (gives_statements (h.part (by simp)) hitems).bind fun xs hxs => Gives.pure ?_
    rw [within_append, within_joined, hxs, rawWithin_parts rfl]
    simp +decide [htext]
  · obtain ⟨fields, rfl, hfits⟩ := fitsType_node.1 hv
    obtain ⟨list, rfl, hlist⟩ := (fit_one rfl rfl).1 hfits
    obtain ⟨items, rfl, hitems⟩ := (fitsType_list rfl).1 hlist
    apply Gives.step rfl
    apply Gives.step rfl
    refine (gives_statements (h.part (by simp)) hitems).bind fun xs hxs => Gives.pure ?_
    rw [within_append, within_joined, hxs, rawWithin_parts rfl]
    simp +decide

theorem writes_catchClause (h : v.Each (Printed extra))
    (hv : FitsType false (.node .catchClause) v) :
    Writes extra (pieceOf v).catchClause (RawWithin extra v) := by
  obtain ⟨fields, rfl, hfits⟩ := fitsType_node.1 hv
  obtain ⟨param, body, rfl, hparam, hbody⟩ := (fit_two rfl rfl).1 hfits
  have hblock := writes_block (h.part (by simp)).inside hbody
  rw [rawWithin_parts rfl]
  unfold Piece.catchClause
  apply Gives.step rfl
  rcases (fitsType_optional rfl).1 hparam with rfl | ⟨-, hparam⟩
  · apply Gives.step rfl
    refine hblock.bind fun b hb => Gives.pure ?_
    simp +decide [hb]
  · have hname := writes_bindingName extra (fitsType_binding.1 hparam)
    obtain ⟨l, fs, rfl, -⟩ := (fitsType_union rfl).1 hparam
    refine hname.bind fun name hname => ?_
    apply Gives.step rfl
    refine hblock.bind fun b hb => Gives.pure ?_
    simp +decide [hname, hb]

/-- An expression in a field, if there is one. -/
theorem writes_optionalExpression {field : String} (hget : p.get field = .ok (pieceOf v))
    (h : v.Each (Printed extra)) (hv : FitsType false (.maybe expression) v) :
    Writes extra (p.optionalExpression field) (RawWithin extra v) := by
  unfold Piece.optionalExpression
  apply Gives.step hget
  rcases (fitsType_optional rfl).1 hv with rfl | ⟨-, hv⟩
  · exact Gives.pure (by simp +decide)
  · have htext := writes_expression h hv sequence
    obtain ⟨l, fs, rfl, -⟩ := (fitsType_union rfl).1 hv
    exact htext

/-! ## Statements -/

/-- A word with a label or an expression after it. -/
theorem within_wordWith {word : String} {c : Prop} (hword : word.toList.all isPlainAscii = true)
    (hv : IsTextWithin extra v c) : Within extra (wordWith word v).1 ↔ c := by
  obtain ⟨s, rfl, hs⟩ := hv
  show Within extra (word ++ " " ++ s) ↔ c
  simp +decide [within_of_plain hword, hs]

/-- A jump is a word with a label after it, if it has one. -/
theorem writes_jump {label : Tree} (hk : k ∈ [Kind.breakStatement, .continueStatement])
    (hlabel : FitsType false (.maybe .string) label) :
    WritesStatement extra (statementText k (.node k (piecesOf [label]) form))
      (RawWithin extra (.node k [label])) := by
  rcases exists_label hlabel with rfl | ⟨s, rfl⟩
  · rcases List.mem_pair.1 hk with rfl | rfl <;>
    · apply Gives.step rfl
      rw [rawWithin_parts rfl]
      exact Gives.pure (by simp +decide [wordWith])
  · rcases List.mem_pair.1 hk with rfl | rfl <;>
    · refine Gives.step (a := .str s) rfl (Gives.pure ?_)
      exact within_wordWith (by decide) ⟨s, rfl, (rawWithin_name rfl).symm⟩

theorem writes_expressionStatement {e : Tree} (h : e.Each (Printed extra))
    (he : FitsType false expression e) :
    WritesStatement extra
      (expressionStatementText (.node .expressionStatement (piecesOf [e]) form))
      (RawWithin extra (.node .expressionStatement [e])) := by
  unfold expressionStatementText
  apply Gives.step rfl
  refine (writes_expression h he sequence).bind fun text htext => Gives.pure ?_
  rw [rawWithin_parts rfl, List.forall_mem_singleton]
  exact within_ite_iff (within_inParens.trans htext) htext

theorem writes_if {test consequent alternate : Tree}
    (h : ∀ v ∈ [test, consequent, alternate], v.Each (Printed extra))
    (htest : FitsType false expression test) (hconsequent : FitsType false statement consequent)
    (halternate : FitsType false (.maybe statement) alternate) :
    WritesStatement extra
      (ifText (.node .ifStatement (piecesOf [test, consequent, alternate]) form))
      (RawWithin extra (.node .ifStatement [test, consequent, alternate])) := by
  have hthen := writes_statement (h consequent (by simp)) hconsequent
  have hopen : Gives (pieceOf consequent).endsInOpenIf fun _ => True := by
    obtain ⟨l, fs, rfl, -⟩ := (fitsType_union rfl).1 hconsequent
    exact gives_endsInOpenIf (h _ (by simp)) rfl
  have halternateEach := h alternate (by simp)
  rw [rawWithin_parts rfl]
  unfold ifText
  refine (writes_expression (h test (by simp)) htest sequence).bind fun head hhead => ?_
  apply Gives.step rfl
  apply Gives.step rfl
  rcases (fitsType_optional rfl).1 halternate with rfl | ⟨-, halternate⟩
  · refine hthen.bind fun x hx => Gives.pure ?_
    simp +decide [hhead, hx]
  · have helse := writes_statement halternateEach halternate
    obtain ⟨l, fs, rfl, -⟩ := (fitsType_union rfl).1 halternate
    refine hopen.bind fun opens _ => ?_
    cases opens
    · refine hthen.bind fun x hx => ?_
      refine helse.bind fun y hy => Gives.pure ?_
      simp +decide [hhead, hx, hy, and_assoc]
    · refine hthen.bind fun x hx => ?_
      apply Gives.step rfl
      refine helse.bind fun y hy => Gives.pure ?_
      simp +decide [hhead, hx, hy, and_assoc]

theorem writes_for {init test update body : Tree}
    (h : ∀ v ∈ [init, test, update, body], v.Each (Printed extra))
    (hinit : FitsType false (.maybe (.union [.node .variableDeclaration, expression])) init)
    (htest : FitsType false (.maybe expression) test)
    (hupdate : FitsType false (.maybe expression) update) (hbody : FitsType false statement body) :
    WritesStatement extra
      (forText (.node .forStatement (piecesOf [init, test, update, body]) form))
      (RawWithin extra (.node .forStatement [init, test, update, body])) := by
  have hinitEach := h init (by simp)
  have htestText : Writes extra ((Piece.node .forStatement (piecesOf [init, test, update, body])
      form).optionalExpression "test") (RawWithin extra test) :=
    writes_optionalExpression rfl (h _ (by simp)) htest
  have hupdateText : Writes extra ((Piece.node .forStatement (piecesOf [init, test, update, body])
      form).optionalExpression "update") (RawWithin extra update) :=
    writes_optionalExpression rfl (h _ (by simp)) hupdate
  have hbodyText := writes_statement (h body (by simp)) hbody
  -- The rest is printed in the same way after a declaration, an expression and nothing.
  have hrest : ∀ i : String, (Within extra i ↔ RawWithin extra init) →
      WritesStatement extra (do
        let p := Piece.node .forStatement (piecesOf [init, test, update, body]) form
        let test ← p.optionalExpression "test"
        let update ← p.optionalExpression "update"
        let body ← p.statementOf "body"
        return ("for" ++ inParens (i ++ ";" ++ test ++ ";" ++ update) ++ body.1, body.2))
        (RawWithin extra (.node .forStatement [init, test, update, body])) := by
    intro i hi
    refine htestText.bind fun t ht => ?_
    refine hupdateText.bind fun u hu => ?_
    refine hbodyText.bind fun x hx => Gives.pure ?_
    rw [rawWithin_parts rfl]
    simp +decide [hi, ht, hu, hx, and_assoc]
  unfold forText
  apply Gives.step rfl
  rcases (fitsType_optional rfl).1 hinit with rfl | ⟨-, hinit⟩
  · exact hrest "" (by simp +decide)
  · obtain ⟨l, fs, rfl, hl, hfits⟩ := fitsType_kinds rfl (.variableDeclaration :: expressionKinds)
      (by decide) hinit
    apply Gives.step rfl
    dsimp only
    split
    · have htext := writes_variableDeclaration hinitEach (fitsType_node.2 ⟨fs, rfl, hfits⟩)
      exact htext.bind fun i hi => hrest i hi
    · rename_i hne
      have htext := writes_expression_of_kind hinitEach (contains_of_mem_cons hl hne) sequence
      exact htext.bind fun i hi => hrest i hi

/-- A switch has its cases between braces. -/
theorem writes_switch {discriminant : Tree} {cases : Printing (List Piece)}
    (hget : p.get "discriminant" = .ok (pieceOf discriminant))
    (h : discriminant.Each (Printed extra)) (hfits : FitsType false expression discriminant)
    (hcases : cases = .ok (piecesOf items))
    (hitems : ∀ v ∈ items, WritesStatement extra (pieceOf v).switchCase (RawWithin extra v)) :
    WritesStatement extra (switchText p cases)
      (RawWithin extra discriminant ∧ ∀ v ∈ items, RawWithin extra v) := by
  have htext : Writes extra (p.expressionOf "discriminant" sequence)
      (RawWithin extra discriminant) := by
    unfold Piece.expressionOf
    apply Gives.step hget
    exact writes_expression h hfits sequence
  unfold switchText
  refine htext.bind fun head hhead => ?_
  apply Gives.step hcases
  refine (gives_items hitems).bind fun xs hxs => Gives.pure ?_
  rw [within_append, within_braced, within_joined, hxs]
  simp +decide [hhead]

theorem writes_exportDefault {body : Tree} (h : body.Each (Printed extra))
    (hbody : FitsType false
      (.union [.node .functionDeclaration, .node .classDeclaration, expression]) body) :
    WritesStatement extra (exportDefaultText (.node .exportDefault (piecesOf [body]) form))
      (RawWithin extra (.node .exportDefault [body])) := by
  obtain ⟨k, fields, rfl, hk, -⟩ := fitsType_kinds rfl
    (.functionDeclaration :: .classDeclaration :: expressionKinds) (by decide) hbody
  rw [rawWithin_parts rfl]
  unfold exportDefaultText
  apply Gives.step rfl
  apply Gives.step rfl
  by_cases hdeclaration : k = .functionDeclaration ∨ k = .classDeclaration
  · rcases hdeclaration with rfl | rfl <;>
    · refine (writes_statement_of_kind h rfl).bind fun x hx => Gives.pure ?_
      simp +decide [hx]
  · obtain ⟨hfunction, hclass⟩ := not_or.1 hdeclaration
    have hkind := contains_of_mem_cons ((List.mem_cons.1 hk).resolve_left hfunction) hclass
    split
    · exact absurd rfl hfunction
    · exact absurd rfl hclass
    · refine (writes_expression_of_kind h hkind assignment).bind fun text htext => Gives.pure ?_
      have hbare : Within extra (if beginsLikeStatement text = true then inParens text else text) ↔
          RawWithin extra (.node k fields) := within_ite_iff (within_inParens.trans htext) htext
      simp +decide [hbare]

theorem writes_exportDeclaration {declaration : Tree} (h : declaration.Each (Printed extra))
    (hfits : FitsType false (.unionOf [.functionDeclaration, .classDeclaration,
      .variableDeclaration]) declaration) :
    WritesStatement extra (statementText .exportDeclaration
      (.node .exportDeclaration (piecesOf [declaration]) form))
      (RawWithin extra (.node .exportDeclaration [declaration])) := by
  obtain ⟨k, fields, rfl, hk, hfits⟩ := fitsType_kinds rfl
    [.functionDeclaration, .classDeclaration, .variableDeclaration] (by decide) hfits
  simp only [List.mem_cons, List.not_mem_nil, or_false] at hk
  rw [rawWithin_parts rfl]
  apply Gives.step rfl
  apply Gives.step rfl
  rcases hk with rfl | rfl | rfl
  · refine (writes_statement_of_kind h rfl).bind fun x hx => Gives.pure ?_
    simp +decide [hx]
  · refine (writes_statement_of_kind h rfl).bind fun x hx => Gives.pure ?_
    simp +decide [hx]
  · have htext := writes_variableDeclaration h (fitsType_node.2 ⟨fields, rfl, hfits⟩)
    refine htext.bind fun text htext => Gives.pure ?_
    simp +decide [htext]

/-- Statements are printed, and so are the items of modules. -/
theorem writes_statementText (hfits : FieldsFit false k k.slots fields)
    (hparts : ∀ v ∈ fields, v.Each (Printed extra)) (hk : statementKinds.contains k = true) :
    WritesStatement extra (statementText k (.node k (piecesOf fields) form))
      (RawWithin extra (.node k fields)) := by
  cases k
  case blockStatement =>
    obtain ⟨b, rfl, hb⟩ := (fit_one rfl rfl).1 hfits
    rw [rawWithin_parts rfl]
    apply Gives.step rfl
    refine (writes_block (hparts _ (by simp)).inside hb).bind fun s hs => Gives.pure ?_
    simpa using hs
  case breakStatement | continueStatement =>
    obtain ⟨label, rfl, hlabel⟩ := (fit_one rfl rfl).1 hfits
    exact writes_jump (by decide) hlabel
  case classDeclaration =>
    obtain ⟨name, superClass, list, rfl, hname, hsuper, hlist⟩ := (fit_three rfl rfl).1 hfits
    exact (writes_class (by decide) hparts (.inr hname) hsuper hlist).bind
      fun s hs => Gives.pure hs
  case debuggerStatement | emptyStatement =>
    obtain rfl := (fit_zero rfl rfl).1 hfits
    rw [rawWithin_parts rfl]
    exact Gives.pure (by simp +decide)
  case doWhileStatement =>
    obtain ⟨body, test, rfl, hbody, htest⟩ := (fit_two rfl rfl).1 hfits
    have htext := writes_expression (hparts test (by simp)) htest sequence
    refine (writes_statement (hparts body (by simp)) hbody).bind fun x hx => ?_
    refine htext.bind fun t ht => Gives.pure ?_
    rw [rawWithin_parts rfl]
    simp +decide [hx, ht]
  case expressionStatement =>
    obtain ⟨e, rfl, he⟩ := (fit_one rfl rfl).1 hfits
    exact writes_expressionStatement (hparts _ (by simp)) he
  case forStatement =>
    obtain ⟨init, test, update, body, rfl, hinit, htest, hupdate, hbody⟩ :=
      (fit_four rfl rfl).1 hfits
    exact writes_for hparts hinit htest hupdate hbody
  case functionDeclaration =>
    obtain ⟨a, g, name, params, body, rfl, ha, hg, hname, hparams, hbody⟩ :=
      (fit_five rfl rfl).1 hfits
    obtain ⟨a, rfl⟩ := fitsType_boolean.1 ha
    obtain ⟨g, rfl⟩ := fitsType_boolean.1 hg
    exact (writes_function (by decide) hparts (.inr hname) hparams hbody).bind
      fun s hs => Gives.pure hs
  case ifStatement =>
    obtain ⟨test, consequent, alternate, rfl, htest, hconsequent, halternate⟩ :=
      (fit_three rfl rfl).1 hfits
    exact writes_if hparts htest hconsequent halternate
  case labeledStatement =>
    obtain ⟨label, body, rfl, hlabel, hbody⟩ := (fit_two rfl rfl).1 hfits
    obtain ⟨s, rfl⟩ := fitsType_string.1 hlabel
    refine (writes_statement (hparts body (by simp)) hbody).bind fun x hx => ?_
    refine Gives.step (a := s) rfl (Gives.pure ?_)
    rw [rawWithin_text rfl]
    simp +decide [hx]
  case returnStatement =>
    obtain ⟨e, rfl, he⟩ := (fit_one rfl rfl).1 hfits
    have heach := hparts e (by simp)
    rw [rawWithin_parts rfl, List.forall_mem_singleton]
    apply Gives.step rfl
    rcases (fitsType_optional rfl).1 he with rfl | ⟨-, he⟩
    · exact Gives.pure (by simp +decide [wordWith])
    · have hvalue := gives_expressionValue heach he sequence
      obtain ⟨l, fs, rfl, -⟩ := (fitsType_union rfl).1 he
      exact hvalue.bind fun v hv => Gives.pure (within_wordWith (by decide) hv)
  case switchStatement =>
    obtain ⟨d, list, rfl, hd, hlist⟩ := (fit_two rfl rfl).1 hfits
    obtain ⟨cases, rfl, hcases⟩ := (fitsType_list rfl).1 hlist
    have hlistEach := hparts (.list cases) (by simp)
    rw [rawWithin_parts rfl]
    refine (writes_switch rfl (hparts d (by simp)) hd rfl fun c hc =>
      writes_switchCase (hlistEach.item hc) (.inl (hcases c hc))).mono fun x hx => ?_
    simpa using hx
  case switchStatementWithDefault =>
    obtain ⟨d, before, default, after, rfl, hd, hbefore, hdefault, hafter⟩ :=
      (fit_four rfl rfl).1 hfits
    obtain ⟨before, rfl, hcases⟩ := (fitsType_list rfl).1 hbefore
    obtain ⟨after, rfl, hcases'⟩ := (fitsType_list rfl).1 hafter
    have hbeforeEach := hparts (.list before) (by simp)
    have hafterEach := hparts (.list after) (by simp)
    have hdefaultEach := hparts default (by simp)
    have hitems : ∀ c ∈ before ++ default :: after,
        WritesStatement extra (pieceOf c).switchCase (RawWithin extra c) := by
      intro c hc
      rcases List.mem_append.1 hc with hc | hc
      · exact writes_switchCase (hbeforeEach.item hc) (.inl (hcases c hc))
      · rcases List.mem_cons.1 hc with rfl | hc
        · exact writes_switchCase hdefaultEach (.inr hdefault)
        · exact writes_switchCase (hafterEach.item hc) (.inl (hcases' c hc))
    -- The default is printed like the cases, between those before and those after it.
    have hpieces : piecesOf before ++ pieceOf default :: piecesOf after =
        piecesOf (before ++ default :: after) := by
      simp [piecesOf_eq_map]
    rw [rawWithin_parts rfl]
    apply Gives.step rfl
    apply Gives.step rfl
    apply Gives.step rfl
    refine (writes_switch rfl (hparts d (by simp)) hd (congrArg Except.ok hpieces) hitems).mono
      fun x hx => ?_
    simpa [or_imp, forall_and] using hx
  case throwStatement =>
    obtain ⟨e, rfl, he⟩ := (fit_one rfl rfl).1 hfits
    refine (writes_expression (hparts _ (by simp)) he sequence).bind fun s hs => Gives.pure ?_
    rw [rawWithin_parts rfl]
    simp +decide [hs]
  case tryCatchStatement =>
    obtain ⟨body, clause, rfl, hbody, hclause⟩ := (fit_two rfl rfl).1 hfits
    have hcatch := writes_catchClause (hparts clause (by simp)) hclause
    apply Gives.step rfl
    refine (writes_block (hparts body (by simp)).inside hbody).bind fun b hb => ?_
    apply Gives.step rfl
    refine hcatch.bind fun c hc => Gives.pure ?_
    rw [rawWithin_parts rfl]
    simp +decide [hb, hc]
  case tryFinallyStatement =>
    obtain ⟨body, clause, finalizer, rfl, hbody, hclause, hfinalizer⟩ :=
      (fit_three rfl rfl).1 hfits
    have hblock := writes_block (hparts body (by simp)).inside hbody
    have hfinally := writes_block (hparts finalizer (by simp)).inside hfinalizer
    have hclauseEach := hparts clause (by simp)
    rw [rawWithin_parts rfl]
    apply Gives.step rfl
    rcases (fitsType_optional rfl).1 hclause with rfl | ⟨-, hclause⟩
    · apply Gives.step rfl
      refine hblock.bind fun b hb => ?_
      apply Gives.step rfl
      refine hfinally.bind fun f hf => Gives.pure ?_
      simp +decide [hb, hf]
    · have hcatch := writes_catchClause hclauseEach hclause
      obtain ⟨l, fs, rfl, -⟩ := (fitsType_union rfl).1 hclause
      refine hcatch.bind fun c hc => ?_
      apply Gives.step rfl
      refine hblock.bind fun b hb => ?_
      apply Gives.step rfl
      refine hfinally.bind fun f hf => Gives.pure ?_
      simp +decide [hb, hc, hf, and_assoc]
  case variableDeclarationStatement =>
    obtain ⟨d, rfl, hd⟩ := (fit_one rfl rfl).1 hfits
    rw [rawWithin_parts rfl]
    apply Gives.step rfl
    refine (writes_variableDeclaration (hparts _ (by simp)) hd).bind fun s hs => Gives.pure ?_
    simpa using hs
  case whileStatement =>
    obtain ⟨test, body, rfl, htest, hbody⟩ := (fit_two rfl rfl).1 hfits
    have htext := writes_expression (hparts test (by simp)) htest sequence
    refine (writes_statement (hparts body (by simp)) hbody).bind fun x hx => ?_
    refine htext.bind fun t ht => Gives.pure ?_
    rw [rawWithin_parts rfl]
    simp +decide [hx, ht]
  case exportDeclaration =>
    rcases (fieldsFit_iff_fitsType (.inl rfl)).1 hfits with _ | ⟨hdeclaration, _ | _⟩
    exact writes_exportDeclaration (hparts _ (by simp)) hdeclaration
  case exportDefault =>
    rcases (fieldsFit_iff_fitsType (.inl rfl)).1 hfits with _ | ⟨hbody, _ | _⟩
    exact writes_exportDefault (hparts _ (by simp)) hbody
  all_goals cases hk

/-! ## Programs and fragments -/

/-- The items of a module, exports among them. -/
theorem gives_moduleItems (h : (Tree.list items).Each (Printed extra))
    (hitems : ∀ v ∈ items, FitsType false moduleItem v) :
    Gives ((piecesOf items).mapM (·.statement)) fun xs =>
      ((∀ x ∈ xs, Within extra x.1) ↔ ∀ v ∈ items, RawWithin extra v) := by
  refine gives_items fun v hv => ?_
  have heach := h.item hv
  obtain ⟨k, fields, rfl, hk, -⟩ :=
    fitsType_kinds rfl statementKinds (by decide) (hitems v hv)
  exact writes_statement_of_kind heach (List.contains_iff_mem.2 hk)

/-- Programs and their fragments are printed. -/
theorem gives_fragment (hfits : FieldsFit false k k.slots fields)
    (hparts : ∀ v ∈ fields, v.Each (Printed extra)) (hk : fragmentKinds.contains k = true) :
    Gives (fragmentValue k (.node k (piecesOf fields) form)) fun v =>
      IsTextWithin extra v (RawWithin extra (.node k fields)) := by
  have htext : ∀ {x : Printing String} {c : Prop}, Writes extra x c →
      Gives (x >>= fun s => Pure.pure (Tree.str s)) fun v => IsTextWithin extra v c := fun hx =>
    hx.bind fun s hs => Gives.pure ⟨s, rfl, hs⟩
  cases k
  case script =>
    obtain ⟨ds, list, rfl, hds, hlist⟩ := (fit_two rfl rfl).1 hfits
    obtain ⟨ss, rfl, hss⟩ := (fitsType_list rfl).1 hlist
    rw [rawWithin_parts rfl, List.forall_mem_cons, List.forall_mem_singleton]
    apply Gives.step rfl
    apply Gives.step rfl
    exact htext (writes_body hds (gives_statements (hparts (.list ss) (by simp)) hss))
  case esModule =>
    obtain ⟨ds, list, rfl, hds, hlist⟩ := (fit_two rfl rfl).1 hfits
    obtain ⟨items, rfl, hitems⟩ := (fitsType_list rfl).1 hlist
    rw [rawWithin_parts rfl, List.forall_mem_cons, List.forall_mem_singleton]
    apply Gives.step rfl
    apply Gives.step rfl
    exact htext (writes_body hds (gives_moduleItems (hparts (.list items) (by simp)) hitems))
  case block =>
    exact htext (writes_block (v := .node .block fields) hparts
      (fitsType_node.2 ⟨fields, rfl, hfits⟩))
  case functionBody =>
    exact htext (writes_functionBody (v := .node .functionBody fields) hparts
      (fitsType_node.2 ⟨fields, rfl, hfits⟩))
  case formalParameters =>
    exact htext (writes_parameters (v := .node .formalParameters fields) hparts
      (fitsType_node.2 ⟨fields, rfl, hfits⟩))
  case directive =>
    obtain ⟨raw, rfl, hraw⟩ := (fit_one rfl rfl).1 hfits
    obtain ⟨s, rfl⟩ := fitsType_string.1 hraw
    exact ⟨_, rfl, _, rfl, within_directiveText.trans (rawWithin_name rfl).symm⟩
  case templateElement =>
    obtain ⟨raw, rfl, hraw⟩ := (fit_one rfl rfl).1 hfits
    obtain ⟨s, rfl⟩ := fitsType_string.1 hraw
    exact ⟨_, rfl, s, rfl, (rawWithin_name rfl).symm⟩
  all_goals cases hk

/-! ## Nodes and trees -/

/-- A node is printed as what its kind is printed as, if its parts are printed. -/
theorem printed_of_parts (hfits : FieldsFit false k k.slots fields)
    (hparts : ∀ v ∈ fields, v.Each (Printed extra)) : Printed extra k fields := by
  -- No kind of a fragment is in one of the other two tables of printers.
  have hfragments : ∀ k ∈ fragmentKinds,
      statementKinds.contains k = false ∧ expressionKinds.contains k = false := by decide
  refine ⟨hfits, ?statement, ?expression, ?fragment⟩
  case statement =>
    intro hk
    rw [formOf, if_pos hk]
    refine (writes_statementText hfits hparts hk).bind fun x hx => ?_
    exact Gives.pure ⟨x.1, x.2, rfl, hx⟩
  case expression =>
    intro hk
    rw [formOf_expression hk]
    refine (gives_expression hfits hparts hk).bind fun x hx => ?_
    obtain ⟨s, hvalue, hs⟩ := hx
    exact Gives.pure ⟨s, x.2, by rw [hvalue], hs⟩
  case fragment =>
    intro hk
    obtain ⟨hstatement, hexpression⟩ := hfragments k (List.contains_iff_mem.1 hk)
    rw [formOf, if_neg (by rw [hstatement]; decide), if_neg (by rw [hexpression]; decide)]
    refine (gives_fragment hfits hparts hk).bind fun v hv => ?_
    obtain ⟨s, rfl, hs⟩ := hv
    exact Gives.pure ⟨s, rfl, hs⟩

/-- Every node of a tree whose nodes fit is printed. -/
theorem each_printed {t : Tree} (h : t.Each fun k fields => FieldsFit false k k.slots fields) :
    t.Each (Printed extra) := by
  induction h with
  | intro own parts ih =>
    refine .intro (fun k fields heq => ?_) ih
    subst heq
    exact printed_of_parts (own k fields rfl) ih

/-- Every node of a tree that the walk goes through is printed. -/
theorem each_printed_of_walkable {t : Tree} (h : t.Walkable) : t.Each (Printed extra) :=
  each_printed (each_of_get h fun _ _ _ => h.get)

/-- Every node of a well-typed tree is printed. -/
theorem each_printed_of_wellTyped {t : Tree} (ht : t.wellTyped = true) :
    t.Each (Printed extra) :=
  each_printed_of_walkable (wellTyped_iff.1 ht).walkable

/-- The kinds of the trees that are printed on their own. -/
def printedKinds : List Kind := statementKinds ++ expressionKinds ++ fragmentKinds

/-- A tree whose root has a printer is printed as a text, which is within an alphabet just if
the raw texts of the tree are. -/
theorem exists_printed (extra : Char → Bool) (h : (Tree.node k fields).Walkable)
    (hk : k ∈ printedKinds) :
    ∃ s, (Tree.node k fields).printed = .ok (.str s) ∧
      (Within extra s ↔ RawWithin extra (.node k fields)) := by
  have hform : Printed extra k fields := (each_printed_of_walkable h).own
  have hvalue : Gives (formOf k (piecesOf fields)) fun f =>
      IsTextWithin extra f.value (RawWithin extra (.node k fields)) := by
    simp only [printedKinds, List.mem_append] at hk
    rcases hk with (hk | hk) | hk
    · refine (hform.statement (List.contains_iff_mem.2 hk)).mono fun f hf => ?_
      obtain ⟨s, needed, rfl, hs⟩ := hf
      exact ⟨s, rfl, hs⟩
    · refine (hform.expression (List.contains_iff_mem.2 hk)).mono fun f hf => ?_
      obtain ⟨s, precedence, rfl, hs⟩ := hf
      exact ⟨s, rfl, hs⟩
    · refine (hform.fragment (List.contains_iff_mem.2 hk)).mono fun f hf => ?_
      obtain ⟨s, rfl, hs⟩ := hf
      exact ⟨s, rfl, hs⟩
  obtain ⟨f, hf, s, hs, hwithin⟩ := hvalue
  refine ⟨s, ?_, hwithin⟩
  rw [Tree.printed, pieceOf, hf, ← hs]
  rfl

/-- A root without a printer is refused for its kind, whatever is in it. -/
theorem printed_of_notMem (hk : k ∉ printedKinds) (fields : List Tree) :
    (Tree.node k fields).printed = .error (.partOnly k) := by
  cases k
  all_goals first
    | exact absurd (by decide) hk
    | rfl

/-- A well-typed tree is printed if its root has a printer, and otherwise refused for the kind
of its root: whatever its parts are, none of them lacks a printer, an operator or a field. -/
theorem printed_wellTyped (k : Kind) (fields : List Tree)
    (ht : (Tree.node k fields).wellTyped = true) :
    if k ∈ printedKinds then
      ∃ s, (Tree.node k fields).printed = .ok (.str s) ∧ (Tree.node k fields).source = .ok s
    else (Tree.node k fields).source = .error (.partOnly k) := by
  have hwalkable := (wellTyped_iff.1 ht).walkable
  split
  · rename_i hk
    obtain ⟨s, hs, -⟩ := exists_printed (fun _ => true) hwalkable hk
    refine ⟨s, hs, ?_⟩
    rw [Tree.source, hs]
    rfl
  · rename_i hk
    rw [Tree.source, printed_of_notMem hk]
    rfl

/-- An empty statement is printed, alone or in a script, and the default of a switch is not
printed alone. -/
theorem printed_wellTyped_alone :
    (∃ s, (Tree.node .script [.list [], .list [.node .emptyStatement []]]).source = .ok s) ∧
    (Tree.node .switchDefault [.list []]).source = .error (.partOnly .switchDefault) := by
  constructor
  · have h := printed_wellTyped .script [.list [], .list [.node .emptyStatement []]]
      (by decide)
    rw [if_pos (by decide)] at h
    obtain ⟨s, -, hs⟩ := h
    exact ⟨s, hs⟩
  · have h := printed_wellTyped .switchDefault [.list []] (by decide)
    rwa [if_neg (by decide)] at h

end Whittle.Source
