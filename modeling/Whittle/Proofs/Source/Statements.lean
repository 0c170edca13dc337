import Whittle.Proofs.Source.Reader

/-!
# Statements read back

Where there are no blocks, a text shows where statements end by little: a semicolon only where
another statement or a word follows one that needs it, and braces only around a consequent that
an `else` after it would be taken for a part of. That little is enough to read the statements
back, so no two scripts without blocks are printed as the same text.
-/

namespace Whittle.Source

/-! ## Statements without blocks -/

/-- A variable, or nothing. -/
inductive IsHeadPart : Tree → Prop
  | absent : IsHeadPart .absent
  | reference {s : String} (hs : isName s = true) : IsHeadPart (reference s)

/-- A statement that is put together without blocks, and whose expressions are variables. -/
inductive IsPlain : Tree → Prop
  | expression {s : String} (hs : isName s = true) :
    IsPlain (.node .expressionStatement [reference s])
  | empty : IsPlain (.node .emptyStatement [])
  | ifThen {s : String} {c : Tree} (hs : isName s = true) (hc : IsPlain c) :
    IsPlain (.node .ifStatement [reference s, c, .absent])
  | ifElse {s : String} {c a : Tree} (hs : isName s = true) (hc : IsPlain c) (ha : IsPlain a) :
    IsPlain (.node .ifStatement [reference s, c, a])
  | whileLoop {s : String} {b : Tree} (hs : isName s = true) (hb : IsPlain b) :
    IsPlain (.node .whileStatement [reference s, b])
  | doWhile {s : String} {b : Tree} (hb : IsPlain b) (hs : isName s = true) :
    IsPlain (.node .doWhileStatement [b, reference s])
  | forLoop {i t u b : Tree} (hi : IsHeadPart i) (ht : IsHeadPart t) (hu : IsHeadPart u)
    (hb : IsPlain b) : IsPlain (.node .forStatement [i, t, u, b])
  | labeled {l : String} {b : Tree} (hl : isName l = true) (hb : IsPlain b) :
    IsPlain (.node .labeledStatement [.str l, b])

/-- A script of such statements, without directives. -/
inductive IsPlainScript : Tree → Prop
  | intro {ss : List Tree} (h : ∀ s ∈ ss, IsPlain s) :
    IsPlainScript (.node .script [.list [], .list ss])

/-- Whether a semicolon keeps the statement apart from what follows. -/
def needsSemicolon : Tree → Bool
  | .node .emptyStatement _ => false
  | .node .ifStatement [_, c, .absent] => needsSemicolon c
  | .node .ifStatement [_, _, a] => needsSemicolon a
  | .node .whileStatement [_, b] => needsSemicolon b
  | .node .forStatement [_, _, _, b] => needsSemicolon b
  | .node .labeledStatement [_, b] => needsSemicolon b
  | _ => true

/-- Whether an `else` after the statement would be taken for a part of it. -/
def opensIf : Tree → Bool
  | .node .ifStatement [_, _, .absent] => true
  | .node .ifStatement [_, _, a] => opensIf a
  | .node .whileStatement [_, b] => opensIf b
  | .node .forStatement [_, _, _, b] => opensIf b
  | .node .labeledStatement [_, b] => opensIf b
  | _ => false

/-- A semicolon, if one is needed. -/
def semicolon (needed : Bool) : List String := if needed then [";"] else []

/-- A variable by its name, or nothing. -/
def headTokens : Tree → List String
  | .node .identifierExpression [.str s] => [s]
  | _ => []

/-- The words and signs of a statement. -/
def statementTokens : Tree → List String
  | .node .expressionStatement [.node .identifierExpression [.str s]] =>
    if beginsLikeStatement s then ["(", s, ")"] else [s]
  | .node .emptyStatement [] => [";"]
  | .node .ifStatement [e, c, .absent] => "if" :: "(" :: headTokens e ++ ")" :: statementTokens c
  | .node .ifStatement [e, c, a] =>
    "if" :: "(" :: headTokens e ++ ")" ::
      ((if opensIf c then "\x7b" :: (statementTokens c ++ ["\x7d"])
        else statementTokens c ++ semicolon (needsSemicolon c)) ++ "else" :: statementTokens a)
  | .node .whileStatement [e, b] => "while" :: "(" :: headTokens e ++ ")" :: statementTokens b
  | .node .doWhileStatement [b, e] =>
    "do" :: (statementTokens b ++ semicolon (needsSemicolon b)) ++
      "while" :: "(" :: headTokens e ++ [")"]
  | .node .forStatement [i, t, u, b] =>
    "for" :: "(" :: headTokens i ++ ";" :: headTokens t ++ ";" :: headTokens u ++
      ")" :: statementTokens b
  | .node .labeledStatement [.str l, b] => l :: ":" :: statementTokens b
  | _ => []

/-- The words and signs of statements, with semicolons between them where they are needed. -/
def scriptTokens : List Tree → List String
  | [] => []
  | [s] => statementTokens s
  | s :: ss => statementTokens s ++ semicolon (needsSemicolon s) ++ scriptTokens ss

variable {s t c a b e : Tree} {ss : List Tree} {w l x y : String} {ts us rest : List String}

/-! ## Texts of statements -/

/-- Whether a statement may begin with a character: that of a word, a parenthesis or a
semicolon. -/
def isStatementStart (c : Char) : Bool := isNameChar c || c == '(' || c == ';'

theorem isStatementStart_of_isNameChar {c : Char} (h : isNameChar c = true) :
    isStatementStart c = true := by
  rw [isStatementStart, h, Bool.true_or, Bool.true_or]

theorem beginsStatement_of_isName (h : isName w = true) : Begins isStatementStart w :=
  (begins_of_isName h).mono fun _ => isStatementStart_of_isNameChar

theorem beginsStatement_of_reserved (h : w ∈ Rules.reservedWords) : Begins isStatementStart w := by
  have hall : ∀ w ∈ Rules.reservedWords, Begins isNameChar w := by decide
  exact (hall w h).mono fun _ => isStatementStart_of_isNameChar

theorem toNat_lt_of_isAlpha {c : Char} (h : c.isAlpha = true) : c.toNat < 0x80 := by
  simp [Char.isAlpha, Char.isUpper, Char.isLower, UInt32.le_iff_toNat_le] at h
  omega

/-- A space comes before a text that begins with a character of identifiers. -/
theorem spaceBefore_eq {c : Char} {cs : List Char} (hx : x.toList = c :: cs)
    (hc : isStatementStart c = true) :
    spaceBefore x = if isNameChar c then " " else "" := by
  rw [spaceBefore, hx]
  dsimp only
  simp only [isStatementStart, Bool.or_eq_true, beq_iff_eq] at hc
  rcases hc with (hc | rfl) | rfl
  · have hword : (Text.isAlphanumeric c || c == '_' || c == '$') = true := by
      simp only [isNameChar, Rules.isIdentifierStart, Bool.or_eq_true] at hc
      rcases hc with ((halpha | hlow) | hdollar) | hdigit
      · have hlt := toNat_lt_of_isAlpha halpha
        simp [Text.isAlphanumeric, Text.isLetter, hlt, halpha]
      · simp [hlow]
      · simp [hdollar]
      · have hlt : c.toNat < 0x80 := by
          simp [Char.isDigit, UInt32.le_iff_toNat_le] at hdigit
          omega
        simp [Text.isAlphanumeric, Text.isNumeral, hlt, hdigit]
    rw [if_pos hc, if_pos (by rw [hword, Bool.true_or])]
  · decide
  · decide

theorem spells_reserved (hw : w ∈ Rules.reservedWords) : Spells true w.toList [w] := by
  have hall : ∀ w ∈ Rules.reservedWords, w.toList ≠ [] ∧ w.toList.all isNameChar = true := by
    decide
  exact .word (hall w hw).1 (hall w hw).2

/-- A word, and a statement after it. -/
theorem spells_spaced {openEnd : Bool} (hw : w ∈ Rules.reservedWords)
    (hx : Spells openEnd x.toList ts) (hbegins : Begins isStatementStart x) :
    Spells openEnd (w ++ spaceBefore x ++ x).toList (w :: ts) := by
  obtain ⟨c, cs, hcs, hc⟩ := hbegins
  rw [spaceBefore_eq hcs hc, String.append_assoc, String.toList_append]
  split
  · simpa using (spells_reserved hw).append hx.blank (List.cons_ne_nil _ _) stops_blank
  · rename_i hname
    have hstops : Stops x.toList := by
      intro d hd
      rw [hcs] at hd
      cases hd
      simpa using hname
    simpa using (spells_reserved hw).append hx (by simp [hcs]) hstops

/-- A word, and something in parentheses after it. -/
theorem spells_head {openEnd : Bool} (hw : w ∈ Rules.reservedWords)
    (hx : Spells openEnd x.toList ts) :
    Spells false (w ++ inParens x).toList (w :: "(" :: (ts ++ [")"])) := by
  have hstops : Stops (inParens x).toList := by
    rw [inParens, String.append_assoc, String.toList_append]
    exact stops_of_isSign (by decide)
  rw [String.toList_append]
  exact (spells_reserved hw).append hx.parens (by simp [inParens]) hstops

/-- A word, something in parentheses after it, and what the two are the head of. -/
theorem spells_headed {openEnd openEnd' : Bool} (hw : w ∈ Rules.reservedWords)
    (hx : Spells openEnd x.toList ts) (hy : Spells openEnd' y.toList us) :
    Spells openEnd' (w ++ inParens x ++ y).toList (w :: "(" :: (ts ++ ")" :: us)) := by
  simpa using (spells_head hw hx).append_of_closed hy

theorem spells_braced {openEnd : Bool} (hx : Spells openEnd x.toList ts) :
    Spells false (braced x).toList ("\x7b" :: (ts ++ ["\x7d"])) := by
  have hclose := hx.append_mark (o := "\x7d") (by decide) .nil
  simpa [braced] using hclose.mark_append (o := "\x7b") (by decide)

/-- A statement, and a semicolon if it needs one. -/
theorem spells_closed {needed : Bool} (hx : Spells needed x.toList ts) :
    Spells false (x ++ if needed then ";" else "").toList (ts ++ semicolon needed) := by
  cases needed with
  | true => simpa [semicolon] using hx.append_mark (o := ";") (by decide) .nil
  | false => simpa [semicolon] using hx

/-- A tree is printed as a statement with the given text, which has its words and signs. -/
structure IsStatementText (s : Tree) (text : String) : Prop where
  statement : (pieceOf s).statement = .ok (text, needsSemicolon s)
  opensIf : (pieceOf s).endsInOpenIf = .ok (opensIf s)
  spells : Spells (needsSemicolon s) text.toList (statementTokens s)
  begins : Begins isStatementStart text

theorem statement_of_text {k : Kind} {fields : List Tree} {needed : Bool}
    (hk : statementKinds.contains k = true)
    (h : statementText k (.node k (piecesOf fields) (.error .malformed)) = .ok (x, needed)) :
    (pieceOf (.node k fields)).statement = .ok (x, needed) := by
  rw [pieceOf, formOf, if_pos hk, h, Piece.statement, if_pos hk]
  rfl

/-! ## What statements are printed as -/

variable {p q : Piece} {f : Printing Form} {needed needed' opens : Bool}

theorem expression_reference : (pieceOf (reference w)).expression sequence = .ok w := rfl

theorem ifThenText_eq (hp : p.statement = .ok (x, needed)) :
    ifText (.node .ifStatement [pieceOf (reference w), p, .value .absent] f) =
      .ok ("if" ++ inParens w ++ x, needed) := by
  change (p.statement >>= fun body => pure ("if" ++ inParens w ++ body.1, body.2)) = _
  rw [hp]
  rfl

/-- What is printed between the head of an `if` and its `else`. -/
def consequentText (opens needed : Bool) (x : String) : String :=
  if opens then braced x else x ++ if needed then ";" else ""

theorem ifElseText_eq (hp : p.statement = .ok (x, needed)) (hopens : p.endsInOpenIf = .ok opens)
    (hq : q.statement = .ok (y, needed')) (hpresent : q.isAbsent = false) :
    ifText (.node .ifStatement [pieceOf (reference w), p, q] f) =
      .ok ("if" ++ inParens w ++ consequentText opens needed x ++ "else" ++ spaceBefore y ++ y,
        needed') := by
  have htest : (Piece.node .ifStatement [pieceOf (reference w), p, q] f).get "test" =
      .ok (pieceOf (reference w)) := rfl
  have hconsequent :
      (Piece.node .ifStatement [pieceOf (reference w), p, q] f).get "consequent" = .ok p := rfl
  have halternate :
      (Piece.node .ifStatement [pieceOf (reference w), p, q] f).get "alternate" = .ok q := rfl
  cases opens <;> simp [ifText, Piece.expressionOf, htest, hconsequent, halternate,
    expression_reference, hpresent, hp, hq, hopens, consequentText, bind,
    Except.bind, pure, Except.pure, String.append_assoc]

theorem whileText_eq (hp : p.statement = .ok (x, needed)) :
    statementText .whileStatement (.node .whileStatement [pieceOf (reference w), p] f) =
      .ok ("while" ++ inParens w ++ x, needed) := by
  change (p.statement >>= fun body => pure ("while" ++ inParens w ++ body.1, body.2)) = _
  rw [hp]
  rfl

theorem doWhileText_eq (hp : p.statement = .ok (x, needed)) :
    statementText .doWhileStatement (.node .doWhileStatement [p, pieceOf (reference w)] f) =
      .ok ("do" ++ spaceBefore x ++ x ++ (if needed then ";" else "") ++ "while" ++ inParens w,
        true) := by
  change (p.statement >>= fun body => pure ("do" ++ spaceBefore body.1 ++ body.1
    ++ (if body.2 then ";" else "") ++ "while" ++ inParens w, true)) = _
  rw [hp]
  rfl

/-- A variable as its name, or nothing. -/
def headText : Tree → String
  | .node .identifierExpression [.str s] => s
  | _ => ""

theorem forText_eq {i t u : Tree} (hi : IsHeadPart i) (ht : IsHeadPart t) (hu : IsHeadPart u)
    (hp : p.statement = .ok (x, needed)) :
    forText (.node .forStatement [pieceOf i, pieceOf t, pieceOf u, p] f) =
      .ok ("for" ++ inParens (headText i ++ ";" ++ headText t ++ ";" ++ headText u) ++ x,
        needed) := by
  let whole := Piece.node .forStatement [pieceOf i, pieceOf t, pieceOf u, p] f
  have hbody : whole.statementOf "body" = .ok (x, needed) := hp
  have htest : whole.optionalExpression "test" = .ok (headText t) := by
    cases ht <;> rfl
  have hupdate : whole.optionalExpression "update" = .ok (headText u) := by
    cases hu <;> rfl
  have hinit : forText whole = (do
      let test ← whole.optionalExpression "test"
      let update ← whole.optionalExpression "update"
      let body ← whole.statementOf "body"
      return ("for" ++ inParens (headText i ++ ";" ++ test ++ ";" ++ update) ++ body.1,
        body.2)) := by
    cases hi <;> rfl
  rw [hinit, htest, hupdate, hbody]
  rfl

theorem labeledText_eq (hp : p.statement = .ok (x, needed)) :
    statementText .labeledStatement (.node .labeledStatement [.value (.str w), p] f) =
      .ok (w ++ ":" ++ x, needed) := by
  change (p.statement >>= fun body => pure (w ++ ":" ++ body.1, body.2)) = _
  rw [hp]
  rfl

theorem IsPlain.isAbsent_eq_false (h : IsPlain s) : (pieceOf s).isAbsent = false := by
  cases h <;> rfl

/-! ## Words and signs of what is printed -/

theorem toList_inParens : (inParens x).toList = '(' :: (x.toList ++ [')']) := by
  simp [inParens]

theorem spells_consequent (opens : Bool) (hx : Spells needed x.toList ts) :
    Spells false (consequentText opens needed x).toList
      (if opens then "\x7b" :: (ts ++ ["\x7d"]) else ts ++ semicolon needed) := by
  unfold consequentText
  cases opens with
  | true => exact spells_braced hx
  | false => exact spells_closed hx

theorem spells_headPart {t : Tree} (ht : IsHeadPart t) :
    Spells true (headText t).toList (headTokens t) := by
  cases ht with
  | absent => exact Spells.nil.opened
  | reference hs => exact Spells.name hs

theorem spells_headParts {i t u : Tree} (hi : IsHeadPart i) (ht : IsHeadPart t)
    (hu : IsHeadPart u) :
    Spells true (headText i ++ ";" ++ headText t ++ ";" ++ headText u).toList
      (headTokens i ++ ";" :: (headTokens t ++ ";" :: headTokens u)) := by
  have hrest := (spells_headPart ht).append_mark (o := ";") (by decide) (spells_headPart hu)
  simpa using (spells_headPart hi).append_mark (o := ";") (by decide) hrest

theorem IsPlain.ne_absent (h : IsPlain s) : s ≠ .absent := by
  rintro rfl
  cases h

theorem needsSemicolon_ifElse (ha : IsPlain a) :
    needsSemicolon (.node .ifStatement [e, c, a]) = needsSemicolon a := by
  rw [needsSemicolon]
  exact ha.ne_absent

theorem opensIf_ifElse (ha : IsPlain a) :
    opensIf (.node .ifStatement [e, c, a]) = opensIf a := by
  rw [opensIf]
  exact ha.ne_absent

theorem endsInOpenIf_ifElse (ha : IsPlain a) :
    (pieceOf (.node .ifStatement [e, c, a])).endsInOpenIf = (pieceOf a).endsInOpenIf := by
  cases ha <;> rfl

theorem statementTokens_ifElse (ha : IsPlain a) :
    statementTokens (.node .ifStatement [e, c, a]) =
      "if" :: "(" :: headTokens e ++ ")" ::
        ((if opensIf c then "\x7b" :: (statementTokens c ++ ["\x7d"])
          else statementTokens c ++ semicolon (needsSemicolon c)) ++
            "else" :: statementTokens a) := by
  rw [statementTokens]
  exact ha.ne_absent

theorem exists_isStatementText (h : IsPlain s) : ∃ text, IsStatementText s text := by
  induction h with
  | @expression s hs =>
    refine ⟨if beginsLikeStatement s then inParens s else s,
      ⟨statement_of_text rfl rfl, rfl, ?_, ?_⟩⟩
    · rw [reference, statementTokens]
      split
      · exact (Spells.name hs).parens.opened
      · exact .name hs
    · split
      · exact ⟨_, _, toList_inParens, rfl⟩
      · exact beginsStatement_of_isName hs
  | empty =>
    refine ⟨";", ⟨statement_of_text rfl rfl, rfl, ?_, _, _, rfl, rfl⟩⟩
    rw [statementTokens]
    exact .mark (by decide)
  | @ifThen s c hs hc ih =>
    obtain ⟨x, hx⟩ := ih
    have htext := ifThenText_eq (w := s) (f := .error .malformed) hx.statement
    refine ⟨_, ⟨statement_of_text (k := .ifStatement) rfl htext, rfl, ?_, ?_⟩⟩
    · simpa [statementTokens, needsSemicolon, reference, headTokens] using
        spells_headed (w := "if") (by decide) (.name hs) hx.spells
    · exact (beginsStatement_of_reserved (by decide)).append.append
  | @ifElse s c a hs hc ha ihc iha =>
    obtain ⟨x, hx⟩ := ihc
    obtain ⟨y, hy⟩ := iha
    have htext := ifElseText_eq (w := s) (f := .error .malformed) hx.statement hx.opensIf
      hy.statement ha.isAbsent_eq_false
    have hstatement : (pieceOf (.node .ifStatement [reference s, c, a])).statement =
        .ok (_, needsSemicolon a) := statement_of_text rfl htext
    rw [← needsSemicolon_ifElse (e := reference s) (c := c) ha] at hstatement
    refine ⟨_, ⟨hstatement, ?_, ?_, ?_⟩⟩
    · rw [endsInOpenIf_ifElse ha, opensIf_ifElse ha, hy.opensIf]
    · have helse := spells_spaced (w := "else") (by decide) hy.spells hy.begins
      have hbranches := (spells_consequent (opensIf c) hx.spells).append_of_closed helse
      rw [← String.toList_append] at hbranches
      rw [needsSemicolon_ifElse ha, statementTokens_ifElse ha]
      simpa [reference, headTokens] using
        spells_headed (w := "if") (by decide) (.name hs) hbranches
    · simpa only [String.append_assoc] using
        (beginsStatement_of_reserved (w := "if") (by decide)).append
  | whileLoop hs hb ih =>
    obtain ⟨x, hx⟩ := ih
    refine ⟨_, ⟨statement_of_text rfl (whileText_eq hx.statement), hx.opensIf, ?_, ?_⟩⟩
    · simpa [statementTokens, needsSemicolon, reference, headTokens] using
        spells_headed (w := "while") (by decide) (.name hs) hx.spells
    · exact (beginsStatement_of_reserved (by decide)).append.append
  | doWhile hb hs ih =>
    obtain ⟨x, hx⟩ := ih
    refine ⟨_, ⟨statement_of_text rfl (doWhileText_eq hx.statement), rfl, ?_, ?_⟩⟩
    · have hdo := spells_spaced (w := "do") (by decide) hx.spells hx.begins
      have hbody := spells_closed hdo
      have hhead := spells_head (w := "while") (by decide) (.name hs)
      simpa [statementTokens, needsSemicolon, reference, headTokens] using
        (hbody.append_of_closed hhead).opened
    · simpa only [String.append_assoc] using
        (beginsStatement_of_reserved (w := "do") (by decide)).append
  | forLoop hi ht hu hb ih =>
    obtain ⟨x, hx⟩ := ih
    have htext := forText_eq (f := .error .malformed) hi ht hu hx.statement
    refine ⟨_, ⟨statement_of_text (k := .forStatement) rfl htext, hx.opensIf, ?_, ?_⟩⟩
    · simpa [statementTokens, needsSemicolon] using
        spells_headed (w := "for") (by decide) (spells_headParts hi ht hu) hx.spells
    · exact (beginsStatement_of_reserved (by decide)).append.append
  | labeled hl hb ih =>
    obtain ⟨x, hx⟩ := ih
    refine ⟨_, ⟨statement_of_text rfl (labeledText_eq hx.statement), hx.opensIf, ?_, ?_⟩⟩
    · have hlabel := (Spells.name hl).append_mark (o := ":") (by decide) hx.spells
      simpa [statementTokens, needsSemicolon] using hlabel
    · exact (beginsStatement_of_isName hl).append.append

/-- Statements one after another are kept apart where they need to be. -/
theorem exists_joined : ∀ {s : Tree} {ss : List Tree}, (∀ t ∈ s :: ss, IsPlain t) →
    ∃ y ys, (piecesOf (s :: ss)).mapM (·.statement) = .ok (y :: ys) ∧
      Spells true (joined (y :: ys)).toList (scriptTokens (s :: ss))
  | s, [], h => by
    obtain ⟨x, hx⟩ := exists_isStatementText (h s List.mem_cons_self)
    refine ⟨(x, needsSemicolon s), [], ?_, ?_⟩
    · simp [piecesOf, hx.statement, bind, Except.bind, pure, Except.pure]
    · exact fun rest hrest => hx.spells rest fun _ => hrest rfl
  | s, t :: ss, h => by
    obtain ⟨hs, hrest⟩ := List.forall_mem_cons.1 h
    obtain ⟨x, hx⟩ := exists_isStatementText hs
    obtain ⟨y, ys, hys, hspells⟩ := exists_joined hrest
    refine ⟨(x, needsSemicolon s), y :: ys, ?_, ?_⟩
    · rw [piecesOf, List.mapM_cons, hx.statement, hys]
      rfl
    · simpa [joined, scriptTokens] using (spells_closed hx.spells).append_of_closed hspells

/-- The words and signs of the source text of a script are those of its statements. -/
theorem exists_script_source (h : ∀ s ∈ ss, IsPlain s) :
    ∃ text, (Tree.node .script [.list [], .list ss]).source = .ok text ∧
      lex text.toList = scriptTokens ss := by
  have hsource : ∀ {xs}, (piecesOf ss).mapM (·.statement) = .ok xs →
      (Tree.node .script [.list [], .list ss]).source = .ok (joined xs) := by
    intro xs hxs
    have hbody : Piece.body (.list []) (.list (piecesOf ss)) = .ok (joined xs) := by
      change ((piecesOf ss).mapM (·.statement) >>= fun ss => pure (joined ([] ++ ss))) = _
      rw [hxs]
      rfl
    have hform : formOf .script (piecesOf [.list [], .list ss]) =
        .ok (.fragment (.str (joined xs))) := by
      change ((Piece.body (.list []) (.list (piecesOf ss)) >>= fun t => pure (Tree.str t))
        >>= fun v => pure (Form.fragment v)) = _
      rw [hbody]
      rfl
    rw [Tree.source, Tree.printed, pieceOf, hform]
    rfl
  cases ss with
  | nil => exact ⟨"", hsource rfl, by simp [lex, scriptTokens]⟩
  | cons s ss =>
    obtain ⟨y, ys, hys, hspells⟩ := exists_joined h
    exact ⟨_, hsource hys, hspells.lex_eq⟩

end Whittle.Source
