import Whittle.Proofs.Source.Printed
import Whittle.Proofs.Source.Statements
import Whittle.Proofs.Validity.Nodes

/-!
# The word `in` in the head of a loop

What a loop begins with is printed like any other expression or declaration, with parentheses
only where an operator asks for them. So an `in` stands outside parentheses in the head of a loop
just if there are none on the way to it: then the loop reads as one over the keys of an object.
-/

namespace Whittle.Source

open Grammar Whittle.Language

variable {extra : Char → Bool} {t e l r a b c d init test update body : Tree} {p : Path}
  {o s w x : String} {ts us : List String} {ds : List Tree}

/-! ## Words outside parentheses -/

/-- Whether the word `in` stands outside parentheses, where so many are open. -/
def hasBareIn (depth : Nat) : List String → Bool
  | [] => false
  | w :: ts =>
    if w = "(" then hasBareIn (depth + 1) ts
    else if w = ")" then hasBareIn (depth - 1) ts
    else depth == 0 && w == "in" || hasBareIn depth ts

/-- Whether a word or sign is neither a parenthesis nor has a semicolon in it. -/
def isSolid (w : String) : Bool := w != "(" && w != ")" && !w.toList.contains ';'

/-- The parentheses of some words and signs match, no semicolon is among them, and outside the
parentheses there is an `in` just if there should be one. -/
structure Level (ts : List String) (bare : Prop) : Prop where
  scan : ∀ depth rest, hasBareIn depth (ts ++ rest) = true ↔
    depth = 0 ∧ bare ∨ hasBareIn depth rest = true
  plain : ∀ w ∈ ts, ';' ∉ w.toList

namespace Level

variable {bare bare' : Prop}

theorem hasBareIn_iff (h : Level ts bare) : hasBareIn 0 ts = true ↔ bare := by
  simpa [hasBareIn] using h.scan 0 []

theorem congr (h : Level ts bare) (hiff : bare ↔ bare') : Level ts bare' where
  scan depth rest := by rw [h.scan, hiff]
  plain := h.plain

theorem nil : Level [] False where
  scan depth rest := by simp
  plain := nofun

theorem cons (hw : isSolid w = true) (h : Level ts bare) : Level (w :: ts) (w = "in" ∨ bare) where
  scan depth rest := by
    simp only [isSolid, Bool.and_eq_true, bne_iff_ne] at hw
    rw [List.cons_append, hasBareIn, if_neg hw.1.1, if_neg hw.1.2]
    simp [h.scan, and_or_left, or_assoc]
  plain := by
    have hsemicolon : ';' ∉ w.toList := by
      simp only [isSolid, Bool.and_eq_true] at hw
      simpa using hw.2
    exact List.forall_mem_cons.2 ⟨hsemicolon, h.plain⟩

theorem append (h : Level ts bare) (h' : Level us bare') : Level (ts ++ us) (bare ∨ bare') where
  scan depth rest := by
    rw [List.append_assoc, h.scan, h'.scan, ← or_assoc, ← and_or_left]
  plain := List.forall_mem_append.2 ⟨h.plain, h'.plain⟩

theorem parens (h : Level ts bare) : Level ("(" :: (ts ++ [")"])) False where
  scan depth rest := by
    have hclose : hasBareIn (depth + 1) (")" :: rest) = hasBareIn depth rest := by
      rw [hasBareIn, if_neg (by decide), if_pos rfl, Nat.add_sub_cancel]
    rw [List.cons_append, List.append_assoc, hasBareIn, if_pos rfl, h.scan, List.singleton_append,
      hclose]
    simp
  plain := by
    simp only [List.forall_mem_cons, List.forall_mem_append]
    exact ⟨by decide, h.plain, by decide, nofun⟩

/-- In its place an operand may be put in parentheses. -/
theorem inPlace (h : Level ts bare) (least : Nat) (t : Tree) :
    Level (Source.inPlace least t ts) (least ≤ binding t ∧ bare) := by
  unfold Source.inPlace
  split
  · exact h.parens.congr (by simp; omega)
  · exact h.congr (by simp; omega)

end Level

theorem isSolid_of_isName (hw : isName w = true) : isSolid w = true := by
  have hopen : w ≠ "(" := ne_of_isName hw (by decide)
  have hclose : w ≠ ")" := ne_of_isName hw (by decide)
  have hsemicolon : ';' ∉ w.toList := fun hmem =>
    absurd (List.all_eq_true.1 (all_isNameChar_of_isName hw) _ hmem) (by decide)
  simp [isSolid, hopen, hclose, hsemicolon]

theorem isSolid_of_operator (ho : o ∈ binaryOperators ++ unaryOperators ++ updateOperators
    ++ compoundOperators ++ declarationKinds) : isSolid o = true := by
  have hall : ∀ o ∈ binaryOperators ++ unaryOperators ++ updateOperators
      ++ compoundOperators ++ declarationKinds, isSolid o = true := by
    decide
  exact hall o ho

/-- The characters of a text, but for the blanks, are in its words and signs. -/
theorem exists_mem_lex {cs : List Char} {c : Char} (hc : c ∈ cs) (hblank : c ≠ ' ') :
    ∃ w ∈ lex cs, c ∈ w.toList := by
  induction cs using lex.induct with
  | case1 => cases hc
  | case2 cs ih =>
    rw [lex_blank]
    exact ih ((List.mem_cons.1 hc).resolve_left hblank)
  | case3 d cs hd hname ih =>
    rw [lex, if_neg hd, if_pos hname]
    rw [← List.takeWhile_append_dropWhile (p := isNameChar) (l := cs), ← List.cons_append] at hc
    rcases List.mem_append.1 hc with hc | hc
    · exact ⟨_, List.mem_cons_self, by rwa [String.toList_ofList]⟩
    · obtain ⟨w, hw, hmem⟩ := ih hc
      exact ⟨w, List.mem_cons_of_mem _ hw, hmem⟩
  | case4 d cs hd hname ih =>
    rw [lex, if_neg hd, if_neg hname]
    rw [← List.take_append_drop (signTail (d :: cs)) cs, ← List.cons_append] at hc
    rcases List.mem_append.1 hc with hc | hc
    · exact ⟨_, List.mem_cons_self, by rwa [String.toList_ofList]⟩
    · obtain ⟨w, hw, hmem⟩ := ih hc
      exact ⟨w, List.mem_cons_of_mem _ hw, hmem⟩

/-! ## What stands outside parentheses -/

/-- An `in` stands outside parentheses in what an expression, a declarator or a declaration is
printed as. -/
inductive ExposesIn : Tree → Prop
  | here {l r : Tree} : ExposesIn (.node .binaryExpression [l, .str "in", r])
  | left {l r : Tree} {o : String} (hl : leftLeast o ≤ binding l) (h : ExposesIn l) :
    ExposesIn (.node .binaryExpression [l, .str o, r])
  | right {l r : Tree} {o : String} (hr : rightLeast o ≤ binding r) (h : ExposesIn r) :
    ExposesIn (.node .binaryExpression [l, .str o, r])
  | operand {o e : Tree} (he : prefixed ≤ binding e) (h : ExposesIn e) :
    ExposesIn (.node .unaryExpression [o, e])
  | test {a b c : Tree} (ha : conditional + 1 ≤ binding a) (h : ExposesIn a) :
    ExposesIn (.node .conditionalExpression [a, b, c])
  | consequent {a b c : Tree} (hb : assignment ≤ binding b) (h : ExposesIn b) :
    ExposesIn (.node .conditionalExpression [a, b, c])
  | alternate {a b c : Tree} (hc : assignment ≤ binding c) (h : ExposesIn c) :
    ExposesIn (.node .conditionalExpression [a, b, c])
  | assigned {b e : Tree} (he : assignment ≤ binding e) (h : ExposesIn e) :
    ExposesIn (.node .assignmentExpression [b, e])
  | compound {b o e : Tree} (he : assignment ≤ binding e) (h : ExposesIn e) :
    ExposesIn (.node .compoundAssignmentExpression [b, o, e])
  | initialiser {b e : Tree} (he : assignment ≤ binding e) (h : ExposesIn e) :
    ExposesIn (.node .variableDeclarator [b, e])
  | declarator {d kind : Tree} {ds : List Tree} (hd : d ∈ ds) (h : ExposesIn d) :
    ExposesIn (.node .variableDeclaration [kind, .list ds])

theorem exposesIn_binary_iff : ExposesIn (.node .binaryExpression [l, .str o, r]) ↔
    leftLeast o ≤ binding l ∧ ExposesIn l ∨ o = "in" ∨ rightLeast o ≤ binding r ∧ ExposesIn r := by
  constructor
  · rintro (_ | ⟨hl, h⟩ | ⟨hr, h⟩)
    · exact .inr (.inl rfl)
    · exact .inl ⟨hl, h⟩
    · exact .inr (.inr ⟨hr, h⟩)
  · rintro (⟨hl, h⟩ | rfl | ⟨hr, h⟩)
    · exact .left hl h
    · exact .here
    · exact .right hr h

theorem exposesIn_conditional_iff : ExposesIn (.node .conditionalExpression [a, b, c]) ↔
    conditional + 1 ≤ binding a ∧ ExposesIn a ∨ assignment ≤ binding b ∧ ExposesIn b ∨
      assignment ≤ binding c ∧ ExposesIn c := by
  constructor
  · rintro (_ | _ | _ | _ | ⟨ha, h⟩ | ⟨hb, h⟩ | ⟨hc, h⟩)
    · exact .inl ⟨ha, h⟩
    · exact .inr (.inl ⟨hb, h⟩)
    · exact .inr (.inr ⟨hc, h⟩)
  · rintro (⟨ha, h⟩ | ⟨hb, h⟩ | ⟨hc, h⟩)
    · exact .test ha h
    · exact .consequent hb h
    · exact .alternate hc h

theorem exposesIn_unary_iff {o : Tree} : ExposesIn (.node .unaryExpression [o, e]) ↔
    prefixed ≤ binding e ∧ ExposesIn e := by
  constructor
  · rintro ⟨⟩
    exact ⟨‹_›, ‹_›⟩
  · exact fun ⟨he, h⟩ => .operand he h

theorem exposesIn_assignment_iff : ExposesIn (.node .assignmentExpression [b, e]) ↔
    assignment ≤ binding e ∧ ExposesIn e := by
  constructor
  · rintro ⟨⟩
    exact ⟨‹_›, ‹_›⟩
  · exact fun ⟨he, h⟩ => .assigned he h

theorem exposesIn_compound_iff {o : Tree} :
    ExposesIn (.node .compoundAssignmentExpression [b, o, e]) ↔
      assignment ≤ binding e ∧ ExposesIn e := by
  constructor
  · rintro ⟨⟩
    exact ⟨‹_›, ‹_›⟩
  · exact fun ⟨he, h⟩ => .compound he h

theorem not_exposesIn_reference : ¬ ExposesIn (reference s) := by
  rintro ⟨⟩

theorem not_exposesIn_update {isPrefix : Tree} :
    ¬ ExposesIn (.node .updateExpression [isPrefix, .str o, target s]) := by
  rintro ⟨⟩

theorem not_exposesIn_absent : ¬ ExposesIn .absent := by
  rintro ⟨⟩

/-- The word `in` is no name and no other operator. -/
theorem ne_in_of_operator (ho : o ∈ unaryOperators ++ updateOperators ++ compoundOperators
    ++ declarationKinds) : o ≠ "in" := by
  have hall : ∀ o ∈ unaryOperators ++ updateOperators ++ compoundOperators
      ++ declarationKinds, o ≠ "in" := by
    decide
  exact hall o ho

theorem ne_in_of_isName (hw : isName w = true) : w ≠ "in" := ne_of_isName hw (by decide)

/-- A name before an operator of assignment, and what is assigned. -/
theorem level_assignment {bare : Prop} (hw : isName w = true) (ho : isSolid o = true)
    (hin : o ≠ "in") (h : Level ts bare) : Level ([w] ++ o :: ts) bare :=
  ((h.cons ho).cons (isSolid_of_isName hw)).congr (by simp [hin, ne_in_of_isName hw])

/-- The parentheses of an operation match, and outside them there is an `in` just if the operation
exposes one. -/
theorem level_tokens (h : IsOperation t) : Level (tokens t) (ExposesIn t) := by
  induction h with
  | @reference s hs =>
    refine (Level.nil.cons (isSolid_of_isName hs)).congr ?_
    exact iff_of_false (by simp [ne_in_of_isName hs]) not_exposesIn_reference
  | @binary l r o hl ho hr ihl ihr =>
    have hright := (ihr.inPlace (rightLeast o) r).cons (isSolid_of_operator (o := o) (by simp [ho]))
    exact ((ihl.inPlace (leftLeast o) l).append hright).congr exposesIn_binary_iff.symm
  | @unary e o ho he ih =>
    have hin : o ≠ "in" := ne_in_of_operator (by simp [ho])
    refine ((ih.inPlace prefixed e).cons (isSolid_of_operator (o := o) (by simp [ho]))).congr ?_
    rw [exposesIn_unary_iff, or_iff_right hin]
  | @conditional a b c ha hb hc iha ihb ihc =>
    have halternate := (ihc.inPlace assignment c).cons (w := ":") (by decide)
    have hrest := ((ihb.inPlace assignment b).append halternate).cons (w := "?") (by decide)
    have hall := (iha.inPlace (conditional + 1) a).append hrest
    rw [tokens, List.append_assoc, List.cons_append]
    refine hall.congr ?_
    rw [exposesIn_conditional_iff]
    simp
  | @update s o isPrefix ho hs =>
    have hin : o ≠ "in" := ne_in_of_operator (by simp [ho])
    have hname := isSolid_of_isName hs
    have hsign : isSolid o = true := isSolid_of_operator (by simp [ho])
    cases isPrefix with
    | true =>
      refine ((Level.nil.cons hname).cons hsign).congr (iff_of_false ?_ not_exposesIn_update)
      simp [hin, ne_in_of_isName hs]
    | false =>
      refine ((Level.nil.cons hsign).cons hname).congr (iff_of_false ?_ not_exposesIn_update)
      simp [hin, ne_in_of_isName hs]
  | @assignment s e hs he ih =>
    refine (level_assignment hs (o := "=") (by decide) (by decide) (ih.inPlace assignment e)).congr ?_
    exact exposesIn_assignment_iff.symm
  | @compound s o e hs ho he ih =>
    have hsolid : isSolid o = true := isSolid_of_operator (by simp [ho])
    have hin : o ≠ "in" := ne_in_of_operator (by simp [ho])
    refine (level_assignment hs hsolid hin (ih.inPlace assignment e)).congr ?_
    exact exposesIn_compound_iff.symm

/-! ## Declarations -/

/-- A declarator of a name, with an operation as its initial value or none. -/
inductive IsDeclarator : Tree → Prop
  | bare {s : String} (hs : isName s = true) :
    IsDeclarator (.node .variableDeclarator [.node .bindingIdentifier [.str s], .absent])
  | initialised {s : String} {e : Tree} (hs : isName s = true) (he : IsOperation e) :
    IsDeclarator (.node .variableDeclarator [.node .bindingIdentifier [.str s], e])

/-- Nothing, an operation, or a declaration of names. -/
inductive IsLoopHead : Tree → Prop
  | absent : IsLoopHead .absent
  | operation {e : Tree} (he : IsOperation e) : IsLoopHead e
  | declaration {kind : String} {ds : List Tree} (hkind : kind ∈ declarationKinds)
    (hds : ∀ d ∈ ds, IsDeclarator d) :
    IsLoopHead (.node .variableDeclaration [.str kind, .list ds])

theorem exposesIn_declarator_iff : ExposesIn (.node .variableDeclarator [b, e]) ↔
    assignment ≤ binding e ∧ ExposesIn e := by
  constructor
  · rintro ⟨⟩
    exact ⟨‹_›, ‹_›⟩
  · exact fun ⟨he, h⟩ => .initialiser he h

theorem exposesIn_declaration_iff {kind : Tree} :
    ExposesIn (.node .variableDeclaration [kind, .list ds]) ↔ ∃ d ∈ ds, ExposesIn d := by
  constructor
  · rintro ⟨⟩
    exact ⟨_, ‹_›, ‹_›⟩
  · exact fun ⟨d, hd, h⟩ => .declarator hd h

/-- A text that is printed, with words and signs that have an `in` outside parentheses just if
there should be one. -/
structure Shows (printing : Printing String) (bare : Prop) (text : String) (ts : List String) :
    Prop where
  text_eq : printing = .ok text
  spells : Spells true text.toList ts
  level : Level ts bare

theorem exists_declaratorText (h : IsDeclarator d) :
    ∃ text ts, Shows (pieceOf d).declarator (ExposesIn d) text ts := by
  cases h with
  | @bare s hs =>
    refine ⟨s, [s], rfl, .name hs, (Level.nil.cons (isSolid_of_isName hs)).congr ?_⟩
    rw [exposesIn_declarator_iff]
    exact iff_of_false (by simp [ne_in_of_isName hs]) fun h =>
      not_exposesIn_absent h.2
  | @initialised s e hs he =>
    obtain ⟨_, htext⟩ := exists_isText he
    obtain ⟨x, hx⟩ := htext.prints assignment
    have hlevel := (level_tokens he).inPlace assignment e
    refine ⟨s ++ "=" ++ x, [s] ++ "=" :: inPlace assignment e (tokens e), ?_,
      spells_assignment hs List.mem_cons_self hx.spells hx.begins,
      (level_assignment hs (by decide) (by decide) hlevel).congr exposesIn_declarator_iff.symm⟩
    change (if (pieceOf e).isAbsent then pure s
      else (pieceOf e).expression assignment >>= fun x => pure (s ++ "=" ++ x)) = _
    rw [htext.printsAs.isAbsent, hx.expression]
    rfl

/-- Declarators are printed one after the other. -/
theorem exists_declaratorsText (h : ∀ d ∈ ds, IsDeclarator d) :
    ∃ texts ts, (piecesOf ds).mapM Piece.declarator = .ok texts ∧ texts.length = ds.length ∧
      Spells true (commaList texts).toList ts ∧ Level ts (∃ d ∈ ds, ExposesIn d) := by
  induction ds with
  | nil => exact ⟨[], [], rfl, rfl, Spells.nil.opened, Level.nil.congr (by simp)⟩
  | cons d ds ih =>
    obtain ⟨x, ts, hx⟩ := exists_declaratorText (h d List.mem_cons_self)
    obtain ⟨texts, us, htexts, hlength, hspells, hlevel⟩ :=
      ih fun d hd => h d (List.mem_cons_of_mem _ hd)
    have hall : (piecesOf (d :: ds)).mapM Piece.declarator = .ok (x :: texts) := by
      rw [piecesOf, List.mapM_cons, hx.text_eq, htexts]
      rfl
    rcases eq_or_ne texts [] with rfl | hne
    · obtain rfl : ds = [] := List.eq_nil_of_length_eq_zero hlength.symm
      refine ⟨[x], ts, hall, rfl, ?_, hx.level.congr (by simp)⟩
      rw [commaList, String.intercalate_singleton]
      exact hx.spells
    · have htext : (commaList (x :: texts)).toList =
          x.toList ++ (",".toList ++ (commaList texts).toList) := by
        rw [commaList, String.intercalate_cons_of_ne_nil hne, String.toList_append,
          String.toList_append, List.append_assoc]
        rfl
      refine ⟨x :: texts, ts ++ "," :: us, hall, by simp [hlength], ?_, ?_⟩
      · rw [htext]
        exact hx.spells.append_mark (by decide) hspells
      · exact (hx.level.append (hlevel.cons (by decide))).congr (by simp)

theorem exists_declarationText {kind : String} (hkind : kind ∈ declarationKinds)
    (h : ∀ d ∈ ds, IsDeclarator d) :
    ∃ text ts, Shows (pieceOf (.node .variableDeclaration [.str kind, .list ds])).variableDeclaration
      (∃ d ∈ ds, ExposesIn d) text ts := by
  obtain ⟨texts, ts, htexts, -, hspells, hlevel⟩ := exists_declaratorsText h
  have hword : kind.toList ≠ [] ∧ kind.toList.all isNameChar = true := by
    have hall : ∀ kind ∈ declarationKinds,
        kind.toList ≠ [] ∧ kind.toList.all isNameChar = true := by
      decide
    exact hall kind hkind
  refine ⟨kind ++ " " ++ commaList texts, kind :: ts, ?_, ?_, ?_⟩
  · change ((piecesOf ds).mapM Piece.declarator >>= fun texts =>
      pure (kind ++ " " ++ commaList texts)) = _
    rw [htexts]
    rfl
  · have hfirst := (Spells.word hword.1 hword.2).append hspells.blank (List.cons_ne_nil _ _)
      stops_blank
    simpa using hfirst
  · refine (hlevel.cons (isSolid_of_operator (by simp [hkind]))).congr ?_
    rw [or_iff_right (ne_in_of_operator (by simp [hkind]))]

/-! ## Heads -/

/-- What is printed of the beginning of a loop. -/
def beginningText (p : Piece) : Printing String := do
  if p.isAbsent then return ""
  else match ← p.kind with
    | .variableDeclaration => p.variableDeclaration
    | _ => p.expression sequence

theorem forText_eq_beginning {f : Printing Form} (h : IsLoopHead init) :
    let p := Piece.node .forStatement (piecesOf [init, test, update, body]) f
    forText p = (do
      let init ← beginningText (pieceOf init)
      let test ← p.optionalExpression "test"
      let update ← p.optionalExpression "update"
      let (body, semicolon) ← p.statementOf "body"
      return ("for" ++ inParens (init ++ ";" ++ test ++ ";" ++ update) ++ body, semicolon)) := by
  cases h with
  | absent => rfl
  | operation he => cases he <;> rfl
  | declaration => rfl

theorem exists_beginningText (h : IsLoopHead init) :
    ∃ text ts, Shows (beginningText (pieceOf init)) (ExposesIn init) text ts := by
  cases h with
  | absent =>
    exact ⟨"", [], rfl, Spells.nil.opened, Level.nil.congr (iff_of_false id not_exposesIn_absent)⟩
  | operation he =>
    obtain ⟨x, hx⟩ := exists_isText he
    refine ⟨x, tokens init, ?_, hx.spells, level_tokens he⟩
    have htext : beginningText (pieceOf init) = (pieceOf init).expression sequence := by
      cases he <;> rfl
    rw [htext, hx.printsAs.expression_eq, if_neg (by simp [sequence])]
  | declaration hkind hds =>
    obtain ⟨x, ts, hx⟩ := exists_declarationText hkind hds
    exact ⟨x, ts, hx.text_eq, hx.spells, hx.level.congr exposesIn_declaration_iff.symm⟩

theorem source_of_statementText {k : Kind} {fields : List Tree} {needed : Bool}
    (hk : statementKinds.contains k = true)
    (h : statementText k (.node k (piecesOf fields) (.error .malformed)) = .ok (x, needed)) :
    (Tree.node k fields).source = .ok x := by
  rw [Tree.source, Tree.printed, pieceOf, formOf, if_pos hk, h]
  rfl

/-- A loop is printed with what it begins with, up to the first semicolon. -/
theorem exists_forSource (hinit : IsLoopHead init)
    (hparts : ∀ v ∈ [init, test, update, body], v.Each (Printed extra))
    (htest : FitsType false (.maybe expression) test)
    (hupdate : FitsType false (.maybe expression) update) (hbody : FitsType false statement body) :
    ∃ head rest,
      (Tree.node .forStatement [init, test, update, body]).source =
        .ok ("for(" ++ head ++ ";" ++ rest) ∧
      ';' ∉ head.toList ∧ (hasBareIn 0 (lex head.toList) = true ↔ ExposesIn init) := by
  obtain ⟨i, ts, hi⟩ := exists_beginningText hinit
  have htestText : Writes extra ((Piece.node .forStatement (piecesOf [init, test, update, body])
      (.error .malformed)).optionalExpression "test") (RawWithin extra test) :=
    writes_optionalExpression rfl (hparts test (by simp)) htest
  have hupdateText : Writes extra ((Piece.node .forStatement (piecesOf [init, test, update, body])
      (.error .malformed)).optionalExpression "update") (RawWithin extra update) :=
    writes_optionalExpression rfl (hparts update (by simp)) hupdate
  obtain ⟨x, hx, -⟩ := htestText
  obtain ⟨y, hy, -⟩ := hupdateText
  obtain ⟨⟨z, needed⟩, hz, -⟩ := writes_statement (hparts body (by simp)) hbody
  have hz' : (Piece.node .forStatement (piecesOf [init, test, update, body])
      (.error .malformed)).statementOf "body" = .ok (z, needed) := hz
  have hfor : forText (.node .forStatement (piecesOf [init, test, update, body])
      (.error .malformed)) =
      .ok ("for" ++ inParens (i ++ ";" ++ x ++ ";" ++ y) ++ z, needed) := by
    rw [forText_eq_beginning hinit, hi.text_eq, hx, hy, hz']
    rfl
  have htext : "for" ++ inParens (i ++ ";" ++ x ++ ";" ++ y) ++ z =
      "for(" ++ i ++ ";" ++ (x ++ ";" ++ y ++ ")" ++ z) :=
    String.toList_inj.1 (by simp [inParens])
  rw [htext] at hfor
  refine ⟨i, _, source_of_statementText rfl hfor, ?_, ?_⟩
  · intro hmem
    obtain ⟨w, hw, hsemicolon⟩ := exists_mem_lex hmem (by decide)
    rw [hi.spells.lex_eq] at hw
    exact hi.level.plain w hw hsemicolon
  · rw [hi.spells.lex_eq, hi.level.hasBareIn_iff]

/-! ## Valid programs -/

/-- The kinds of the nodes of what a loop begins with. -/
def operationKinds : List Kind := [
  .identifierExpression, .binaryExpression, .unaryExpression, .conditionalExpression,
  .updateExpression, .assignmentExpression, .compoundAssignmentExpression,
  .assignmentTargetIdentifier, .variableDeclaration, .variableDeclarator, .bindingIdentifier]

theorem spelling_eq_nil_iff : Rules.spelling s true = [] ↔ isName s = true := by
  rw [isName_iff, Rules.spelling]
  cases Rules.isIdentifierName s <;> simp [EarlyError.when]

section

variable {context : Context}

theorem exists_target {v : Tree} (hkinds : v.Each fun k _ => k ∈ operationKinds)
    (hfits : FitsType false simpleTarget v) (hclean : Clean context v) :
    ∃ s, v = target s ∧ isName s = true := by
  obtain ⟨k, fields, rfl, hk, hfields⟩ := fitsType_kinds rfl [.assignmentTargetIdentifier,
    .computedMemberAssignmentTarget, .staticMemberAssignmentTarget] (by decide) hfits
  have hmem : k ∈ operationKinds := hkinds.own
  simp only [List.mem_cons, List.not_mem_nil, or_false] at hk
  rcases hk with rfl | rfl | rfl
  · obtain ⟨_, rfl, hs⟩ := (fit_one rfl rfl).1 hfields
    obtain ⟨s, rfl⟩ := fitsType_string.1 hs
    have herrors := (clean_leaves (by simp [Tree.isLeaf])).1 hclean
    exact ⟨s, rfl, spelling_eq_nil_iff.1 (Option.some.inj herrors)⟩
  · exact absurd hmem (by decide)
  · exact absurd hmem (by decide)

/-- An expression that breaks no rule and has operators and variables only is an operation. -/
theorem isOperation_of_clean (hkinds : e.Each fun k _ => k ∈ operationKinds)
    (hfits : FitsType false expression e) (hclean : Clean context e) : IsOperation e := by
  induction hkinds generalizing context with
  | @intro t own parts ih =>
    obtain ⟨k, fields, rfl, hk, hfields⟩ := fitsType_kinds rfl expressionKinds (by decide) hfits
    have hmem : k ∈ operationKinds := own k fields rfl
    have hvalue : ∀ v ∈ fields, ∀ {context : Context}, FitsType false expression v →
      Clean context v → IsOperation v := fun v hv => ih v hv
    have hparts : ∀ v ∈ fields, v.Each fun k _ => k ∈ operationKinds := parts
    simp only [operationKinds, List.mem_cons, List.not_mem_nil, or_false] at hmem
    rcases hmem with rfl | rfl | rfl | rfl | rfl | rfl | rfl | hother
    · obtain ⟨_, rfl, hs⟩ := (fit_one rfl rfl).1 hfields
      obtain ⟨s, rfl⟩ := fitsType_string.1 hs
      have herrors := (clean_leaves (by simp [Tree.isLeaf])).1 hclean
      exact .reference (spelling_eq_nil_iff.1 (Option.some.inj herrors))
    · obtain ⟨l, _, r, rfl, hl, ho, hr⟩ := (fit_three rfl rfl).1 hfields
      obtain ⟨o, hword, rfl⟩ := fitsType_enum.1 ho
      obtain ⟨-, hleft, -, hright⟩ := (clean_three rfl rfl rfl rfl).1 hclean
      exact .binary (hvalue l (by simp) hl hleft) hword (hvalue r (by simp) hr hright)
    · obtain ⟨_, a, rfl, ho, ha⟩ := (fit_two rfl rfl).1 hfields
      obtain ⟨o, hword, rfl⟩ := fitsType_enum.1 ho
      obtain ⟨-, -, hoperand⟩ := (clean_two rfl rfl rfl).1 hclean
      exact .unary hword (hvalue a (by simp) ha hoperand)
    · obtain ⟨a, b, c, rfl, ha, hb, hc⟩ := (fit_three rfl rfl).1 hfields
      obtain ⟨-, htest, hconsequent, halternate⟩ := (clean_three rfl rfl rfl rfl).1 hclean
      exact .conditional (hvalue a (by simp) ha htest) (hvalue b (by simp) hb hconsequent)
        (hvalue c (by simp) hc halternate)
    · obtain ⟨_, _, w, rfl, hprefix, ho, hw⟩ := (fit_three rfl rfl).1 hfields
      obtain ⟨isPrefix, rfl⟩ := fitsType_boolean.1 hprefix
      obtain ⟨o, hword, rfl⟩ := fitsType_enum.1 ho
      obtain ⟨-, -, -, htarget⟩ := (clean_three rfl rfl rfl rfl).1 hclean
      obtain ⟨s, rfl, hs⟩ := exists_target (hparts w (by simp)) hw htarget
      exact .update isPrefix hword hs
    · obtain ⟨w, a, rfl, hw, ha⟩ := (fit_two rfl rfl).1 hfields
      obtain ⟨-, htarget, hassigned⟩ := (clean_two rfl rfl rfl).1 hclean
      obtain ⟨s, rfl, hs⟩ := exists_target (hparts w (by simp)) hw htarget
      exact .assignment hs (hvalue a (by simp) ha hassigned)
    · obtain ⟨w, _, a, rfl, hw, ho, ha⟩ := (fit_three rfl rfl).1 hfields
      obtain ⟨o, hword, rfl⟩ := fitsType_enum.1 ho
      obtain ⟨-, htarget, -, hassigned⟩ := (clean_three rfl rfl rfl rfl).1 hclean
      obtain ⟨s, rfl, hs⟩ := exists_target (hparts w (by simp)) hw htarget
      exact .compound hs hword (hvalue a (by simp) ha hassigned)
    · rcases hother with rfl | rfl | rfl | rfl <;> exact absurd hk (by decide)

theorem isDeclarator_of_clean (hkinds : d.Each fun k _ => k ∈ operationKinds)
    (hfits : FitsType false (.node .variableDeclarator) d) (hclean : Clean context d) :
    IsDeclarator d := by
  obtain ⟨fields, rfl, hfields⟩ := fitsType_node.1 hfits
  obtain ⟨b, e, rfl, hb, he⟩ := (fit_two rfl rfl).1 hfields
  obtain ⟨-, hname, hvalue⟩ := (clean_two rfl rfl rfl).1 hclean
  obtain ⟨s, rfl⟩ := exists_name (fitsType_binding.1 hb)
  have hbinding := clean_binding.1 hname
  have hs : isName s = true := by
    have hne := ne_defaultExportName rfl hbinding
    rw [Rules.binding, if_neg (by simpa using hne)] at hbinding
    exact spelling_eq_nil_iff.1 (List.append_eq_nil_iff.1 hbinding).1
  rcases (fitsType_optional rfl).1 he with rfl | ⟨-, he⟩
  · exact .bare hs
  · exact .initialised hs (isOperation_of_clean (hkinds.part (by simp)) he hvalue)

/-- What a loop of a valid program begins with, if it has operators and variables only. -/
theorem isLoopHead_of_clean (hkinds : init.Each fun k _ => k ∈ operationKinds)
    (hfits : FitsType false (.maybe (.union [.node .variableDeclaration, expression])) init)
    (hclean : Clean context init) : IsLoopHead init := by
  rcases (fitsType_optional rfl).1 hfits with rfl | ⟨-, hfits⟩
  · exact .absent
  obtain ⟨k, fields, rfl, hk, hfields⟩ := fitsType_kinds rfl
    (.variableDeclaration :: expressionKinds) (by decide) hfits
  rcases List.mem_cons.1 hk with rfl | hk
  · obtain ⟨_, _, rfl, hkind, hds⟩ := (fit_two rfl rfl).1 hfields
    obtain ⟨kind, hword, rfl⟩ := fitsType_enum.1 hkind
    obtain ⟨ds, rfl, hitems⟩ := (fitsType_list rfl).1 hds
    obtain ⟨-, -, hlist⟩ := (clean_two rfl rfl rfl).1 hclean
    have heach : (Tree.list ds).Each fun k _ => k ∈ operationKinds := hkinds.part (by simp)
    refine .declaration hword fun d hd => ?_
    obtain ⟨fields, rfl, -⟩ := fitsType_node.1 (hitems d hd)
    exact isDeclarator_of_clean (heach.item hd) (hitems _ hd) (clean_list.1 hlist _ fields hd)
  · have hexpression : ∀ k ∈ expressionKinds, k.isExpression = true := by decide
    have hfits := fitsType_expression.2 ⟨k, fields, rfl, hexpression k hk, hfields⟩
    exact .operation (isOperation_of_clean hkinds hfits hclean)

end

/-- In the head of a loop of a valid program, between the parenthesis and the first semicolon, the
word `in` stands outside parentheses just if what the loop begins with exposes one. -/
theorem for_source_hasBareIn_iff (hvalid : t.isValid = true)
    (hget : t.get p = .ok (.node .forStatement [init, test, update, body]))
    (hkinds : init.Each fun k _ => k ∈ operationKinds) :
    ∃ head rest, (Tree.node .forStatement [init, test, update, body]).source =
        .ok ("for(" ++ head ++ ";" ++ rest) ∧
      ';' ∉ head.toList ∧ (hasBareIn 0 (lex head.toList) = true ↔ ExposesIn init) := by
  obtain ⟨hfit, hclean⟩ := isValid_iff.1 hvalid
  have hwalkable := hfit.walkable.get hget
  obtain ⟨context, hloop⟩ := hclean.get hfit.walkable hget
  obtain ⟨_, _, _, _, heq, hinit, htest, hupdate, hbody⟩ := (fit_four rfl rfl).1 hwalkable
  cases heq
  obtain ⟨-, hinitClean, -⟩ := (clean_four rfl rfl rfl rfl rfl).1 hloop
  have heach : (Tree.node .forStatement [init, test, update, body]).Each
      (Printed fun _ => true) := each_printed_of_walkable hwalkable
  exact exists_forSource (isLoopHead_of_clean hkinds hinit hinitClean) (fun v hv => heach.part hv)
    htest hupdate hbody

/-- A script of a loop that only begins with something and does nothing. -/
def loopScript (init : Tree) : Tree :=
  .node .script [.list [], .list [
    .node .forStatement [init, .absent, .absent, .node .emptyStatement []]]]

/-- The product of a test for a key and a variable, assigned to a variable. -/
def keyProduct : Tree :=
  .node .assignmentExpression [target "a", .node .binaryExpression
    [.node .binaryExpression [reference "b", .str "in", reference "c"], .str "*", reference "d"]]

theorem for_source_hasBareIn_iff_keyProduct :
    (loopScript keyProduct).isValid = true ∧
      (loopScript keyProduct).get [.field "statements", .index 0] = .ok (.node .forStatement
        [keyProduct, .absent, .absent, .node .emptyStatement []]) ∧
      (keyProduct.Each fun k _ => k ∈ operationKinds) ∧
      ∃ head rest, (Tree.node .forStatement
          [keyProduct, .absent, .absent, .node .emptyStatement []]).source =
          .ok ("for(" ++ head ++ ";" ++ rest) ∧
        hasBareIn 0 (lex head.toList) = false := by
  have hvalid : (loopScript keyProduct).isValid = true := by decide +kernel
  have hget : (loopScript keyProduct).get [.field "statements", .index 0] =
      .ok (.node .forStatement [keyProduct, .absent, .absent, .node .emptyStatement []]) := rfl
  have hkinds : keyProduct.Each fun k _ => k ∈ operationKinds := by
    simp +decide [keyProduct, reference, target]
  obtain ⟨head, rest, hsource, -, hiff⟩ := for_source_hasBareIn_iff hvalid hget hkinds
  refine ⟨hvalid, hget, hkinds, head, rest, hsource, ?_⟩
  rw [← Bool.not_eq_true, hiff, keyProduct, exposesIn_assignment_iff, exposesIn_binary_iff]
  -- The operand of the product is put in parentheses.
  rintro ⟨-, ⟨hbinding, -⟩ | hin | ⟨-, h⟩⟩
  · exact absurd hbinding (by decide)
  · exact absurd hin (by decide)
  · cases h

/-- A test for a key. -/
def keyTest : Tree := .node .binaryExpression [reference "a", .str "in", reference "b"]

/-- A loop that begins with a test for a key is printed like one over the keys of an object. -/
theorem keyTest_hasBareIn :
    (loopScript keyTest).isValid = true ∧
      (loopScript keyTest).get [.field "statements", .index 0] = .ok (.node .forStatement
        [keyTest, .absent, .absent, .node .emptyStatement []]) ∧
      (keyTest.Each fun k _ => k ∈ operationKinds) ∧
      (loopScript keyTest).source = .ok ("for(" ++ "a in b" ++ ";" ++ ";);") ∧
      hasBareIn 0 (lex "a in b".toList) = true := by
  have hoperation : IsOperation keyTest :=
    .binary (.reference (by decide)) (by decide) (.reference (by decide))
  obtain ⟨text, htext, hlex⟩ := exists_source hoperation
  obtain rfl : text = "a in b" := Except.ok.inj (htext.symm.trans rfl)
  refine ⟨by decide +kernel, rfl, by simp +decide [keyTest, reference], rfl, ?_⟩
  rw [hlex]
  decide

end Whittle.Source
