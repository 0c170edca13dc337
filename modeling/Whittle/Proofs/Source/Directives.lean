import Whittle.Proofs.Source.Printed

/-!
# Directives read back as string literals

A directive is printed as a string literal: its raw text between two quotes, single ones if there
is a double quote in it. What is in the raw text is not looked at any closer, although it may well
have a double quote that is escaped and a single one that is not. So a list of directives is read
back as string literals with just those raw texts, before the same statements, unless that is so
of one of them.
-/

namespace Whittle.Source

open Grammar Whittle.Language

variable {r : String} {rs : List String} {q : Char} {escaped : Bool} {cs rest : List Char}
  {k : Kind} {items : List Tree}

/-! ## Bodies of string literals -/

/-- Whether a character escapes the one after it: it is a backslash that is not escaped itself. -/
def escapesNext (escaped : Bool) (c : Char) : Bool := !escaped && c == Text.backslash

/-- Whether a quote stands somewhere in a text without a backslash that escapes it. -/
def standsUnescaped (q : Char) : (escaped : Bool) → List Char → Bool
  | _, [] => false
  | escaped, c :: cs => !escaped && c == q || standsUnescaped q (escapesNext escaped c) cs

/-- Whether a text ends in a backslash that escapes whatever follows the text. -/
def endsEscaping : (escaped : Bool) → List Char → Bool
  | escaped, [] => escaped
  | escaped, c :: cs => endsEscaping (escapesNext escaped c) cs

/-- Whether a character ends a line. -/
def isLineBreak (c : Char) : Bool :=
  c == '\n' || c == '\r' || c.toNat == 0x2028 || c.toNat == 0x2029

/-- A text that may stand between the quotes of a string literal, be they single or double. -/
structure IsLiteralBody (r : String) : Prop where
  noLineBreak : r.toList.any isLineBreak = false
  closed : endsEscaping false r.toList = false
  quotable : standsUnescaped Text.singleQuote false r.toList = false ∨
    standsUnescaped Text.doubleQuote false r.toList = false

/-! ## Reading string literals -/

/-- The body of a string literal up to the quote that ends it, and what follows that quote. -/
def literalBody? (q : Char) : (escaped : Bool) → List Char → Option (List Char × List Char)
  | _, [] => none
  | escaped, c :: cs =>
    if !escaped && c == q then some ([], cs)
    else if !escaped && isLineBreak c then none
    else (literalBody? q (escapesNext escaped c) cs).map fun (body, rest) => (c :: body, rest)

/-- The body of the string literal at the beginning of a text, and what follows it. -/
def literal? : List Char → Option (String × List Char)
  | [] => none
  | q :: cs =>
    if q == Text.singleQuote || q == Text.doubleQuote then
      (literalBody? q false cs).map fun (body, rest) => (String.ofList body, rest)
    else none

/-- What follows a semicolon, or the end of the text. -/
def pastSemicolon? : List Char → Option (List Char)
  | [] => some []
  | c :: cs => if c == ';' then some cs else none

/-- The bodies of so many string literals, each with a semicolon after it unless the text ends,
and what follows them. -/
def literals? : Nat → List Char → Option (List String × List Char)
  | 0, cs => some ([], cs)
  | n + 1, cs => do
    let (body, cs) ← literal? cs
    let (bodies, rest) ← literals? n (← pastSemicolon? cs)
    some (body :: bodies, rest)

/-- A text in which the quote does not stand unescaped is the body of a literal in such quotes. -/
theorem literalBody?_append (hq : standsUnescaped q escaped cs = false)
    (hclosed : endsEscaping escaped cs = false) (hline : cs.any isLineBreak = false) :
    literalBody? q escaped (cs ++ q :: rest) = some (cs, rest) := by
  induction cs generalizing escaped with
  | nil =>
    obtain rfl : escaped = false := hclosed
    simp [literalBody?]
  | cons c cs ih =>
    rw [standsUnescaped, Bool.or_eq_false_iff] at hq
    rw [List.any_cons, Bool.or_eq_false_iff] at hline
    simp [literalBody?, hq.1, hline.1, ih hq.2 hclosed hline.2]

/-- Where the quote stands unescaped in a text, a literal in such quotes ends within it. -/
theorem length_lt_of_literalBody? {body rest' : List Char}
    (hq : standsUnescaped q escaped cs = true)
    (h : literalBody? q escaped (cs ++ rest) = some (body, rest')) : body.length < cs.length := by
  induction cs generalizing escaped body with
  | nil => cases hq
  | cons c cs ih =>
    rw [List.cons_append, literalBody?] at h
    split at h
    · cases h
      simp
    · rename_i hends
      split at h
      · cases h
      · obtain ⟨⟨tail, rest''⟩, htail, heq⟩ := Option.map_eq_some_iff.1 h
        cases heq
        rw [standsUnescaped, Bool.or_eq_true] at hq
        simpa using ih (hq.resolve_left hends) htail

/-! ## One directive -/

/-- A directive with the given raw text. -/
def directive (r : String) : Tree := .node .directive [.str r]

/-- A text between two quotes of a kind. -/
def between (q : Char) (r : String) : String := String.singleton q ++ r ++ String.singleton q

/-- The quote that a directive is printed with. -/
def directiveQuote (r : String) : Char :=
  if Text.doubleQuote ∈ r.toList then Text.singleQuote else Text.doubleQuote

/-- The directive is printed as its raw text between two quotes that do not stand in it
unescaped. -/
def IsLossless (r : String) : Prop :=
  ∃ q ∈ [Text.singleQuote, Text.doubleQuote], (directive r).source = .ok (between q r) ∧
    standsUnescaped q false r.toList = false

/-- A text with a double quote, escaped or not, and an unescaped single quote. -/
def IsMixed (r : String) : Prop :=
  Text.doubleQuote ∈ r.toList ∧ standsUnescaped Text.singleQuote false r.toList = true

theorem toList_between : (between q r).toList = q :: (r.toList ++ [q]) := by
  simp [between]

theorem directiveText_eq (r : String) :
    directiveText (.str r) = between (directiveQuote r) r := by
  unfold directiveText directiveQuote
  by_cases h : Text.doubleQuote ∈ r.toList
  · rw [if_pos (by simpa [hasDoubleQuote] using h), if_pos h]
    rfl
  · rw [if_neg (by simpa [hasDoubleQuote] using h), if_neg h]
    rfl

theorem directive_source (r : String) :
    (directive r).source = .ok (between (directiveQuote r) r) := by
  rw [← directiveText_eq]
  rfl

theorem directiveQuote_mem (r : String) :
    directiveQuote r ∈ [Text.singleQuote, Text.doubleQuote] := by
  unfold directiveQuote
  split <;> simp

/-- What is not in a text does not stand there unescaped. -/
theorem mem_of_standsUnescaped (h : standsUnescaped q escaped cs = true) : q ∈ cs := by
  induction cs generalizing escaped with
  | nil => cases h
  | cons c cs ih =>
    rw [standsUnescaped, Bool.or_eq_true] at h
    rcases h with h | h
    · obtain ⟨-, hc⟩ := Bool.and_eq_true_iff.1 h
      exact eq_of_beq hc ▸ List.mem_cons_self
    · exact List.mem_cons_of_mem _ (ih h)

/-- The quote of a directive stands unescaped in just the raw texts that have both quotes so. -/
theorem standsUnescaped_directiveQuote :
    standsUnescaped (directiveQuote r) false r.toList = true ↔ IsMixed r := by
  unfold directiveQuote IsMixed
  by_cases h : Text.doubleQuote ∈ r.toList
  · rw [if_pos h, and_iff_right h]
  · rw [if_neg h]
    exact ⟨fun hq => absurd (mem_of_standsUnescaped hq) h, fun hq => absurd hq.1 h⟩

theorem isLossless_iff : IsLossless r ↔ ¬ IsMixed r := by
  rw [← standsUnescaped_directiveQuote, Bool.not_eq_true]
  constructor
  · rintro ⟨q, -, hsource, hq⟩
    have htext : (between (directiveQuote r) r).toList = (between q r).toList :=
      congrArg String.toList (Except.ok.inj ((directive_source r).symm.trans hsource))
    rw [toList_between, toList_between] at htext
    rwa [(List.cons.inj htext).1]
  · intro hq
    exact ⟨directiveQuote r, directiveQuote_mem r, directive_source r, hq⟩

theorem literal?_between (hq : q ∈ [Text.singleQuote, Text.doubleQuote]) :
    literal? ((between q r).toList ++ rest) =
      (literalBody? q false (r.toList ++ q :: rest)).map
        fun (body, rest) => (String.ofList body, rest) := by
  have hquote : (q == Text.singleQuote || q == Text.doubleQuote) = true := by
    simpa using hq
  simp [toList_between, literal?, hquote]

theorem literal?_directiveText (hr : IsLiteralBody r) (hmixed : ¬ IsMixed r) :
    literal? ((directiveText (.str r)).toList ++ rest) = some (r, rest) := by
  rw [← standsUnescaped_directiveQuote, Bool.not_eq_true] at hmixed
  rw [directiveText_eq, literal?_between (directiveQuote_mem r),
    literalBody?_append hmixed hr.closed hr.noLineBreak]
  simp

theorem ne_of_literal?_directiveText {body : String} {rest' : List Char} (hmixed : IsMixed r)
    (h : literal? ((directiveText (.str r)).toList ++ rest) = some (body, rest')) : body ≠ r := by
  rw [directiveText_eq, literal?_between (directiveQuote_mem r)] at h
  obtain ⟨⟨cs, rest''⟩, hbody, heq⟩ := Option.map_eq_some_iff.1 h
  cases heq
  have hlt := length_lt_of_literalBody? (standsUnescaped_directiveQuote.2 hmixed) hbody
  rintro rfl
  simp at hlt

/-! ## Lists of directives -/

/-- Directives as they are printed before statements. -/
def directiveTexts (rs : List String) : List (String × Bool) :=
  rs.map fun r => (directiveText (.str r), true)

/-- What is left after the first of some printed statements, from its semicolon on. -/
theorem exists_joined_cons (text : String) (xs : List (String × Bool)) :
    ∃ tail, (joined ((text, true) :: xs)).toList = text.toList ++ tail ∧
      pastSemicolon? tail = some (joined xs).toList := by
  cases xs with
  | nil => exact ⟨[], by simp [joined], rfl⟩
  | cons x xs => exact ⟨';' :: (joined (x :: xs)).toList, by simp [joined], rfl⟩

/-- Directives before statements are read back as string literals with their raw texts just if
none of these has a double quote and an unescaped single one. -/
theorem literals?_joined_iff (hrs : ∀ r ∈ rs, IsLiteralBody r) (xs : List (String × Bool)) :
    literals? rs.length (joined (directiveTexts rs ++ xs)).toList =
      some (rs, (joined xs).toList) ↔ ∀ r ∈ rs, ¬ IsMixed r := by
  induction rs with
  | nil => simp [literals?, directiveTexts]
  | cons r rs ih =>
    obtain ⟨hr, hrest⟩ := List.forall_mem_cons.1 hrs
    obtain ⟨tail, htext, htail⟩ :=
      exists_joined_cons (directiveText (.str r)) (directiveTexts rs ++ xs)
    rw [directiveTexts, List.map_cons, List.cons_append, ← directiveTexts, htext,
      List.length_cons, literals?, List.forall_mem_cons, ← ih hrest]
    by_cases hmixed : IsMixed r
    · refine iff_of_false (fun h => ?_) fun h => h.1 hmixed
      obtain ⟨⟨body, cs⟩, hliteral, h⟩ := Option.bind_eq_some_iff.1 h
      obtain ⟨cs', -, h⟩ := Option.bind_eq_some_iff.1 h
      obtain ⟨⟨bodies, rest⟩, -, h⟩ := Option.bind_eq_some_iff.1 h
      refine ne_of_literal?_directiveText hmixed hliteral ?_
      simp only [Option.some.injEq, Prod.mk.injEq, List.cons.injEq] at h
      exact h.1.1
    · rw [literal?_directiveText hr hmixed, and_iff_right hmixed]
      simp only [Option.bind_eq_bind, Option.bind_some, htail]
      constructor
      · intro h
        obtain ⟨⟨bodies, rest⟩, hrest, h⟩ := Option.bind_eq_some_iff.1 h
        simp only [Option.some.injEq, Prod.mk.injEq, List.cons.injEq, true_and] at h
        rw [hrest, h.1, h.2]
      · intro h
        rw [h]
        rfl

/-! ## Programs and functions -/

/-- The kinds that have directives before their statements. -/
def directiveHolders : List Kind := [.script, .esModule, .functionBody]

/-- Directives and statements as their holder has them: the body of a function in braces. -/
def held (k : Kind) (text : String) : String := if k = .functionBody then braced text else text

theorem mapM_directives (rs : List String) :
    (piecesOf (rs.map directive)).mapM (·.valueOf "raw_value") = .ok (rs.map Tree.str) := by
  induction rs with
  | nil => rfl
  | cons r rs ih =>
    rw [List.map_cons, piecesOf, List.mapM_cons, ih]
    rfl

theorem body_directives {xs : List (String × Bool)}
    (hxs : (piecesOf items).mapM (·.statement) = .ok xs) :
    Piece.body (pieceOf (.list (rs.map directive))) (pieceOf (.list items)) =
      .ok (joined (directiveTexts rs ++ xs)) := by
  have hdirectives : (piecesOf (rs.map directive)).mapM (·.valueOf "raw_value") =
      .ok (rs.map Tree.str) := mapM_directives rs
  simp [Piece.body, pieceOf, Piece.items, hdirectives, hxs, bind, Except.bind, pure, Except.pure,
    directiveTexts, Function.comp_def]

theorem source_of_directives (hk : k ∈ directiveHolders) {xs : List (String × Bool)}
    (hxs : (piecesOf items).mapM (·.statement) = .ok xs) (rs : List String) :
    (Tree.node k [.list (rs.map directive), .list items]).source =
      .ok (held k (joined (directiveTexts rs ++ xs))) := by
  have hbody : Piece.body (pieceOf (.list (rs.map directive))) (pieceOf (.list items)) =
      .ok (joined (directiveTexts rs ++ xs)) := body_directives hxs
  have hform : formOf k (piecesOf [.list (rs.map directive), .list items]) =
      .ok (.fragment (.str (held k (joined (directiveTexts rs ++ xs))))) := by
    simp only [directiveHolders, List.mem_cons, List.not_mem_nil, or_false] at hk
    rcases hk with rfl | rfl | rfl
    · change (Piece.body (pieceOf (.list (rs.map directive))) (pieceOf (.list items)) >>= _)
        >>= _ = _
      rw [hbody]
      rfl
    · change (Piece.body (pieceOf (.list (rs.map directive))) (pieceOf (.list items)) >>= _)
        >>= _ = _
      rw [hbody]
      rfl
    · -- a function puts its body in braces first
      change ((Piece.body (pieceOf (.list (rs.map directive))) (pieceOf (.list items)) >>= _)
        >>= _) >>= _ = _
      rw [hbody]
      rfl
  rw [Tree.source, Tree.printed, pieceOf, hform]
  rfl

/-- The statements or items of a well-typed holder are printed. -/
theorem exists_statements {ds : Tree} (hk : k ∈ directiveHolders)
    (ht : (Tree.node k [ds, .list items]).wellTyped = true) :
    ∃ xs, (piecesOf items).mapM (·.statement) = .ok xs := by
  have heach : (Tree.node k [ds, .list items]).Each (Printed fun _ => true) :=
    each_printed_of_wellTyped ht
  have hfits : FieldsFit false k k.slots [ds, .list items] := heach.own.fits
  have hitems : (Tree.list items).Each (Printed fun _ => true) := heach.part (by simp)
  simp only [directiveHolders, List.mem_cons, List.not_mem_nil, or_false] at hk
  rcases hk with rfl | rfl | rfl
  all_goals
    obtain ⟨_, _, heq, -, hlist⟩ := (fit_two rfl rfl).1 hfits
    cases heq
    obtain ⟨_, heq, hfit⟩ := (fitsType_list rfl).1 hlist
    cases heq
  · exact (gives_statements hitems hfit).imp fun _ => And.left
  · exact (gives_moduleItems hitems hfit).imp fun _ => And.left
  · exact (gives_statements hitems hfit).imp fun _ => And.left

/-- Raw texts that may be between quotes are printed as directives without loss, alone and in
front of any statements, just if none of them has a double quote and an unescaped single one. -/
theorem directives_source_iff (hrs : ∀ r ∈ rs, IsLiteralBody r) :
    (∀ r ∈ rs, IsLossless r ↔ ¬ IsMixed r) ∧
    ∀ {k : Kind} {items : List Tree}, k ∈ directiveHolders →
      (Tree.node k [.list (rs.map directive), .list items]).wellTyped = true →
      ∃ x y, (Tree.node k [.list (rs.map directive), .list items]).source = .ok (held k x) ∧
        (Tree.node k [.list [], .list items]).source = .ok (held k y) ∧
        (literals? rs.length x.toList = some (rs, y.toList) ↔ ∀ r ∈ rs, ¬ IsMixed r) := by
  refine ⟨fun r _ => isLossless_iff, fun hk ht => ?_⟩
  obtain ⟨xs, hxs⟩ := exists_statements hk ht
  exact ⟨joined (directiveTexts rs ++ xs), joined xs, source_of_directives hk hxs rs,
    source_of_directives hk hxs [], literals?_joined_iff hrs xs⟩

/-- Raw texts without quotes, with single ones, with double ones, and with both of which the
single one is escaped. -/
def prologue : List String := ["use strict", "it\x27s", "a\"b", "\"\\\x27"]

theorem directives_source_iff_prologue :
    (∀ r ∈ prologue, IsLiteralBody r) ∧
    (Tree.node .script [.list (prologue.map directive),
      .list [.node .emptyStatement []]]).wellTyped = true ∧
    ∃ x, (Tree.node .script [.list (prologue.map directive),
        .list [.node .emptyStatement []]]).source = .ok x ∧
      literals? 4 x.toList = some (prologue, [';']) := by
  have hbodies : ∀ r ∈ prologue, IsLiteralBody r := by
    have hall : ∀ r ∈ prologue, r.toList.any isLineBreak = false ∧
        endsEscaping false r.toList = false ∧
        (standsUnescaped Text.singleQuote false r.toList = false ∨
          standsUnescaped Text.doubleQuote false r.toList = false) := by
      decide
    exact fun r hr => ⟨(hall r hr).1, (hall r hr).2.1, (hall r hr).2.2⟩
  have hmixed : ∀ r ∈ prologue, ¬ IsMixed r := by
    unfold IsMixed
    decide
  have htyped : (Tree.node .script [.list (prologue.map directive),
      .list [.node .emptyStatement []]]).wellTyped = true := by
    decide
  obtain ⟨x, y, hx, hy, hread⟩ := (directives_source_iff hbodies).2 (by decide) htyped
  obtain rfl : ";" = y := Except.ok.inj hy
  exact ⟨hbodies, htyped, x, hx, hread.2 hmixed⟩

/-- An unescaped single quote before a double quote that is escaped. -/
def mixedQuotes : String := "\x27\\\""

/-- Between double quotes this text would be a string literal, but it is printed between single
ones, and the first of these is ended by the quote in the text. -/
theorem mixedQuotes_not_lossless :
    IsLiteralBody mixedQuotes ∧ (directive mixedQuotes).source = .ok "\x27\x27\\\"\x27" ∧
      ¬ IsLossless mixedQuotes := by
  refine ⟨⟨by decide, by decide, by decide⟩, rfl, ?_⟩
  rintro ⟨q, hq, hsource, hunescaped⟩
  have htext : "\x27\x27\\\"\x27" = between q mixedQuotes := Except.ok.inj hsource
  rcases List.mem_pair.1 hq with rfl | rfl
  · exact absurd hunescaped (by decide)
  · exact absurd htext (by decide)

end Whittle.Source
