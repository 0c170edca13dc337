import Whittle.Proofs.Source.Statements

/-!
# Statements read back

The first word or sign of a statement tells what it is. Where it ends is plain but for an `if`,
which goes on with an `else` if there is one. A consequent that would itself go on with it stands
in braces, so every `else` is read as a part of the `if` that it was printed for.
-/

namespace Whittle.Source

/-! ## Reading -/

/-- What is left after an `else`, if there is one after the statement and its semicolon. -/
def afterElse? (c : Tree) (ts : List String) : Option (List String) :=
  match needsSemicolon c, ts with
  | true, ";" :: "else" :: ts => some ts
  | false, "else" :: ts => some ts
  | _, _ => none

/-- What is left after the semicolon that a statement needs. -/
def afterSemicolon? (c : Tree) (ts : List String) : Option (List String) :=
  match needsSemicolon c, ts with
  | true, ";" :: ts => some ts
  | false, ts => some ts
  | _, _ => none

/-- A part of the head of a `for`, which the given sign ends. -/
def readHeadPart (stop : String) : List String → Option (Tree × List String)
  | [] => none
  | w :: ts =>
    if w = stop then some (.absent, ts)
    else match ts with
      | v :: ts => if v = stop then some (reference w, ts) else none
      | [] => none

/-- A variable in parentheses. -/
def readTest : List String → Option (Tree × List String)
  | "(" :: s :: ")" :: ts => some (reference s, ts)
  | _ => none

/-- What follows the head of an `if`, by a reader of statements. -/
def readBranches (read : List String → Option (Tree × List String)) (e : Tree)
    (ts : List String) : Option (Tree × List String) :=
  if ts.head? = some "\x7b" then do
    match ← read ts.tail with
    | (c, "\x7d" :: "else" :: ts) =>
      let (a, ts) ← read ts
      some (.node .ifStatement [e, c, a], ts)
    | _ => none
  else do
    let (c, ts) ← read ts
    match afterElse? c ts with
    | some ts =>
      let (a, ts) ← read ts
      some (.node .ifStatement [e, c, a], ts)
    | none => some (.node .ifStatement [e, c, .absent], ts)

/-- The statement at the beginning of some words and signs, and what is left. -/
def readStatement : Nat → List String → Option (Tree × List String)
  | 0, _ | _ + 1, [] => none
  | n + 1, w :: ts =>
    if w = ";" then some (.node .emptyStatement [], ts)
    else if w = "(" then do
      let (e, ts) ← readTest (w :: ts)
      some (.node .expressionStatement [e], ts)
    else if w = "if" then do
      let (e, ts) ← readTest ts
      readBranches (readStatement n) e ts
    else if w = "while" then do
      let (e, ts) ← readTest ts
      let (b, ts) ← readStatement n ts
      some (.node .whileStatement [e, b], ts)
    else if w = "do" then do
      let (b, ts) ← readStatement n ts
      match ← afterSemicolon? b ts with
      | "while" :: ts =>
        let (e, ts) ← readTest ts
        some (.node .doWhileStatement [b, e], ts)
      | _ => none
    else if w = "for" then do
      let (i, ts) ← readHeadPart ";" ts.tail
      let (t, ts) ← readHeadPart ";" ts
      let (u, ts) ← readHeadPart ")" ts
      let (b, ts) ← readStatement n ts
      some (.node .forStatement [i, t, u, b], ts)
    else if ts.head? = some ":" then do
      let (b, ts) ← readStatement n ts.tail
      some (.node .labeledStatement [.str w, b], ts)
    else some (.node .expressionStatement [reference w], ts)

/-- Statements one after another, to the end. -/
def readStatements : Nat → List String → Option (List Tree)
  | 0, _ => none
  | n + 1, ts =>
    if ts = [] then some []
    else do
      let (s, ts) ← readStatement n ts
      if ts = [] then some [s]
      else do
        let ss ← readStatements n (← afterSemicolon? s ts)
        some (s :: ss)

variable {s t c a b e : Tree} {ss : List Tree} {w l x y : String} {ts ts' us rest : List String}

/-! ## Where statements end -/

/-- An `else`, perhaps after a semicolon. -/
def BeginsElse (rest : List String) : Prop :=
  (∃ ts, rest = "else" :: ts) ∨ ∃ ts, rest = ";" :: "else" :: ts

/-- What follows the statement is no part of it. -/
structure Ends (s : Tree) (rest : List String) : Prop where
  noColon : rest.head? ≠ some ":"
  noElse : opensIf s = true → ¬ BeginsElse rest

theorem afterElse?_eq_none (h : ¬ BeginsElse rest) : afterElse? c rest = none := by
  unfold afterElse?
  split
  · exact absurd (.inr ⟨_, rfl⟩) h
  · exact absurd (.inl ⟨_, rfl⟩) h
  · rfl

theorem afterElse?_semicolon :
    afterElse? c (semicolon (needsSemicolon c) ++ "else" :: rest) = some rest := by
  cases h : needsSemicolon c <;> simp [afterElse?, h, semicolon]

theorem afterSemicolon?_semicolon :
    afterSemicolon? c (semicolon (needsSemicolon c) ++ rest) = some rest := by
  cases h : needsSemicolon c <;> simp [afterSemicolon?, h, semicolon]

theorem readHeadPart_eq {stop : String} (hstop : isName stop = false) (ht : IsHeadPart t) :
    readHeadPart stop (headTokens t ++ stop :: rest) = some (t, rest) := by
  cases ht with
  | absent => simp [readHeadPart, headTokens]
  | @reference s hs =>
    have hne : s ≠ stop := ne_of_isName hs hstop
    simp [readHeadPart, headTokens, reference, hne]

/-- The words and signs that are read as more than a name. -/
def starters : List String := [";", "(", "if", "while", "do", "for"]

theorem notMem_starters_of_isName (h : isName w = true) : w ∉ starters :=
  notMem_of_isName h (by decide)

/-- A statement begins with a name or one of few words and signs. -/
theorem exists_statementTokens (h : IsPlain s) : ∃ w ts, statementTokens s = w :: ts ∧
    (isName w = true ∨ w ∈ starters) := by
  cases h with
  | expression hs =>
    rw [reference, statementTokens]
    split
    · exact ⟨_, _, rfl, .inr (by decide)⟩
    · exact ⟨_, _, rfl, .inl hs⟩
  | empty => exact ⟨";", [], by rw [statementTokens], .inr (by decide)⟩
  | ifThen => exact ⟨"if", _, by rw [statementTokens]; rfl, .inr (by decide)⟩
  | ifElse hs hc ha => exact ⟨"if", _, by rw [statementTokens_ifElse ha]; rfl, .inr (by decide)⟩
  | whileLoop => exact ⟨"while", _, by rw [statementTokens]; rfl, .inr (by decide)⟩
  | doWhile => exact ⟨"do", _, by rw [statementTokens]; rfl, .inr (by decide)⟩
  | forLoop => exact ⟨"for", _, by rw [statementTokens]; rfl, .inr (by decide)⟩
  | labeled hl => exact ⟨_, _, by rw [statementTokens], .inl hl⟩

/-- No statement begins with a word or sign that goes on with one before it. -/
theorem head?_statementTokens (h : IsPlain s) (rest : List String) (hw : isName w = false)
    (hstart : w ∉ starters) : (statementTokens s ++ rest).head? ≠ some w := by
  obtain ⟨v, ts, hv, hname⟩ := exists_statementTokens h
  rw [hv]
  intro heq
  cases heq
  rcases hname with hname | hmem
  · exact ne_of_isName hname hw rfl
  · exact hstart hmem

/-! ## One step of reading -/

theorem reads_while (h : Reads (readStatement · ts) (b, rest)) :
    Reads (readStatement · ("while" :: "(" :: w :: ")" :: ts))
      (.node .whileStatement [reference w, b], rest) := by
  refine reads_of_succ ?_
  filter_upwards [h] with n h
  simp [readStatement, readTest, h]

theorem reads_doWhile (h : Reads (readStatement · ts) (b, us))
    (hus : afterSemicolon? b us = some ("while" :: "(" :: w :: ")" :: rest)) :
    Reads (readStatement · ("do" :: ts)) (.node .doWhileStatement [b, reference w], rest) := by
  refine reads_of_succ ?_
  filter_upwards [h] with n h
  simp [readStatement, readTest, h, hus]

theorem reads_for {i t u : Tree} (hi : IsHeadPart i) (ht : IsHeadPart t) (hu : IsHeadPart u)
    (h : Reads (readStatement · ts) (b, rest)) :
    Reads (readStatement · ("for" :: "(" :: (headTokens i ++ ";" :: (headTokens t ++
      ";" :: (headTokens u ++ ")" :: ts))))) (.node .forStatement [i, t, u, b], rest) := by
  have hsemicolon : isName ";" = false := by decide
  have hparen : isName ")" = false := by decide
  refine reads_of_succ ?_
  filter_upwards [h] with n h
  simp [readStatement, readHeadPart_eq hsemicolon hi, readHeadPart_eq hsemicolon ht,
    readHeadPart_eq hparen hu, h]

theorem reads_labeled (hl : isName l = true) (h : Reads (readStatement · ts) (b, rest)) :
    Reads (readStatement · (l :: ":" :: ts)) (.node .labeledStatement [.str l, b], rest) := by
  have hne := notMem_starters_of_isName hl
  simp only [starters, List.mem_cons, List.not_mem_nil, or_false, not_or] at hne
  refine reads_of_succ ?_
  filter_upwards [h] with n h
  simp [readStatement, hne, h]

theorem reads_name (hw : isName w = true) (h : rest.head? ≠ some ":") :
    Reads (readStatement · (w :: rest)) (.node .expressionStatement [reference w], rest) := by
  have hne := notMem_starters_of_isName hw
  simp only [starters, List.mem_cons, List.not_mem_nil, or_false, not_or] at hne
  refine reads_of_succ (.of_forall fun n => ?_)
  simp [readStatement, hne, h]

theorem reads_ifThen (hne : ts.head? ≠ some "\x7b") (h : Reads (readStatement · ts) (c, rest))
    (helse : afterElse? c rest = none) :
    Reads (readStatement · ("if" :: "(" :: w :: ")" :: ts))
      (.node .ifStatement [reference w, c, .absent], rest) := by
  refine reads_of_succ ?_
  filter_upwards [h] with n h
  simp [readStatement, readTest, readBranches, hne, h, helse]

theorem reads_ifElse (hne : ts.head? ≠ some "\x7b") (h : Reads (readStatement · ts) (c, us))
    (helse : afterElse? c us = some ts') (h' : Reads (readStatement · ts') (a, rest)) :
    Reads (readStatement · ("if" :: "(" :: w :: ")" :: ts))
      (.node .ifStatement [reference w, c, a], rest) := by
  refine reads_of_succ ?_
  filter_upwards [h, h'] with n h h'
  simp [readStatement, readTest, readBranches, hne, h, helse, h']

theorem reads_braced (h : Reads (readStatement · ts) (c, "\x7d" :: "else" :: us))
    (h' : Reads (readStatement · us) (a, rest)) :
    Reads (readStatement · ("if" :: "(" :: w :: ")" :: "\x7b" :: ts))
      (.node .ifStatement [reference w, c, a], rest) := by
  refine reads_of_succ ?_
  filter_upwards [h, h'] with n h h'
  simp [readStatement, readTest, readBranches, h, h']

/-! ## Statements read back -/

theorem head?_semicolon {needed : Bool} (hw : w ≠ ":") :
    (semicolon needed ++ w :: rest).head? ≠ some ":" := by
  cases needed <;> simp [semicolon, hw]

/-- Statements are read back from their words and signs. -/
theorem reads_statement (h : IsPlain s) :
    ∀ {rest}, Ends s rest → Reads (readStatement · (statementTokens s ++ rest)) (s, rest) := by
  induction h with
  | expression hs =>
    intro rest hrest
    rw [reference, statementTokens]
    split
    · refine reads_of_succ (.of_forall fun n => ?_)
      simp [readStatement, readTest, reference]
    · exact reads_name hs hrest.noColon
  | empty =>
    intro rest _
    rw [statementTokens]
    exact reads_of_succ (.of_forall fun n => by simp [readStatement])
  | @ifThen s c hs hc ih =>
    intro rest hrest
    have hno : ¬ BeginsElse rest := hrest.noElse rfl
    have hends : Ends c rest := ⟨hrest.noColon, fun _ => hno⟩
    simpa [statementTokens, reference, headTokens] using
      reads_ifThen (head?_statementTokens hc rest (by decide) (by decide)) (ih hends)
        (afterElse?_eq_none hno)
  | @ifElse s c a hs hc ha ihc iha =>
    intro rest hrest
    have hread : Reads (readStatement · (statementTokens a ++ rest)) (a, rest) :=
      iha ⟨hrest.noColon, fun h => hrest.noElse (by rwa [opensIf_ifElse ha])⟩
    rw [statementTokens_ifElse ha]
    by_cases hopens : opensIf c = true
    · -- the braces keep the `else` away
      have hends : Ends c ("\x7d" :: "else" :: (statementTokens a ++ rest)) :=
        ⟨by simp, fun _ => by simp [BeginsElse]⟩
      simpa [hopens, reference, headTokens] using reads_braced (ihc hends) hread
    · have hends : Ends c (semicolon (needsSemicolon c) ++ "else" :: (statementTokens a ++ rest)) :=
        ⟨head?_semicolon (by decide), fun h => absurd h hopens⟩
      have hhead := head?_statementTokens (w := "\x7b") hc
        (semicolon (needsSemicolon c) ++ "else" :: (statementTokens a ++ rest))
        (by decide) (by decide)
      simpa [hopens, reference, headTokens] using
        reads_ifElse hhead (ihc hends) afterElse?_semicolon hread
  | @whileLoop s b hs hb ih =>
    intro rest hrest
    have hends : Ends b rest := ⟨hrest.noColon, hrest.noElse⟩
    simpa [statementTokens, reference, headTokens] using reads_while (ih hends)
  | @doWhile s b hb hs ih =>
    intro rest hrest
    have hends : Ends b (semicolon (needsSemicolon b) ++ "while" :: "(" :: s :: ")" :: rest) := by
      refine ⟨head?_semicolon (by decide), fun _ => ?_⟩
      cases needsSemicolon b <;> simp [BeginsElse, semicolon]
    simpa [statementTokens, reference, headTokens] using
      reads_doWhile (ih hends) afterSemicolon?_semicolon
  | @forLoop i t u b hi ht hu hb ih =>
    intro rest hrest
    have hends : Ends b rest := ⟨hrest.noColon, hrest.noElse⟩
    simpa [statementTokens] using reads_for hi ht hu (ih hends)
  | @labeled l b hl hb ih =>
    intro rest hrest
    have hends : Ends b rest := ⟨hrest.noColon, hrest.noElse⟩
    simpa [statementTokens] using reads_labeled hl (ih hends)

/-! ## Scripts read back -/

theorem scriptTokens_cons_cons : scriptTokens (s :: t :: ss) =
    statementTokens s ++ (semicolon (needsSemicolon s) ++ scriptTokens (t :: ss)) := by
  rw [scriptTokens, List.append_assoc]
  rintro ⟨⟩

theorem eq_empty_of_semicolon (h : IsPlain s) (hs : statementTokens s = ";" :: ts) :
    s = .node .emptyStatement [] ∧ ts = [] := by
  have hname : ∀ {w}, isName w = true → w ≠ ";" := fun hw => ne_of_isName hw (by decide)
  cases h with
  | expression hw =>
    rw [reference, statementTokens] at hs
    split at hs
    · simp at hs
    · exact absurd (List.cons.inj hs).1 (hname hw)
  | empty =>
    rw [statementTokens] at hs
    exact ⟨rfl, (List.cons.inj hs).2.symm⟩
  | ifElse _ _ ha =>
    rw [statementTokens_ifElse ha] at hs
    simp at hs
  | labeled hl =>
    rw [statementTokens] at hs
    exact absurd (List.cons.inj hs).1 (hname hl)
  | _ =>
    rw [statementTokens] at hs
    simp at hs

theorem head?_scriptTokens (h : ∀ s ∈ ss, IsPlain s) (hw : isName w = false)
    (hstart : w ∉ starters) : (scriptTokens ss).head? ≠ some w := by
  match ss with
  | [] => nofun
  | [s] =>
    have hhead := head?_statementTokens (h s (by simp)) [] hw hstart
    simpa [scriptTokens] using hhead
  | s :: t :: ss =>
    rw [scriptTokens_cons_cons]
    exact head?_statementTokens (h s (by simp)) _ hw hstart

/-- No statements begin with an `else`, also after an empty statement. -/
theorem not_beginsElse_scriptTokens (h : ∀ s ∈ ss, IsPlain s) :
    ¬ BeginsElse (scriptTokens ss) := by
  have hno : ∀ {ss : List Tree}, (∀ s ∈ ss, IsPlain s) → (scriptTokens ss).head? ≠ some "else" :=
    fun h => head?_scriptTokens h (by decide) (by decide)
  rintro (⟨ts, hts⟩ | ⟨ts, hts⟩)
  · exact hno h (by rw [hts]; rfl)
  · match ss with
    | [] => cases hts
    | [s] =>
      rw [scriptTokens] at hts
      exact absurd (eq_empty_of_semicolon (h s (by simp)) hts).2 (by simp)
    | s :: t :: ss =>
      obtain ⟨hs, hrest⟩ := List.forall_mem_cons.1 h
      obtain ⟨w, us, hus, -⟩ := exists_statementTokens hs
      rw [scriptTokens_cons_cons, hus] at hts
      obtain rfl : w = ";" := (List.cons.inj hts).1
      obtain ⟨rfl, rfl⟩ := eq_empty_of_semicolon hs hus
      have htail : scriptTokens (t :: ss) = "else" :: ts := by
        simpa [needsSemicolon, semicolon] using hts
      exact hno hrest (by rw [htail]; rfl)

theorem scriptTokens_ne_nil (h : IsPlain s) : scriptTokens (s :: ss) ≠ [] := by
  obtain ⟨w, us, hus, -⟩ := exists_statementTokens h
  cases ss <;> simp [scriptTokens, hus]

/-- A statement ends where the next one begins. -/
theorem ends_scriptTokens (h : ∀ s ∈ ss, IsPlain s) :
    Ends s (semicolon (needsSemicolon s) ++ scriptTokens ss) := by
  have hcolon := head?_scriptTokens (w := ":") h (by decide) (by decide)
  have helse := head?_scriptTokens (w := "else") h (by decide) (by decide)
  cases needsSemicolon s with
  | false => exact ⟨hcolon, fun _ => not_beginsElse_scriptTokens h⟩
  | true =>
    refine ⟨by simp [semicolon], fun _ => ?_⟩
    rintro (⟨ts, hts⟩ | ⟨ts, hts⟩)
    · simp [semicolon] at hts
    · have htail : scriptTokens ss = "else" :: ts := (List.cons.inj hts).2
      exact helse (by rw [htail]; rfl)

/-- Scripts are read back from their words and signs. -/
theorem reads_statements (h : ∀ s ∈ ss, IsPlain s) :
    Reads (readStatements · (scriptTokens ss)) ss := by
  induction ss with
  | nil => exact reads_of_succ (.of_forall fun n => by simp [readStatements, scriptTokens])
  | cons s ss ih =>
    obtain ⟨hs, hrest⟩ := List.forall_mem_cons.1 h
    refine reads_of_succ ?_
    cases ss with
    | nil =>
      have hends : Ends s [] := ⟨by simp, fun _ => by simp [BeginsElse]⟩
      filter_upwards [reads_statement hs hends] with n hread
      rw [List.append_nil] at hread
      rw [readStatements, if_neg (scriptTokens_ne_nil hs), scriptTokens, hread]
      simp
    | cons t ss =>
      filter_upwards [reads_statement hs (ends_scriptTokens hrest), ih hrest] with n hread hmore
      rw [readStatements, if_neg (scriptTokens_ne_nil hs), scriptTokens_cons_cons, hread]
      simp [scriptTokens_ne_nil (hrest t List.mem_cons_self), afterSemicolon?_semicolon, hmore]

/-- Scripts without blocks have source texts, and no two of them the same. -/
theorem script_source_injective {u v : Tree} (hu : IsPlainScript u) (hv : IsPlainScript v) :
    ∃ x y, u.source = .ok x ∧ v.source = .ok y ∧ (x = y → u = v) := by
  obtain ⟨hs⟩ := hu
  obtain ⟨ht⟩ := hv
  obtain ⟨x, hx, hlex⟩ := exists_script_source hs
  obtain ⟨y, hy, hley⟩ := exists_script_source ht
  refine ⟨x, y, hx, hy, ?_⟩
  rintro rfl
  have hread := reads_statements ht
  rw [← hley, hlex] at hread
  rw [(reads_statements hs).unique hread]

/-- An `if` with an `else`, around one without. -/
def elseOfOuter : Tree :=
  .node .script [.list [], .list [.node .ifStatement [reference "a",
    .node .ifStatement [reference "b", .node .emptyStatement [], .absent],
    .node .emptyStatement []]]]

/-- An `if` without an `else`, around one with an `else`. -/
def elseOfInner : Tree :=
  .node .script [.list [], .list [.node .ifStatement [reference "a",
    .node .ifStatement [reference "b", .node .emptyStatement [], .node .emptyStatement []],
    .absent]]]

/-- It shows to which `if` an `else` belongs. -/
theorem script_source_injective_else :
    IsPlainScript elseOfOuter ∧ IsPlainScript elseOfInner ∧
      elseOfOuter.source ≠ elseOfInner.source := by
  have ha : isName "a" = true := by decide
  have hb : isName "b" = true := by decide
  have houter : IsPlainScript elseOfOuter :=
    .intro (List.forall_mem_singleton.2 (.ifElse ha (.ifThen hb .empty) .empty))
  have hinner : IsPlainScript elseOfInner :=
    .intro (List.forall_mem_singleton.2 (.ifThen ha (.ifElse hb .empty .empty)))
  obtain ⟨x, y, hx, hy, hinjective⟩ := script_source_injective houter hinner
  refine ⟨houter, hinner, fun heq => ?_⟩
  rw [hx, hy] at heq
  cases hinjective (Except.ok.inj heq)

end Whittle.Source
