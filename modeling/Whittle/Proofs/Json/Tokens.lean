import Whittle.Proofs.Json.Arranged
import Whittle.Proofs.Json.Escaped
import Whittle.Proofs.Json.Numeral

/-!
# What is written is cut into its tokens

A value has its tokens, whatever the layout. A text is cut into them if the layout puts nothing
but blanks between two tokens. Only a number or a word needs to be told where it ends: by the
end of the text, or by a mark or blank that cannot belong to it.
-/

namespace Whittle.Json

variable {a b cs : List Char} {c : Char} {ts us : List Token} {l : Layout}

/-! ## Cutting -/

/-- The text is cut into these tokens, whatever follows. -/
def Reads (cs : List Char) (ts : List Token) : Prop :=
  ∀ toks rest, tokensFrom toks .between (cs ++ rest) = tokensFrom (ts.reverse ++ toks) .between rest

/-- The text does not go on with what may belong to a number or a word. -/
def Stops (cs : List Char) : Prop := ∀ c ∈ cs.head?, isBare c = false

/-- The text is cut into these tokens if a number or a word at its end ends there. -/
def Yields (cs : List Char) (ts : List Token) : Prop :=
  ∀ toks rest, Stops rest →
    tokensFrom toks .between (cs ++ rest) = tokensFrom (ts.reverse ++ toks) .between rest

theorem Stops.append (ha : Stops a) (hb : Stops b) : Stops (a ++ b) := by
  cases a with
  | nil => exact hb
  | cons c cs => exact ha

theorem Stops.append_of_ne_nil (ha : Stops a) (hne : a ≠ []) : Stops (a ++ b) := by
  cases a with
  | nil => exact absurd rfl hne
  | cons c cs => exact ha

theorem Reads.yields (h : Reads cs ts) : Yields cs ts := fun toks rest _ => h toks rest

theorem Reads.append (ha : Reads a ts) (hb : Reads b us) : Reads (a ++ b) (ts ++ us) := by
  intro toks rest
  rw [List.append_assoc, ha, hb, List.reverse_append, List.append_assoc]

theorem Reads.append_yields (ha : Reads a ts) (hb : Yields b us) : Yields (a ++ b) (ts ++ us) := by
  intro toks rest hrest
  rw [List.append_assoc, ha, hb _ _ hrest, List.reverse_append, List.append_assoc]

/-- A text that goes on with a mark or a blank needs no end. -/
theorem Yields.append (ha : Yields a ts) (hb : Reads b us) (hstops : Stops b) (hne : b ≠ []) :
    Reads (a ++ b) (ts ++ us) := by
  intro toks rest
  rw [List.append_assoc, ha _ _ (hstops.append_of_ne_nil hne), hb, List.reverse_append,
    List.append_assoc]

/-- Parts that are divided by a comma. -/
theorem yields_intercalate {α : Type} {text : α → List Char} {tokens : α → List Token}
    {separator : List Char} (hsep : Reads separator [.comma]) (hstops : Stops separator)
    (hne : separator ≠ []) :
    ∀ {parts : List α}, parts ≠ [] → (∀ x ∈ parts, Yields (text x) (tokens x)) →
      Yields (separator.intercalate (parts.map text)) ([.comma].intercalate (parts.map tokens))
  | [x], _, hparts => by simpa using hparts
  | x :: y :: parts, _, hparts => by
      obtain ⟨hx, hrest⟩ := List.forall_mem_cons.1 hparts
      rw [List.map_cons, List.map_cons, List.map_cons, List.map_cons, List.intercalate_cons_cons,
        List.intercalate_cons_cons, ← List.map_cons, ← List.map_cons]
      exact (hx.append hsep hstops hne).append_yields
        (yields_intercalate hsep hstops hne (List.cons_ne_nil _ _) hrest)

/-! ## Marks, blanks, and words -/

theorem reads_punctuation {t : Token} (h : ∀ toks, fresh toks c = some (t :: toks, .between)) :
    Reads [c] [t] := fun toks _ => tokensFrom_cons (h toks)

theorem reads_blanks (h : ∀ c ∈ cs, isSpace c = true) : Reads cs [] := by
  intro toks rest
  induction cs with
  | nil => rfl
  | cons c cs ih =>
    obtain ⟨hc, hcs⟩ := List.forall_mem_cons.1 h
    have hblank : advance toks c .between = some (toks, .between) := if_pos hc
    rw [List.cons_append, tokensFrom_cons hblank, ih hcs]

theorem reads_escaped (asciiOnly : Bool) (s : String) :
    Reads (Text.escaped asciiOnly s).toList [.text s] :=
  fun _ _ => tokensFrom_escaped asciiOnly s

theorem not_isBare_of_isSpace (h : isSpace c = true) : isBare c = false := by
  have hcases : c = ' ' ∨ c = '\t' ∨ c = '\n' ∨ c = '\r' := by
    simpa [isSpace, or_assoc] using h
  obtain rfl | rfl | rfl | rfl := hcases <;> rfl

theorem stops_blanks (h : ∀ c ∈ cs, isSpace c = true) : Stops cs := by
  cases cs with
  | nil => simp [Stops]
  | cons c cs =>
    intro d hd
    cases hd
    exact not_isBare_of_isSpace (h c List.mem_cons_self)

/-- Bare characters go on with a number or a word. -/
theorem tokensFrom_bare {toks : List Token} {rest : List Char} (h : cs.all isBare = true)
    (rev : List Char) : tokensFrom toks (.bare rev) (cs ++ rest)
      = tokensFrom toks (.bare (cs.reverse ++ rev)) rest := by
  induction cs generalizing rev with
  | nil => rfl
  | cons c cs ih =>
    obtain ⟨hc, hcs⟩ := Bool.and_eq_true_iff.1 h
    have hon : advance toks c (.bare rev) = some (toks, .bare (c :: rev)) := if_pos hc
    rw [List.cons_append, tokensFrom_cons hon, ih hcs, List.reverse_cons, List.append_assoc,
      List.singleton_append]

/-- A number or a word is a token if it ends there. -/
theorem yields_bare {v : Plain} (hne : cs ≠ []) (hbare : cs.all isBare = true)
    (hv : bare? cs = some v) : Yields cs [.scalar v] := by
  intro toks rest hrest
  obtain ⟨c, cs, rfl⟩ := List.exists_cons_of_ne_nil hne
  obtain ⟨hc, hcs⟩ := Bool.and_eq_true_iff.1 hbare
  have hfresh : advance toks c .between = some (toks, .bare [c]) := by
    have hspace : isSpace c ≠ true := fun h => by
      rw [not_isBare_of_isSpace h] at hc
      cases hc
    have hquote : (c == Text.doubleQuote) ≠ true := fun h => by
      rw [eq_of_beq h] at hc
      cases hc
    rw [advance, fresh, if_neg hspace, if_neg hquote, if_pos hc]
  have hread : bare? (cs.reverse ++ [c]).reverse = some v := by simpa using hv
  rw [List.cons_append, tokensFrom_cons hfresh, tokensFrom_bare hcs]
  cases rest with
  | nil =>
    simp only [tokensFrom, hread]
    rfl
  | cons d rest =>
    have hd : isBare d ≠ true := by simp [hrest d rfl]
    have hend : advance toks d (.bare (cs.reverse ++ [c]))
        = advance (.scalar v :: toks) d .between := by
      simp only [advance, if_neg hd, hread]
      rfl
    rw [tokensFrom, hend]
    rfl

theorem yields_number {v : Plain} (h : number? cs = some v) : Yields cs [.scalar v] := by
  obtain ⟨hne, hbare⟩ := all_isBare_of_number? h
  exact yields_bare hne hbare (bare?_of_number? h)

/-! ## Layouts -/

/-- A layout that has nothing but blanks between two tokens. -/
structure Layout.IsBlank (l : Layout) : Prop where
  indent : ∀ unit ∈ l.indent, ∀ c ∈ unit.toList, isSpace c = true
  item : ∃ blanks, (∀ c ∈ blanks, isSpace c = true) ∧ l.itemSeparator.toList = ',' :: blanks
  key : ∃ blanks, (∀ c ∈ blanks, isSpace c = true) ∧ l.keySeparator.toList = ':' :: blanks

namespace Layout.IsBlank

theorem lineStart (hl : l.IsBlank) (level : Nat) :
    ∀ c ∈ (l.lineStart level).toList, isSpace c = true := by
  intro c hc
  rw [Layout.lineStart] at hc
  split at hc
  · simp at hc
  · rename_i unit hunit
    rw [String.toList_append, List.mem_append, String.toList_join, List.mem_flatMap] at hc
    rcases hc with hc | ⟨s, hs, hc⟩
    · obtain rfl : c = '\n' := by simpa using hc
      rfl
    · obtain rfl := List.eq_of_mem_replicate hs
      exact hl.indent s hunit c hc

theorem reads_itemSeparator (hl : l.IsBlank) : Reads l.itemSeparator.toList [.comma] := by
  obtain ⟨blanks, hblanks, htext⟩ := hl.item
  rw [htext]
  exact (reads_punctuation fun _ => rfl).append (reads_blanks hblanks)

theorem reads_keySeparator (hl : l.IsBlank) : Reads l.keySeparator.toList [.colon] := by
  obtain ⟨blanks, hblanks, htext⟩ := hl.key
  rw [htext]
  exact (reads_punctuation fun _ => rfl).append (reads_blanks hblanks)

end Layout.IsBlank

/-- An indentation by nothing but spaces and tabs. -/
def Indentation.IsBlank : Indentation → Prop
  | .unit s => ∀ c ∈ s.toList, c = ' ' ∨ c = '\t'
  | _ => True

/-- Parts between brackets. -/
theorem reads_bracketed (hl : l.IsBlank) {left right : String} {opening closing : Token}
    (hleft : Reads left.toList [opening]) (hright : Reads right.toList [closing])
    (hstops : Stops right.toList) (hne : right.toList ≠ []) {α : Type} {text : α → String}
    {tokens : α → List Token} {parts : List α}
    (hparts : ∀ x ∈ parts, Yields (text x).toList (tokens x)) (level : Nat) :
    Reads (l.bracketed level left right (parts.map text)).toList
      (opening :: [.comma].intercalate (parts.map tokens) ++ [closing]) := by
  by_cases hempty : parts = []
  · subst hempty
    rw [List.map_nil, Layout.bracketed, String.toList_append]
    exact hleft.append hright
  · have hstart := fun n => reads_blanks (hl.lineStart n)
    have hseparator : Reads (l.itemSeparator ++ l.lineStart (level + 1)).toList [.comma] := by
      rw [String.toList_append]
      exact hl.reads_itemSeparator.append (hstart _)
    obtain ⟨blanks, -, hcomma⟩ := hl.item
    have hhead : (l.itemSeparator ++ l.lineStart (level + 1)).toList
        = ',' :: (blanks ++ (l.lineStart (level + 1)).toList) := by
      rw [String.toList_append, hcomma, List.cons_append]
    have hitems : Yields
        ((l.itemSeparator ++ l.lineStart (level + 1)).toList.intercalate
          (parts.map fun x => (text x).toList)) ([.comma].intercalate (parts.map tokens)) :=
      yields_intercalate hseparator (by simp [hhead, Stops, isBare]) (by simp [hhead]) hempty
        hparts
    have hend : Reads ((l.lineStart level).toList ++ right.toList) [closing] :=
      (hstart level).append hright
    have hbracketed : (l.bracketed level left right (parts.map text)).toList
        = left.toList ++ (l.lineStart (level + 1)).toList
          ++ (l.itemSeparator ++ l.lineStart (level + 1)).toList.intercalate
            (parts.map fun x => (text x).toList)
          ++ ((l.lineStart level).toList ++ right.toList) := by
      unfold Layout.bracketed
      split
      · simp_all
      · simp only [String.toList_append, String.toList_intercalate, List.map_map,
          List.append_assoc, Function.comp_def]
    rw [hbracketed]
    exact (((hleft.append (hstart _)).append_yields hitems).append hend
      ((stops_blanks (hl.lineStart level)).append hstops) (by simp [hne]))

/-! ## Values -/

mutual
/-- The tokens of a value. -/
def tokensOf : Plain → List Token
  | .str s => [.text s]
  | .list items => .openList :: [.comma].intercalate (itemTokens items) ++ [.closeList]
  | .object es => .openObject :: [.comma].intercalate (entryTokens es) ++ [.closeObject]
  | v => [.scalar v]

/-- The tokens of each item. -/
def itemTokens : List Plain → List (List Token)
  | [] => []
  | v :: vs => tokensOf v :: itemTokens vs

/-- The tokens of each entry, with its key. -/
def entryTokens : List (String × Plain) → List (List Token)
  | [] => []
  | (k, v) :: es => ([.text k, .colon] ++ tokensOf v) :: entryTokens es
end

theorem itemTokens_eq_map (items : List Plain) : itemTokens items = items.map tokensOf := by
  induction items with
  | nil => rfl
  | cons v vs ih => rw [itemTokens, ih, List.map_cons]

theorem entryTokens_eq_map (es : List (String × Plain)) :
    entryTokens es = es.map fun e => [.text e.1, .colon] ++ tokensOf e.2 := by
  induction es with
  | nil => rfl
  | cons e es ih => rw [entryTokens, ih, List.map_cons]

theorem writeItems_eq_map (level : Nat) (items : List Plain) :
    writeItems l level items = items.map (write l level) := by
  induction items with
  | nil => rfl
  | cons v vs ih => rw [writeItems, ih, List.map_cons]

theorem writeEntries_eq_map (level : Nat) (es : List (String × Plain)) :
    writeEntries l level es = es.map fun e =>
      (e.1, Text.escaped l.asciiOnly e.1 ++ l.keySeparator ++ write l level e.2) := by
  induction es with
  | nil => rfl
  | cons e es ih => rw [writeEntries, ih, List.map_cons]

/-- An object is written with its entries in order. -/
theorem write_object (level : Nat) (es : List (String × Plain)) :
    write l level (.object es) = l.bracketed level "\x7b" "\x7d" ((arrange l.sortKeys es).map
      fun e => Text.escaped l.asciiOnly e.1 ++ l.keySeparator ++ write l (level + 1) e.2) := by
  have harrange := arrange_map l.sortKeys (f := fun e => (e.1,
    Text.escaped l.asciiOnly e.1 ++ l.keySeparator ++ write l (level + 1) e.2)) (fun _ => rfl) es
  rw [write, writeEntries_eq_map]
  show l.bracketed level _ _ ((arrange l.sortKeys _).map _) = _
  rw [harrange, List.map_map]
  rfl

mutual
/-- A value is written so that it is cut into its tokens. -/
theorem yields_write (hl : l.IsBlank) : ∀ {v : Plain}, v.allFinite = true → ∀ level : Nat,
    Yields (write l level v).toList (tokensOf (v.arranged l.sortKeys))
  | .null, _, _ => show Yields "null".toList [.scalar .null] from
      yields_bare (by decide) (by decide) rfl
  | .bool false, _, _ => show Yields "false".toList [.scalar (.bool false)] from
      yields_bare (by decide) (by decide) rfl
  | .bool true, _, _ => show Yields "true".toList [.scalar (.bool true)] from
      yields_bare (by decide) (by decide) rfl
  | .int i, _, _ => yields_number (number?_intText i)
  | .float _, hfinite, _ => yields_number (number?_doubleText hfinite)
  | .str s, _, _ => (reads_escaped l.asciiOnly s).yields
  | .list items, hfinite, level => by
      rw [write, writeItems_eq_map, Plain.arranged, tokensOf, itemTokens_eq_map,
        Plain.arrangedItems_eq_map, List.map_map]
      have hopen : Reads "[".toList [.openList] := reads_punctuation fun _ => rfl
      have hclose : Reads "]".toList [.closeList] := reads_punctuation fun _ => rfl
      exact (reads_bracketed hl hopen hclose (by simp [Stops, isBare]) (by simp)
        (fun v hv => yields_writeItems hl hfinite v hv (level + 1)) level).yields
  | .object es, hfinite, level => by
      rw [write_object, Plain.arranged, tokensOf, entryTokens_eq_map,
        Plain.arrangedEntries_eq_map,
        arrange_map _ (f := fun e : String × Plain => (e.1, e.2.arranged l.sortKeys))
          (fun _ => rfl), List.map_map]
      have hopen : Reads "\x7b".toList [.openObject] := reads_punctuation fun _ => rfl
      have hclose : Reads "\x7d".toList [.closeObject] := reads_punctuation fun _ => rfl
      refine (reads_bracketed hl hopen hclose (by simp [Stops, isBare]) (by simp)
        (fun e he => ?_) level).yields
      have hvalue := yields_writeEntries hl hfinite e ((arrange_perm _ _).mem_iff.1 he) (level + 1)
      simp only [String.toList_append, Function.comp_apply]
      exact ((reads_escaped _ _).append hl.reads_keySeparator).append_yields hvalue

theorem yields_writeItems (hl : l.IsBlank) : ∀ {vs : List Plain},
    Plain.allFiniteItems vs = true → ∀ v ∈ vs, ∀ level : Nat,
      Yields (write l level v).toList (tokensOf (v.arranged l.sortKeys))
  | [], _ => by simp
  | _ :: _, hfinite => by
      obtain ⟨hv, hvs⟩ := Bool.and_eq_true_iff.1 hfinite
      exact List.forall_mem_cons.2 ⟨yields_write hl hv, yields_writeItems hl hvs⟩

theorem yields_writeEntries (hl : l.IsBlank) : ∀ {es : List (String × Plain)},
    Plain.allFiniteEntries es = true → ∀ e ∈ es, ∀ level : Nat,
      Yields (write l level e.2).toList (tokensOf (e.2.arranged l.sortKeys))
  | [], _ => by simp
  | _ :: _, hfinite => by
      obtain ⟨hv, hes⟩ := Bool.and_eq_true_iff.1 hfinite
      exact List.forall_mem_cons.2 ⟨yields_write hl hv, yields_writeEntries hl hes⟩
end

end Whittle.Json
