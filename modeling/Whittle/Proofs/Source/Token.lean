import Mathlib
import Whittle.Source

/-!
# The words and signs of a text

A text falls into words and signs: a word is as long as there are characters of identifiers, a
sign as long as there is a sign with more characters, and blanks only divide. Where a text is put
together from parts that keep apart, its words and signs are those of its parts.
-/

namespace Whittle.Source

/-! ## Cutting -/

/-- Whether a character may be in an identifier. -/
def isNameChar (c : Char) : Bool := Rules.isIdentifierStart c || c.isDigit

/-- Whether a word may name a variable or a label. -/
def isName (s : String) : Bool := Rules.isIdentifierName s && !Rules.reservedWords.contains s

/-- The signs of more than one character, the longer ones first. -/
def longSigns : List String := [
  ">>>=", "===", "!==", ">>>", "**=", "<<=", ">>=", "==", "!=", "<=", ">=", "<<", ">>", "**",
  "||", "&&", "+=", "-=", "*=", "/=", "%=", "|=", "^=", "&=", "++", "--"]

/-- How many characters of the sign at the beginning of a text come after its first one. -/
def signTail (cs : List Char) : Nat :=
  ((longSigns.find? (·.toList.isPrefixOf cs)).map (·.length - 1)).getD 0

/-- The words and signs of a text. -/
def lex : List Char → List String
  | [] => []
  | c :: cs =>
    if c = ' ' then lex cs
    else if isNameChar c then
      String.ofList (c :: cs.takeWhile isNameChar) :: lex (cs.dropWhile isNameChar)
    else
      String.ofList (c :: cs.take (signTail (c :: cs))) :: lex (cs.drop (signTail (c :: cs)))
termination_by cs => cs.length
decreasing_by
  · simp
  · have := (List.dropWhile_suffix isNameChar (l := cs)).length_le
    simp only [List.length_cons]
    omega
  · simp only [List.length_drop, List.length_cons]
    omega

variable {a b cs rest : List Char} {c : Char} {ts us : List String} {o w : String}

/-! ## Blanks, words and signs -/

/-- The text does not go on with what may belong to a word. -/
def Stops (cs : List Char) : Prop := ∀ c ∈ cs.head?, isNameChar c = false

/-- Whether a sign may go on with a character. -/
def goesOn (o : String) (c : Char) : Bool :=
  longSigns.any fun s => (o.toList ++ [c]).isPrefixOf s.toList

/-- Whether a text is a sign. -/
def isSign (o : String) : Bool :=
  match o.toList with
  | [] => false
  | c :: cs => c != ' ' && !isNameChar c && signTail (c :: cs) == cs.length

theorem lex_blank : lex (' ' :: cs) = lex cs := by
  rw [lex, if_pos rfl]

theorem ne_blank_of_isNameChar (h : isNameChar c = true) : c ≠ ' ' := by
  rintro rfl
  cases h

/-- A word ends where no character of an identifier follows. -/
theorem lex_word (hne : w.toList ≠ []) (hw : w.toList.all isNameChar = true) (hrest : Stops rest) :
    lex (w.toList ++ rest) = w :: lex rest := by
  obtain ⟨c, cs, hcs⟩ := List.exists_cons_of_ne_nil hne
  rw [hcs] at hw
  obtain ⟨hc, hall⟩ := Bool.and_eq_true_iff.1 hw
  have hcs' : ∀ d ∈ cs, isNameChar d = true := List.all_eq_true.1 hall
  have hend : rest.takeWhile isNameChar = [] ∧ rest.dropWhile isNameChar = rest := by
    cases rest with
    | nil => exact ⟨rfl, rfl⟩
    | cons d rest =>
      have hd : isNameChar d = false := hrest d rfl
      simp [hd]
  rw [hcs, List.cons_append, lex, if_neg (ne_blank_of_isNameChar hc), if_pos hc,
    List.takeWhile_append_of_pos hcs', List.dropWhile_append_of_pos hcs', hend.1, hend.2,
    List.append_nil, ← hcs, String.ofList_toList]

/-- What follows a sign makes it no longer unless the sign may go on with it. -/
theorem signTail_append (h : ∀ c ∈ rest.head?, goesOn o c = false) :
    signTail (o.toList ++ rest) = signTail o.toList := by
  have hcongr : longSigns.find? (·.toList.isPrefixOf (o.toList ++ rest)) =
      longSigns.find? (·.toList.isPrefixOf o.toList) := by
    refine List.find?_congr fun s hs => ?_
    rw [Bool.eq_iff_iff, List.isPrefixOf_iff_prefix, List.isPrefixOf_iff_prefix]
    refine ⟨fun hbegin => ?_, fun hbegin => hbegin.trans (List.prefix_append _ _)⟩
    rcases Nat.lt_or_ge o.toList.length s.toList.length with hlt | hle
    · -- a longer sign would begin with the sign and what follows it
      cases rest with
      | nil => rwa [List.append_nil] at hbegin
      | cons d rest =>
        have hgo : o.toList ++ [d] <+: s.toList := by
          refine List.prefix_of_prefix_length_le ?_ hbegin (by simpa using Nat.succ_le_of_lt hlt)
          exact ⟨rest, by rw [List.append_assoc, List.singleton_append]⟩
        have hno : goesOn o d = false := h d rfl
        rw [goesOn, List.any_eq_false] at hno
        exact absurd (List.isPrefixOf_iff_prefix.2 hgo) (hno s hs)
    · exact List.prefix_of_prefix_length_le hbegin (List.prefix_append _ _) hle
  rw [signTail, signTail, hcongr]

/-- A sign ends where nothing follows that it may go on with. -/
theorem lex_sign (ho : isSign o = true) (h : ∀ c ∈ rest.head?, goesOn o c = false) :
    lex (o.toList ++ rest) = o :: lex rest := by
  unfold isSign at ho
  split at ho
  · cases ho
  · rename_i c cs hcs
    simp only [Bool.and_eq_true, bne_iff_ne, ne_eq, Bool.not_eq_true', beq_iff_eq] at ho
    obtain ⟨⟨hblank, hc⟩, htail⟩ := ho
    have htail' : signTail (c :: (cs ++ rest)) = cs.length := by
      rw [← List.cons_append, ← hcs, signTail_append h, hcs, htail]
    rw [hcs, List.cons_append, lex, if_neg hblank, if_neg (by simp [hc]), htail', List.take_left,
      List.drop_left, ← hcs, String.ofList_toList]

/-! ## Where signs end -/

/-- Whether a text is a sign that never goes on. -/
def isMark (o : String) : Bool :=
  isSign o && longSigns.all fun s =>
    !o.toList.isPrefixOf s.toList || s.toList.length == o.toList.length

theorem isSign_of_isMark (h : isMark o = true) : isSign o = true :=
  (Bool.and_eq_true_iff.1 h).1

theorem goesOn_of_isMark (h : isMark o = true) (c : Char) : goesOn o c = false := by
  rw [goesOn, List.any_eq_false]
  intro s hs hgo
  have hbegin := List.isPrefixOf_iff_prefix.1 hgo
  have hlength := hbegin.length_le
  have hend := List.all_eq_true.1 (Bool.and_eq_true_iff.1 h).2 s hs
  rw [List.isPrefixOf_iff_prefix.2 ((List.prefix_append _ _).trans hbegin)] at hend
  simp at hend hlength
  omega

/-- No sign goes on with a character that is in none. -/
theorem goesOn_of_notMem (h : ∀ s ∈ longSigns, c ∉ s.toList) (o : String) :
    goesOn o c = false := by
  rw [goesOn, List.any_eq_false]
  intro s hs hgo
  have hbegin := List.isPrefixOf_iff_prefix.1 hgo
  exact h s hs (hbegin.subset (List.mem_append_right _ List.mem_cons_self))

theorem goesOn_of_isNameChar (h : isNameChar c = true) (o : String) : goesOn o c = false := by
  have hall : ∀ s ∈ longSigns, s.toList.any isNameChar = false := by decide
  exact goesOn_of_notMem (fun s hs hc => List.any_eq_false.1 (hall s hs) c hc h) o

theorem goesOn_blank (o : String) : goesOn o ' ' = false :=
  goesOn_of_notMem (by decide) o

/-! ## Where words end -/

theorem Stops.append_of_ne_nil (ha : Stops a) (hne : a ≠ []) : Stops (a ++ b) := by
  cases a with
  | nil => exact absurd rfl hne
  | cons c cs => exact ha

theorem stops_blank : Stops (' ' :: cs) := by
  rintro c ⟨⟩
  rfl

theorem ne_nil_of_isSign (ho : isSign o = true) : o.toList ≠ [] := by
  intro hnil
  simp [isSign, hnil] at ho

theorem stops_of_isSign (ho : isSign o = true) : Stops (o.toList ++ cs) := by
  unfold isSign at ho
  split at ho
  · cases ho
  · rename_i d ds hds
    intro c hc
    rw [hds] at hc
    cases hc
    simp_all

theorem isName_iff : isName w = true ↔
    Rules.isIdentifierName w = true ∧ w ∉ Rules.reservedWords := by
  simp [isName]

theorem ne_of_isName (hw : isName w = true) (ho : isName o = false) : w ≠ o := by
  rintro rfl
  rw [hw] at ho
  cases ho

theorem notMem_of_isName {os : List String} (hw : isName w = true)
    (hall : ∀ o ∈ os, isName o = false) : w ∉ os :=
  fun hmem => ne_of_isName hw (hall w hmem) rfl

/-- A name begins with a character of identifiers, and has no others. -/
theorem exists_cons_of_isName (h : isName w = true) :
    ∃ c cs, w.toList = c :: cs ∧ isNameChar c = true ∧ cs.all isNameChar = true := by
  have hname := (isName_iff.1 h).1
  unfold Rules.isIdentifierName at hname
  split at hname
  · cases hname
  · rename_i c cs hcs
    obtain ⟨hc, hall⟩ := Bool.and_eq_true_iff.1 hname
    exact ⟨c, cs, hcs, by rw [isNameChar, hc, Bool.true_or], hall⟩

theorem all_isNameChar_of_isName (h : isName w = true) : w.toList.all isNameChar = true := by
  obtain ⟨c, cs, hcs, hc, hall⟩ := exists_cons_of_isName h
  rw [hcs, List.all_cons, hc, hall]
  rfl

/-! ## Where texts begin -/

/-- A text begins with a character of a kind. -/
def Begins (p : Char → Bool) (text : String) : Prop :=
  ∃ c cs, text.toList = c :: cs ∧ p c = true

section

variable {p q : Char → Bool} {x y : String}

theorem begins_iff : Begins p x ↔ x.toList.head?.any p = true := by
  unfold Begins
  cases x.toList <;> simp

instance : Decidable (Begins p x) := decidable_of_iff _ begins_iff.symm

theorem Begins.ne_nil (h : Begins p x) : x.toList ≠ [] := by
  obtain ⟨c, cs, hcs, -⟩ := h
  simp [hcs]

theorem Begins.append (h : Begins p x) : Begins p (x ++ y) := by
  obtain ⟨c, cs, hcs, hc⟩ := h
  exact ⟨c, cs ++ y.toList, by rw [String.toList_append, hcs, List.cons_append], hc⟩

theorem Begins.mono (h : Begins p x) (hpq : ∀ c, p c = true → q c = true) : Begins q x := by
  obtain ⟨c, cs, hcs, hc⟩ := h
  exact ⟨c, cs, hcs, hpq c hc⟩

theorem begins_of_isName (h : isName w = true) : Begins isNameChar w := by
  obtain ⟨c, cs, hcs, hc, -⟩ := exists_cons_of_isName h
  exact ⟨c, cs, hcs, hc⟩

end

/-! ## Texts and their words and signs -/

/-- The words and signs of the text, whatever follows. A text with an open end may end in a word
that what follows must keep apart from. -/
def Spells (openEnd : Bool) (cs : List Char) (ts : List String) : Prop :=
  ∀ rest, (openEnd = true → Stops rest) → lex (cs ++ rest) = ts ++ lex rest

/-- What follows a sign, and keeps apart from it. -/
structure Follows (openEnd : Bool) (o : String) (cs : List Char) (ts : List String) : Prop where
  spells : Spells openEnd cs ts
  ne_nil : cs ≠ []
  apart : ∀ c ∈ cs.head?, goesOn o c = false

namespace Spells

variable {openEnd openEnd' : Bool}

theorem nil : Spells false [] [] := fun _ _ => rfl

theorem lex_eq (h : Spells openEnd cs ts) : lex cs = ts := by
  simpa [lex] using h [] fun _ => nofun

theorem opened (h : Spells false cs ts) : Spells openEnd cs ts := fun rest _ => h rest nofun

theorem blank (h : Spells openEnd cs ts) : Spells openEnd (' ' :: cs) ts := fun rest hrest => by
  rw [List.cons_append, lex_blank, h rest hrest]

theorem word (hne : w.toList ≠ []) (hw : w.toList.all isNameChar = true) :
    Spells true w.toList [w] := fun _ hrest => lex_word hne hw (hrest rfl)

theorem name (hw : isName w = true) : Spells true w.toList [w] :=
  word (begins_of_isName hw).ne_nil (all_isNameChar_of_isName hw)

/-- A part that keeps apart from the one before it. -/
theorem append (ha : Spells openEnd a ts) (hb : Spells openEnd' b us) (hne : b ≠ [])
    (hstops : Stops b) : Spells openEnd' (a ++ b) (ts ++ us) := fun rest hrest => by
  rw [List.append_assoc, ha _ fun _ => hstops.append_of_ne_nil hne, hb rest hrest,
    List.append_assoc]

/-- A part that needs nothing to keep apart from it. -/
theorem append_of_closed (ha : Spells false a ts) (hb : Spells openEnd b us) :
    Spells openEnd (a ++ b) (ts ++ us) := fun rest hrest => by
  rw [List.append_assoc, ha _ nofun, hb rest hrest, List.append_assoc]

theorem follows_blank (h : Spells openEnd cs ts) : Follows openEnd o (' ' :: cs) ts where
  spells := h.blank
  ne_nil := List.cons_ne_nil _ _
  apart c hc := by
    cases hc
    exact goesOn_blank o

/-- A sign, and something that it does not go on with. -/
theorem sign (ho : isSign o = true) (h : Follows openEnd o cs ts) :
    Spells openEnd (o.toList ++ cs) (o :: ts) :=
  fun rest hrest => by
    rw [List.append_assoc, lex_sign ho, h.spells rest hrest, List.cons_append]
    cases cs with
    | nil => exact absurd rfl h.ne_nil
    | cons c cs => exact h.apart

theorem mark (ho : isMark o = true) : Spells false o.toList [o] := fun _ _ =>
  lex_sign (isSign_of_isMark ho) fun c _ => goesOn_of_isMark ho c

theorem mark_append (ho : isMark o = true) (h : Spells openEnd cs ts) :
    Spells openEnd (o.toList ++ cs) (o :: ts) :=
  (mark ho).append_of_closed h

/-- A mark, with something before it and something after it. -/
theorem append_mark (ha : Spells openEnd a ts) (ho : isMark o = true)
    (hb : Spells openEnd' b us) : Spells openEnd' (a ++ (o.toList ++ b)) (ts ++ o :: us) :=
  ha.append (hb.mark_append ho) (by simp [ne_nil_of_isSign (isSign_of_isMark ho)])
    (stops_of_isSign (isSign_of_isMark ho))

theorem parens {x : String} (h : Spells openEnd x.toList ts) :
    Spells false ("(" ++ x ++ ")").toList ("(" :: (ts ++ [")"])) := by
  have hclose := h.append_mark (o := ")") (by decide) nil
  simpa using hclose.mark_append (o := "(") (by decide)

end Spells

end Whittle.Source
