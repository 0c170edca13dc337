import Whittle.Proofs.Source.Operators
import Whittle.Validity.Typing

/-!
# Comments in what operations are printed as

An operator that is a sign stands right beside its operands, but for a plus or a minus that would
become one sign with the operand. So a division that has a regular expression beside it, a product
after one, and a comparison before the negation of a decrement are printed with the beginning of
a comment. No other operation brings one about.
-/

namespace Whittle.Source

variable {t l r e : Tree} {o p x y : String} {c : Char} {cs ds : List Char}

/-! ## Expressions with regular expressions -/

/-- A regular expression, with whether it has each of the flags. -/
def regExp (pattern : String) (flags : List Bool) : Tree :=
  .node .literalRegExpExpression (.str pattern :: flags.map .bool)

/-- Whether a pattern has letters and digits only, and at least one. -/
def isPattern (s : String) : Bool := !s.toList.isEmpty && s.toList.all Char.isAlphanum

/-- An expression that binary and unary operators put together from variables, their updates and
regular expressions. -/
inductive IsFormula : Tree → Prop
  | reference {s : String} (hs : isName s = true) : IsFormula (reference s)
  | regExp {pattern : String} {flags : List Bool} (hpattern : isPattern pattern = true)
    (hflags : flags.length = patternFlags.length) : IsFormula (regExp pattern flags)
  | update {s o : String} (isPrefix : Bool) (ho : o ∈ Language.updateOperators)
    (hs : isName s = true) :
    IsFormula (.node .updateExpression [.bool isPrefix, .str o, target s])
  | unary {e : Tree} {o : String} (ho : o ∈ Language.unaryOperators) (he : IsFormula e) :
    IsFormula (.node .unaryExpression [.str o, e])
  | binary {l r : Tree} {o : String} (hl : IsFormula l) (ho : o ∈ Language.binaryOperators)
    (hr : IsFormula r) : IsFormula (.node .binaryExpression [l, .str o, r])

/-- What comments begin with. -/
def commentOpeners : List String := ["//", "/*", "<!--"]

/-- What stands first in an expression, outside parentheses, is printed with the given signs at
its beginning: a regular expression, a decrement or the negation of one. -/
inductive Leads : String → Tree → Prop
  | pattern {fields : List Tree} : Leads "/" (.node .literalRegExpExpression fields)
  | decrement {w : Tree} : Leads "--" (.node .updateExpression [.bool true, .str "--", w])
  | negation {e : Tree} (he : prefixed ≤ binding e) (h : Leads "--" e) :
    Leads "!--" (.node .unaryExpression [.str "!", e])
  | left {l r : Tree} {o p : String} (hl : leftLeast o ≤ binding l) (h : Leads p l) :
    Leads p (.node .binaryExpression [l, .str o, r])

/-- What stands last in an expression, outside parentheses, is a regular expression without
flags. -/
inductive ClosesPattern : Tree → Prop
  | pattern {s : String} {flags : List Bool} (hflags : ∀ b ∈ flags, b = false) :
    ClosesPattern (regExp s flags)
  | right {l r : Tree} {o : String} (hr : rightLeast o ≤ binding r) (h : ClosesPattern r) :
    ClosesPattern (.node .binaryExpression [l, .str o, r])
  | operand {o : Tree} {e : Tree} (he : prefixed ≤ binding e) (h : ClosesPattern e) :
    ClosesPattern (.node .unaryExpression [o, e])

/-- A binary operator, with the operands beside it, is printed with what a comment begins with. -/
inductive Meets : String → Tree → String → Tree → Prop
  | dividend {l r : Tree} (hl : leftLeast "/" ≤ binding l) (h : ClosesPattern l) :
    Meets "//" l "/" r
  | divisor {l r : Tree} (hr : rightLeast "/" ≤ binding r) (h : Leads "/" r) : Meets "//" l "/" r
  | factor {l r : Tree} {o : String} (ho : o = "*" ∨ o = "**") (hl : leftLeast o ≤ binding l)
    (h : ClosesPattern l) : Meets "/*" l o r
  | bound {l r : Tree} {o : String} (ho : o = "<" ∨ o = "<<") (hr : rightLeast o ≤ binding r)
    (h : Leads "!--" r) : Meets "<!--" l o r

/-- Somewhere in an expression a binary operator meets what makes the given opener with it. -/
inductive Opens : String → Tree → Prop
  | here {l r : Tree} {o p : String} (h : Meets p l o r) :
    Opens p (.node .binaryExpression [l, .str o, r])
  | left {l r : Tree} {o p : String} (h : Opens p l) :
    Opens p (.node .binaryExpression [l, .str o, r])
  | right {l r : Tree} {o p : String} (h : Opens p r) :
    Opens p (.node .binaryExpression [l, .str o, r])
  | operand {o e : Tree} {p : String} (h : Opens p e) : Opens p (.node .unaryExpression [o, e])

theorem leads_regExp_iff {s : String} {flags : List Bool} :
    Leads p (regExp s flags) ↔ p = "/" := by
  constructor
  · rintro ⟨⟩
    rfl
  · rintro rfl
    exact .pattern

theorem leads_update_iff {isPrefix : Bool} {w : Tree} :
    Leads p (.node .updateExpression [.bool isPrefix, .str o, w]) ↔
      p = "--" ∧ o = "--" ∧ isPrefix = true := by
  constructor
  · rintro ⟨⟩
    exact ⟨rfl, rfl, rfl⟩
  · rintro ⟨rfl, rfl, rfl⟩
    exact .decrement

theorem leads_unary_iff : Leads p (.node .unaryExpression [.str o, e]) ↔
    p = "!--" ∧ o = "!" ∧ prefixed ≤ binding e ∧ Leads "--" e := by
  constructor
  · rintro ⟨⟩
    exact ⟨rfl, rfl, ‹_›, ‹_›⟩
  · rintro ⟨rfl, rfl, he, h⟩
    exact .negation he h

theorem leads_binary_iff : Leads p (.node .binaryExpression [l, .str o, r]) ↔
    leftLeast o ≤ binding l ∧ Leads p l := by
  constructor
  · rintro ⟨⟩
    exact ⟨‹_›, ‹_›⟩
  · exact fun ⟨hl, h⟩ => .left hl h

theorem closesPattern_regExp_iff {s : String} {flags : List Bool} :
    ClosesPattern (regExp s flags) ↔ ∀ b ∈ flags, b = false := by
  constructor
  · generalize ht : regExp s flags = t
    rintro (@⟨s', flags', h⟩ | _ | _)
    · have hfields : s = s' ∧ flags = flags' := by
        simpa [regExp, List.map_inj_right] using ht
      rwa [hfields.2]
    · cases ht
    · cases ht
  · exact .pattern

theorem closesPattern_unary_iff {o : Tree} : ClosesPattern (.node .unaryExpression [o, e]) ↔
    prefixed ≤ binding e ∧ ClosesPattern e := by
  constructor
  · rintro ⟨⟩
    exact ⟨‹_›, ‹_›⟩
  · exact fun ⟨he, h⟩ => .operand he h

theorem closesPattern_binary_iff : ClosesPattern (.node .binaryExpression [l, .str o, r]) ↔
    rightLeast o ≤ binding r ∧ ClosesPattern r := by
  constructor
  · rintro ⟨⟩
    exact ⟨‹_›, ‹_›⟩
  · exact fun ⟨hr, h⟩ => .right hr h

theorem opens_unary_iff {o : Tree} : Opens p (.node .unaryExpression [o, e]) ↔ Opens p e := by
  constructor
  · rintro ⟨⟩
    assumption
  · exact .operand

theorem opens_binary_iff : Opens p (.node .binaryExpression [l, .str o, r]) ↔
    Opens p l ∨ Opens p r ∨ Meets p l o r := by
  constructor
  · rintro (h | h | h)
    · exact .inr (.inr h)
    · exact .inl h
    · exact .inr (.inl h)
  · rintro (h | h | h)
    · exact .left h
    · exact .right h
    · exact .here h

/-! ## Openers in texts put together -/

/-- The ways to cut a text into two parts with something in each. -/
def cuts (cs : List Char) : List (List Char × List Char) :=
  (List.range' 1 (cs.length - 1)).map cs.splitAt

/-- What is found in two texts put together is in one of them or cut by where they meet. -/
theorem infix_append_iff_cut {as : List Char} (has : as ≠ []) : as <:+: cs ++ ds ↔
    as <:+: cs ∨ as <:+: ds ∨ ∃ u ∈ cuts as, u.1 <:+ cs ∧ u.2 <+: ds := by
  rw [List.infix_append_iff]
  constructor
  · rintro (h | h | ⟨us, vs, rfl, hu, hv⟩)
    · exact .inl h
    · exact .inr (.inl h)
    · rcases eq_or_ne us [] with rfl | hus
      · exact .inr (.inl hv.isInfix)
      rcases eq_or_ne vs [] with rfl | hvs
      · exact .inl (by simpa using hu.isInfix)
      refine .inr (.inr ⟨(us, vs), ?_, hu, hv⟩)
      have hlu := List.length_pos_iff.2 hus
      have hlv := List.length_pos_iff.2 hvs
      refine List.mem_map.2 ⟨us.length, ?_, by simp⟩
      simp only [List.length_append, List.mem_range'_1]
      omega
  · rintro (h | h | ⟨u, hmem, hu, hv⟩)
    · exact .inl h
    · exact .inr (.inl h)
    · obtain ⟨n, -, rfl⟩ := List.mem_map.1 hmem
      exact .inr (.inr ⟨_, _, by simp, hu, hv⟩)

theorem cuts_openers : commentOpeners.flatMap (fun p => cuts p.toList) =
    [(['/'], ['/']), (['/'], ['*']), (['<'], ['!', '-', '-']), (['<', '!'], ['-', '-']),
      (['<', '!', '-'], ['-'])] := by
  decide

section

variable {u : List Char × List Char}

/-- The parts that comment openers may be cut into. -/
theorem cut_cases (hp : p ∈ commentOpeners) (hu : u ∈ cuts p.toList) :
    u = (['/'], ['/']) ∨ u = (['/'], ['*']) ∨ u = (['<'], ['!', '-', '-']) ∨
      u = (['<', '!'], ['-', '-']) ∨ u = (['<', '!', '-'], ['-']) := by
  have hmem := List.mem_flatMap_of_mem (f := fun p => cuts p.toList) hp hu
  rw [cuts_openers] at hmem
  simpa using hmem

/-- No opener is cut after a text without slashes and less-than signs. -/
theorem not_cut_after (hp : p ∈ commentOpeners) (hu : u ∈ cuts p.toList) (hslash : '/' ∉ cs)
    (hless : '<' ∉ cs) : ¬ u.1 <:+ cs := by
  intro h
  rcases cut_cases hp hu with rfl | rfl | rfl | rfl | rfl
  · exact hslash (h.mem (by decide))
  · exact hslash (h.mem (by decide))
  all_goals exact hless (h.mem (by decide))

/-- No opener is cut before a text that begins with none of the characters openers go on with. -/
theorem not_cut_before (hp : p ∈ commentOpeners) (hu : u ∈ cuts p.toList)
    (hhead : ∀ c ∈ ds.head?, c ∉ ['/', '*', '!', '-']) : ¬ u.2 <+: ds := by
  rintro ⟨es, rfl⟩
  rcases cut_cases hp hu with rfl | rfl | rfl | rfl | rfl
  all_goals exact hhead _ rfl (by decide)

/-- An opener in two texts put together is in one of them or cut by where they meet. -/
theorem opener_infix_append_iff (hp : p ∈ commentOpeners) : p.toList <:+: cs ++ ds ↔
    p.toList <:+: cs ∨ p.toList <:+: ds ∨
      ∃ u ∈ cuts p.toList, u.1 <:+ cs ∧ u.2 <+: ds := by
  have hall : ∀ p ∈ commentOpeners, p.toList ≠ [] := by decide
  exact infix_append_iff_cut (hall p hp)

/-- A text without slashes and less-than signs has no opener in it. -/
theorem opener_notWithin (hp : p ∈ commentOpeners) (hslash : '/' ∉ cs) (hless : '<' ∉ cs) :
    ¬ p.toList <:+: cs := by
  have hall : ∀ p ∈ commentOpeners, '/' ∈ p.toList ∨ '<' ∈ p.toList := by decide
  intro h
  exact (hall p hp).elim (fun hmem => hslash (h.mem hmem)) fun hmem => hless (h.mem hmem)

theorem opener_infix_append_right_iff (hp : p ∈ commentOpeners) (hslash : '/' ∉ cs)
    (hless : '<' ∉ cs) : p.toList <:+: cs ++ ds ↔ p.toList <:+: ds := by
  rw [opener_infix_append_iff hp, or_iff_right (opener_notWithin hp hslash hless),
    or_iff_left]
  rintro ⟨u, hu, hleft, -⟩
  exact not_cut_after hp hu hslash hless hleft

theorem opener_infix_append_left_iff (hp : p ∈ commentOpeners) (hslash : '/' ∉ ds)
    (hless : '<' ∉ ds) (hhead : ∀ c ∈ ds.head?, c ∉ ['/', '*', '!', '-']) :
    p.toList <:+: cs ++ ds ↔ p.toList <:+: cs := by
  rw [opener_infix_append_iff hp, or_iff_right (opener_notWithin hp hslash hless), or_iff_left]
  rintro ⟨u, hu, -, hright⟩
  exact not_cut_before hp hu hhead hright

/-! ## Operands -/

/-- How the text of an operand may end, where the last character comes first: in a character of
a name, a parenthesis, a slash, or the sign of an update. -/
def endsOperand : List Char → Bool
  | '+' :: cs => cs.head? == some '+'
  | '-' :: cs => cs.head? == some '-'
  | c :: _ => isNameChar c || c == ')' || c == '/'
  | [] => false

/-- Whether an operand may begin with a character, if it may be a regular expression. -/
def isFormulaStart (c : Char) : Bool := isOperandStart c || c == '/'

/-- The signs that make an opener with what comes before them. -/
def leaders : List String := ["/", "--", "!--"]

/-- What an operand is printed as in a place, as far as comments are concerned. -/
structure Placed (t : Tree) (least : Nat) (text : String) : Prop where
  begins : Begins isFormulaStart text
  ends : endsOperand text.toList.reverse = true
  leads_iff : ∀ p ∈ leaders, p.toList <+: text.toList ↔ least ≤ binding t ∧ Leads p t
  closes_iff : ['/'] <:+ text.toList ↔ least ≤ binding t ∧ ClosesPattern t
  opens_iff : ∀ p ∈ commentOpeners, p.toList <:+: text.toList ↔ Opens p t

theorem endsOperand_cons (hc : isNameChar c = true ∨ c = ')' ∨ c = '/') :
    endsOperand (c :: cs) = true := by
  unfold endsOperand
  split
  · rename_i heq
    cases heq
    simp +decide at hc
  · rename_i heq
    cases heq
    simp +decide at hc
  · rename_i heq
    cases heq
    simpa [or_assoc] using hc
  · rename_i heq
    cases heq

theorem endsOperand_append (h : endsOperand cs = true) : endsOperand (cs ++ ds) = true := by
  unfold endsOperand at h
  split at h
  · obtain ⟨cs, rfl⟩ := List.head?_eq_some_iff.1 (by simpa using h)
    rfl
  · obtain ⟨cs, rfl⟩ := List.head?_eq_some_iff.1 (by simpa using h)
    rfl
  · exact endsOperand_cons (by simpa [or_assoc] using h)
  · cases h

/-- Only a slash may be cut off an opener at the end of an operand. -/
theorem cut_of_ends (hends : endsOperand cs.reverse = true) (hp : p ∈ commentOpeners)
    (hu : u ∈ cuts p.toList) (h : u.1 <:+ cs) : u = (['/'], ['/']) ∨ u = (['/'], ['*']) := by
  obtain ⟨ds, rfl⟩ := h
  rcases cut_cases hp hu with rfl | rfl | rfl | rfl | rfl
  · exact .inl rfl
  · exact .inr rfl
  all_goals simp +decide [endsOperand] at hends

end

/-- An operand that has a leader's signs at its beginning, together with what follows it, has
them without that too. -/
theorem leader_prefix_append_iff (hends : endsOperand cs.reverse = true) (hp : p ∈ leaders) :
    p.toList <+: cs ++ ds ↔ p.toList <+: cs := by
  refine ⟨fun h => ?_, fun h => h.trans (List.prefix_append _ _)⟩
  rcases Nat.le_total p.toList.length cs.length with hle | hle
  · exact List.prefix_of_prefix_length_le h (List.prefix_append _ _) hle
  · -- An operand that ended within those signs would end in only a part of them.
    have hall : ∀ p ∈ leaders, ∀ cs ∈ p.toList.inits, endsOperand cs.reverse = true →
        cs = p.toList := by
      decide
    have hpart : cs <+: p.toList :=
      List.prefix_of_prefix_length_le (List.prefix_append _ _) h hle
    rw [hall p hp cs ((List.mem_inits _ _).2 hpart) hends]

/-- No leader begins with other characters than those three. -/
theorem leader_notBeginning (hp : p ∈ leaders) (hc : c ∉ ['/', '-', '!']) :
    ¬ p.toList <+: c :: cs := by
  have hall : ∀ p ∈ leaders, Begins ['/', '-', '!'].contains p := by decide
  obtain ⟨d, ds, hds, hd⟩ := hall p hp
  rw [hds, List.cons_prefix_cons]
  rintro ⟨rfl, -⟩
  exact hc (List.contains_iff_mem.1 hd)

theorem singleton_suffix_append_iff (hne : ds ≠ []) : [c] <:+ cs ++ ds ↔ [c] <:+ ds := by
  refine ⟨fun h => ?_, fun h => h.trans (List.suffix_append _ _)⟩
  exact List.suffix_of_suffix_length_le h (List.suffix_append _ _) (List.length_pos_iff.2 hne)

theorem singleton_prefix_append_iff (hne : cs ≠ []) : [c] <+: cs ++ ds ↔ [c] <+: cs := by
  refine ⟨fun h => ?_, fun h => h.trans (List.prefix_append _ _)⟩
  exact List.prefix_of_prefix_length_le h (List.prefix_append _ _) (List.length_pos_iff.2 hne)

theorem singleton_suffix_iff : [c] <:+ cs ↔ cs.getLast? = some c := by
  rw [List.getLast?_eq_some_iff]
  exact exists_congr fun _ => eq_comm

/-- In its place an operand may be put in parentheses. -/
theorem Placed.place (h : Placed t sequence x) (least : Nat) :
    Placed t least (if binding t < least then inParens x else x) := by
  split
  · rename_i hlt
    have hnot : ¬ least ≤ binding t := Nat.not_le.2 hlt
    have htext : (inParens x).toList = ['('] ++ (x.toList ++ [')']) := by simp [inParens]
    refine ⟨⟨'(', _, htext, by decide⟩, ?ends, fun p hp => ?leads, ?closes, fun p hp => ?opens⟩
    case ends => simp [htext, endsOperand]
    case leads =>
      rw [htext]
      exact iff_of_false (leader_notBeginning hp (by decide)) fun hleads => hnot hleads.1
    case closes =>
      rw [htext, ← List.append_assoc, singleton_suffix_append_iff (List.cons_ne_nil _ _),
        singleton_suffix_iff]
      simp [hnot]
    case opens =>
      rw [htext, opener_infix_append_right_iff hp (by decide) (by decide),
        opener_infix_append_left_iff hp (by decide) (by decide) (by simp), h.opens_iff p hp]
  · rename_i hlt
    have hle : least ≤ binding t := Nat.not_lt.1 hlt
    refine ⟨h.begins, h.ends, fun p hp => ?_, ?_, h.opens_iff⟩
    · rw [h.leads_iff p hp]
      simp [hle, sequence]
    · rw [h.closes_iff]
      simp [hle, sequence]

/-! ## Operations -/

theorem endsOperand_of_all (hne : cs ≠ []) (hall : cs.all isNameChar = true) :
    endsOperand cs.reverse = true := by
  obtain ⟨c, ds, hcs⟩ := List.exists_cons_of_ne_nil (List.reverse_ne_nil_iff.2 hne)
  have hc : c ∈ cs := List.mem_reverse.1 (hcs ▸ List.mem_cons_self)
  rw [hcs]
  exact endsOperand_cons (.inl (List.all_eq_true.1 hall c hc))

theorem notMem_of_all (hall : cs.all isNameChar = true) (hc : isNameChar c = false) : c ∉ cs := by
  intro hmem
  rw [List.all_eq_true.1 hall c hmem] at hc
  cases hc

/-- A text without slashes and less-than signs is printed for what has no opener. -/
theorem placed_of_plain (hbegins : Begins isFormulaStart x)
    (hends : endsOperand x.toList.reverse = true)
    (hleads : ∀ p ∈ leaders, p.toList <+: x.toList ↔ Leads p t)
    (hslash : '/' ∉ x.toList) (hless : '<' ∉ x.toList) (hcloses : ¬ ClosesPattern t)
    (hopens : ∀ p, ¬ Opens p t) : Placed t sequence x where
  begins := hbegins
  ends := hends
  leads_iff p hp := by simp [hleads p hp, sequence]
  closes_iff := iff_of_false (fun h => hslash (h.mem (List.mem_singleton_self _)))
    fun h => hcloses h.2
  opens_iff p hp := iff_of_false (opener_notWithin hp hslash hless) (hopens p)

/-- No leader begins with a character of a name. -/
theorem leader_notBeginning_of_isNameChar (hp : p ∈ leaders) (hc : isNameChar c = true) :
    ¬ p.toList <+: c :: cs := by
  refine leader_notBeginning hp fun hmem => ?_
  simp only [List.mem_cons, List.not_mem_nil, or_false] at hmem
  rcases hmem with rfl | rfl | rfl <;> cases hc

theorem isFormulaStart_of_isOperandStart (hc : isOperandStart c = true) :
    isFormulaStart c = true := by
  rw [isFormulaStart, hc, Bool.true_or]

theorem placed_reference (hx : isName x = true) : Placed (reference x) sequence x := by
  have hall := all_isNameChar_of_isName hx
  obtain ⟨c, cs, hcs, hc, -⟩ := exists_cons_of_isName hx
  refine placed_of_plain ?begins (endsOperand_of_all (by simp [hcs]) hall) (fun p hp => ?leads)
    (notMem_of_all hall rfl) (notMem_of_all hall rfl) nofun nofun
  case begins =>
    exact (beginsOperand_of_isName hx).mono fun c => isFormulaStart_of_isOperandStart
  case leads =>
    rw [hcs]
    exact iff_of_false (leader_notBeginning_of_isNameChar hp hc) nofun

theorem placed_update {isPrefix : Bool} (ho : o ∈ Language.updateOperators)
    (hx : isName x = true) :
    Placed (.node .updateExpression [.bool isPrefix, .str o, target x]) sequence
      (if isPrefix then o ++ x else x ++ o) := by
  have hall := all_isNameChar_of_isName hx
  obtain ⟨c, cs, hcs, hc, -⟩ := exists_cons_of_isName hx
  have hsign : '/' ∉ o.toList ∧ '<' ∉ o.toList ∧ endsOperand o.toList.reverse = true := by
    have hall : ∀ o ∈ Language.updateOperators, '/' ∉ o.toList ∧ '<' ∉ o.toList ∧
        endsOperand o.toList.reverse = true := by
      decide
    exact hall o ho
  have hmem : ∀ c, isNameChar c = false → c ∉ o.toList →
      c ∉ (if isPrefix then o ++ x else x ++ o).toList := by
    intro c hc hsign
    cases isPrefix <;> simp [hsign, notMem_of_all hall hc]
  refine placed_of_plain ?begins ?ends (fun p hp => ?leads) (hmem _ rfl hsign.1)
    (hmem _ rfl hsign.2.1) nofun nofun
  case begins =>
    refine Begins.mono ?_ fun c => isFormulaStart_of_isOperandStart
    cases isPrefix
    · exact (beginsOperand_of_isName hx).append
    · exact (begins_of_operator (by simp [ho])).append
  case ends =>
    cases isPrefix
    · simpa using endsOperand_append hsign.2.2
    · simpa using endsOperand_append (endsOperand_of_all (by simp [hcs]) hall)
  case leads =>
    rw [leads_update_iff]
    cases isPrefix with
    | false =>
      rw [if_neg Bool.false_ne_true, String.toList_append, hcs]
      exact iff_of_false (leader_notBeginning_of_isNameChar hp hc) (by simp)
    | true =>
      rw [if_pos rfl, String.toList_append]
      have hcases : o = "++" ∨ o = "--" := by simpa [Language.updateOperators] using ho
      rcases hcases with rfl | rfl
      · exact iff_of_false (leader_notBeginning hp (by decide)) (by simp)
      · simp only [leaders, List.mem_cons, List.not_mem_nil, or_false] at hp
        rcases hp with rfl | rfl | rfl <;> simp

/-- The letters of the flags that a regular expression has. -/
def flagLetters (flags : List Bool) : String :=
  String.join ((patternFlags.zip flags).map fun (field, b) => if b then field.2 else "")

section

variable {flags : List Bool}

theorem regExp_printsAs (hflags : flags.length = patternFlags.length) :
    PrintsAs (regExp x flags) ("/" ++ x ++ "/" ++ flagLetters flags) primary := by
  match flags, hflags with
  | [g, i, m, s, u, y], _ => exact printsAs_of_value rfl rfl

theorem flagLetters_all (hflags : flags.length = patternFlags.length) :
    (flagLetters flags).toList.all isNameChar = true := by
  match flags, hflags with
  | [g, i, m, s, u, y], _ =>
    revert g i m s u y
    decide

theorem flagLetters_eq_nil_iff (hflags : flags.length = patternFlags.length) :
    (flagLetters flags).toList = [] ↔ ∀ b ∈ flags, b = false := by
  match flags, hflags with
  | [g, i, m, s, u, y], _ =>
    revert g i m s u y
    decide

theorem isNameChar_of_isAlphanum (hc : c.isAlphanum = true) : isNameChar c = true := by
  simp only [Char.isAlphanum, Bool.or_eq_true] at hc
  rcases hc with hc | hc <;> simp [isNameChar, Rules.isIdentifierStart, hc]

theorem isPattern_iff : isPattern x = true ↔
    x.toList ≠ [] ∧ ∀ c ∈ x.toList, c.isAlphanum = true := by
  simp [isPattern]

/-- Between slashes there is nothing that a comment begins with, nor between a slash and a
letter. -/
theorem opener_notWithin_regExp (hp : p ∈ commentOpeners) (hne : cs ≠ [])
    (hcs : cs.all isNameChar = true) (hds : ds.all isNameChar = true) :
    ¬ p.toList <:+: ['/'] ++ (cs ++ (['/'] ++ ds)) := by
  have hslash : ∀ p ∈ commentOpeners, ¬ p.toList <:+: ['/'] := by decide
  have hapart : ∀ c, isNameChar c = true → c ∉ ['/', '*', '!', '-'] := by
    intro c hc hmem
    have hall : (['/', '*', '!', '-'].all fun c => !isNameChar c) = true := by decide
    simpa [hc] using List.all_eq_true.1 hall c hmem
  have hhead : ∀ {es : List Char}, es.all isNameChar = true → ∀ c ∈ es.head?,
      c ∉ ['/', '*', '!', '-'] :=
    fun hes c hc => hapart c (List.all_eq_true.1 hes c (List.mem_of_mem_head? hc))
  rw [opener_infix_append_iff hp, opener_infix_append_right_iff hp (notMem_of_all hcs rfl)
    (notMem_of_all hcs rfl), opener_infix_append_left_iff hp (notMem_of_all hds rfl)
    (notMem_of_all hds rfl) (hhead hds)]
  rintro (h | h | ⟨u, hu, -, h⟩)
  · exact hslash p hp h
  · exact hslash p hp h
  · refine not_cut_before hp hu ?_ h
    rw [List.head?_append_of_ne_nil _ hne]
    exact hhead hcs

theorem placed_regExp (hx : isPattern x = true) (hflags : flags.length = patternFlags.length) :
    Placed (regExp x flags) sequence ("/" ++ x ++ "/" ++ flagLetters flags) := by
  obtain ⟨hne, halphanum⟩ := isPattern_iff.1 hx
  have hall : x.toList.all isNameChar = true :=
    List.all_eq_true.2 fun c hc => isNameChar_of_isAlphanum (halphanum c hc)
  have hletters := flagLetters_all hflags
  have htext : ("/" ++ x ++ "/" ++ flagLetters flags).toList =
      ['/'] ++ (x.toList ++ (['/'] ++ (flagLetters flags).toList)) := by simp
  refine ⟨⟨'/', _, htext, by decide⟩, ?ends, fun p hp => ?leads, ?closes, fun p hp => ?opens⟩
  all_goals rw [htext]
  case ends =>
    rcases eq_or_ne (flagLetters flags).toList [] with hnone | hsome
    · simpa [hnone] using endsOperand_cons (.inr (.inr rfl))
    · simpa using endsOperand_append (endsOperand_of_all hsome hletters)
  case leads =>
    rw [leads_regExp_iff]
    simp only [leaders, List.mem_cons, List.not_mem_nil, or_false] at hp
    rcases hp with rfl | rfl | rfl
    all_goals simp [sequence]
  case closes =>
    rw [closesPattern_regExp_iff, ← flagLetters_eq_nil_iff hflags, ← List.append_assoc,
      ← List.append_assoc]
    rcases eq_or_ne (flagLetters flags).toList [] with hnone | hsome
    · rw [hnone]
      simp [sequence]
    · rw [singleton_suffix_append_iff hsome]
      refine iff_of_false (fun h => ?_) fun h => hsome h.2
      exact notMem_of_all hletters rfl (h.mem (List.mem_singleton_self _))
  case opens =>
    exact iff_of_false (opener_notWithin_regExp hp hne hall hletters) nofun

end

/-- Before its operand a unary operator leads only as a negation. -/
theorem leader_prefix_unary_iff (ho : o ∈ Language.unaryOperators) (hp : p ∈ leaders) :
    p.toList <+: (o ++ (if unarySpace o x then " " else "")).toList ++ x.toList ↔
      p = "!--" ∧ o = "!" ∧ "--".toList <+: x.toList := by
  have hcases : o = "!" ∨ o = "-" ∨ Begins (fun c => !List.contains ['/', '-', '!'] c) o := by
    have hall : ∀ o ∈ Language.unaryOperators,
        o = "!" ∨ o = "-" ∨ Begins (fun c => !List.contains ['/', '-', '!'] c) o := by
      decide
    exact hall o ho
  rcases hcases with rfl | rfl | hother
  · have hspace : unarySpace "!" x = false := rfl
    simp only [leaders, List.mem_cons, List.not_mem_nil, or_false] at hp
    rcases hp with rfl | rfl | rfl <;> simp [hspace]
  · simp only [leaders, List.mem_cons, List.not_mem_nil, or_false] at hp
    rcases hp with rfl | rfl | rfl
    · simp
    · -- A second minus would have been kept apart from the first.
      suffices h : ¬ "--".toList <+:
          ("-" ++ if unarySpace "-" x then " " else "").toList ++ x.toList by
        simpa using h
      split
      · simp
      · rename_i hspace
        rintro ⟨cs, hcs⟩
        have hx : x.toList = '-' :: cs := by simpa using hcs.symm
        exact hspace (by simp [unarySpace, hx, afterWord?])
    · simp
  · refine iff_of_false ?_ ?_
    · obtain ⟨c, cs, hcs, hc⟩ := hother
      rw [String.toList_append, hcs]
      exact leader_notBeginning hp (by simpa using hc)
    · rintro ⟨-, rfl, -⟩
      exact absurd hother (by decide)

/-- What a unary operator is printed with before its operand. -/
theorem placed_unary (ho : o ∈ Language.unaryOperators) (hx : Placed e prefixed x) :
    Placed (.node .unaryExpression [.str o, e]) sequence
      (o ++ (if unarySpace o x then " " else "") ++ x) := by
  have hsign : ∀ b : Bool, '/' ∉ (o ++ if b then " " else "").toList ∧
      '<' ∉ (o ++ if b then " " else "").toList := by
    have hall : ∀ o ∈ Language.unaryOperators, ∀ b : Bool,
        '/' ∉ (o ++ if b then " " else "").toList ∧
          '<' ∉ (o ++ if b then " " else "").toList := by
      decide
    exact hall o ho
  refine ⟨?begins, ?ends, fun p hp => ?leads, ?closes, fun p hp => ?opens⟩
  case begins =>
    rw [String.append_assoc]
    exact (begins_of_operator (by simp [ho])).append.mono fun c => isFormulaStart_of_isOperandStart
  all_goals rw [String.toList_append]
  case ends =>
    rw [List.reverse_append]
    exact endsOperand_append hx.ends
  case leads =>
    rw [leader_prefix_unary_iff ho hp, hx.leads_iff _ (by decide), leads_unary_iff]
    simp [sequence]
  case closes =>
    rw [singleton_suffix_append_iff hx.begins.ne_nil, hx.closes_iff, closesPattern_unary_iff]
    simp [sequence]
  case opens =>
    rw [opener_infix_append_right_iff hp (hsign _).1 (hsign _).2, hx.opens_iff p hp,
      opens_unary_iff]

/-- A binary operator with the spaces around it. -/
def spaced (o : String) (clash : Bool) : String :=
  if o = "in" ∨ o = "instanceof" then " " ++ o ++ " " else o ++ if clash then " " else ""

theorem meets_iff : Meets p l o r ↔
    p = "//" ∧ o = "/" ∧ leftLeast o ≤ binding l ∧ ClosesPattern l ∨
    p = "//" ∧ o = "/" ∧ rightLeast o ≤ binding r ∧ Leads "/" r ∨
    p = "/*" ∧ (o = "*" ∨ o = "**") ∧ leftLeast o ≤ binding l ∧ ClosesPattern l ∨
    p = "<!--" ∧ (o = "<" ∨ o = "<<") ∧ rightLeast o ≤ binding r ∧ Leads "!--" r := by
  constructor
  · rintro (⟨hl, h⟩ | ⟨hr, h⟩ | ⟨ho, hl, h⟩ | ⟨ho, hr, h⟩)
    · exact .inl ⟨rfl, rfl, hl, h⟩
    · exact .inr (.inl ⟨rfl, rfl, hr, h⟩)
    · exact .inr (.inr (.inl ⟨rfl, ho, hl, h⟩))
    · exact .inr (.inr (.inr ⟨rfl, ho, hr, h⟩))
  · rintro (⟨rfl, rfl, hl, h⟩ | ⟨rfl, rfl, hr, h⟩ | ⟨rfl, ho, hl, h⟩ | ⟨rfl, ho, hr, h⟩)
    · exact .dividend hl h
    · exact .divisor hr h
    · exact .factor ho hl h
    · exact .bound ho hr h

/-- Where openers may begin and end in a binary operator with the spaces around it. -/
@[mk_iff]
structure IsSeam (o sign : String) : Prop where
  ne_nil : sign.toList ≠ []
  notWithin : ∀ p ∈ commentOpeners, ¬ p.toList <:+: sign.toList
  slash_prefix_iff : ['/'] <+: sign.toList ↔ o = "/"
  star_prefix_iff : ['*'] <+: sign.toList ↔ o = "*" ∨ o = "**"
  slash_suffix_iff : ['/'] <:+ sign.toList ↔ o = "/"
  less_suffix_iff : ['<'] <:+ sign.toList ↔ o = "<" ∨ o = "<<"
  notEnding : ∀ cs ∈ [['<', '!'], ['<', '!', '-']], ¬ cs <:+ sign.toList

instance {sign : String} : Decidable (IsSeam o sign) :=
  decidable_of_iff _ (isSeam_iff o sign).symm

theorem isSeam_spaced (ho : o ∈ Language.binaryOperators) : IsSeam o (spaced o (clashes o y)) := by
  have hall : ∀ o ∈ Language.binaryOperators, ∀ clash : Bool,
      (clash = true → finalSign? o ≠ none) → IsSeam o (spaced o clash) := by
    decide
  refine hall o ho _ fun hclash hnone => ?_
  simp [clashes, hnone] at hclash

theorem binaryText_eq_spaced :
    (if o = "in" ∨ o = "instanceof" then x ++ " " ++ o ++ " " ++ y
      else x ++ o ++ (if clashes o y then " " else "") ++ y) =
      x ++ (spaced o (clashes o y) ++ y) := by
  unfold spaced
  split <;> simp only [String.append_assoc]

section

variable {sign : String} (hsign : IsSeam o sign)

include hsign

/-- Where the operator begins only the slash of a regular expression is gone on with. -/
theorem cut_after_left_iff (hx : Placed l (leftLeast o) x) (hp : p ∈ commentOpeners) :
    (∃ u ∈ cuts p.toList, u.1 <:+ x.toList ∧ u.2 <+: sign.toList ++ ds) ↔
      p = "//" ∧ o = "/" ∧ leftLeast o ≤ binding l ∧ ClosesPattern l ∨
      p = "/*" ∧ (o = "*" ∨ o = "**") ∧ leftLeast o ≤ binding l ∧ ClosesPattern l := by
  have hcut : ∀ u ∈ cuts p.toList, u.1 <:+ x.toList → u = (['/'], ['/']) ∨ u = (['/'], ['*']) :=
    fun u hu => cut_of_ends hx.ends hp hu
  have hslash : ['/'] <+: sign.toList ++ ds ↔ o = "/" :=
    (singleton_prefix_append_iff hsign.ne_nil).trans hsign.slash_prefix_iff
  have hstar : ['*'] <+: sign.toList ++ ds ↔ o = "*" ∨ o = "**" :=
    (singleton_prefix_append_iff hsign.ne_nil).trans hsign.star_prefix_iff
  simp only [commentOpeners, List.mem_cons, List.not_mem_nil, or_false] at hp
  rcases hp with rfl | rfl | rfl
  · have hcuts : cuts "//".toList = [(['/'], ['/'])] := rfl
    simp only [hcuts, List.mem_singleton, exists_eq_left, hx.closes_iff, hslash]
    simp [and_comm]
  · have hcuts : cuts "/*".toList = [(['/'], ['*'])] := rfl
    simp only [hcuts, List.mem_singleton, exists_eq_left, hx.closes_iff, hstar]
    simp [and_comm]
  · refine iff_of_false ?_ (by simp)
    rintro ⟨u, hu, hux, -⟩
    rcases hcut u hu hux with rfl | rfl
    · exact absurd hu (by decide)
    · exact absurd hu (by decide)

/-- Where the operator ends only a slash or a less-than sign is gone on with. -/
theorem cut_before_right_iff (hy : Placed r (rightLeast o) y) (hp : p ∈ commentOpeners) :
    (∃ u ∈ cuts p.toList, u.1 <:+ sign.toList ∧ u.2 <+: y.toList) ↔
      p = "//" ∧ o = "/" ∧ rightLeast o ≤ binding r ∧ Leads "/" r ∨
      p = "<!--" ∧ (o = "<" ∨ o = "<<") ∧ rightLeast o ≤ binding r ∧ Leads "!--" r := by
  simp only [commentOpeners, List.mem_cons, List.not_mem_nil, or_false] at hp
  rcases hp with rfl | rfl | rfl
  · have hcuts : cuts "//".toList = [(['/'], "/".toList)] := rfl
    simp only [hcuts, List.mem_singleton, exists_eq_left, hsign.slash_suffix_iff,
      hy.leads_iff "/" (by decide)]
    simp
  · refine iff_of_false ?_ (by simp)
    rintro ⟨u, hu, -, huy⟩
    have hcuts : cuts "/*".toList = [(['/'], ['*'])] := rfl
    rw [hcuts, List.mem_singleton] at hu
    subst hu
    obtain ⟨c, cs, hcs, hc⟩ := hy.begins
    rw [hcs, List.cons_prefix_cons] at huy
    rw [← huy.1] at hc
    exact absurd hc (by decide)
  · have hcuts : cuts "<!--".toList = [(['<'], "!--".toList), (['<', '!'], ['-', '-']),
        (['<', '!', '-'], ['-'])] := rfl
    have hpart := hsign.notEnding ['<', '!'] (by simp)
    have hpart' := hsign.notEnding ['<', '!', '-'] (by simp)
    simp only [hcuts, List.mem_cons, List.not_mem_nil, or_false, exists_eq_or_imp, exists_eq_left,
      hsign.less_suffix_iff, hy.leads_iff "!--" (by decide), hpart, hpart']
    simp

/-- A binary operation is printed with an opener in an operand, or where one of them meets the
operator. -/
theorem opener_infix_binary_iff (hx : Placed l (leftLeast o) x) (hy : Placed r (rightLeast o) y)
    (hp : p ∈ commentOpeners) : p.toList <:+: x.toList ++ (sign.toList ++ y.toList) ↔
      Opens p l ∨ Opens p r ∨ Meets p l o r := by
  rw [opener_infix_append_iff hp, opener_infix_append_iff hp, hx.opens_iff p hp,
    hy.opens_iff p hp, or_iff_right (hsign.notWithin p hp), cut_after_left_iff hsign hx hp,
    cut_before_right_iff hsign hy hp, meets_iff]
  simp only [or_assoc, or_comm, or_left_comm]

end

theorem placed_binary (ho : o ∈ Language.binaryOperators) (hx : Placed l (leftLeast o) x)
    (hy : Placed r (rightLeast o) y) :
    Placed (.node .binaryExpression [l, .str o, r]) sequence
      (x ++ (spaced o (clashes o y) ++ y)) := by
  have hsign := isSeam_spaced (y := y) ho
  refine ⟨hx.begins.append, ?ends, fun p hp => ?leads, ?closes, fun p hp => ?opens⟩
  all_goals rw [String.toList_append, String.toList_append]
  case ends =>
    rw [← List.append_assoc, List.reverse_append]
    exact endsOperand_append hy.ends
  case leads =>
    rw [leader_prefix_append_iff hx.ends hp, hx.leads_iff p hp, leads_binary_iff]
    simp [sequence]
  case closes =>
    rw [← List.append_assoc, singleton_suffix_append_iff hy.begins.ne_nil, hy.closes_iff,
      closesPattern_binary_iff]
    simp [sequence]
  case opens =>
    rw [opener_infix_binary_iff hsign hx hy hp, opens_binary_iff]

/-- A formula is printed as a text with just the openers that its operators bring about. -/
theorem exists_placed (h : IsFormula t) :
    ∃ text, PrintsAs t text (binding t) ∧ Placed t sequence text := by
  induction h with
  | reference hs => exact ⟨_, printsAs_of_value rfl rfl, placed_reference hs⟩
  | regExp hpattern hflags => exact ⟨_, regExp_printsAs hflags, placed_regExp hpattern hflags⟩
  | update isPrefix ho hs => exact ⟨_, printsAs_of_value rfl updateValue_eq, placed_update ho hs⟩
  | @unary e o ho he ih =>
    obtain ⟨x, hx, hplaced⟩ := ih
    have hvalue : expressionText .unaryExpression _ = _ := congrArg (·.map (·, prefixed))
      (unaryText_eq (o := o) (f := .error .malformed) (hx.expression_eq prefixed))
    exact ⟨_, printsAs_of_value rfl (value_of_text hvalue),
      placed_unary ho (hplaced.place prefixed)⟩
  | @binary l r o hl ho hr ihl ihr =>
    obtain ⟨x, hx, hleft⟩ := ihl
    obtain ⟨y, hy, hright⟩ := ihr
    have htext := binaryText_eq (f := .error .malformed) ho (hx.expression_eq (leftLeast o))
      (hy.expression_eq (rightLeast o))
    rw [binaryText_eq_spaced] at htext
    exact ⟨_, printsAs_of_value rfl (value_of_text htext),
      placed_binary ho (hleft.place (leftLeast o)) (hright.place (rightLeast o))⟩

/-- A formula is printed with what a comment begins with just if one of its operators meets what
makes it: a division a regular expression beside it, a product one before it, or a comparison or
shift to the left the negation of a decrement after it. -/
theorem source_opener_iff (h : IsFormula t) (hp : p ∈ commentOpeners) :
    ∃ text, t.source = .ok text ∧ (p.toList <:+: text.toList ↔ Opens p t) := by
  obtain ⟨text, htext, hplaced⟩ := exists_placed h
  exact ⟨text, htext.source, hplaced.opens_iff p hp⟩

/-- A regular expression with a flag, divided by a variable. -/
def flaggedDivision : Tree :=
  .node .binaryExpression
    [regExp "x" [true, false, false, false, false, false], .str "/", reference "a"]

theorem source_opener_iff_flaggedDivision :
    IsFormula flaggedDivision ∧ "//" ∈ commentOpeners ∧
      ∃ text, flaggedDivision.source = .ok text ∧ ¬ "//".toList <:+: text.toList := by
  have hformula : IsFormula flaggedDivision :=
    .binary (.regExp (by decide) rfl) (by decide) (.reference (by decide))
  have hopener : "//" ∈ commentOpeners := by decide
  have hnot : ¬ Opens "//" flaggedDivision := by
    rw [flaggedDivision, opens_binary_iff]
    rintro (h | h | h)
    · cases h
    · cases h
    · have hreference : ∀ p, ¬ Leads p (reference "a") := by
        rintro p ⟨⟩
      rcases meets_iff.1 h with ⟨-, -, -, h⟩ | ⟨-, -, -, h⟩ | ⟨h, -⟩ | ⟨h, -⟩
      · exact absurd (closesPattern_regExp_iff.1 h) (by decide)
      · exact hreference _ h
      all_goals exact absurd h (by decide)
  obtain ⟨text, htext, hiff⟩ := source_opener_iff hformula hopener
  exact ⟨hformula, hopener, text, htext, fun h => hnot (hiff.1 h)⟩

/-- A variable divided by a regular expression without flags. -/
def plainDivision : Tree :=
  .node .binaryExpression
    [reference "a", .str "/", regExp "x" [false, false, false, false, false, false]]

/-- The division by a regular expression is printed with the beginning of a comment. -/
theorem plainDivision_opens_comment :
    IsFormula plainDivision ∧ plainDivision.wellTyped = true ∧
      plainDivision.source = .ok "a//x/" ∧ "//".toList <:+: "a//x/".toList :=
  ⟨.binary (.reference (by decide)) (by decide) (.regExp (by decide) rfl), by decide, rfl,
    by decide⟩

end Whittle.Source
