import Whittle.Proofs.Source.Operators

/-!
# Operations read back

An operation is read from its words and signs by precedence climbing: an operand first, and then,
as long as they bind at least so tightly as asked for, operators with what is to their right. The
parentheses of an operation are just those that let it be read back, so no two operations have
the same words and signs, and no two are printed as the same text.
-/

namespace Whittle.Source

/-! ## Reading -/

mutual
/-- The operand at the beginning of some words and signs, and what is left. -/
def readOperand : Nat → List String → Option (Tree × List String)
  | 0, _ | _ + 1, [] => none
  | n + 1, w :: ts =>
    if w = "(" then do
      match ← readExpression n sequence ts with
      | (e, ")" :: ts) => some (e, ts)
      | _ => none
    else if w ∈ Language.updateOperators then
      match ts with
      | s :: ts => some (.node .updateExpression [.bool true, .str w, target s], ts)
      | [] => none
    else if w ∈ Language.unaryOperators then do
      let (e, ts) ← readExpression n prefixed ts
      some (.node .unaryExpression [.str w, e], ts)
    else readVariable n w ts

/-- What begins with a variable: an update or assignment of it, or the variable alone. -/
def readVariable : Nat → String → List String → Option (Tree × List String)
  | 0, _, _ => none
  | _ + 1, s, [] => some (reference s, [])
  | n + 1, s, o :: ts =>
    if o ∈ Language.updateOperators then
      some (.node .updateExpression [.bool false, .str o, target s], ts)
    else if o = "=" then do
      let (e, ts) ← readExpression n assignment ts
      some (.node .assignmentExpression [target s, e], ts)
    else if o ∈ Language.compoundOperators then do
      let (e, ts) ← readExpression n assignment ts
      some (.node .compoundAssignmentExpression [target s, .str o, e], ts)
    else some (reference s, o :: ts)

/-- The expression at the beginning, as far as its operators bind so tightly. -/
def readExpression : Nat → Nat → List String → Option (Tree × List String)
  | 0, _, _ => none
  | n + 1, least, ts => do
    let (l, ts) ← readOperand n ts
    readOperators n least l ts

/-- The operators that follow an expression, as far as they bind so tightly. -/
def readOperators : Nat → Nat → Tree → List String → Option (Tree × List String)
  | 0, _, _, _ => none
  | _ + 1, _, l, [] => some (l, [])
  | n + 1, least, l, o :: ts =>
    if o = "?" ∧ least ≤ conditional then do
      match ← readExpression n assignment ts with
      | (b, ":" :: ts) =>
        let (c, ts) ← readExpression n assignment ts
        readOperators n least (.node .conditionalExpression [l, b, c]) ts
      | _ => none
    else if o ∈ Language.binaryOperators ∧ least ≤ precedence o then do
      let (r, ts) ← readExpression n (rightLeast o) ts
      readOperators n least (.node .binaryExpression [l, .str o, r]) ts
    else some (l, o :: ts)
end

/-- With fuel enough, that is the result. -/
def Reads {α : Type} (p : Nat → Option α) (a : α) : Prop := ∀ᶠ n in Filter.atTop, p n = some a

theorem Reads.unique {α : Type} {p : Nat → Option α} {a b : α} (ha : Reads p a)
    (hb : Reads p b) : a = b := by
  obtain ⟨n, hn, hn'⟩ := (ha.and hb).exists
  exact Option.some.inj (hn.symm.trans hn')

/-- What is read with one more unit of fuel is read. -/
theorem reads_of_succ {α : Type} {p : Nat → Option α} {a : α}
    (h : ∀ᶠ n in Filter.atTop, p (n + 1) = some a) : Reads p a := by
  rw [Reads, ← Filter.map_add_atTop_eq_nat 1]
  exact Filter.eventually_map.2 h

variable {t l r e : Tree} {o s w : String} {ts us rest : List String} {least m : Nat}
  {result : Tree × List String}

/-! ## One step of reading -/

theorem reads_expression (hoperand : Reads (readOperand · ts) (l, us))
    (hoperators : Reads (readOperators · least l us) result) :
    Reads (readExpression · least ts) result := by
  refine reads_of_succ ?_
  filter_upwards [hoperand, hoperators] with n hoperand hoperators
  simp [readExpression, hoperand, hoperators]

theorem reads_parens (h : Reads (readExpression · sequence ts) (e, ")" :: rest)) :
    Reads (readOperand · ("(" :: ts)) (e, rest) := by
  refine reads_of_succ ?_
  filter_upwards [h] with n h
  simp [readOperand, h]

theorem reads_binary (ho : o ∈ Language.binaryOperators) (hleast : least ≤ precedence o)
    (hright : Reads (readExpression · (rightLeast o) ts) (r, rest))
    (hoperators : Reads (readOperators · least (.node .binaryExpression [l, .str o, r]) rest)
      result) : Reads (readOperators · least l (o :: ts)) result := by
  have hne : o ≠ "?" := ne_of_mem_of_not_mem ho (by decide)
  refine reads_of_succ ?_
  filter_upwards [hright, hoperators] with n hright hoperators
  simp [readOperators, hne, ho, hleast, hright, hoperators]

theorem reads_conditional {b c : Tree} (hleast : least ≤ conditional)
    (hconsequent : Reads (readExpression · assignment ts) (b, ":" :: us))
    (halternate : Reads (readExpression · assignment us) (c, rest))
    (hoperators : Reads (readOperators · least (.node .conditionalExpression [l, b, c]) rest)
      result) : Reads (readOperators · least l ("?" :: ts)) result := by
  refine reads_of_succ ?_
  filter_upwards [hconsequent, halternate, hoperators] with n hconsequent halternate hoperators
  simp [readOperators, hleast, hconsequent, halternate, hoperators]

theorem notMem_operators_of_isName (hs : isName s = true) :
    s ≠ "(" ∧ s ∉ Language.updateOperators ∧ s ∉ Language.unaryOperators := by
  have hne : s ∉ "(" :: (Language.updateOperators ++ Language.unaryOperators) :=
    notMem_of_isName hs (by decide)
  simpa [not_or] using hne

/-- What begins with a name begins with a variable. -/
theorem reads_variable (hs : isName s = true) (h : Reads (readVariable · s ts) result) :
    Reads (readOperand · (s :: ts)) result := by
  obtain ⟨hparen, hupdate, hunary⟩ := notMem_operators_of_isName hs
  refine reads_of_succ ?_
  filter_upwards [h] with n h
  simp [readOperand, hparen, hupdate, hunary, h]

theorem reads_prefixed (ho : o ∈ Language.updateOperators) :
    Reads (readOperand · (o :: s :: rest))
      (.node .updateExpression [.bool true, .str o, target s], rest) := by
  have hne : o ≠ "(" := ne_of_mem_of_not_mem ho (by decide)
  refine reads_of_succ (.of_forall fun n => ?_)
  simp [readOperand, hne, ho]

theorem reads_unary (ho : o ∈ Language.unaryOperators)
    (h : Reads (readExpression · prefixed ts) (e, rest)) :
    Reads (readOperand · (o :: ts)) (.node .unaryExpression [.str o, e], rest) := by
  have hne : o ≠ "(" ∧ o ∉ Language.updateOperators := by
    have hall : ∀ o ∈ Language.unaryOperators, o ≠ "(" ∧ o ∉ Language.updateOperators := by
      decide
    exact hall o ho
  refine reads_of_succ ?_
  filter_upwards [h] with n h
  simp [readOperand, hne, ho, h]

theorem reads_postfixed (hs : isName s = true) (ho : o ∈ Language.updateOperators) :
    Reads (readOperand · (s :: o :: rest))
      (.node .updateExpression [.bool false, .str o, target s], rest) := by
  refine reads_variable hs (reads_of_succ (.of_forall fun n => ?_))
  simp [readVariable, ho]

theorem reads_assignment (hs : isName s = true)
    (h : Reads (readExpression · assignment ts) (e, rest)) :
    Reads (readOperand · (s :: "=" :: ts)) (.node .assignmentExpression [target s, e], rest) := by
  have hne : "=" ∉ Language.updateOperators := by decide
  refine reads_variable hs (reads_of_succ ?_)
  filter_upwards [h] with n h
  simp [readVariable, hne, h]

theorem reads_compound (hs : isName s = true) (ho : o ∈ Language.compoundOperators)
    (h : Reads (readExpression · assignment ts) (e, rest)) :
    Reads (readOperand · (s :: o :: ts))
      (.node .compoundAssignmentExpression [target s, .str o, e], rest) := by
  have hne : o ∉ Language.updateOperators ∧ o ≠ "=" := by
    have hall : ∀ o ∈ Language.compoundOperators, o ∉ Language.updateOperators ∧ o ≠ "=" := by
      decide
    exact hall o ho
  refine reads_variable hs (reads_of_succ ?_)
  filter_upwards [h] with n h
  simp [readVariable, hne, ho, h]

/-! ## Where an expression ends -/

/-- How tightly what follows an operation may bind without becoming a part of it. -/
def rightBinding : Tree → Nat
  | .node .binaryExpression [_, .str o, _] => rightLeast o
  | t => binding t

/-- What follows is no part of an expression that binds so tightly. -/
def Loose (least : Nat) (rest : List String) : Prop :=
  ∀ w ∈ rest.head?, w = ")" ∨ w = ":" ∨ w = "?" ∧ conditional < least ∨
    w ∈ Language.binaryOperators ∧ precedence w < least

theorem Loose.mono (h : Loose least rest) (hle : least ≤ m) : Loose m rest := by
  intro w hw
  rcases h w hw with h | h | ⟨h, hlt⟩ | ⟨h, hlt⟩
  · exact .inl h
  · exact .inr (.inl h)
  · exact .inr (.inr (.inl ⟨h, by omega⟩))
  · exact .inr (.inr (.inr ⟨h, by omega⟩))

/-- No operator binds like an assignment or a conditional, and the powers bind most tightly. -/
theorem precedence_range (ho : o ∈ Language.binaryOperators) :
    (precedence o = 0 ∨ 3 ≤ precedence o) ∧ precedence o ≤ precedence "**" ∧
      (o ≠ "**" → precedence o < precedence "**") := by
  have hall : ∀ o ∈ Language.binaryOperators, (precedence o = 0 ∨ 3 ≤ precedence o) ∧
      precedence o ≤ precedence "**" ∧ (o ≠ "**" → precedence o < precedence "**") := by
    decide
  exact hall o ho

theorem precedence_power : precedence "**" = 13 := by
  decide

theorem Loose.of_conditional (h : Loose conditional rest) : Loose assignment rest := by
  intro w hw
  rcases h w hw with h | h | ⟨-, hlt⟩ | ⟨h, hlt⟩
  · exact .inl h
  · exact .inr (.inl h)
  · exact absurd hlt (lt_irrefl _)
  · refine .inr (.inr (.inr ⟨h, ?_⟩))
    have hrange := (precedence_range h).1
    simp only [conditional, assignment] at hlt ⊢
    omega

theorem Loose.mem (h : Loose least (w :: ts)) :
    w ∈ ")" :: ":" :: "?" :: Language.binaryOperators := by
  rcases h w rfl with rfl | rfl | ⟨rfl, -⟩ | ⟨h, -⟩
  all_goals simp [*]

/-- Where nothing more belongs to an expression, it ends. -/
theorem reads_end (h : Loose least rest) : Reads (readOperators · least t rest) (t, rest) := by
  refine reads_of_succ (.of_forall fun n => ?_)
  cases rest with
  | nil => rfl
  | cons w ts =>
    have hmarks : ∀ w ∈ [")", ":", "?"], w ∉ Language.binaryOperators := by decide
    have hconditional : ¬ (w = "?" ∧ least ≤ conditional) := by
      rintro ⟨rfl, hle⟩
      rcases h "?" rfl with h | h | ⟨-, hlt⟩ | ⟨h, -⟩
      · exact absurd h (by decide)
      · exact absurd h (by decide)
      · omega
      · exact hmarks "?" (by simp) h
    have hbinary : ¬ (w ∈ Language.binaryOperators ∧ least ≤ precedence w) := by
      rintro ⟨hmem, hle⟩
      rcases h w rfl with rfl | rfl | ⟨rfl, -⟩ | ⟨-, hlt⟩
      · exact hmarks ")" (by simp) hmem
      · exact hmarks ":" (by simp) hmem
      · exact hmarks "?" (by simp) hmem
      · omega
    rw [readOperators, if_neg hconditional, if_neg hbinary]

theorem reads_reference (hs : isName s = true) (h : Loose least rest) :
    Reads (readOperand · (s :: rest)) (reference s, rest) := by
  refine reads_variable hs (reads_of_succ (.of_forall fun n => ?_))
  cases rest with
  | nil => rfl
  | cons w ts =>
    have hne : w ∉ Language.updateOperators ∧ w ≠ "=" ∧ w ∉ Language.compoundOperators := by
      have hall : ∀ w ∈ ")" :: ":" :: "?" :: Language.binaryOperators,
          w ∉ Language.updateOperators ∧ w ≠ "=" ∧ w ∉ Language.compoundOperators := by
        decide
      exact hall w h.mem
    simp [readVariable, hne]

/-! ## Operations read back -/

theorem binding_le_rightBinding : binding t ≤ rightBinding t := by
  unfold rightBinding
  split
  · rw [binding, rightLeast]
    split <;> omega
  · exact le_rfl

/-- What is read on from an operation is read from its words and signs. -/
def ReadBack (t : Tree) : Prop :=
  ∀ {least : Nat} {rest : List String} {result : Tree × List String}, least ≤ binding t →
    Loose (rightBinding t) rest → Reads (readOperators · least t rest) result →
    Reads (readExpression · least (tokens t ++ rest)) result

/-- An operand in parentheses is read back whatever follows, and one without as it is. -/
theorem ReadBack.inPlace (h : ReadBack t) (hle : least ≤ m)
    (hloose : m ≤ binding t → Loose (rightBinding t) rest)
    (hoperators : Reads (readOperators · least t rest) result) :
    Reads (readExpression · least (inPlace m t (tokens t) ++ rest)) result := by
  unfold Source.inPlace
  split
  · have hclosed : Loose sequence (")" :: rest) := fun w hw => .inl (by cases hw; rfl)
    have hparens : Reads (readExpression · sequence (tokens t ++ ")" :: rest)) (t, ")" :: rest) :=
      h (Nat.zero_le _) (hclosed.mono (Nat.zero_le _)) (reads_end hclosed)
    have hoperand : Reads (readOperand · ("(" :: (tokens t ++ [")"]) ++ rest)) (t, rest) := by
      simpa using reads_parens hparens
    exact reads_expression hoperand hoperators
  · rename_i hlt
    exact h (by omega) (hloose (by omega)) hoperators

/-- An operand is read back in its place, where nothing more belongs to it. -/
theorem ReadBack.operand (h : ReadBack t) (hloose : Loose m rest) :
    Reads (readExpression · m (Source.inPlace m t (tokens t) ++ rest)) (t, rest) :=
  h.inPlace le_rfl (fun hle => hloose.mono (hle.trans binding_le_rightBinding)) (reads_end hloose)

theorem precedence_le_leftLeast (ho : o ∈ Language.binaryOperators) :
    precedence o ≤ leftLeast o := by
  have hle := (precedence_range ho).2.1
  rw [precedence_power] at hle
  unfold leftLeast
  split
  · simp only [postfixed]
    omega
  · exact le_rfl

/-- What binds so tightly as the place to the left of an operator asks for ends there: of the
operators that bind alike, only exponentiation groups to the right. -/
theorem precedence_lt_rightBinding (ho : o ∈ Language.binaryOperators) (ht : IsOperation t)
    (hle : leftLeast o ≤ binding t) : precedence o < rightBinding t := by
  obtain ⟨hrange, hmax, hlt⟩ := precedence_range ho
  have hleft := precedence_le_leftLeast ho
  rw [precedence_power] at hmax
  cases ht with
  | @binary l r o' hl ho' hr =>
    have hmax' := (precedence_range ho').2.1
    change leftLeast o ≤ precedence o' at hle
    change precedence o < rightLeast o'
    unfold rightLeast
    split
    · rename_i hpower'
      have hne : o ≠ "**" := by
        rintro rfl
        rw [precedence_power] at hmax'
        simp only [leftLeast, postfixed, if_true] at hle
        omega
      exact hpower' ▸ hlt hne
    · omega
  | update isPrefix =>
    cases isPrefix <;> simp [rightBinding, binding, prefixed, postfixed] <;> omega
  | _ =>
    simp only [rightBinding, binding, reference, primary, prefixed, conditional, assignment]
      at hle ⊢
    omega

/-- Operations are read back from their words and signs. -/
theorem readBack_of_isOperation (h : IsOperation t) : ReadBack t := by
  induction h with
  | reference hs =>
    intro least rest result _ hloose hoperators
    rw [reference, tokens]
    exact reads_expression (reads_reference hs hloose) hoperators
  | @binary l r o hl ho hr ihl ihr =>
    intro least rest result hle hloose hoperators
    have hoperator : ∀ ts, leftLeast o ≤ binding l → Loose (rightBinding l) (o :: ts) := by
      rintro ts hleft w ⟨⟩
      exact .inr (.inr (.inr ⟨ho, precedence_lt_rightBinding ho hl hleft⟩))
    rw [tokens, List.append_assoc, List.cons_append]
    exact ihl.inPlace (le_trans hle (precedence_le_leftLeast ho)) (hoperator _)
      (reads_binary ho hle (ihr.operand hloose) hoperators)
  | unary ho he ih =>
    intro least rest result _ hloose hoperators
    rw [tokens, List.cons_append]
    exact reads_expression (reads_unary ho (ih.operand hloose)) hoperators
  | @conditional a b c ha hb hc iha ihb ihc =>
    intro least rest result hle hloose hoperators
    have hle : least ≤ conditional := hle
    have hmark : ∀ ts, conditional + 1 ≤ binding a → Loose (rightBinding a) ("?" :: ts) := by
      rintro ts htest w ⟨⟩
      exact .inr (.inr (.inl ⟨rfl, lt_of_lt_of_le htest binding_le_rightBinding⟩))
    have hcolon : ∀ ts, Loose assignment (":" :: ts) := by
      rintro ts w ⟨⟩
      exact .inr (.inl rfl)
    rw [tokens]
    simp only [List.append_assoc, List.cons_append]
    exact iha.inPlace (by omega) (hmark _)
      (reads_conditional hle (ihb.operand (hcolon _)) (ihc.operand hloose.of_conditional)
        hoperators)
  | update isPrefix ho hs =>
    intro least rest result _ _ hoperators
    rw [tokens, target, tokens]
    cases isPrefix with
    | true => exact reads_expression (reads_prefixed ho) hoperators
    | false => exact reads_expression (reads_postfixed hs ho) hoperators
  | assignment hs he ih =>
    intro least rest result _ hloose hoperators
    rw [tokens, target, tokens]
    exact reads_expression (reads_assignment hs (ih.operand hloose)) hoperators
  | compound hs ho he ih =>
    intro least rest result _ hloose hoperators
    rw [tokens, target, tokens]
    exact reads_expression (reads_compound hs ho (ih.operand hloose)) hoperators

/-- No two operations have the same words and signs. -/
theorem tokens_injective (hs : IsOperation l) (ht : IsOperation r) (h : tokens l = tokens r) :
    l = r := by
  have hread : ∀ {t}, IsOperation t → Reads (readExpression · sequence (tokens t)) (t, []) := by
    intro t ht
    have hloose : ∀ n, Loose n [] := fun _ _ hw => by cases hw
    have hback := readBack_of_isOperation ht (Nat.zero_le _) (hloose _)
      (reads_end (hloose sequence))
    rwa [List.append_nil] at hback
  exact congrArg Prod.fst ((hread hs).unique (h ▸ hread ht))

/-- Operations have source texts, and no two of them the same. -/
theorem operation_source_injective (hl : IsOperation l) (hr : IsOperation r) :
    ∃ x y, l.source = .ok x ∧ r.source = .ok y ∧ (x = y → l = r) := by
  obtain ⟨x, hx, hlex⟩ := exists_source hl
  obtain ⟨y, hy, hley⟩ := exists_source hr
  refine ⟨x, y, hx, hy, fun hxy => tokens_injective hl hr ?_⟩
  rw [← hlex, hxy, hley]

/-- A sum whose right operand counts up. -/
def sumOfNext : Tree :=
  .node .binaryExpression [reference "a", .str "+",
    .node .updateExpression [.bool true, .str "++", target "b"]]

/-- A sum whose left operand counts up. -/
def sumAfterNext : Tree :=
  .node .binaryExpression [.node .updateExpression [.bool false, .str "++", target "a"],
    .str "+", reference "b"]

/-- Three signs in a row are told apart by a space. -/
theorem operation_source_injective_sums :
    IsOperation sumOfNext ∧ IsOperation sumAfterNext ∧
      sumOfNext.source ≠ sumAfterNext.source := by
  have hnext : IsOperation sumOfNext :=
    .binary (.reference (by decide)) (by decide)
      (.update true (by decide) (by decide))
  have hafter : IsOperation sumAfterNext :=
    .binary (.update false (by decide) (by decide)) (by decide)
      (.reference (by decide))
  obtain ⟨x, y, hx, hy, hinjective⟩ := operation_source_injective hnext hafter
  refine ⟨hnext, hafter, fun heq => ?_⟩
  rw [hx, hy] at heq
  cases hinjective (Except.ok.inj heq)

end Whittle.Source
