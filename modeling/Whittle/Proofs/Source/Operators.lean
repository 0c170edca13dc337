import Whittle.Proofs.Source.Token

/-!
# What operations are printed as

Operators put expressions together from identifiers. How tightly an operand binds, against what
its place asks for, decides whether it is in parentheses; then the words and signs of the printed
text are those of the operands with those of the operator between them. The spaces of the text
are just those that keep two of its signs or words apart.
-/

namespace Whittle.Source

/-! ## Operations -/

/-- A variable that is read. -/
def reference (s : String) : Tree := .node .identifierExpression [.str s]

/-- A variable that is assigned to. -/
def target (s : String) : Tree := .node .assignmentTargetIdentifier [.str s]

/-- An expression that operators put together from identifiers. -/
inductive IsOperation : Tree → Prop
  | reference {s : String} (hs : isName s = true) : IsOperation (reference s)
  | binary {l r : Tree} {o : String} (hl : IsOperation l) (ho : o ∈ Language.binaryOperators)
    (hr : IsOperation r) : IsOperation (.node .binaryExpression [l, .str o, r])
  | unary {e : Tree} {o : String} (ho : o ∈ Language.unaryOperators) (he : IsOperation e) :
    IsOperation (.node .unaryExpression [.str o, e])
  | conditional {a b c : Tree} (ha : IsOperation a) (hb : IsOperation b) (hc : IsOperation c) :
    IsOperation (.node .conditionalExpression [a, b, c])
  | update {s o : String} (isPrefix : Bool) (ho : o ∈ Language.updateOperators)
    (hs : isName s = true) :
    IsOperation (.node .updateExpression [.bool isPrefix, .str o, target s])
  | assignment {s : String} {e : Tree} (hs : isName s = true) (he : IsOperation e) :
    IsOperation (.node .assignmentExpression [target s, e])
  | compound {s o : String} {e : Tree} (hs : isName s = true)
    (ho : o ∈ Language.compoundOperators) (he : IsOperation e) :
    IsOperation (.node .compoundAssignmentExpression [target s, .str o, e])

/-- How tightly an operator binds. -/
def precedence (o : String) : Nat := (binaryPrecedence? o).getD sequence

/-- What the place to the left of an operator asks for. -/
def leftLeast (o : String) : Nat := if o = "**" then postfixed else precedence o

/-- What the place to the right of an operator asks for. -/
def rightLeast (o : String) : Nat := if o = "**" then precedence o else precedence o + 1

/-- How tightly the outermost operator of an operation binds. -/
def binding : Tree → Nat
  | .node .binaryExpression [_, .str o, _] => precedence o
  | .node .unaryExpression _ => prefixed
  | .node .conditionalExpression _ => conditional
  | .node .updateExpression [.bool isPrefix, _, _] => if isPrefix then prefixed else postfixed
  | .node .assignmentExpression _ | .node .compoundAssignmentExpression _ => assignment
  | _ => primary

/-- The words and signs of an operand, which is in parentheses if it binds less tightly than its
place asks for. -/
def inPlace (least : Nat) (t : Tree) (ts : List String) : List String :=
  if binding t < least then "(" :: (ts ++ [")"]) else ts

/-- The words and signs of an operation. -/
def tokens : Tree → List String
  | .node .identifierExpression [.str s] | .node .assignmentTargetIdentifier [.str s] => [s]
  | .node .binaryExpression [l, .str o, r] =>
    inPlace (leftLeast o) l (tokens l) ++ o :: inPlace (rightLeast o) r (tokens r)
  | .node .unaryExpression [.str o, e] => o :: inPlace prefixed e (tokens e)
  | .node .conditionalExpression [a, b, c] =>
    inPlace (conditional + 1) a (tokens a) ++ "?" :: inPlace assignment b (tokens b)
      ++ ":" :: inPlace assignment c (tokens c)
  | .node .updateExpression [.bool isPrefix, .str o, t] =>
    if isPrefix then o :: tokens t else tokens t ++ [o]
  | .node .assignmentExpression [t, e] => tokens t ++ "=" :: inPlace assignment e (tokens e)
  | .node .compoundAssignmentExpression [t, .str o, e] =>
    tokens t ++ o :: inPlace assignment e (tokens e)
  | _ => []

variable {s t l r e : Tree} {o w x y : String} {c : Char} {k : Kind} {fields : List Tree}
  {least : Nat} {ts us : List String}

/-! ## Operators -/

/-- Whether an operand may begin with a character. -/
def isOperandStart (c : Char) : Bool := isNameChar c || ['(', '+', '-', '!', '~'].contains c

theorem precedence_eq (ho : o ∈ Language.binaryOperators) :
    binaryPrecedence? o = some (precedence o) := by
  have hall : ∀ o ∈ Language.binaryOperators, binaryPrecedence? o = some (precedence o) := by
    decide
  exact hall o ho

/-- A binary operator is a word or a sign. -/
theorem binaryOperator_cases (ho : o ∈ Language.binaryOperators) :
    (o = "in" ∨ o = "instanceof") ∨ isSign o = true ∧ o ≠ "in" ∧ o ≠ "instanceof" := by
  have hall : ∀ o ∈ Language.binaryOperators,
      (o = "in" ∨ o = "instanceof") ∨ isSign o = true ∧ o ≠ "in" ∧ o ≠ "instanceof" := by
    decide
  exact hall o ho

/-- The signs that an operand may follow go on only with themselves. -/
theorem eq_singleton_of_goesOn
    (ho : o ∈ Language.binaryOperators ++ Language.unaryOperators ++ Language.compoundOperators
      ++ ["="]) (hc : isOperandStart c = true) (h : goesOn o c = true) :
    o.toList = [c] ∧ (c = '+' ∨ c = '-') := by
  have hall : ∀ o ∈ Language.binaryOperators ++ Language.unaryOperators
      ++ Language.compoundOperators ++ ["="], ['(', '+', '-', '!', '~'].all
      fun c => !goesOn o c || o.toList == [c] && (c == '+' || c == '-') := by
    decide
  rcases Bool.or_eq_true_iff.1 hc with hname | hmem
  · rw [goesOn_of_isNameChar hname] at h
    cases h
  · simpa [h] using List.all_eq_true.1 (hall o ho) c (List.contains_iff_mem.1 hmem)

/-! ## Printing -/

theorem begins_parens : Begins isOperandStart ("(" ++ x ++ ")") :=
  ⟨'(', x.toList ++ [')'], by simp, by decide⟩

theorem beginsOperand_of_isName (h : isName w = true) : Begins isOperandStart w :=
  (begins_of_isName h).mono fun c hc => by rw [isOperandStart, hc, Bool.true_or]

theorem begins_of_operator (ho : o ∈ Language.unaryOperators ++ Language.updateOperators) :
    Begins isOperandStart o := by
  have hall : ∀ o ∈ Language.unaryOperators ++ Language.updateOperators,
      Begins isOperandStart o := by
    decide
  exact hall o ho

/-- A tree is printed as an expression with the given text, which binds so tightly. -/
def PrintsAs (t : Tree) (text : String) (tightness : Nat) : Prop :=
  ∃ k ps, pieceOf t = .node k ps (.ok (.expression (.str text) tightness)) ∧
    expressionKinds.contains k = true

/-- A tree is printed as an expression with the given text, which begins like an operand and has
the words and signs of the operation. -/
structure IsText (t : Tree) (text : String) : Prop where
  printsAs : PrintsAs t text (binding t)
  spells : Spells true text.toList (tokens t)
  begins : Begins isOperandStart text

/-- Where an operand binds at least so tightly, a piece is printed as the given text. -/
structure Prints (p : Piece) (least : Nat) (text : String) (ts : List String) : Prop where
  value : p.expressionValue least = .ok (.str text)
  spells : Spells true text.toList ts
  begins : Begins isOperandStart text

theorem Prints.expression {p : Piece} (h : Prints p least x ts) :
    p.expression least = .ok x := by
  simp [Piece.expression, h.value, bind, Except.bind, pure, Except.pure, Tree.plain]

theorem formOf_expression {ps : List Piece} (hk : expressionKinds.contains k = true) :
    formOf k ps = (do
      let (v, n) ← expressionValue k (.node k ps (.error .malformed))
      return .expression v n) := by
  have hall : ∀ k ∈ expressionKinds, ¬ statementKinds.contains k = true := by decide
  rw [formOf, if_neg (hall k (List.contains_iff_mem.1 hk)), if_pos hk]

theorem printsAs_of_value {n : Nat} (hk : expressionKinds.contains k = true)
    (hvalue : expressionValue k (.node k (piecesOf fields) (.error .malformed)) =
      .ok (.str x, n)) :
    PrintsAs (.node k fields) x n := by
  refine ⟨k, piecesOf fields, ?_, hk⟩
  rw [pieceOf, formOf_expression hk, hvalue]
  rfl

/-- In its place a text is put in parentheses if it binds less tightly than asked for. -/
theorem PrintsAs.expressionValue {n : Nat} (h : PrintsAs t x n) (least : Nat) :
    (pieceOf t).expressionValue least = .ok (.str (if n < least then inParens x else x)) := by
  obtain ⟨k, ps, hpiece, hk⟩ := h
  rw [hpiece, Piece.expressionValue, if_pos hk]
  change Except.ok (if n < least then Tree.str ("(" ++ x ++ ")") else .str x) = _
  split <;> rfl

theorem PrintsAs.expression_eq {n : Nat} (h : PrintsAs t x n) (least : Nat) :
    (pieceOf t).expression least = .ok (if n < least then inParens x else x) := by
  rw [Piece.expression, h.expressionValue]
  rfl

theorem PrintsAs.isAbsent {n : Nat} (h : PrintsAs t x n) : (pieceOf t).isAbsent = false := by
  obtain ⟨k, ps, hpiece, -⟩ := h
  rw [hpiece]
  rfl

theorem PrintsAs.source {n : Nat} (h : PrintsAs t x n) : t.source = .ok x := by
  obtain ⟨k, ps, hpiece, -⟩ := h
  rw [Tree.source, Tree.printed, hpiece]
  rfl

theorem isText_of_value (hk : expressionKinds.contains k = true)
    (hvalue : expressionValue k (.node k (piecesOf fields) (.error .malformed)) =
      .ok (.str x, binding (.node k fields)))
    (hspells : Spells true x.toList (tokens (.node k fields)))
    (hbegins : Begins isOperandStart x) :
    IsText (.node k fields) x :=
  ⟨printsAs_of_value hk hvalue, hspells, hbegins⟩

/-- An operand is put in parentheses if it binds less tightly than its place asks for. -/
theorem IsText.prints (h : IsText t x) (least : Nat) :
    ∃ text, Prints (pieceOf t) least text (inPlace least t (tokens t)) := by
  have hvalue := h.printsAs.expressionValue least
  unfold inPlace
  split at hvalue
  · exact ⟨_, hvalue, by rw [if_pos ‹_›]; exact h.spells.parens.opened, begins_parens⟩
  · exact ⟨_, hvalue, by rw [if_neg ‹_›]; exact h.spells, h.begins⟩

/-- A text that is printed with how tightly it binds. -/
theorem value_of_text {n : Nat} {printing : Printing (String × Nat)} (h : printing = .ok (x, n)) :
    (do let (t, precedence) ← printing; return (Tree.str t, precedence)) =
      (.ok (.str x, n) : Printing (Tree × Nat)) := by
  rw [h]
  rfl

/-- Whether an operator ends in the sign that its right operand begins with. -/
def clashes (o y : String) : Bool :=
  match finalSign? o with
  | some c => beginsWith c y.toList
  | none => false

theorem binaryText_eq {p q : Piece} {f : Printing Form} (ho : o ∈ Language.binaryOperators)
    (hp : p.expression (leftLeast o) = .ok x) (hq : q.expression (rightLeast o) = .ok y) :
    binaryText (.node .binaryExpression [p, .value (.str o), q] f) =
      .ok (if o = "in" ∨ o = "instanceof" then x ++ " " ++ o ++ " " ++ y
        else x ++ o ++ (if clashes o y then " " else "") ++ y, precedence o) := by
  have hleft : (Piece.node .binaryExpression [p, .value (.str o), q] f).get "left" = .ok p := rfl
  have hright : (Piece.node .binaryExpression [p, .value (.str o), q] f).get "right" = .ok q := rfl
  have hoperator : (Piece.node .binaryExpression [p, .value (.str o), q] f).get "operator" =
      .ok (.value (.str o)) := rfl
  unfold leftLeast at hp
  unfold rightLeast at hq
  simp [binaryText, hleft, hright, hoperator, Piece.tree, binaryOperator, precedence_eq ho,
    Piece.expressionOf, hp, hq, clashes, bind, Except.bind, pure, Except.pure]
  split <;> rfl

theorem unaryText_eq {p : Piece} {f : Printing Form} (hp : p.expression prefixed = .ok x) :
    unaryText (.node .unaryExpression [.value (.str o), p] f) =
      .ok (o ++ (if unarySpace o x then " " else "") ++ x) := by
  have hoperator : (Piece.node .unaryExpression [.value (.str o), p] f).get "operator" =
      .ok (.value (.str o)) := rfl
  have hoperand : (Piece.node .unaryExpression [.value (.str o), p] f).get "operand" =
      .ok p := rfl
  simp [unaryText, Piece.expressionOf, hoperand, hoperator, hp, Piece.textOf, Piece.valueOf,
    Piece.tree, Tree.plain, bind, Except.bind, pure, Except.pure]

theorem conditionalText_eq {p q r : Piece} {f : Printing Form} {z : String}
    (hp : p.expression (conditional + 1) = .ok x) (hq : q.expression assignment = .ok y)
    (hr : r.expression assignment = .ok z) :
    expressionText .conditionalExpression (.node .conditionalExpression [p, q, r] f) =
      .ok (x ++ "?" ++ y ++ ":" ++ z, conditional) := by
  have htest : (Piece.node .conditionalExpression [p, q, r] f).get "test" = .ok p := rfl
  have hconsequent : (Piece.node .conditionalExpression [p, q, r] f).get "consequent" =
      .ok q := rfl
  have halternate : (Piece.node .conditionalExpression [p, q, r] f).get "alternate" = .ok r := rfl
  simp [expressionText, Piece.expressionOf, htest, hconsequent, halternate, hp, hq, hr, bind,
    Except.bind, pure, Except.pure]

theorem updateValue_eq {isPrefix : Bool} {f : Printing Form} :
    updateValue (.node .updateExpression
      [.value (.bool isPrefix), .value (.str o), pieceOf (target w)] f) =
      .ok (.str (if isPrefix then o ++ w else w ++ o),
        if isPrefix then prefixed else postfixed) := by
  cases isPrefix <;> rfl

theorem assignmentValue_eq {p q : Piece} (hbinding : p.get "binding" = .ok (pieceOf (target w)))
    (hexpression : p.get "expression" = .ok q)
    (hq : q.expressionValue assignment = .ok (.str x)) :
    assignmentValue p (.str o) = .ok (.str (w ++ o ++ x), assignment) := by
  have htarget : (pieceOf (target w)).targetValue = .ok (.str w) := rfl
  simp [assignmentValue, hbinding, htarget, hexpression, hq, beside, bind, Except.bind, pure,
    Except.pure]

/-! ## Words and signs of what is printed -/

/-- An operand keeps apart from an operator, unless that is the sign that it begins with. -/
theorem follows_of_begins
    (ho : o ∈ Language.binaryOperators ++ Language.unaryOperators ++ Language.compoundOperators
      ++ ["="]) (h : Spells true y.toList ts) (hbegins : Begins isOperandStart y)
    (hne : ∀ c cs, y.toList = c :: cs → c = '+' ∨ c = '-' → o.toList ≠ [c]) :
    Follows true o y.toList ts where
  spells := h
  ne_nil := hbegins.ne_nil
  apart c hc := by
    obtain ⟨d, cs, hcs, hd⟩ := hbegins
    rw [hcs] at hc
    obtain rfl : d = c := by simpa using hc
    rw [← Bool.not_eq_true]
    intro hgo
    obtain ⟨hsingle, hsign⟩ := eq_singleton_of_goesOn ho hd hgo
    exact hne d cs hcs hsign hsingle

theorem follows_binary (ho : o ∈ Language.binaryOperators) (h : Spells true y.toList ts)
    (hbegins : Begins isOperandStart y) :
    Follows true o ((if clashes o y then " " else "") ++ y).toList ts := by
  rw [String.toList_append]
  split
  · exact h.follows_blank
  · rename_i hclash
    refine follows_of_begins (by simp [ho]) h hbegins fun c cs hcs hc hsingle => hclash ?_
    have hfinal : finalSign? o = some c := by
      rcases hc with rfl | rfl <;> simp [finalSign?, hsingle]
    simp [clashes, hfinal, hcs, beginsWith]

theorem spells_binary (ho : o ∈ Language.binaryOperators) (hx : Spells true x.toList ts)
    (hy : Spells true y.toList us) (hbegins : Begins isOperandStart y) :
    Spells true (if o = "in" ∨ o = "instanceof" then x ++ " " ++ o ++ " " ++ y
      else x ++ o ++ (if clashes o y then " " else "") ++ y).toList (ts ++ o :: us) := by
  rcases binaryOperator_cases ho with hword | ⟨hsign, hin, hinstanceof⟩
  · have hspells : Spells true (o.toList ++ ' ' :: y.toList) ([o] ++ us) := by
      refine (Spells.word ?_ ?_).append hy.blank (List.cons_ne_nil _ _) stops_blank
      all_goals rcases hword with rfl | rfl <;> decide
    rw [if_pos hword]
    simpa using hx.append hspells.blank (List.cons_ne_nil _ _) stops_blank
  · have hspells := Spells.sign hsign (follows_binary ho hy hbegins)
    rw [if_neg (by simp [hin, hinstanceof])]
    simpa using hx.append hspells (by simp [hbegins.ne_nil]) (stops_of_isSign hsign)

theorem spells_unary (ho : o ∈ Language.unaryOperators) (hx : Spells true x.toList ts)
    (hbegins : Begins isOperandStart x) :
    Spells true (o ++ (if unarySpace o x = true then " " else "") ++ x).toList (o :: ts) := by
  have hkind : Text.allLetters o = true ∧ o.toList.all isNameChar = true ∧ o.toList ≠ [] ∨
      isSign o = true := by
    have hall : ∀ o ∈ Language.unaryOperators, Text.allLetters o = true ∧
        o.toList.all isNameChar = true ∧ o.toList ≠ [] ∨ isSign o = true := by
      decide
    exact hall o ho
  rw [String.append_assoc, String.toList_append]
  rcases hkind with ⟨hletters, hword, hne⟩ | hsign
  · rw [if_pos (by rw [unarySpace, hletters, Bool.true_or])]
    rw [String.toList_append]
    exact (Spells.word hne hword).append hx.blank (List.cons_ne_nil _ _) stops_blank
  · refine Spells.sign hsign ?_
    rw [String.toList_append]
    split
    · exact hx.follows_blank
    · rename_i hspace
      refine follows_of_begins (by simp [ho]) hx hbegins fun c cs hcs hc hsingle => hspace ?_
      obtain rfl : o = String.ofList [c] := by rw [← hsingle, String.ofList_toList]
      rcases hc with rfl | rfl <;> simp [unarySpace, afterWord?, hcs]

/-- A variable, an operator of assignment, and the value that is assigned. -/
theorem spells_assignment (hw : isName w = true)
    (ho : o ∈ "=" :: Language.compoundOperators) (hx : Spells true x.toList ts)
    (hbegins : Begins isOperandStart x) :
    Spells true (w ++ o ++ x).toList ([w] ++ o :: ts) := by
  have hsign : isSign o = true ∧ o.toList ≠ ['+'] ∧ o.toList ≠ ['-'] := by
    have hall : ∀ o ∈ "=" :: Language.compoundOperators,
        isSign o = true ∧ o.toList ≠ ['+'] ∧ o.toList ≠ ['-'] := by
      decide
    exact hall o ho
  have hfollows : Follows true o x.toList ts := by
    refine follows_of_begins ?_ hx hbegins fun c cs _ hc => ?_
    · rcases List.mem_cons.1 ho with rfl | ho <;> simp [*]
    · rcases hc with rfl | rfl
      · exact hsign.2.1
      · exact hsign.2.2
  rw [String.append_assoc, String.toList_append, String.toList_append]
  exact (Spells.name hw).append (Spells.sign hsign.1 hfollows) (by simp [hbegins.ne_nil])
    (stops_of_isSign hsign.1)

theorem spells_conditional {z : String} {vs : List String} (hx : Spells true x.toList ts)
    (hy : Spells true y.toList us) (hz : Spells true z.toList vs) :
    Spells true (x ++ "?" ++ y ++ ":" ++ z).toList (ts ++ "?" :: us ++ ":" :: vs) := by
  have hcolon := hy.append_mark (o := ":") (by decide) hz
  simpa using hx.append_mark (o := "?") (by decide) hcolon

theorem spells_update {isPrefix : Bool} (ho : o ∈ Language.updateOperators)
    (hw : isName w = true) :
    Spells true (if isPrefix then o ++ w else w ++ o).toList
      (if isPrefix then o :: [w] else [w] ++ [o]) := by
  have hmark : isMark o = true := by
    have hall : ∀ o ∈ Language.updateOperators, isMark o = true := by decide
    exact hall o ho
  cases isPrefix with
  | true => simpa using (Spells.name hw).mark_append hmark
  | false => simpa using ((Spells.name hw).append_mark hmark .nil).opened

/-- Operations are printed as texts that have their words and signs. -/
theorem exists_isText (h : IsOperation t) : ∃ text, IsText t text := by
  induction h with
  | reference hs =>
    refine ⟨_, isText_of_value rfl rfl ?_ (beginsOperand_of_isName hs)⟩
    simpa only [tokens] using Spells.name hs
  | @binary l r o hl ho hr ihl ihr =>
    obtain ⟨_, hl⟩ := ihl
    obtain ⟨_, hr⟩ := ihr
    obtain ⟨x, hx⟩ := hl.prints (leftLeast o)
    obtain ⟨y, hy⟩ := hr.prints (rightLeast o)
    have htext := binaryText_eq (f := .error .malformed) ho hx.expression hy.expression
    refine ⟨_, isText_of_value rfl (value_of_text htext) ?_ ?_⟩
    · simpa only [tokens] using spells_binary ho hx.spells hy.spells hy.begins
    · split
      · simpa only [String.append_assoc] using hx.begins.append
      · simpa only [String.append_assoc] using hx.begins.append
  | @unary e o ho he ih =>
    obtain ⟨_, he⟩ := ih
    obtain ⟨x, hx⟩ := he.prints prefixed
    have htext : expressionText .unaryExpression _ = _ :=
      congrArg (·.map (·, prefixed)) (unaryText_eq (o := o) (f := .error .malformed) hx.expression)
    refine ⟨_, isText_of_value rfl (value_of_text htext) ?_ ?_⟩
    · simpa only [tokens] using spells_unary ho hx.spells hx.begins
    · simpa only [String.append_assoc] using (begins_of_operator (by simp [ho])).append
  | conditional ha hb hc iha ihb ihc =>
    obtain ⟨_, ha⟩ := iha
    obtain ⟨_, hb⟩ := ihb
    obtain ⟨_, hc⟩ := ihc
    obtain ⟨x, hx⟩ := ha.prints (conditional + 1)
    obtain ⟨y, hy⟩ := hb.prints assignment
    obtain ⟨z, hz⟩ := hc.prints assignment
    have htext := conditionalText_eq (f := .error .malformed) hx.expression hy.expression
      hz.expression
    refine ⟨_, isText_of_value rfl (value_of_text htext) ?_ ?_⟩
    · simpa only [tokens] using spells_conditional hx.spells hy.spells hz.spells
    · simpa only [String.append_assoc] using hx.begins.append
  | update isPrefix ho hs =>
    refine ⟨_, isText_of_value rfl updateValue_eq ?_ ?_⟩
    · simpa only [tokens, target] using spells_update ho hs
    · cases isPrefix
      · exact (beginsOperand_of_isName hs).append
      · exact (begins_of_operator (by simp [ho])).append
  | assignment hs he ih =>
    obtain ⟨_, he⟩ := ih
    obtain ⟨x, hx⟩ := he.prints assignment
    refine ⟨_, isText_of_value rfl (assignmentValue_eq rfl rfl hx.value) ?_ ?_⟩
    · simpa only [tokens, target] using spells_assignment hs List.mem_cons_self hx.spells hx.begins
    · simpa only [String.append_assoc] using (beginsOperand_of_isName hs).append
  | @compound s o e hs ho he ih =>
    obtain ⟨_, he⟩ := ih
    obtain ⟨x, hx⟩ := he.prints assignment
    have hvalue := assignmentValue_eq (o := o) (p := .node .compoundAssignmentExpression
      (piecesOf [target s, .str o, e]) (.error .malformed)) rfl rfl hx.value
    refine ⟨_, isText_of_value rfl hvalue ?_ ?_⟩
    · simpa only [tokens, target] using
        spells_assignment hs (List.mem_cons_of_mem _ ho) hx.spells hx.begins
    · simpa only [String.append_assoc] using (beginsOperand_of_isName hs).append

/-- The words and signs of the source text of an operation are those of the operation. -/
theorem exists_source (h : IsOperation t) :
    ∃ text, t.source = .ok text ∧ lex text.toList = tokens t := by
  obtain ⟨text, htext⟩ := exists_isText h
  exact ⟨text, htext.printsAs.source, htext.spells.lex_eq⟩

end Whittle.Source
