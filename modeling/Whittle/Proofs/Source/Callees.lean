import Whittle.Proofs.Source.Printed

/-!
# Calls at the beginning of a callee

What is constructed by `new` is put in parentheses if it is a call or a tagged template, but not
if it is a property access, whatever that begins with. So where a callee begins with a call, the
parentheses keep the arguments of that call apart from those of the `new` just if the callee is
no property access: otherwise the `new` takes the arguments of the call.
-/

namespace Whittle.Source

open Grammar Whittle.Language

variable {extra : Char → Bool} {e t c callee arguments : Tree} {k : Kind} {fields : List Tree}
  {x y : String}

/-! ## What an expression begins with -/

/-- An expression begins with another one: with itself, with what the object of a property access
begins with, or with what the tag of a template begins with. -/
inductive Heads (e : Tree) : Tree → Prop
  | refl : Heads e e
  | staticMember {object property : Tree} (h : Heads e object) :
    Heads e (.node .staticMemberExpression [object, property])
  | computedMember {object index : Tree} (h : Heads e object) :
    Heads e (.node .computedMemberExpression [object, index])
  | template {tag elements : Tree} (h : Heads e tag) :
    Heads e (.node .templateExpression [tag, elements])

/-- Whether an expression is the access to a property. -/
def isAccess (t : Tree) : Bool :=
  t.isKind .staticMemberExpression || t.isKind .computedMemberExpression

/-- How tightly an expression binds that begins with a call. -/
def headTightness (t : Tree) : Nat :=
  if isAccess t then memberAccess
  else if t.isKind .templateExpression then taggedTemplate
  else call

theorem headTightness_lt_iff : headTightness t < memberAccess ↔ isAccess t = false := by
  unfold headTightness
  split
  · simp_all
  · split <;> simp_all [memberAccess, taggedTemplate, call]

theorem call_le_headTightness (t : Tree) : call ≤ headTightness t := by
  unfold headTightness
  split
  · decide
  · split <;> decide

theorem PrintsAs.expression {n least : Nat} (h : PrintsAs t x n) (hle : least ≤ n) :
    (pieceOf t).expression least = .ok x := by
  rw [h.expression_eq, if_neg (by omega)]

/-- What begins with a call is printed as it is where something is read from it. -/
theorem Heads.memberObject (h : Heads c t) (hc : c.isKind .callExpression = true)
    (hprints : PrintsAs t x (headTightness t)) : (pieceOf t).memberObject = .ok x := by
  have hx := hprints.expression (call_le_headTightness t)
  unfold Piece.memberObject
  cases h with
  | refl =>
    obtain ⟨fields, rfl⟩ := isKind_iff.1 hc
    rw [pieceOf] at hx ⊢
    simp [Piece.kind, hx, bind, Except.bind, pure, Except.pure]
  | _ =>
    rw [pieceOf] at hx ⊢
    simp [Piece.kind, hx, bind, Except.bind, pure, Except.pure]

/-- Arguments are printed in parentheses. -/
theorem exists_inParens {p : Piece} (h : p.arguments = .ok x) : ∃ y, x = inParens y := by
  unfold Piece.arguments at h
  cases hitems : p.itemsOf "arguments" with
  | error => simp [hitems, bind, Except.bind] at h
  | ok items =>
    cases htexts : items.mapM Piece.spreadable with
    | error => simp [hitems, htexts, bind, Except.bind] at h
    | ok texts =>
      exact ⟨commaList texts, by simpa [hitems, htexts, bind, Except.bind, pure, Except.pure]
        using h.symm⟩

/-- A call is printed with what is called at its beginning and a parenthesis at its end. -/
theorem exists_callText (h : (Tree.node .callExpression fields).Each (Printed extra)) :
    ∃ x, PrintsAs (.node .callExpression fields) x call ∧ ')' ∈ x.toList := by
  obtain ⟨f, l, rfl, hf, hl⟩ := (fit_two rfl rfl).1 h.own.fits
  obtain ⟨x, hx, -⟩ := writes_memberObject (h.part (by simp)) hf
  have harguments : Writes extra
      (Piece.node .callExpression (piecesOf [f, l]) (.error .malformed)).arguments
      (RawWithin extra l) :=
    writes_arguments (by simp) (h.part (by simp)) hl
  obtain ⟨y, hy, -⟩ := harguments
  obtain ⟨z, rfl⟩ := exists_inParens hy
  refine ⟨x ++ inParens z, printsAs_of_value rfl (value_of_text ?_), by simp [inParens]⟩
  change ((pieceOf f).memberObject >>= fun callee =>
    (Piece.node .callExpression (piecesOf [f, l]) (.error .malformed)).arguments >>= fun a =>
      pure (callee ++ a, call)) = _
  rw [hx, hy]
  rfl

/-- What begins with a call is printed with the text of the call at its beginning. -/
theorem Heads.exists_text (h : Heads c t) (hc : c.isKind .callExpression = true)
    (ht : t.Each (Printed extra)) :
    ∃ x rest, PrintsAs c x call ∧ ')' ∈ x.toList ∧ PrintsAs t (x ++ rest) (headTightness t) := by
  induction h with
  | refl =>
    obtain ⟨fields, rfl⟩ := isKind_iff.1 hc
    obtain ⟨x, hx, hparen⟩ := exists_callText ht
    exact ⟨x, "", hx, hparen, by rw [String.append_empty]; exact hx⟩
  | @staticMember object property h ih =>
    obtain ⟨_, _, heq, -, hproperty⟩ := (fit_two rfl rfl).1 ht.own.fits
    cases heq
    obtain ⟨s, rfl⟩ := fitsType_string.1 hproperty
    obtain ⟨x, rest, hx, hparen, hobject⟩ := ih (ht.part (by simp))
    refine ⟨x, rest ++ "." ++ s, hx, hparen, printsAs_of_value rfl (value_of_text ?_)⟩
    change ((pieceOf object).memberObject >>= fun y => pure (y ++ "." ++ s, memberAccess)) = _
    rw [h.memberObject hc hobject, ← String.append_assoc, ← String.append_assoc]
    rfl
  | @computedMember object index h ih =>
    obtain ⟨_, _, heq, -, hindex⟩ := (fit_two rfl rfl).1 ht.own.fits
    cases heq
    obtain ⟨x, rest, hx, hparen, hobject⟩ := ih (ht.part (by simp))
    obtain ⟨i, hi, -⟩ := writes_expression (ht.part (v := index) (by simp)) hindex sequence
    refine ⟨x, rest ++ ("[" ++ i ++ "]"), hx, hparen, printsAs_of_value rfl (value_of_text ?_)⟩
    change ((pieceOf object).memberObject >>= fun y =>
      ((pieceOf index).expression sequence >>= fun i => pure ("[" ++ i ++ "]")) >>= fun i =>
        pure (y ++ i, memberAccess)) = _
    rw [h.memberObject hc hobject, hi, ← String.append_assoc]
    rfl
  | @template tag elements h ih =>
    obtain ⟨_, _, heq, -, helements⟩ := (fit_two rfl rfl).1 ht.own.fits
    cases heq
    obtain ⟨items, rfl, hitems⟩ := (fitsType_list rfl).1 helements
    obtain ⟨x, rest, hx, hparen, htag⟩ := ih (ht.part (by simp))
    have hlist : (Tree.list items).Each (Printed extra) := ht.part (by simp)
    obtain ⟨parts, hparts, -⟩ :=
      gives_items fun v hv => writes_templatePart (hlist.item hv) (hitems v hv)
    have htext := htag.expression (call_le_headTightness tag)
    refine ⟨x, rest ++ ("\x60" ++ String.join parts ++ "\x60"), hx, hparen,
      printsAs_of_value rfl (value_of_text ?_)⟩
    change ((piecesOf items).mapM Piece.templatePart >>= fun parts =>
      if (pieceOf tag).isAbsent then pure ("\x60" ++ String.join parts ++ "\x60", primary)
      else (pieceOf tag).expression call >>= fun y =>
        pure (y ++ ("\x60" ++ String.join parts ++ "\x60"), taggedTemplate)) = _
    rw [hparts, htext, htag.isAbsent, ← String.append_assoc]
    rfl

/-- What is so of every node is so of every node of what a tree begins with. -/
theorem Heads.each {P : Kind → List Tree → Prop} (h : Heads e t) (ht : t.Each P) : e.Each P := by
  induction h with
  | refl => exact ht
  | staticMember _ ih | computedMember _ ih | template _ ih => exact ih (ht.part (by simp))

/-! ## Callees of `new` -/

/-- Right after the word `new` a text has parentheses around something that the callee begins
with, and that itself begins with the call. -/
def EnclosesCall (callee c : Tree) (text : String) : Prop :=
  ∃ e y rest, Heads e callee ∧ Heads c e ∧ e.source = .ok y ∧
    text = "new " ++ inParens y ++ rest

/-- A text that goes on with itself after one more character is all that character. -/
theorem eq_of_mem_of_shift {α : Type} {a b : α} : ∀ {l r s : List α},
    l ++ r = a :: (l ++ s) → b ∈ l → b = a
  | d :: l, r, s, h, hb => by
    obtain ⟨rfl, htail⟩ := List.cons.inj h
    rcases List.mem_cons.1 hb with rfl | hb
    · rfl
    · exact eq_of_mem_of_shift htail hb

/-- What a `new` of a call or of something that begins with one is printed as. -/
theorem exists_newText (h : Heads c callee) (hc : c.isKind .callExpression = true)
    (ht : (Tree.node .newExpression [callee, arguments]).Each (Printed extra)) :
    ∃ x rest y, PrintsAs c x call ∧ ')' ∈ x.toList ∧ callee.source = .ok (x ++ rest) ∧
      (Tree.node .newExpression [callee, arguments]).source = .ok ("new " ++
        (if isAccess callee then x ++ rest else inParens (x ++ rest)) ++ y) := by
  obtain ⟨_, _, heq, -, harguments⟩ := (fit_two rfl rfl).1 ht.own.fits
  cases heq
  obtain ⟨x, rest, hx, hparen, hcallee⟩ := h.exists_text hc (ht.part (by simp))
  have htexts : Writes extra
      (Piece.node .newExpression (piecesOf [callee, arguments]) (.error .malformed)).arguments
      (RawWithin extra arguments) :=
    writes_arguments (by simp) (ht.part (by simp)) harguments
  obtain ⟨y, hy, -⟩ := htexts
  refine ⟨x, rest, y, hx, hparen, hcallee.source, ?_⟩
  have hplace : (pieceOf callee).expression memberAccess =
      .ok (if isAccess callee then x ++ rest else inParens (x ++ rest)) := by
    rw [hcallee.expression_eq]
    by_cases haccess : isAccess callee = true
    · rw [if_pos haccess, if_neg (by rw [headTightness_lt_iff]; simp [haccess])]
    · rw [if_neg haccess, if_pos (headTightness_lt_iff.2 (by simpa using haccess))]
  refine (printsAs_of_value (n := construction) rfl (value_of_text ?_)).source
  change ((pieceOf callee).expression memberAccess >>= fun text =>
    (Piece.node .newExpression (piecesOf [callee, arguments]) (.error .malformed)).arguments >>=
      fun a => pure ("new " ++ text ++ a, construction)) = _
  rw [hplace, hy]
  rfl

/-- A `new` whose callee begins with a call is printed with parentheses around that call just if
the callee is no property access; if it is one, the call itself stands right after the word. -/
theorem new_source_enclosesCall_iff
    (ht : (Tree.node .newExpression [callee, arguments]).wellTyped = true)
    (h : Heads c callee) (hc : c.isKind .callExpression = true) :
    ∃ text, (Tree.node .newExpression [callee, arguments]).source = .ok text ∧
      (EnclosesCall callee c text ↔ isAccess callee = false) ∧
      (isAccess callee = true →
        ∃ x rest, c.source = .ok x ∧ text = "new " ++ x ++ rest) := by
  have heach : (Tree.node .newExpression [callee, arguments]).Each (Printed fun _ => true) :=
    each_printed_of_wellTyped ht
  have hcalleeEach : callee.Each (Printed fun _ => true) := heach.part (by simp)
  obtain ⟨x, rest, y, hx, hparen, hcallee, htext⟩ := exists_newText h hc heach
  refine ⟨_, htext, ⟨?enclosed, ?access⟩, ?call⟩
  case enclosed =>
    rintro ⟨e, z, tail, he, hce, hz, heq⟩
    by_contra haccess
    rw [Bool.not_eq_false] at haccess
    obtain ⟨x', rest', hx', -, hprints⟩ := hce.exists_text hc (he.each hcalleeEach)
    obtain rfl : x = x' := Except.ok.inj (hx.source.symm.trans hx'.source)
    obtain rfl : x ++ rest' = z := Except.ok.inj (hprints.source.symm.trans hz)
    -- The text of the call would go on with itself after a parenthesis.
    rw [if_pos haccess] at heq
    simp only [String.append_assoc] at heq
    have hshift := congrArg String.toList ((String.append_right_inj _).1 heq)
    simp only [inParens, String.toList_append, List.append_assoc] at hshift
    exact absurd (eq_of_mem_of_shift hshift hparen) (by decide)
  case access =>
    intro haccess
    exact ⟨callee, x ++ rest, y, .refl, h, hcallee, by rw [haccess]; rfl⟩
  case call =>
    intro haccess
    exact ⟨x, rest ++ y, hx.source, by simp only [if_pos haccess, String.append_assoc]⟩

/-- The call of a variable without arguments. -/
def callOf (name : String) : Tree := .node .callExpression [reference name, .list []]

/-- A template without text whose tag is a property of what a call returns. -/
def taggedCall : Tree :=
  .node .templateExpression [.node .staticMemberExpression [callOf "a", .str "b"], .list []]

theorem new_source_enclosesCall_iff_taggedCall :
    (Tree.node .newExpression [taggedCall, .list []]).wellTyped = true ∧
      Heads (callOf "a") taggedCall ∧ (callOf "a").isKind .callExpression = true ∧
      ∃ text, (Tree.node .newExpression [taggedCall, .list []]).source = .ok text ∧
        EnclosesCall taggedCall (callOf "a") text := by
  have htyped : (Tree.node .newExpression [taggedCall, .list []]).wellTyped = true := by decide
  have hheads : Heads (callOf "a") taggedCall := .template (.staticMember .refl)
  obtain ⟨text, htext, hencloses, -⟩ := new_source_enclosesCall_iff htyped hheads rfl
  exact ⟨htyped, hheads, rfl, text, htext, hencloses.2 rfl⟩

/-- A property of what a call returns. -/
def calledAccess : Tree := .node .staticMemberExpression [callOf "a", .str "b"]

/-- A `new` of a property of what a call returns is printed without parentheses, so that it reads
as a property of what a `new` of the called function returns. -/
theorem calledAccess_not_enclosed :
    (Tree.node .newExpression [calledAccess, .list []]).wellTyped = true ∧
      Heads (callOf "a") calledAccess ∧ (callOf "a").isKind .callExpression = true ∧
      (Tree.node .newExpression [calledAccess, .list []]).source = .ok "new a().b()" ∧
      ¬ EnclosesCall calledAccess (callOf "a") "new a().b()" := by
  refine ⟨by decide, .staticMember .refl, rfl, rfl, ?_⟩
  rintro ⟨e, y, rest, -, -, -, htext⟩
  have hchars := congrArg String.toList htext
  simp [inParens] at hchars

end Whittle.Source
