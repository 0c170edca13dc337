import Whittle.Proofs.Source.Within
import Whittle.Proofs.Validity.Located

/-!
# The parts of a node are printed

A printer asks its parts for their texts, and each kind of part has a printer of its own. Where
the fields of a node fit, the part that is asked for is there, is of a kind that the printer
knows, and has a text. Besides printable ASCII that text has just the characters of the texts
that the part prints as they are. This module has the parts that statements and expressions
share: names, blocks, parameters, functions, classes and declarations.
-/

namespace Whittle

/-- Every node of a tree, itself included, has a property. -/
inductive Tree.Each (P : Kind → List Tree → Prop) : Tree → Prop
  | intro {t : Tree} (own : ∀ k fields, t = .node k fields → P k fields)
      (parts : ∀ v ∈ t.parts, Each P v) : Each P t

namespace Tree.Each

variable {P : Kind → List Tree → Prop} {k : Kind} {fields items : List Tree} {t v : Tree}

theorem own (h : Each P (.node k fields)) : P k fields := by
  obtain ⟨hown, -⟩ := h
  exact hown k fields rfl

theorem inside (h : Each P t) : ∀ v ∈ t.parts, Each P v := by
  obtain ⟨-, hparts⟩ := h
  exact hparts

theorem part (h : Each P (.node k fields)) (hv : v ∈ fields) : Each P v := h.inside v hv

theorem item (h : Each P (.list items)) (hv : v ∈ items) : Each P v := h.inside v hv

/-! ### Trees that are given -/

@[simp] theorem each_node :
    Each P (.node k fields) ↔ P k fields ∧ ∀ v ∈ fields, Each P v := by
  refine ⟨fun h => ⟨h.own, fun _ => h.part⟩, fun ⟨hown, hparts⟩ => .intro ?_ hparts⟩
  rintro _ _ ⟨⟩
  exact hown

@[simp] theorem each_list : Each P (.list items) ↔ ∀ v ∈ items, Each P v :=
  ⟨fun h _ => h.item, fun h => .intro nofun h⟩

theorem each_leaf (h : t.isLeaf = true) : Each P t := by
  cases t with
  | node | list => cases h
  | _ => exact .intro nofun nofun

@[simp] theorem each_str {s : String} : Each P (.str s) := each_leaf rfl

/-! ### All trees -/

theorem mono {Q : Kind → List Tree → Prop} (h : Each P t)
    (hPQ : ∀ k fields, P k fields → Q k fields) : Each Q t := by
  induction h with
  | intro own _ ih => exact .intro (fun k fields heq => hPQ k fields (own k fields heq)) ih

/-- What is so of every node is so wherever a path leads to a node. -/
theorem get {p : Path} (h : Each P t) (hget : t.get p = .ok (.node k fields)) : P k fields := by
  induction p generalizing t with
  | nil =>
    obtain rfl := Except.ok.inj hget
    exact h.own
  | cons s p ih =>
    obtain ⟨v, hv, hrest⟩ := Tree.get_cons_eq_ok.1 hget
    obtain ⟨i, -, hi⟩ := Tree.childAt_eq_ok.1 hv
    exact ih (h.inside v (List.mem_of_getElem? hi)) hrest

end Tree.Each

/-- In a tree that the walk goes through a step leads to every part. -/
theorem Tree.Walkable.exists_step {t v : Tree} (h : t.Walkable) (hv : v ∈ t.parts) :
    ∃ s, t.childAt s = .ok v := by
  obtain ⟨i, hi⟩ := List.mem_iff_getElem?.1 hv
  cases t with
  | node k fields =>
    have hlength : i < k.fieldNames.length := by
      rw [Kind.fieldNames, List.length_map, ← FieldsFit.length_eq h]
      exact (List.getElem?_eq_some_iff.1 hi).1
    have hmem : (k.fieldNames[i], v) ∈ k.fieldNames.zip fields :=
      List.mem_of_getElem? (List.getElem?_zip_eq_some.2 ⟨List.getElem?_eq_getElem hlength, hi⟩)
    exact ⟨.field k.fieldNames[i], childAt_node.2 ⟨_, rfl, hmem⟩⟩
  | list items => exact ⟨.index i, childAt_list.2 ⟨i, rfl, hi⟩⟩
  | _ => cases hv

/-- What is so wherever a path leads to a node is so of every node. -/
theorem each_of_get {P : Kind → List Tree → Prop} {t : Tree} (ht : t.Walkable)
    (h : ∀ (p : Path) (k : Kind) (fields : List Tree), t.get p = .ok (.node k fields) →
      P k fields) : t.Each P := by
  refine .intro (fun k fields heq => h [] k fields (by rw [heq]; rfl)) fun v hv => ?_
  -- Paths into a part are paths with the step to the part before them.
  obtain ⟨s, hs⟩ := ht.exists_step hv
  have hlt := sizeOf_childAt hs
  refine each_of_get (ht.child hs) fun p k fields hget => h (s :: p) k fields ?_
  exact Tree.get_cons_eq_ok.2 ⟨v, hs, hget⟩
termination_by sizeOf t

namespace Source

open Grammar Whittle.Language

variable {extra : Char → Bool}

/-! ## Printing that succeeds -/

section Gives

variable {α β : Type} {P : α → Prop} {Q : β → Prop} {x : Printing α} {f : α → Printing β}

/-- Printing succeeds, with a result that has a property. -/
def Gives (x : Printing α) (P : α → Prop) : Prop := ∃ a, x = .ok a ∧ P a

theorem Gives.pure {a : α} (h : P a) : Gives (Pure.pure a) P := ⟨a, rfl, h⟩

theorem Gives.bind (hx : Gives x P) (hf : ∀ a, P a → Gives (f a) Q) : Gives (x >>= f) Q := by
  obtain ⟨a, rfl, ha⟩ := hx
  exact hf a ha

theorem Gives.mono {P' : α → Prop} (hx : Gives x P) (h : ∀ a, P a → P' a) : Gives x P' := by
  obtain ⟨a, rfl, ha⟩ := hx
  exact ⟨a, rfl, h a ha⟩

/-- A step whose result is known. -/
theorem Gives.step {a : α} (hx : x = .ok a) (h : Gives (f a) Q) : Gives (x >>= f) Q := by
  rw [hx]
  exact h

theorem Gives.mapM {xs : List α} (h : ∀ a ∈ xs, Gives (f a) Q) :
    Gives (xs.mapM f) fun ys => ∀ b ∈ ys, Q b := by
  induction xs with
  | nil => exact ⟨[], rfl, by simp⟩
  | cons a xs ih =>
    obtain ⟨b, hb, hQ⟩ := h a List.mem_cons_self
    obtain ⟨bs, hbs, hQs⟩ := ih fun a' ha' => h a' (List.mem_cons_of_mem _ ha')
    refine ⟨b :: bs, ?_, List.forall_mem_cons.2 ⟨hQ, hQs⟩⟩
    rw [List.mapM_cons, hb, hbs]
    rfl

end Gives

/-- A text is printed, which is within the alphabet just if something is so. -/
abbrev Writes (extra : Char → Bool) (x : Printing String) (c : Prop) : Prop :=
  Gives x fun s => (Within extra s ↔ c)

/-- A statement is printed, with a text that is within the alphabet just if something is so. -/
abbrev WritesStatement (extra : Char → Bool) (x : Printing (String × Bool)) (c : Prop) : Prop :=
  Gives x fun p => (Within extra p.1 ↔ c)

/-- A value that is a text, which is within the alphabet just if something is so. -/
def IsTextWithin (extra : Char → Bool) (v : Tree) (c : Prop) : Prop :=
  ∃ s, v = .str s ∧ (Within extra s ↔ c)

theorem IsTextWithin.plain {v : Tree} {c : Prop} (h : IsTextWithin extra v c) :
    Within extra v.plain ↔ c := by
  obtain ⟨s, rfl, hs⟩ := h
  exact hs

/-! ## Nodes that are printed -/

/-- The kinds that are printed as programs or as parts of one that can be shown alone. -/
def fragmentKinds : List Kind := [
  .script, .esModule, .block, .functionBody, .formalParameters, .directive, .templateElement]

/-- The texts of a node that are printed as they are. -/
def rawTexts : Kind → List Tree → List String
  | .directive, [.str raw] => [raw]
  | .templateElement, [.str raw] => [raw]
  | .literalRegExpExpression, .str pattern :: _ => [pattern]
  | .bindingIdentifier, [.str name] => [name]
  | .identifierExpression, [.str name] => [name]
  | .assignmentTargetIdentifier, [.str name] => [name]
  | .staticMemberExpression, [_, .str property] => [property]
  | .staticMemberAssignmentTarget, [_, .str property] => [property]
  | .labeledStatement, [.str label, _] => [label]
  | .breakStatement, [.str label] => [label]
  | .continueStatement, [.str label] => [label]
  | .staticPropertyName, [.str value] => if isBareName value then [value] else []
  | _, _ => []

/-- The texts that are printed as they are, anywhere in a tree, are within the alphabet. -/
def RawWithin (extra : Char → Bool) (t : Tree) : Prop :=
  t.Each fun k fields => ∀ s ∈ rawTexts k fields, Within extra s

/-- The fields of a node fit, and if it has a printer, a text is printed, which is within the
alphabet just if the raw texts of the node and its parts are. -/
structure Printed (extra : Char → Bool) (k : Kind) (fields : List Tree) : Prop where
  fits : FieldsFit false k k.slots fields
  statement : statementKinds.contains k = true →
    Gives (formOf k (piecesOf fields)) fun f => ∃ s needed,
      f = .statement s needed ∧ (Within extra s ↔ RawWithin extra (.node k fields))
  expression : expressionKinds.contains k = true →
    Gives (formOf k (piecesOf fields)) fun f => ∃ s precedence,
      f = .expression (.str s) precedence ∧ (Within extra s ↔ RawWithin extra (.node k fields))
  fragment : fragmentKinds.contains k = true →
    Gives (formOf k (piecesOf fields)) fun f => ∃ s,
      f = .fragment (.str s) ∧ (Within extra s ↔ RawWithin extra (.node k fields))

variable {k : Kind} {fields items : List Tree} {v : Tree} {p : Piece} {form : Printing Form}

/-- A node without a raw text of its own. -/
theorem rawWithin_parts (h : rawTexts k fields = []) :
    RawWithin extra (.node k fields) ↔ ∀ v ∈ fields, RawWithin extra v := by
  simp [RawWithin, h]

/-- A node with a raw text of its own. -/
theorem rawWithin_text {s : String} (h : rawTexts k fields = [s]) :
    RawWithin extra (.node k fields) ↔ Within extra s ∧ ∀ v ∈ fields, RawWithin extra v := by
  simp [RawWithin, h]

theorem rawWithin_name {s : String} (h : rawTexts k [.str s] = [s]) :
    RawWithin extra (.node k [.str s]) ↔ Within extra s := by
  simp [RawWithin, h]

@[simp] theorem rawWithin_list :
    RawWithin extra (.list items) ↔ ∀ v ∈ items, RawWithin extra v := by
  simp [RawWithin]

theorem rawWithin_leaf (h : v.isLeaf = true) : RawWithin extra v := Tree.Each.each_leaf h

@[simp] theorem rawWithin_str {s : String} : RawWithin extra (.str s) := rawWithin_leaf rfl

@[simp] theorem rawWithin_bool {b : Bool} : RawWithin extra (.bool b) := rawWithin_leaf rfl

@[simp] theorem rawWithin_absent : RawWithin extra .absent := rawWithin_leaf rfl

theorem piecesOf_eq_map (ts : List Tree) : piecesOf ts = ts.map pieceOf := by
  induction ts with
  | nil => rfl
  | cons t ts ih => rw [piecesOf, ih, List.map_cons]

/-- The items of a list in a field, each of which is printed. -/
theorem gives_items {α : Type} {f : Piece → Printing α} {text : α → String}
    (h : ∀ v ∈ items, Gives (f (pieceOf v)) fun a => (Within extra (text a) ↔ RawWithin extra v)) :
    Gives ((piecesOf items).mapM f) fun as =>
      ((∀ a ∈ as, Within extra (text a)) ↔ ∀ v ∈ items, RawWithin extra v) := by
  induction items with
  | nil => exact ⟨[], rfl, by simp⟩
  | cons v items ih =>
    obtain ⟨a, ha, hv⟩ := h v List.mem_cons_self
    obtain ⟨as, has, hitems⟩ := ih fun w hw => h w (List.mem_cons_of_mem _ hw)
    have hmapM : (piecesOf (v :: items)).mapM f = .ok (a :: as) := by
      rw [piecesOf, List.mapM_cons, ha, has]
      rfl
    exact ⟨a :: as, hmapM, by simp [hv, hitems]⟩

/-- A statement in its place. -/
theorem writes_statement_of_kind (h : (Tree.node k fields).Each (Printed extra))
    (hk : statementKinds.contains k = true) :
    WritesStatement extra (pieceOf (.node k fields)).statement
      (RawWithin extra (.node k fields)) := by
  obtain ⟨f, hf, s, needed, rfl, hs⟩ := h.own.statement hk
  rw [pieceOf, Piece.statement, if_pos hk, hf]
  exact Gives.pure hs

/-- An expression in its place, in parentheses where it needs them. -/
theorem gives_expressionValue_of_kind (h : (Tree.node k fields).Each (Printed extra))
    (hk : expressionKinds.contains k = true) (least : Nat) :
    Gives ((pieceOf (.node k fields)).expressionValue least) fun v =>
      IsTextWithin extra v (RawWithin extra (.node k fields)) := by
  obtain ⟨f, hf, s, precedence, rfl, hs⟩ := h.own.expression hk
  rw [pieceOf, Piece.expressionValue, if_pos hk, hf]
  apply Gives.pure
  by_cases hlt : precedence < least
  · rw [if_pos hlt]
    exact ⟨_, rfl, within_inParens.trans hs⟩
  · rw [if_neg hlt]
    exact ⟨s, rfl, hs⟩

theorem writes_expression_of_kind (h : (Tree.node k fields).Each (Printed extra))
    (hk : expressionKinds.contains k = true) (least : Nat) :
    Writes extra ((pieceOf (.node k fields)).expression least)
      (RawWithin extra (.node k fields)) := by
  refine (gives_expressionValue_of_kind h hk least).bind fun v hv => ?_
  exact Gives.pure hv.plain

theorem writes_statement (h : v.Each (Printed extra)) (hv : FitsType false statement v) :
    WritesStatement extra (pieceOf v).statement (RawWithin extra v) := by
  obtain ⟨k, fields, rfl, hk, -⟩ := fitsType_kinds rfl statementKinds (by decide) hv
  exact writes_statement_of_kind h (List.contains_iff_mem.2 hk)

theorem gives_expressionValue (h : v.Each (Printed extra)) (hv : FitsType false expression v)
    (least : Nat) : Gives ((pieceOf v).expressionValue least) fun w =>
      IsTextWithin extra w (RawWithin extra v) := by
  obtain ⟨k, fields, rfl, hk, -⟩ := fitsType_kinds rfl expressionKinds (by decide) hv
  exact gives_expressionValue_of_kind h (List.contains_iff_mem.2 hk) least

theorem writes_expression (h : v.Each (Printed extra)) (hv : FitsType false expression v)
    (least : Nat) : Writes extra ((pieceOf v).expression least) (RawWithin extra v) := by
  refine (gives_expressionValue h hv least).bind fun v hv => ?_
  exact Gives.pure hv.plain

/-! ## Optional parts -/

/-- Of an optional union, nothing fits and what fits the union. -/
theorem fitsType_optional {t : TypeSpec} {ms : List (Head Kind)} {loose : Bool}
    (ht : positionOf t = some (.union ms)) :
    FitsType loose (.maybe t) v ↔ v = .absent ∨ v.isNode = true ∧ FitsType loose t v := by
  rw [fitsType_maybe (positionOf_maybe ht), fitsType_union ht]
  refine or_congr_right ⟨?_, fun h => h.2⟩
  rintro ⟨k, fields, rfl, h⟩
  exact ⟨rfl, k, fields, rfl, h⟩

/-! ## Names -/

/-- The name of a node whose only field it is. -/
theorem writes_name {name : String} (hk : k ∈ [Kind.bindingIdentifier, .identifierExpression]) :
    Writes extra ((pieceOf (.node k [.str name])).textOf "name")
      (RawWithin extra (.node k [.str name])) := by
  rcases List.mem_pair.1 hk with rfl | rfl <;> exact ⟨name, rfl, (rawWithin_name rfl).symm⟩

theorem exists_name (hv : FitsType false (.node .bindingIdentifier) v) :
    ∃ name, v = .node .bindingIdentifier [.str name] := by
  obtain ⟨fields, rfl, hfits⟩ := fitsType_node.1 hv
  obtain ⟨name, rfl, hname⟩ := (fit_one rfl rfl).1 hfits
  obtain ⟨s, rfl⟩ := fitsType_string.1 hname
  exact ⟨s, rfl⟩

theorem writes_bindingName (extra : Char → Bool)
    (hv : FitsType false (.node .bindingIdentifier) v) :
    Writes extra ((pieceOf v).textOf "name") (RawWithin extra v) := by
  obtain ⟨name, rfl⟩ := exists_name hv
  exact writes_name (by decide)

/-- The name of a function or class, if it is printed. -/
theorem writes_spacedName (extra : Char → Bool) {space : String} (hspace : Within extra space)
    (hget : p.get "name" = .ok (pieceOf v))
    (hv : v = .absent ∨ FitsType false (.node .bindingIdentifier) v) :
    Writes extra (p.spacedName space) (RawWithin extra v) := by
  unfold Piece.spacedName
  apply Gives.step hget
  rcases hv with rfl | hv
  · exact Gives.pure (by simp +decide)
  · obtain ⟨name, rfl⟩ := exists_name hv
    refine Gives.step (a := name) rfl (Gives.pure ?_)
    -- A name that is not printed is one within every alphabet.
    rw [rawWithin_name rfl]
    by_cases hdefault : name = defaultExportName
    · subst hdefault
      simp +decide [defaultExportName]
    · simp [hdefault, hspace]

/-! ## Bodies -/

/-- Statements one after another. -/
theorem gives_statements (h : (Tree.list items).Each (Printed extra))
    (hitems : ∀ v ∈ items, FitsType false statement v) :
    Gives ((piecesOf items).mapM (·.statement)) fun xs =>
      ((∀ x ∈ xs, Within extra x.1) ↔ ∀ v ∈ items, RawWithin extra v) :=
  gives_items fun v hv => writes_statement (h.item hv) (hitems v hv)

theorem writes_block (h : ∀ w ∈ v.parts, w.Each (Printed extra))
    (hv : FitsType false (.node .block) v) :
    Writes extra (pieceOf v).block (RawWithin extra v) := by
  obtain ⟨fields, rfl, hfits⟩ := fitsType_node.1 hv
  obtain ⟨list, rfl, hlist⟩ := (fit_one rfl rfl).1 hfits
  obtain ⟨ss, rfl, hss⟩ := (fitsType_list rfl).1 hlist
  unfold Piece.block
  apply Gives.step rfl
  refine (gives_statements (h _ List.mem_cons_self) hss).bind fun xs hxs => Gives.pure ?_
  rw [within_braced, within_joined, hxs, rawWithin_parts rfl]
  simp

/-- Directives, and the statements or items after them. -/
theorem writes_body {ds : Tree} (hds : FitsType false (.list (.node .directive)) ds)
    (hitems : Gives ((piecesOf items).mapM (·.statement)) fun xs =>
      ((∀ x ∈ xs, Within extra x.1) ↔ ∀ v ∈ items, RawWithin extra v)) :
    Writes extra (Piece.body (pieceOf ds) (pieceOf (.list items)))
      (RawWithin extra ds ∧ RawWithin extra (.list items)) := by
  obtain ⟨ds, rfl, hdirectives⟩ := (fitsType_list rfl).1 hds
  have hraw : Gives ((piecesOf ds).mapM (·.valueOf "raw_value")) fun vs =>
      ((∀ v ∈ vs, Within extra (directiveText v)) ↔ ∀ d ∈ ds, RawWithin extra d) := by
    refine gives_items fun d hd => ?_
    obtain ⟨fields, rfl, hfits⟩ := fitsType_node.1 (hdirectives d hd)
    obtain ⟨raw, rfl, hraw⟩ := (fit_one rfl rfl).1 hfits
    obtain ⟨s, rfl⟩ := fitsType_string.1 hraw
    exact ⟨.str s, rfl, within_directiveText.trans (rawWithin_name rfl).symm⟩
  unfold Piece.body
  apply Gives.step rfl
  refine hraw.bind fun vs hvs => ?_
  apply Gives.step rfl
  refine hitems.bind fun xs hxs => Gives.pure ?_
  have hsplit : (∀ x ∈ vs.map (fun v => (directiveText v, true)) ++ xs, Within extra x.1) ↔
      (∀ v ∈ vs, Within extra (directiveText v)) ∧ ∀ x ∈ xs, Within extra x.1 := by
    rw [List.forall_mem_append, List.forall_mem_map]
  rw [within_joined, hsplit, hvs, hxs, rawWithin_list, rawWithin_list]

theorem writes_functionBody (h : ∀ w ∈ v.parts, w.Each (Printed extra))
    (hv : FitsType false (.node .functionBody) v) :
    Writes extra (pieceOf v).functionBody (RawWithin extra v) := by
  obtain ⟨fields, rfl, hfits⟩ := fitsType_node.1 hv
  obtain ⟨ds, list, rfl, hds, hlist⟩ := (fit_two rfl rfl).1 hfits
  obtain ⟨ss, rfl, hss⟩ := (fitsType_list rfl).1 hlist
  have hstatements := gives_statements (h (.list ss) (by simp [Tree.parts])) hss
  unfold Piece.functionBody
  apply Gives.step rfl
  apply Gives.step rfl
  refine (writes_body hds hstatements).bind fun text htext => Gives.pure ?_
  rw [within_braced, htext, rawWithin_parts rfl]
  simp

/-! ## Parameters -/

/-- A parameter has the name of its binding, and perhaps a default. -/
theorem writes_parameter (h : v.Each (Printed extra)) (hv : FitsType false parameter v) :
    Writes extra (pieceOf v).parameter (RawWithin extra v) := by
  obtain ⟨k, fields, rfl, hk, hfits⟩ :=
    fitsType_kinds rfl [.bindingIdentifier, .bindingWithDefault] (by decide) hv
  unfold Piece.parameter
  apply Gives.step rfl
  rcases List.mem_pair.1 hk with rfl | rfl
  · exact writes_bindingName extra (fitsType_node.2 ⟨fields, rfl, hfits⟩)
  · obtain ⟨binding, init, rfl, hbinding, hinit⟩ := (fit_two rfl rfl).1 hfits
    have hname := writes_bindingName extra (fitsType_binding.1 hbinding)
    have hdefault := writes_expression (h.part (by simp)) hinit assignment
    refine hname.bind fun name hname => ?_
    refine hdefault.bind fun text htext => Gives.pure ?_
    rw [rawWithin_parts rfl]
    simp +decide [hname, htext]

theorem writes_soleParameter (h : v.Each (Printed extra)) (hv : FitsType false parameter v) :
    Writes extra (pieceOf v).soleParameter (RawWithin extra v) := by
  have hparameter := writes_parameter h hv
  obtain ⟨k, fields, rfl, hk, hfits⟩ :=
    fitsType_kinds rfl [.bindingIdentifier, .bindingWithDefault] (by decide) hv
  unfold Piece.soleParameter
  apply Gives.step rfl
  rcases List.mem_pair.1 hk with rfl | rfl <;>
    exact hparameter.bind fun text htext => Gives.pure (within_inParens.trans htext)

theorem writes_parameters (h : ∀ w ∈ v.parts, w.Each (Printed extra))
    (hv : FitsType false (.node .formalParameters) v) :
    Writes extra (pieceOf v).parameters (RawWithin extra v) := by
  obtain ⟨fields, rfl, hfits⟩ := fitsType_node.1 hv
  obtain ⟨list, rest, rfl, hlist, hrest⟩ := (fit_two rfl rfl).1 hfits
  obtain ⟨items, rfl, hitems⟩ := (fitsType_list rfl).1 hlist
  have hlistEach := h (.list items) (by simp [Tree.parts])
  have htexts : Gives ((piecesOf items).mapM Piece.parameter) fun ss =>
      ((∀ s ∈ ss, Within extra s) ↔ ∀ v ∈ items, RawWithin extra v) :=
    gives_items fun v hv => writes_parameter (hlistEach.item hv) (hitems v hv)
  unfold Piece.parameters
  apply Gives.step rfl
  refine htexts.bind fun texts htexts => ?_
  apply Gives.step rfl
  rcases (fitsType_optional rfl).1 hrest with rfl | ⟨-, hrest⟩
  · refine Gives.pure ?_
    rw [List.append_nil, within_inParens, within_commaList, htexts, rawWithin_parts rfl]
    simp
  · have hrestName := writes_bindingName extra (fitsType_binding.1 hrest)
    obtain ⟨fields, rfl, -⟩ := fitsType_node.1 (fitsType_binding.1 hrest)
    refine hrestName.bind fun name hname => Gives.pure ?_
    have hsplit : (∀ s ∈ texts ++ ["..." ++ name], Within extra s) ↔
        (∀ s ∈ texts, Within extra s) ∧ Within extra name := by
      simp +decide [or_imp, forall_and]
    rw [within_inParens, within_commaList, hsplit, htexts, hname,
      rawWithin_parts (k := .formalParameters) rfl]
    simp

/-! ## Functions -/

/-- A function, declared or as an expression. -/
theorem writes_function {isAsync isGenerator : Bool} {name params body : Tree}
    (hk : k ∈ [Kind.functionDeclaration, .functionExpression])
    (h : ∀ v ∈ [.bool isAsync, .bool isGenerator, name, params, body], v.Each (Printed extra))
    (hname : name = .absent ∨ FitsType false (.node .bindingIdentifier) name)
    (hparams : FitsType false (.node .formalParameters) params)
    (hbody : FitsType false (.node .functionBody) body) :
    Writes extra (Piece.node k
      (piecesOf [.bool isAsync, .bool isGenerator, name, params, body]) form).function
      (RawWithin extra (.node k [.bool isAsync, .bool isGenerator, name, params, body])) := by
  have hparamsText := writes_parameters (h params (by simp)).inside hparams
  have hbodyText := writes_functionBody (h body (by simp)).inside hbody
  unfold Piece.function
  rcases List.mem_pair.1 hk with rfl | rfl <;>
  · apply Gives.step rfl
    apply Gives.step rfl
    refine (writes_spacedName extra (by simp +decide) rfl hname).bind fun n hn => ?_
    apply Gives.step rfl
    refine hparamsText.bind fun ps hps => ?_
    apply Gives.step rfl
    refine hbodyText.bind fun b hb => Gives.pure ?_
    rw [rawWithin_parts rfl]
    simp +decide [hn, hps, hb, and_assoc]

/-- The name of a property is in brackets, bare, or escaped. -/
theorem writes_propertyName (h : v.Each (Printed extra)) (hv : FitsType false propertyName v) :
    Writes extra (pieceOf v).propertyName (RawWithin extra v) := by
  obtain ⟨k, fields, rfl, hk, hfits⟩ :=
    fitsType_kinds rfl [.computedPropertyName, .staticPropertyName] (by decide) hv
  unfold Piece.propertyName
  apply Gives.step rfl
  rcases List.mem_pair.1 hk with rfl | rfl
  · obtain ⟨e, rfl, he⟩ := (fit_one rfl rfl).1 hfits
    refine (writes_expression (h.part (by simp)) he assignment).bind fun text htext => ?_
    rw [rawWithin_parts rfl]
    exact Gives.pure (by simp +decide [htext])
  · obtain ⟨value, rfl, hvalue⟩ := (fit_one rfl rfl).1 hfits
    obtain ⟨s, rfl⟩ := fitsType_string.1 hvalue
    apply Gives.step rfl
    apply Gives.pure
    show Within extra (if isBareName s = true then s else Text.escaped true s) ↔ _
    by_cases hbare : isBareName s = true
    · have hraw : rawTexts .staticPropertyName [.str s] = [s] := if_pos hbare
      rw [rawWithin_name hraw, if_pos hbare]
    · have hnone : rawTexts .staticPropertyName [.str s] = [] := if_neg hbare
      rw [rawWithin_parts hnone, if_neg hbare]
      simp

theorem writes_method (h : v.Each (Printed extra)) (hv : FitsType false methodDefinition v) :
    Writes extra (pieceOf v).method (RawWithin extra v) := by
  obtain ⟨k, fields, rfl, hk, hfits⟩ :=
    fitsType_kinds rfl [.method, .getter, .setter] (by decide) hv
  unfold Piece.method
  simp only [List.mem_cons, List.not_mem_nil, or_false] at hk
  rcases hk with rfl | rfl | rfl
  · obtain ⟨a, g, name, params, body, rfl, ha, hg, hname, hparams, hbody⟩ :=
      (fit_five rfl rfl).1 hfits
    obtain ⟨a, rfl⟩ := fitsType_boolean.1 ha
    obtain ⟨g, rfl⟩ := fitsType_boolean.1 hg
    have hparamsText := writes_parameters (h.part (by simp)).inside hparams
    have hbodyText := writes_functionBody (h.part (by simp)).inside hbody
    apply Gives.step rfl
    refine (writes_propertyName (h.part (by simp)) hname).bind fun n hn => ?_
    apply Gives.step rfl
    apply Gives.step rfl
    apply Gives.step rfl
    apply Gives.step rfl
    refine hparamsText.bind fun ps hps => ?_
    apply Gives.step rfl
    refine hbodyText.bind fun b hb => Gives.pure ?_
    rw [rawWithin_parts rfl]
    simp +decide [hn, hps, hb, and_assoc]
  · obtain ⟨name, body, rfl, hname, hbody⟩ := (fit_two rfl rfl).1 hfits
    have hbodyText := writes_functionBody (h.part (by simp)).inside hbody
    apply Gives.step rfl
    refine (writes_propertyName (h.part (by simp)) hname).bind fun n hn => ?_
    apply Gives.step rfl
    apply Gives.step rfl
    refine hbodyText.bind fun b hb => Gives.pure ?_
    rw [rawWithin_parts rfl]
    simp +decide [hn, hb]
  · obtain ⟨name, param, body, rfl, hname, hparam, hbody⟩ := (fit_three rfl rfl).1 hfits
    have hparamText := writes_soleParameter (h.part (by simp)) hparam
    have hbodyText := writes_functionBody (h.part (by simp)).inside hbody
    apply Gives.step rfl
    refine (writes_propertyName (h.part (by simp)) hname).bind fun n hn => ?_
    apply Gives.step rfl
    apply Gives.step rfl
    refine hparamText.bind fun ps hps => ?_
    apply Gives.step rfl
    refine hbodyText.bind fun b hb => Gives.pure ?_
    rw [rawWithin_parts rfl]
    simp +decide [hn, hps, hb, and_assoc]

/-! ## Classes -/

theorem writes_classElement (h : v.Each (Printed extra))
    (hv : FitsType false (.node .classElement) v) :
    Writes extra (pieceOf v).classElement (RawWithin extra v) := by
  obtain ⟨fields, rfl, hfits⟩ := fitsType_node.1 hv
  obtain ⟨isStatic, method, rfl, hstatic, hmethod⟩ := (fit_two rfl rfl).1 hfits
  obtain ⟨isStatic, rfl⟩ := fitsType_boolean.1 hstatic
  unfold Piece.classElement
  apply Gives.step rfl
  apply Gives.step rfl
  refine (writes_method (h.part (by simp)) hmethod).bind fun text htext => ?_
  rw [rawWithin_parts rfl]
  exact Gives.pure (by simp +decide [htext])

/-- A class, declared or as an expression. -/
theorem writes_class {name superClass list : Tree}
    (hk : k ∈ [Kind.classDeclaration, .classExpression])
    (h : ∀ v ∈ [name, superClass, list], v.Each (Printed extra))
    (hname : name = .absent ∨ FitsType false (.node .bindingIdentifier) name)
    (hsuper : FitsType false (.maybe expression) superClass)
    (hlist : FitsType false (.list (.node .classElement)) list) :
    Writes extra (Piece.node k (piecesOf [name, superClass, list]) form).classText
      (RawWithin extra (.node k [name, superClass, list])) := by
  obtain ⟨items, rfl, hitems⟩ := (fitsType_list rfl).1 hlist
  have hlistEach := h (.list items) (by simp)
  have hsuperEach := h superClass (by simp)
  have helements : Gives ((piecesOf items).mapM Piece.classElement) fun ss =>
      ((∀ s ∈ ss, Within extra s) ↔ ∀ v ∈ items, RawWithin extra v) :=
    gives_items fun v hv => writes_classElement (hlistEach.item hv) (hitems v hv)
  unfold Piece.classText
  rcases List.mem_pair.1 hk with rfl | rfl <;>
  · refine (writes_spacedName extra (by simp +decide) rfl hname).bind fun n hn => ?_
    apply Gives.step rfl
    rcases (fitsType_optional rfl).1 hsuper with rfl | ⟨hnode, hsuper⟩
    · apply Gives.step rfl
      refine helements.bind fun texts htexts => Gives.pure ?_
      rw [rawWithin_parts rfl]
      simp +decide [hn, htexts]
    · have hheritage := writes_expression hsuperEach hsuper call
      obtain ⟨l, fs, rfl, -⟩ := (fitsType_union rfl).1 hsuper
      refine hheritage.bind fun heritage hheritage => ?_
      apply Gives.step rfl
      refine helements.bind fun texts htexts => Gives.pure ?_
      rw [rawWithin_parts rfl]
      simp +decide [hn, hheritage, htexts, and_assoc]

/-! ## Declarations -/

theorem writes_declarator (h : v.Each (Printed extra))
    (hv : FitsType false (.node .variableDeclarator) v) :
    Writes extra (pieceOf v).declarator (RawWithin extra v) := by
  obtain ⟨fields, rfl, hfits⟩ := fitsType_node.1 hv
  obtain ⟨binding, init, rfl, hbinding, hinit⟩ := (fit_two rfl rfl).1 hfits
  have hinitEach : init.Each (Printed extra) := h.part (by simp)
  have hname := writes_bindingName extra (fitsType_binding.1 hbinding)
  unfold Piece.declarator
  refine hname.bind fun name hname => ?_
  apply Gives.step rfl
  rcases (fitsType_optional rfl).1 hinit with rfl | ⟨-, hinit⟩
  · rw [rawWithin_parts rfl]
    exact Gives.pure (by simp [hname])
  · have htext := writes_expression hinitEach hinit assignment
    obtain ⟨l, fs, rfl, -⟩ := (fitsType_union rfl).1 hinit
    refine htext.bind fun text htext => Gives.pure ?_
    rw [rawWithin_parts rfl]
    simp +decide [hname, htext]

theorem writes_variableDeclaration (h : v.Each (Printed extra))
    (hv : FitsType false (.node .variableDeclaration) v) :
    Writes extra (pieceOf v).variableDeclaration (RawWithin extra v) := by
  obtain ⟨fields, rfl, hfits⟩ := fitsType_node.1 hv
  obtain ⟨word, list, rfl, hword, hlist⟩ := (fit_two rfl rfl).1 hfits
  obtain ⟨word, hmem, rfl⟩ := fitsType_enum.1 hword
  obtain ⟨items, rfl, hitems⟩ := (fitsType_list rfl).1 hlist
  have hplain : ∀ w ∈ declarationKinds, w.toList.all isPlainAscii = true := by decide
  have hwordText : Within extra (pieceOf (.str word)).tree.plain :=
    within_of_plain (hplain word hmem)
  have hlistEach : (Tree.list items).Each (Printed extra) := h.part (by simp)
  have htexts : Gives ((piecesOf items).mapM Piece.declarator) fun ss =>
      ((∀ s ∈ ss, Within extra s) ↔ ∀ v ∈ items, RawWithin extra v) :=
    gives_items fun v hv => writes_declarator (hlistEach.item hv) (hitems v hv)
  unfold Piece.variableDeclaration
  apply Gives.step rfl
  refine htexts.bind fun texts htexts => ?_
  apply Gives.step rfl
  apply Gives.pure
  rw [within_append, within_append]
  rw [rawWithin_parts rfl]
  simp +decide [hwordText, htexts]

end Source

end Whittle
