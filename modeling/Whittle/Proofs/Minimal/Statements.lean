import Whittle.Proofs.Minimal.Ancestry

/-!
# Statements that stand alone

In a minimal program the node that makes it minimal comes to stand directly among the statements
of the script or the function body around it, alone, and with no directives before it. An
expression has a statement to itself.
-/

namespace Whittle

open Grammar Whittle.Language

/-- Whether a node of the kind may stand among statements. -/
def Kind.isStatement (k : Kind) : Bool := (positionOf statement).any (·.takes k)

/-- The kinds with directives and statements. -/
def Kind.hasStatements (k : Kind) : Prop := k = .script ∨ k = .functionBody

/-- The frames around one of the statements of a script or function body. -/
def statementFrames (k : Kind) (directives : Tree) (before after : List Tree) : List Frame :=
  [.item before after, .field k [directives] []]

theorem fieldsFit_of_hasStatements {k : Kind} (hk : k.hasStatements) {vs : List Tree} :
    FieldsFit false k k.slots vs ↔ ∃ ds ss, vs = [.list ds, .list ss] ∧
      (∀ v ∈ ds, FitsType false (.node .directive) v) ∧
      ∀ v ∈ ss, FitsType false statement v := by
  have hfit : FieldsFit false k k.slots vs ↔ ∃ ds ss, vs = [ds, ss] ∧
      FitsType false (.list (.node .directive)) ds ∧ FitsType false (.list statement) ss := by
    rcases hk with rfl | rfl
    · exact fit_two (k := .script) rfl rfl
    · exact fit_two (k := .functionBody) rfl rfl
  rw [hfit]
  simp only [fitsType_list (show positionOf (.node Kind.directive) = some _ from rfl),
    fitsType_list (show positionOf statement = some _ from rfl)]
  constructor
  · rintro ⟨_, _, rfl, ⟨ds, rfl, hds⟩, ss, rfl, hss⟩
    exact ⟨ds, ss, rfl, hds, hss⟩
  · rintro ⟨ds, ss, rfl, hds, hss⟩
    exact ⟨_, _, rfl, ⟨ds, rfl, hds⟩, ss, rfl, hss⟩

theorem holeTypeOf_statement {k : Kind} (hk : k.hasStatements) (ds : Tree)
    (before after : List Tree) (q : List Frame) :
    holeTypeOf false none (statementFrames k ds before after ++ q) = positionOf statement := by
  rcases hk with rfl | rfl <;> rfl

/-- What is in a script or function body, and no directive, is in one of its statements. -/
theorem exists_statementFrames {l : Kind} (hl : l.hasStatements) {gs : List Frame} {k : Kind}
    {fields us : List Tree} (hpos : Positions gs) (hne : gs ≠ []) (hk : k ≠ .directive)
    (h : FieldsFit false l l.slots us) (heq : plugAll gs (.node k fields) = .node l us) :
    ∃ hs ds before after, gs = hs ++ statementFrames l ds before after := by
  obtain ⟨ds, ss, rfl, hds, -⟩ := (fieldsFit_of_hasStatements hl).1 h
  obtain rfl | ⟨fs, f, rfl⟩ := gs.eq_nil_or_concat
  · exact absurd rfl hne
  rw [List.concat_eq_append] at *
  rw [plugAll_concat] at heq
  cases f with
  | item before after => cases heq
  | field m before after =>
    obtain ⟨rfl, hfields⟩ := Tree.node.inj heq
    -- the list is the hole of an item
    have hitem : ∀ items, plugAll fs (.node k fields) = .list items →
        ∃ hs b a, fs = hs ++ [.item b a] ∧ items = b ++ plugAll hs (.node k fields) :: a := by
      intro items hitems
      obtain rfl | ⟨hs, g, rfl⟩ := fs.eq_nil_or_concat
      · cases hitems
      · rw [List.concat_eq_append, plugAll_concat] at hitems
        cases g with
        | field m b a => cases hitems
        | item b a => exact ⟨hs, b, a, by simp, (Tree.list.inj hitems).symm⟩
    obtain _ | ⟨d, _ | ⟨d', before⟩⟩ := before
    · -- nothing is in a directive
      simp only [List.nil_append, List.cons.injEq] at hfields
      obtain ⟨hs, b, a, rfl, rfl⟩ := hitem ds hfields.1
      obtain ⟨raw, hraw, -⟩ := fitsType_node.1 (hds (plugAll hs (.node k fields)) (by simp))
      obtain rfl | ⟨g, gs, rfl⟩ : hs = [] ∨ ∃ g gs, hs = g :: gs := by cases hs <;> simp
      · cases hraw
        exact absurd rfl hk
      · exact absurd hraw (plugAll_ne_plain (by decide) hpos.left.left (by simp))
    · simp only [List.cons_append, List.nil_append, List.cons.injEq] at hfields
      obtain ⟨-, hss, rfl⟩ := hfields
      obtain ⟨hs, b, a, rfl, -⟩ := hitem ss hss
      exact ⟨hs, d, b, a, by simp [statementFrames]⟩
    · simp at hfields

/-! ## Nothing around a statement -/

theorem Closed.needs {v : Tree} (h : Closed v) : Needs .nothing v :=
  fun c => iff_of_true (h c) rfl

namespace Minimal

variable {T : Kind} {t : Tree} {n : Need} {k l : Kind} {fields : List Tree} {ds : Tree}
  {before after : List Tree} {gs q : List Frame}

/-- Something clean stands in the hole of frames, in a context like the outermost one if no
function is around it. -/
theorem exists_clean (h : Minimal T t) {fs : List Frame} {u : Tree} (hpos : Positions fs)
    (ht : plugAll fs u = t) (hu : u.isLeaf = false)
    (hfs : n = .nothing ∨ ∀ f ∈ fs, f.isBoundary = false) :
    ∃ c, Clean c u ∧ n.met c = n.met {} := by
  rw [← List.append_nil fs] at hpos ht
  refine Clean.holes hpos (show FitsAt false none _ from ht ▸ h.isFit) hu hfs ?_
  rw [List.append_nil] at ht
  exact ht ▸ h.clean

/-- A node that may stand where it is lifted to cannot be lifted. -/
theorem not_lifts_needs (h : Minimal T t) (hneeds : Needs n (.node k fields))
    (hpos : Positions (gs ++ q)) (ht : plugAll (gs ++ q) (.node k fields) = t)
    (hk : k.isInert = true) (hT : (Tree.node k fields).contains T = true)
    (hgs : n = .nothing ∨ ∀ f ∈ gs, f.isBoundary = false) (hne : gs ≠ []) (hq : q ≠ [])
    (v : Tree) : ¬ Lifts k (.node k fields) (holeTypeOf false none q) gs v := by
  refine h.not_lifts hpos ht hk hT hne hq ?_ v
  rintro is hs w rfl hw c c' hc hu
  rw [List.append_assoc] at hpos ht
  have hpassed : n = .nothing ∨ ∀ f ∈ is, f.isBoundary = false :=
    hgs.imp_right fun hb f hf => hb f (List.mem_append_left _ hf)
  obtain ⟨inner, hinner, hmet⟩ :=
    Clean.holes hpos (show FitsAt false none _ from ht ▸ h.isFit) rfl hpassed hu
  have hmet' : n.met c' = true := Need.met_eases hc (by rw [← hmet]; exact (hneeds inner).1 hinner)
  rcases hw with rfl | ⟨-, rfl⟩
  · exact (hneeds c').2 hmet'
  · exact (hneeds.expressionStatement c').2 hmet'

/-- Nothing is around a statement but the statements that it is one of. -/
theorem statement_frames (h : Minimal T t) (hl : l.hasStatements)
    (hneeds : Needs n (.node k fields)) (hk : k.isInert = true) (hstatement : k.isStatement = true)
    (hT : (Tree.node k fields).contains T = true)
    (hpos : Positions (gs ++ (statementFrames l ds before after ++ q)))
    (ht : plugAll (gs ++ (statementFrames l ds before after ++ q)) (.node k fields) = t)
    (hgs : n = .nothing ∨ ∀ f ∈ gs, f.isBoundary = false) : gs = [] := by
  by_cases hne : gs = []
  · exact hne
  · refine absurd (Lifts.self ?_)
      (h.not_lifts_needs hneeds hpos ht hk hT hgs hne (by simp [statementFrames]) _)
    rw [holeTypeOf_statement hl]
    exact hstatement

/-- Nothing is around an expression but one expression statement, and the statements that this
is one of. -/
theorem expression_frames (h : Minimal T t) (hl : l.hasStatements)
    (hneeds : Needs n (.node k fields)) (hk : k.isInert = true)
    (hexpression : k.isExpression = true) (hT : (Tree.node k fields).contains T = true)
    (hpos : Positions (gs ++ (statementFrames l ds before after ++ q)))
    (ht : plugAll (gs ++ (statementFrames l ds before after ++ q)) (.node k fields) = t)
    (hgs : n = .nothing ∨ ∀ f ∈ gs, f.isBoundary = false) :
    gs = [.field .expressionStatement [] []] := by
  have hne : gs ≠ [] := by
    rintro rfl
    have hfit := h.fitsAt hpos ht
    rw [List.nil_append, holeTypeOf_statement hl] at hfit
    have hall : Kind.all.all (fun k => !(k.isExpression && k.isStatement)) = true := by
      decide
    have hnot := Kind.forall_of_all hall k
    rw [hexpression, show k.isStatement = true from hfit.1] at hnot
    cases hnot
  -- one of the frames is an expression statement, or the expression could become one
  obtain ⟨f, hf, hoccupant⟩ : ∃ f ∈ gs, f.occupant = some .expressionStatement := by
    by_contra hnone
    push Not at hnone
    refine h.not_lifts_needs hneeds hpos ht hk hT hgs hne (by simp [statementFrames]) _
      (Lifts.statement hexpression ?_ hnone)
    rw [holeTypeOf_statement hl]
    rfl
  obtain ⟨is, hs, rfl⟩ := List.append_of_mem hf
  cases f with
  | item b a => cases hoccupant
  | field m b a =>
    cases hoccupant
    rw [List.append_assoc, List.cons_append] at hpos ht
    obtain ⟨rfl, rfl⟩ : b = [] ∧ a = [] := by
      rw [plugAll_append] at ht
      obtain ⟨v, hv, -⟩ := (fit_one rfl rfl).1 (FitsAt.isFit (h.fitsAt hpos.right.tail ht))
      cases b with
      | nil => exact ⟨rfl, (List.cons.inj hv).2⟩
      | cons b bs => simp at hv
    -- its hole takes the expression, so nothing is in between
    have his : is = [] := by
      by_cases his : is = []
      · exact his
      · refine absurd (Lifts.self ?_) (h.not_lifts_needs hneeds hpos ht hk hT ?_ his (by simp) _)
        · rw [isExpression_eq] at hexpression
          exact hexpression
        · exact hgs.imp_right fun hb f hf => hb f (List.mem_append_left _ hf)
    subst his
    have hhs : hs = [] := by
      refine h.statement_frames hl hneeds.expressionStatement rfl rfl ?_ hpos.tail ht ?_
      · rw [Tree.contains_node, List.any_cons, hT, Bool.true_or, Bool.or_true]
      · exact hgs.imp_right fun hb f hf => hb f (by simp [hf])
    rw [hhs, List.nil_append]

/-- A statement with the node has no others and no directives beside it. -/
theorem statement_alone (h : Minimal T t) (hl : l.hasStatements) {y : Tree}
    (hy : y.contains T = true) (hpos : Positions (statementFrames l ds before after ++ q))
    (ht : plugAll (statementFrames l ds before after ++ q) y = t) :
    t = plugAll q (.node l [.list [], .list [y]]) := by
  have hplain : l ≠ .templateExpression ∧ l ≠ .variableDeclaration := by
    rcases hl with rfl | rfl <;> exact ⟨nofun, nofun⟩
  replace ht : plugAll (.field l [ds] [] :: q) (.list (before ++ y :: after)) = t := ht
  have hitems : before ++ y :: after = [y] := by
    refine h.items_eq hpos.tail ht ?_ (by simp) hy
    intro f hf
    cases hf
    simpa [Frame.occupant] using hplain
  rw [hitems] at ht
  obtain ⟨ds', ss, heq, -⟩ :=
    (fieldsFit_of_hasStatements hl).1 (FitsAt.isFit (h.fitsAt hpos.tail.tail ht))
  obtain ⟨rfl, -⟩ := List.cons.inj heq
  replace ht : plugAll (.field l [] [.list [y]] :: q) (.list ds') = t := ht
  have hds : ds' = [] := by
    refine h.items_eq_nil (.cons ?_ hpos.tail.tail) ht ?_
      (occursAround_field q List.mem_cons_self (by simp [hy]))
    · rcases hl with rfl | rfl <;> rfl
    · intro f hf
      cases hf
      simpa [Frame.occupant] using hplain
  rw [← ht, hds]
  rfl

/-! ## Nodes that need nothing -/

end Minimal

/-- The script of one statement. -/
def scriptOf (statement : Tree) : Tree := .node .script [.list [], .list [statement]]

namespace Minimal

variable {T : Kind} {t : Tree} {k : Kind} {fields : List Tree}

/-- In a script a node of an inert kind is in one of the statements. -/
theorem exists_scriptFrames (h : Minimal T t) (hroot : t.isKind .script = true)
    (hk : k.isInert = true) {fs : List Frame} (hpos : Positions fs)
    (ht : plugAll fs (.node k fields) = t) :
    ∃ gs ds before after, fs = gs ++ (statementFrames .script ds before after ++ []) := by
  cases t with
  | node l us =>
    obtain rfl : l = .script := Option.some.inj (beq_iff_eq.1 hroot)
    have hne : fs ≠ [] := by
      rintro rfl
      cases ht
      cases hk
    have hdirective : k ≠ .directive := by
      rintro rfl
      cases hk
    obtain ⟨gs, ds, before, after, rfl⟩ :=
      exists_statementFrames (.inl rfl) hpos hne hdirective h.isFit ht
    exact ⟨gs, ds, before, after, by rw [List.append_nil]⟩
  | _ => cases hroot

/-- A statement that needs nothing is all there is. -/
theorem eq_script_statement (h : Minimal T t) (hroot : t.isKind .script = true)
    (hneeds : Needs .nothing (.node k fields)) (hk : k.isInert = true)
    (hstatement : k.isStatement = true) (hT : (Tree.node k fields).contains T = true)
    {fs : List Frame} (hpos : Positions fs) (ht : plugAll fs (.node k fields) = t) :
    t = scriptOf (.node k fields) := by
  obtain ⟨gs, ds, before, after, rfl⟩ := h.exists_scriptFrames hroot hk hpos ht
  obtain rfl := h.statement_frames (.inl rfl) hneeds hk hstatement hT hpos ht (.inl rfl)
  exact h.statement_alone (.inl rfl) hT hpos ht

/-- An expression that needs nothing is all there is. -/
theorem eq_script_expression (h : Minimal T t) (hroot : t.isKind .script = true)
    (hneeds : Needs .nothing (.node k fields)) (hk : k.isInert = true)
    (hexpression : k.isExpression = true) (hT : (Tree.node k fields).contains T = true)
    {fs : List Frame} (hpos : Positions fs) (ht : plugAll fs (.node k fields) = t) :
    t = scriptOf (.node .expressionStatement [.node k fields]) := by
  obtain ⟨gs, ds, before, after, rfl⟩ := h.exists_scriptFrames hroot hk hpos ht
  obtain rfl := h.expression_frames (.inl rfl) hneeds hk hexpression hT hpos ht (.inl rfl)
  have hES : (Tree.node .expressionStatement [.node k fields]).contains T = true := by
    rw [Tree.contains_node, List.any_cons, hT, Bool.true_or, Bool.or_true]
  exact h.statement_alone (.inl rfl) hES hpos.tail ht

end Minimal

end Whittle
