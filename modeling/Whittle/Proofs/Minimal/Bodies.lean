import Whittle.Proofs.Minimal.Functions

/-!
# The function around a node

In a minimal program for `return` or `await` the innermost function around the node has no other
statement, no directive, and nothing in between. Only an arrow function may have the awaiting
expression itself as its body.
-/

namespace Whittle

open Grammar Whittle.Language

/-! ## Between a statement and its function -/

/-- Whether a node of the kind stands among statements, or is a part of one in which there are
statements. -/
def Kind.isStatementPart : Kind → Bool
  | block | blockStatement | catchClause | doWhileStatement | forStatement | ifStatement
  | labeledStatement | returnStatement | switchCase | switchDefault | switchStatement
  | switchStatementWithDefault | tryCatchStatement | tryFinallyStatement | whileStatement => true
  | _ => false

/-- What is around a part of a statement is another one, a program or the body of a function. -/
theorem holders_of_isStatementPart {k : Kind} (hk : k.isStatementPart = true) :
    (∀ l i, (l, i) ∈ k.holders → l.isStatementPart = true ∧ l.isFunctionPart i = false) ∧
    ∀ l i, (l, i) ∈ k.listHolders → (l.isStatementPart = true ∧ l.isFunctionPart i = false) ∨
      i = 1 ∧ (l.hasStatements ∨ l = .esModule) := by
  have hall : Kind.all.all (fun k => !k.isStatementPart ||
      k.holders.all (fun e => e.1.isStatementPart && !e.1.isFunctionPart e.2) &&
      k.listHolders.all fun e => e.1.isStatementPart && !e.1.isFunctionPart e.2 ||
        e.2 == 1 && (e.1 == .script || e.1 == .functionBody || e.1 == .esModule)) = true := by
    decide
  have hthis := Kind.forall_of_all hall k
  simp only [hk, Bool.not_true, Bool.false_or, Bool.and_eq_true, List.all_eq_true] at hthis
  refine ⟨fun l i hmem => by simpa using hthis.1 _ hmem, fun l i hmem => ?_⟩
  simpa [Kind.hasStatements] using hthis.2 _ hmem

section Script

variable {t : Tree}

/-- In a script a part of a statement is in one of the statements of the innermost function or
of the script itself. -/
theorem exists_bodyFrames (hroot : t.isKind .script = true) (h : t.IsFit false)
    {fs : List Frame} {k : Kind} {fields : List Tree} (hk : k.isStatementPart = true)
    (hpos : Positions fs) (ht : plugAll fs (.node k fields) = t) :
    ∃ gs l ds before after q, fs = gs ++ (statementFrames l ds before after ++ q) ∧
      l.hasStatements ∧ ∀ f ∈ gs, f.isBoundary = false := by
  have hne : fs ≠ [] := by
    rintro rfl
    subst ht
    obtain rfl := Option.some.inj (beq_iff_eq.1 hroot)
    cases hk
  obtain ⟨hfields, hlists⟩ := holders_of_isStatementPart hk
  have hfit : FitsAt false none (plugAll fs (.node k fields)) := ht ▸ h
  rcases exists_holder hpos hne hfit with
    ⟨l, before, after, q, rfl, hmem⟩ | ⟨b, a, l, before, after, q, rfl, hmem⟩
  · -- the field of a statement
    obtain ⟨hl, hboundary⟩ := hfields _ _ hmem
    obtain ⟨gs, m, ds, b, a, q', rfl, hm, hgs⟩ := exists_bodyFrames hroot h hl hpos.tail ht
    exact ⟨_ :: gs, m, ds, b, a, q', rfl, hm, List.forall_mem_cons.2 ⟨hboundary, hgs⟩⟩
  · rcases hlists _ _ hmem with ⟨hl, hboundary⟩ | ⟨hlength, hl⟩
    · -- a list of statements in a statement
      obtain ⟨gs, m, ds, b', a', q', rfl, hm, hgs⟩ :=
        exists_bodyFrames hroot h hl hpos.tail.tail ht
      refine ⟨_ :: _ :: gs, m, ds, b', a', q', rfl, hm, ?_⟩
      exact List.forall_mem_cons.2 ⟨rfl, List.forall_mem_cons.2 ⟨hboundary, hgs⟩⟩
    · have hprogram : l.hasStatements := by
        rcases hl with hl | rfl
        · exact hl
        · cases (@root_eq t _ [.item b a] q (.field .esModule before after) hroot h hpos ht
            (.inr rfl)).1
      obtain ⟨ds, rfl⟩ := List.length_eq_one_iff.1 hlength
      obtain ⟨_, _, heq, -⟩ := (fieldsFit_of_hasStatements hprogram).1
        (FitsAt.isFit (hfit.holeAll q hpos.tail.tail))
      obtain ⟨-, heq⟩ := List.cons.inj heq
      obtain ⟨-, rfl⟩ := List.cons.inj heq
      exact ⟨[], l, ds, b, a, q, rfl, hprogram, nofun⟩
termination_by fs.length

/-- The body of a function is in a function. -/
theorem exists_owner (hroot : t.isKind .script = true) (h : t.IsFit false) {fs : List Frame}
    {fields : List Tree} (hpos : Positions fs)
    (ht : plugAll fs (.node .functionBody fields) = t) :
    ∃ isAsync f q, fs = f :: q ∧ OwnsBody isAsync f := by
  have hne : fs ≠ [] := by
    rintro rfl
    subst ht
    cases hroot
  have hfit : FitsAt false none (plugAll fs (.node .functionBody fields)) := ht ▸ h
  have hholders : Kind.functionBody.holders = [(.functionDeclaration, 4),
      (.functionExpression, 4), (.arrowExpression, 2), (.method, 4), (.getter, 1),
      (.setter, 2)] ∧ Kind.functionBody.listHolders = [] := by
    decide
  rcases exists_holder hpos hne hfit with
    ⟨l, before, after, q, rfl, hmem⟩ | ⟨b, a, l, before, after, q, rfl, hmem⟩
  · have hnode := FitsAt.isFit (hfit.holeAll q hpos.tail)
    rw [hholders.1] at hmem
    simp only [List.mem_cons, Prod.mk.injEq, List.not_mem_nil, or_false] at hmem
    rcases hmem with ⟨rfl, hlength⟩ | ⟨rfl, hlength⟩ | ⟨rfl, hlength⟩ | ⟨rfl, hlength⟩ |
      ⟨rfl, hlength⟩ | ⟨rfl, hlength⟩
    · obtain ⟨a, b, c, d, e, heq, ha, -⟩ := (fit_five rfl rfl).1 hnode
      obtain ⟨hbefore, -, hafter⟩ := split_fields heq
      rw [hlength] at hbefore hafter
      obtain rfl : before = [a, b, c, d] := hbefore
      obtain rfl : after = [] := hafter
      obtain ⟨isAsync, rfl⟩ := fitsType_boolean.1 ha
      exact ⟨isAsync, _, q, rfl, .declaration ..⟩
    · obtain ⟨a, b, c, d, e, heq, ha, -⟩ := (fit_five rfl rfl).1 hnode
      obtain ⟨hbefore, -, hafter⟩ := split_fields heq
      rw [hlength] at hbefore hafter
      obtain rfl : before = [a, b, c, d] := hbefore
      obtain rfl : after = [] := hafter
      obtain ⟨isAsync, rfl⟩ := fitsType_boolean.1 ha
      exact ⟨isAsync, _, q, rfl, .expression ..⟩
    · obtain ⟨a, b, c, heq, ha, -⟩ := (fit_three rfl rfl).1 hnode
      obtain ⟨hbefore, -, hafter⟩ := split_fields heq
      rw [hlength] at hbefore hafter
      obtain rfl : before = [a, b] := hbefore
      obtain rfl : after = [] := hafter
      obtain ⟨isAsync, rfl⟩ := fitsType_boolean.1 ha
      exact ⟨isAsync, _, q, rfl, .arrow ..⟩
    · obtain ⟨a, b, c, d, e, heq, ha, -⟩ := (fit_five rfl rfl).1 hnode
      obtain ⟨hbefore, -, hafter⟩ := split_fields heq
      rw [hlength] at hbefore hafter
      obtain rfl : before = [a, b, c, d] := hbefore
      obtain rfl : after = [] := hafter
      obtain ⟨isAsync, rfl⟩ := fitsType_boolean.1 ha
      exact ⟨isAsync, _, q, rfl, .method ..⟩
    · obtain ⟨a, b, heq, -⟩ := (fit_two rfl rfl).1 hnode
      obtain ⟨hbefore, -, hafter⟩ := split_fields heq
      rw [hlength] at hbefore hafter
      obtain rfl : before = [a] := hbefore
      obtain rfl : after = [] := hafter
      exact ⟨false, _, q, rfl, .getter ..⟩
    · obtain ⟨a, b, c, heq, -⟩ := (fit_three rfl rfl).1 hnode
      obtain ⟨hbefore, -, hafter⟩ := split_fields heq
      rw [hlength] at hbefore hafter
      obtain rfl : before = [a, b] := hbefore
      obtain rfl : after = [] := hafter
      exact ⟨false, _, q, rfl, .setter ..⟩
  · rw [hholders.2] at hmem
    cases hmem

end Script

/-! ## The only statement -/

theorem isLeaf_plugAll (fs : List Frame) {u : Tree} (hu : u.isLeaf = false) :
    (plugAll fs u).isLeaf = false := by
  induction fs generalizing u with
  | nil => exact hu
  | cons f fs ih => exact ih (isLeaf_plug f u)

namespace Minimal

variable {t : Tree}

theorem needs_return : Needs .function (.node .returnStatement [.absent]) := by
  intro c
  rw [clean_leaves (by simp [Tree.isLeaf])]
  show some (EarlyError.when (!c.inFunction) _) = some [] ↔ c.inFunction = true
  rw [Option.some_inj, EarlyError.when_eq_nil, Bool.not_eq_false']

theorem needs_await :
    Needs .async (.node .awaitExpression [.node .literalNullExpression []]) := by
  intro c
  have hnull : Clean c.inherited (.node .literalNullExpression []) := rfl
  rw [clean_one rfl rfl, and_iff_left hnull]
  show some (EarlyError.when (!c.isAsync) _) = some [] ↔ c.isAsync = true
  rw [Option.some_inj, EarlyError.when_eq_nil, Bool.not_eq_false']

/-- The function around the `return` of a minimal script has no other statement. -/
theorem exists_returnBody (h : Minimal .returnStatement t) (hroot : t.isKind .script = true) :
    ∃ isAsync f q, OwnsBody isAsync f ∧ Positions (f :: q) ∧
      plugAll (f :: q) (bodyOf (.node .returnStatement [.absent])) = t := by
  obtain ⟨fs, fields, hfs, ht⟩ := exists_frames_of_contains
    (show FitsAt false none t from h.isFit) h.contains
  obtain ⟨e, rfl, -⟩ := (fit_one rfl rfl).1 (FitsAt.isFit (h.fitsAt hfs ht))
  have hpos : Positions (.field .returnStatement [] [] :: fs) := .cons rfl hfs
  obtain rfl : e = .absent :=
    h.field_eq_absent hpos ht rfl rfl (fun _ => trivial) (occursAround_kind _ _ _ _)
  obtain ⟨gs, l, ds, before, after, q, rfl, hl, hgs⟩ := exists_bodyFrames hroot h.isFit rfl hfs ht
  rcases hl with rfl | rfl
  · -- it would be in no function
    obtain rfl : q = [] := by
      have hpos' : Positions ((gs ++ [.item before after]) ++ .field .script [ds] [] :: q) := by
        simpa [statementFrames] using hfs
      have ht' : plugAll ((gs ++ [.item before after]) ++ .field .script [ds] [] :: q)
          (.node .returnStatement [.absent]) = t := by
        simpa [statementFrames] using ht
      exact (root_eq hroot h.isFit hpos' ht' (.inl rfl)).2
    have hnone : ∀ f ∈ gs ++ (statementFrames .script ds before after ++ []),
        f.isBoundary = false := by
      simp only [statementFrames, List.append_nil, List.mem_append, List.mem_cons,
        List.not_mem_nil, or_false]
      rintro f (hf | rfl | rfl)
      · exact hgs f hf
      · rfl
      · rfl
    obtain ⟨c, hc, hmet⟩ := h.exists_clean (n := .function) hfs ht rfl (.inr hnone)
    cases hmet.symm.trans ((needs_return c).1 hc)
  · obtain rfl := h.statement_frames (.inr rfl) needs_return rfl rfl rfl hfs ht (.inr hgs)
    have hbody := h.statement_alone (.inr rfl) rfl hfs ht
    have hq : Positions q := hfs.right.right
    obtain ⟨isAsync, f, q, rfl, hf⟩ := exists_owner hroot h.isFit hq hbody.symm
    exact ⟨isAsync, f, q, hf, hq, hbody.symm⟩

/-- What awaits in an asynchronous function is its body, or its body is one of directives and
statements. -/
theorem isArrow_of_body {f : Frame} {q : List Frame} {k : Kind} {fields : List Tree}
    (hf : OwnsBody true f) (hbody : k ≠ .functionBody)
    (h : FitsAt false (holeTypeOf false none (f :: q)) (.node k fields)) :
    ∃ ps, f = .field .arrowExpression [.bool true, ps] [] := by
  cases hf with
  | arrow _ ps => exact ⟨ps, rfl⟩
  | _ =>
    have htakes : (PositionType.union [.named Kind.functionBody]).takes k = true := h.1
    exact absurd (by simpa [PositionType.takes] using htakes) hbody

/-- The function around the `await` of a minimal script has no other statement, or it is an arrow
function whose body awaits. -/
theorem exists_awaitBody (h : Minimal .awaitExpression t) :
    ∃ f q, OwnsBody true f ∧ Positions (f :: q) ∧
      (plugAll (f :: q) (bodyOf (.node .expressionStatement
          [.node .awaitExpression [.node .literalNullExpression []]])) = t ∨
        ∃ ps, f = .field .arrowExpression [.bool true, ps] [] ∧
          plugAll (f :: q) (.node .awaitExpression [.node .literalNullExpression []]) = t) := by
  obtain ⟨fs, fields, hfs, ht⟩ := exists_frames_of_contains
    (show FitsAt false none t from h.isFit) h.contains
  obtain ⟨e, rfl, he⟩ := (fit_one rfl rfl).1 (FitsAt.isFit (h.fitsAt hfs ht))
  obtain ⟨k, us, rfl, hk, -⟩ := fitsType_expression.1 he
  have hawait : Positions (.field .awaitExpression [] [] :: fs) := .cons rfl hfs
  rw [h.eq_null hawait ht hk rfl (occursAround_kind _ _ _ _)] at ht
  -- the innermost function is asynchronous
  cases hfind : fs.find? Frame.isBoundary with
  | none =>
    have hnone : ∀ f ∈ fs, f.isBoundary = false := by
      simpa [List.find?_eq_none] using hfind
    obtain ⟨c, hc, hmet⟩ := h.exists_clean (n := .async) hfs ht rfl (.inr hnone)
    cases hmet.symm.trans ((needs_await c).1 hc)
  | some f =>
  obtain ⟨hf, gs, q, rfl, hgs⟩ := List.find?_eq_some_iff_append.1 hfind
  replace hgs : ∀ g ∈ gs, g.isBoundary = false := by simpa using hgs
  have hfit : FitsAt false none (plugAll (gs ++ f :: q) _) := ht ▸ h.isFit
  have hbody : OwnsBody true f := by
    rw [plugAll_append] at ht
    have hpart := FitsAt.holeAll q (show FitsAt false none _ from ht ▸ h.isFit) hfs.right.tail
    obtain ⟨c, hc, -⟩ := h.exists_clean (n := .nothing) hfs.right.tail ht (isLeaf_plug f _)
      (.inl rfl)
    obtain ⟨around, haround, -, howns⟩ := hc.hole hpart (isLeaf_plugAll gs rfl) fun hitem => by
      cases f with
      | field k before after => cases hitem
      | item before after => cases hf
    obtain ⟨inner, hinner, hmet⟩ :=
      Clean.holes (n := .async) hfs hfit rfl (.inr hgs) haround
    exact howns hf (hmet.symm.trans ((needs_await inner).1 hinner))
  refine ⟨f, q, hbody, hfs.right, ?_⟩
  have hpart := FitsAt.holeAll (f :: q) (plugAll_append gs (f :: q) _ ▸ hfit) hfs.right
  obtain rfl | ⟨is, g, rfl⟩ := gs.eq_nil_or_concat
  · obtain ⟨ps, rfl⟩ := isArrow_of_body (k := .awaitExpression) hbody nofun hpart
    exact .inr ⟨ps, rfl, ht⟩
  rw [List.concat_eq_append] at *
  obtain ⟨m, vs, hnode⟩ : ∃ m vs, plugAll (is ++ [g])
      (.node .awaitExpression [.node .literalNullExpression []]) = .node m vs := by
    cases g with
    | field m before after => exact ⟨_, _, plugAll_concat ..⟩
    | item before after =>
      rw [plugAll_concat] at hpart
      obtain ⟨_, htype, -⟩ := FitsAt.items hpart
      cases hbody <;> cases htype
  rw [hnode] at hpart
  by_cases hm : m = .functionBody
  · subst hm
    obtain ⟨hs, ds, before, after, heq⟩ :=
      exists_statementFrames (k := .awaitExpression) (.inr rfl) hfs.left (by simp) nofun
        hpart.isFit hnode
    rw [heq, List.append_assoc] at hfs ht
    have hinner : ∀ g ∈ hs, g.isBoundary = false := fun g hg =>
      hgs g (by rw [heq]; exact List.mem_append_left _ hg)
    obtain rfl := h.expression_frames (.inr rfl) needs_await rfl rfl rfl hfs ht (.inr hinner)
    exact .inl (h.statement_alone (.inr rfl) rfl hfs.tail ht).symm
  · -- it would be lifted to where the body is
    obtain ⟨ps, rfl⟩ := isArrow_of_body hbody hm hpart
    exact absurd (.self rfl) (h.not_lifts_needs needs_await hfs ht rfl rfl (.inr hgs) (by simp)
      (by simp) (.node .awaitExpression [.node .literalNullExpression []]))

end Minimal

end Whittle
