import Whittle.Proofs.LevelOrder
import Whittle.Proofs.Minimal.Need
import Whittle.Proofs.Validity.Defined
import Whittle.Proofs.Validity.Monotone

/-!
# Deletions

Edits that only take away: an item is dropped from a list, or a sentinel takes the place of a
node. A program stays valid through them, for what is left is a trimmed form of it. The two
exceptions lie in lists whose items depend on each other: the parts of a template, which
alternate, and the declarators of a declaration, the last of which has to stay.
-/

namespace Whittle

open Grammar Whittle.Language

/-- What fits in the hole of a valid program and makes a trimmed form of it makes a valid
program. -/
theorem isValid_of_trims {fs : List Frame} {u v : Tree} (hfs : Positions fs)
    (h : (plugAll fs u).isValid = true) (hfit : FitsAt false (holeTypeOf false none fs) v)
    (htrims : Trims (plugAll fs u) (plugAll fs v)) : (plugAll fs v).isValid = true := by
  obtain ⟨hu, hclean⟩ := isValid_iff.1 h
  refine isValid_iff.2 ⟨?_, htrims.asClean {} {} (Eases.refl _ _) hclean⟩
  exact FitsAt.plugAll fs (show FitsAt false none _ from hu) hfs hfit

/-- In a valid program a node around a hole breaks no rule. -/
theorem exists_nodeErrors_eq_nil {k : Kind} {before after : List Tree} {gs : List Frame}
    {v : Tree} (hgs : Positions gs)
    (h : (plugAll (.field k before after :: gs) v).isValid = true) :
    ∃ c, nodeErrors c k (before ++ v :: after) = some [] := by
  obtain ⟨hfit, hclean⟩ := isValid_iff.1 h
  rw [plugAll_cons, ← List.append_nil gs] at hfit
  obtain ⟨c, hc, -⟩ := @Clean.holes _ false .nothing gs [] _ (by rwa [List.append_nil])
    (show FitsAt false none _ from hfit) rfl (.inl rfl) hclean
  exact ⟨c, (clean_node.1 hc).1⟩

/-- The elements of a template are the second of its fields. -/
theorem split_template {loose : Bool} {before after items : List Tree}
    (h : FieldsFit loose .templateExpression Kind.templateExpression.slots
      (before ++ .list items :: after)) : ∃ tag, before = [tag] ∧ after = [] := by
  obtain ⟨a, b, heq, ha, -⟩ := (fit_two rfl rfl).1 h
  match before with
  | [] =>
    cases heq
    rcases (fitsType_maybe rfl).1 ha with hnone | ⟨_, _, hnode, -⟩
    · cases hnone
    · cases hnode
  | [_] =>
    cases heq
    exact ⟨a, rfl, rfl⟩
  | _ :: _ :: _ => simp at heq

/-- The declarators of a declaration are the second of its fields. -/
theorem split_variableDeclaration {loose : Bool} {before after items : List Tree}
    (h : FieldsFit loose .variableDeclaration Kind.variableDeclaration.slots
      (before ++ .list items :: after)) : ∃ word, before = [word] ∧ after = [] := by
  obtain ⟨a, b, heq, ha, -⟩ := (fit_two rfl rfl).1 h
  match before with
  | [] =>
    cases heq
    have hleaf := isLeaf_of_admits (v := .list items) rfl ha
    cases hleaf
  | [_] =>
    cases heq
    exact ⟨a, rfl, rfl⟩
  | _ :: _ :: _ => simp at heq

/-! ## Items -/

/-- A list without one of its items keeps what its owner has to keep, if the item may be
dropped. -/
theorem Frame.keeps_drop {f : Frame} {before after : List Tree} {u : Tree}
    (h : mayDrop f.occupant (before ++ u :: after) = true) :
    f.Keeps (.list (before ++ u :: after)) (.list (before ++ after)) := by
  cases f with
  | item _ _ => trivial
  | field k bs as =>
    show Kept k _ _
    unfold Kept
    split
    · simp [mayDrop, Frame.occupant] at h
    · rename_i heq heq'
      intro hnil
      obtain _ | ⟨b, _ | ⟨b', bs⟩⟩ := bs
      · cases heq
        cases heq'
        exact hnil
      · cases heq
        cases heq'
        obtain ⟨rfl, rfl⟩ := List.append_eq_nil_iff.1 hnil
        simp [mayDrop, Frame.occupant] at h
      · simp at heq
    · rename_i heq heq'
      cases bs with
      | nil =>
        cases heq
        cases heq'
        rfl
      | cons b bs => simp at heq
    · trivial

/-- A program stays valid when an item is dropped that may be dropped. -/
theorem isValid_dropped {fs : List Frame} {before after : List Tree} {u : Tree}
    (hfs : Positions fs) (h : (plugAll fs (.list (before ++ u :: after))).isValid = true)
    (hmay : mayDrop (fs.head?.bind Frame.occupant) (before ++ u :: after) = true) :
    (plugAll fs (.list (before ++ after))).isValid = true := by
  have hlist := FitsAt.holeAll fs (show FitsAt false none _ from (isValid_iff.1 h).1) hfs
  obtain ⟨type, htype, hitems⟩ := hlist.items
  refine isValid_of_trims hfs h ?_ (Trims.plugAll ?_ fun f hf => ?_)
  · rw [htype]
    refine ⟨type, rfl, itemsFit_iff.2 fun w hw => hitems w ?_⟩
    simp only [List.mem_append, List.mem_cons] at hw ⊢
    tauto
  · exact .list ((TrimsItems.refl before).append (.drop (.refl after)))
  · rw [Option.mem_def.1 hf] at hmay
    exact Frame.keeps_drop hmay

/-- An item that the owner of a list has to keep cannot be dropped from a valid program. -/
theorem isValid_drop {k : Kind} {before after items rest : List Tree} {gs : List Frame}
    (hgs : Positions gs) (h : (plugAll (.field k before after :: gs) (.list items)).isValid = true)
    (hfit : FieldsFit false k k.slots (before ++ .list items :: after))
    (hkeep : mayDrop (some k) items = false) (hrest : rest ∈ withoutEach items) :
    (plugAll (.field k before after :: gs) (.list rest)).isValid = false := by
  obtain ⟨ys, t, zs, rfl, rfl⟩ := mem_withoutEach.1 hrest
  cases hvalid : (plugAll (.field k before after :: gs) (.list (ys ++ zs))).isValid with
  | false => rfl
  | true =>
    obtain ⟨c, hc⟩ := exists_nodeErrors_eq_nil hgs h
    obtain ⟨c', hc'⟩ := exists_nodeErrors_eq_nil hgs hvalid
    obtain rfl | ⟨rfl, hone⟩ : k = .templateExpression ∨
        k = .variableDeclaration ∧ (ys ++ t :: zs).length = 1 := by
      simp only [mayDrop, bne, Bool.and_eq_false_iff, Bool.not_eq_false', beq_iff_eq,
        Option.some.injEq, Bool.and_eq_true] at hkeep
      exact hkeep
    · -- the number of elements would be even
      obtain ⟨tag, rfl, rfl⟩ := split_template hfit
      have herrors : Rules.template (ys ++ t :: zs) = [] := Option.some.inj hc
      have herrors' : Rules.template (ys ++ zs) = [] := Option.some.inj hc'
      rw [Rules.template, List.append_eq_nil_iff, EarlyError.when_eq_nil] at herrors herrors'
      have hodd := herrors.1
      have hodd' := herrors'.1
      simp only [List.length_append, List.length_cons, beq_eq_false_iff_ne] at hodd hodd'
      omega
    · -- no declarator would be left
      obtain ⟨word, rfl, rfl⟩ := split_variableDeclaration hfit
      rw [List.length_append, List.length_cons] at hone
      obtain rfl := List.eq_nil_of_length_eq_zero (show ys.length = 0 by omega)
      obtain rfl := List.eq_nil_of_length_eq_zero (show zs.length = 0 by omega)
      cases word with
      | str w =>
        have herrors : Rules.variableDeclaration w [] = some [] := hc'
        unfold Rules.variableDeclaration at herrors
        split at herrors <;> cases herrors
      | _ => cases hc'

/-! ## Replacements -/

/-- A value that breaks no rule in any context. -/
def Closed (v : Tree) : Prop := ∀ c, Clean c v

theorem Closed.asClean {v : Tree} (h : Closed v) (u : Tree) : AsClean u v :=
  fun _ c' _ _ => h c'

/-- Where a node of an inert kind fits, nothing is kept of what it replaces. -/
theorem keeps_of_inert {f : Frame} {fs : List Frame} {k l : Kind} {us vs : List Tree}
    (hf : f.isPosition = true) (hl : l.isInert = true)
    (hfit : FitsAt false (holeTypeOf false none (f :: fs)) (.node l vs)) :
    f.Keeps (.node k us) (.node l vs) := by
  cases f with
  | item before after => trivial
  | field m before after =>
    show Kept m _ _
    unfold Kept
    split
    · rename_i heq heq'
      obtain _ | ⟨b, _ | ⟨b', bs⟩⟩ := before
      · cases heq
        cases heq'
        rfl
      · cases heq
      · simp at heq
    · rename_i heq heq'
      obtain _ | ⟨b, _ | ⟨b', bs⟩⟩ := before
      · cases heq
        cases heq'
        exact id
      · cases heq
      · simp at heq
    · rename_i heq heq'
      cases before with
      | cons b bs => simp at heq
      | nil =>
        -- only a declaration fits there
        have htakes : (PositionType.union [.named Kind.variableDeclaration]).takes l = true :=
          hfit.1
        simp only [PositionType.takes, List.contains_cons, List.contains_nil, Bool.or_false,
          beq_iff_eq, Head.named.injEq] at htakes
        rw [htakes] at hl
        cases hl
    · trivial

/-- To put a node of an inert kind where it fits is to trim, if it is as clean as what stood
there. -/
theorem trims_of_inert {fs : List Frame} {k l : Kind} {us vs : List Tree} (hfs : Positions fs)
    (hk : k.isReplaceable = true) (hl : l.isInert = true)
    (hclean : AsClean (.node k us) (.node l vs))
    (hfit : FitsAt false (holeTypeOf false none fs) (.node l vs)) :
    Trims (plugAll fs (.node k us)) (plugAll fs (.node l vs)) := by
  refine Trims.plugAll (.swap hk hl hclean) fun f hf => ?_
  cases fs with
  | nil => cases hf
  | cons g gs =>
    cases hf
    exact keeps_of_inert (hfs _ List.mem_cons_self) hl hfit

/-- What stands where a node of an inert kind fits may be replaced, or is a part of a
template. -/
theorem isReplaceable_of_hole {fs : List Frame} {type : Position} {k l : Kind}
    (h : holeTypeOf false none fs = some type) (hk : k.isInert = true)
    (htakes : type.required.takes k = true) (hl : type.required.takes l = true) :
    l.isReplaceable = true ∨ l = .templateElement := by
  have hall : forallHoleTypes false (fun t =>
      !(Kind.all.any fun k => k.isInert && t.required.takes k) ||
        Kind.all.all fun l => !t.required.takes l || l.isReplaceable || l == .templateElement)
      = true := by decide +kernel
  have hany : (Kind.all.any fun k => k.isInert && type.required.takes k) = true :=
    List.any_eq_true.2 ⟨k, Kind.mem_all k, by simp [hk, htakes]⟩
  have hthis := holds_of_holeType hall h
  rw [hany, Bool.not_true, Bool.false_or] at hthis
  simpa [hl] using Kind.forall_of_all hthis l

/-- The sentinels mean nothing to what is around them and break no rule. -/
theorem sentinel_spec {s : Kind} (hs : s ∈ sentinelKinds) :
    s.isInert = true ∧ Closed (.node s []) := by
  simp only [sentinelKinds, List.mem_cons, List.not_mem_nil, or_false] at hs
  rcases hs with rfl | rfl
  · exact ⟨rfl, fun c => clean_node.2 ⟨rfl, by simp⟩⟩
  · exact ⟨rfl, fun c => clean_node.2 ⟨rfl, by simp⟩⟩

/-- In a list of parts that alternate, the place of a part says whether it is a text. -/
theorem isKind_of_alternation {before after : List Tree} {u : Tree} {i : Nat}
    (h : Rules.alternation i (before ++ u :: after) = []) :
    u.isKind .templateElement = ((i + before.length) % 2 == 0) := by
  induction before generalizing i with
  | nil =>
    rw [List.nil_append, Rules.alternation, List.append_eq_nil_iff, EarlyError.when_eq_nil] at h
    simpa using h.1
  | cons b before ih =>
    rw [List.cons_append, Rules.alternation, List.append_eq_nil_iff] at h
    rw [ih h.2, List.length_cons, Nat.add_assoc, Nat.add_comm 1]

/-- The parts of a template in a valid program alternate. -/
theorem isKind_of_template {before after bs as : List Tree} {gs : List Frame} {u : Tree}
    (hgs : Positions (.field .templateExpression bs as :: gs))
    (h : (plugAll (.item before after :: .field .templateExpression bs as :: gs) u).isValid
      = true) :
    u.isKind .templateElement = (before.length % 2 == 0) := by
  have hfit := FitsAt.holeAll gs (show FitsAt false none _ from (isValid_iff.1 h).1) hgs.tail
  obtain ⟨tag, rfl, rfl⟩ := split_template hfit.isFit
  obtain ⟨c, hc⟩ := exists_nodeErrors_eq_nil hgs.tail h
  have herrors : Rules.template (before ++ u :: after) = [] := Option.some.inj hc
  rw [Rules.template, List.append_eq_nil_iff] at herrors
  simpa using isKind_of_alternation herrors.2

/-- The texts between the other parts of a template are items of its list of parts. -/
theorem exists_template_of_hole {fs : List Frame} {fields : List Tree} (hfs : Positions fs)
    (hne : fs ≠ []) (h : FitsAt false none (plugAll fs (.node .templateElement fields))) :
    ∃ before after bs as gs,
      fs = .item before after :: .field .templateExpression bs as :: gs := by
  rcases exists_holder hfs hne h with ⟨l, bs, as, gs, rfl, hl⟩ |
    ⟨before, after, l, bs, as, gs, rfl, hl⟩
  · have hnone : Kind.holders .templateElement = [] := by decide
    rw [hnone] at hl
    cases hl
  · have hone : Kind.listHolders .templateElement = [(.templateExpression, 1)] := by
      decide
    rw [hone, List.mem_singleton] at hl
    obtain ⟨rfl, -⟩ := Prod.mk.inj hl
    exact ⟨before, after, bs, as, gs, rfl⟩

/-- A program stays valid when a sentinel takes the place of a node, unless the node is one of
the texts of a template. -/
theorem isValid_sentinel {fs : List Frame} {k s : Kind} {fields : List Tree}
    (hfs : Positions fs) (h : (plugAll fs (.node k fields)).isValid = true)
    (hs : s ∈ sentinels (holeTypeOf false none fs) k) :
    (plugAll fs (.node s [])).isValid = true ↔ k ≠ .templateElement := by
  obtain ⟨hs, htakes⟩ := List.mem_filter.1 hs
  obtain ⟨hne, htakes⟩ := Bool.and_eq_true_iff.1 htakes
  obtain ⟨type, htype, htakes⟩ := (Option.any_eq_true _ _).1 htakes
  obtain ⟨hinert, hclosed⟩ := sentinel_spec hs
  have hfit := (isValid_iff.1 h).1
  have hhole := FitsAt.holeAll fs (show FitsAt false none _ from hfit) hfs
  rw [htype] at hhole
  have hrequired := PositionType.required_of_takes htakes
  have hsentinel : FitsAt false (holeTypeOf false none fs) (.node s []) := by
    rw [htype]
    exact ⟨hrequired, (fits_sentinel hs).1⟩
  constructor
  · rintro hvalid rfl
    have hroot : fs ≠ [] := by
      rintro rfl
      cases htype
    obtain ⟨before, after, bs, as, gs, rfl⟩ := exists_template_of_hole hfs hroot hfit
    have his := isKind_of_template hfs.tail hvalid
    rw [← isKind_of_template hfs.tail h] at his
    obtain rfl : s = .templateElement := Option.some.inj (beq_iff_eq.1 (his.trans rfl))
    cases hinert
  · intro hk
    rcases isReplaceable_of_hole htype hinert hrequired hhole.1 with hreplaceable | rfl
    · exact isValid_of_trims hfs h hsentinel
        (trims_of_inert hfs hreplaceable hinert (hclosed.asClean _) hsentinel)
    · exact absurd rfl hk

/-! ## Candidates -/

/-- An edit that drops an item of a list. -/
def Edit.Drops (e : Edit) (t : Tree) : Prop :=
  ∃ before u after, t.get e.path = .ok (.list (before ++ u :: after)) ∧
    e.value = .list (before ++ after)

/-- An edit that puts the sentinel `s` in the place of a node of kind `k`. The declared type of
the position is a union that has the sentinel for a member. -/
def Edit.Blanks (e : Edit) (t : Tree) (k s : Kind) : Prop :=
  (∃ fields, t.get e.path = .ok (.node k fields)) ∧
    s ∈ sentinels (typeAt none t e.path) k ∧ e.value = .node s []

/-- The edits of a position are edits at it or at one around it. -/
theorem PositionEdits.exists_frames {type : Option Position} {fs : List Frame} {w : Tree}
    {es : List Edit} {e : Edit} (hfs : Positions fs)
    (h : PositionEdits type (plugAll fs w) (pathOf fs) es) (he : e ∈ es) :
    ∃ outer v, Positions outer ∧ plugAll outer v = plugAll fs w ∧ pathOf outer = e.path := by
  have hat : e.path = pathOf fs → ∃ outer v, Positions outer ∧ plugAll outer v = plugAll fs w ∧
      pathOf outer = e.path := fun hpath => ⟨fs, w, hfs, rfl, hpath.symm⟩
  cases h with
  | list h =>
    split at he
    · obtain ⟨rest, -, rfl⟩ := List.mem_map.1 he
      exact hat rfl
    · cases he
  | @node k fields r h hr =>
    simp only [List.mem_append] at he
    rcases he with (he | he) | he
    · split at he
      · obtain rfl := List.mem_singleton.1 he
        exact hat rfl
      · cases he
    · cases r with
      | none => cases he
      | some e' =>
        obtain rfl := List.mem_singleton.1 he
        obtain ⟨inner, outer, rfl, -, -, hpath⟩ := encloses_iff.1 hr.1
        exact ⟨outer, plugAll inner w, hfs.right, (plugAll_append _ _ _).symm, hpath.symm⟩
    · obtain ⟨v, -, rfl⟩ := List.mem_map.1 he
      exact hat rfl

/-- What is lifted is a node. -/
theorem LiftsTo.isNode {type : Option Position} {t v : Tree} {p q : Path} {k : Kind}
    {fields : List Tree} (h : LiftsTo type t p q k (.node k fields) v) : v.isNode = true := by
  cases h <;> rfl

/-- An edit of a position that drops an item drops one that may be dropped there. -/
theorem PositionEdits.drops {type : Option Position} {t : Tree} {p : Path} {es : List Edit}
    {e : Edit} (h : PositionEdits type t p es) (he : e ∈ es) (hdrop : e.Drops t) :
    ∃ before u after, e = ⟨p, .list (before ++ after)⟩ ∧
      t.get p = .ok (.list (before ++ u :: after)) ∧
      mayDrop (ownerAt t p) (before ++ u :: after) = true := by
  obtain ⟨before, u, after, hget, hvalue⟩ := hdrop
  cases h with
  | list h =>
    split at he
    · rename_i hmay
      obtain ⟨rest, hrest, rfl⟩ := List.mem_map.1 he
      obtain ⟨bs, x, as, rfl, rfl⟩ := mem_withoutEach.1 hrest
      exact ⟨bs, x, as, rfl, h, hmay⟩
    · cases he
  | @node k fields r h hr =>
    -- the other edits are at a node, or put one somewhere
    have hnode : e.path ≠ p := by
      intro hpath
      rw [hpath, h] at hget
      cases hget
    simp only [List.mem_append] at he
    rcases he with (he | he) | he
    · split at he
      · obtain rfl := List.mem_singleton.1 he
        exact absurd rfl hnode
      · cases he
    · cases r with
      | none => cases he
      | some e' =>
        obtain rfl := List.mem_singleton.1 he
        have hlifted := hr.2.1.isNode
        rw [hvalue] at hlifted
        cases hlifted
    · obtain ⟨v, -, rfl⟩ := List.mem_map.1 he
      exact absurd rfl hnode

/-- The candidates for a valid program that only lack an item of a list are valid, and so are
those with a sentinel in the place of a node, unless the node is one of the texts of a
template. -/
theorem variants_valid_of_deletion {t : Tree} (ht : t.isValid = true) {e : Edit}
    (he : e ∈ (edits none t).items) :
    ∃ c ∈ (variants none t).items, e.apply t = .ok c ∧
      (e.Drops t → c.isValid = true) ∧
      ∀ k s, e.Blanks t k s → (c.isValid = true ↔ k ≠ .templateElement) := by
  have hfit := (isValid_iff.1 ht).1
  have hwhole : (edits none t).Whole fun e => ∃ c, e.apply t = .ok c ∧
      (e.Drops t → c.isValid = true) ∧
      ∀ k s, e.Blanks t k s → (c.isValid = true ↔ k ≠ .templateElement) := by
    refine Series.whole_concat fun series hseries => ?_
    obtain ⟨site, hsite, rfl⟩ := List.mem_map.1 hseries
    obtain ⟨es, heq, hes, -⟩ := siteEdits_eq hfit hsite
    obtain ⟨fs, w, hfs, rfl, -, rfl⟩ := mem_sites_iff.1 hsite
    rw [heq]
    refine Series.whole_ofList fun e he => ?_
    obtain ⟨outer, v, houter, hplug, hpath⟩ := hes.exists_frames hfs he
    have happly : e.apply (plugAll fs w) = .ok (plugAll outer e.value) := by
      rw [← hplug, apply_eq_ok, ← hpath]
      exact replace_plugAll houter _ _
    refine ⟨plugAll outer e.value, happly, fun hdrop => ?_, fun k s hblank => ?_⟩
    · obtain ⟨before, u, after, rfl, hget, hmay⟩ := hes.drops he hdrop
      obtain rfl := Except.ok.inj ((get_plugAll hfs w).symm.trans hget)
      rw [ownerAt_pathOf hfs] at hmay
      rw [← Except.ok.inj ((apply_plugAll hfs _ _).symm.trans happly)]
      exact isValid_dropped hfs ht hmay
    · obtain ⟨⟨fields, hget⟩, hs, hvalue⟩ := hblank
      rw [← hplug, ← hpath, get_plugAll houter] at hget
      cases hget
      rw [← hplug, ← hpath, typeAt_pathOf houter] at hs
      rw [hvalue]
      exact isValid_sentinel houter (hplug ▸ ht) hs
  obtain ⟨c, hc, hvalid⟩ := hwhole.2 e he
  refine ⟨c, Series.mem_mapExcept ?_ he hc, hc, hvalid⟩
  exact (hwhole.mapExcept fun e ⟨c, hc, _⟩ => ⟨c, hc, trivial⟩).1

/-- A labelled loop that evaluates a template of three parts and goes on with the loop. -/
def loopWithTemplate : Tree :=
  .node .script [.list [], .list [.node .labeledStatement [.str "L",
    .node .whileStatement [.node .thisExpression [], .node .blockStatement [.node .block [.list [
      .node .expressionStatement [.node .templateExpression [.absent, .list [
        .node .templateElement [.str "a"], .node .thisExpression [],
        .node .templateElement [.str "b"]]]],
      .node .continueStatement [.str "L"]]]]]]]]

/-- The path of the loop under its label. -/
def loopPath : Path := [.field "statements", .index 0, .field "body"]

/-- The path of the statements in the loop. -/
def loopStatements : Path := loopPath ++ [.field "body", .field "block", .field "statements"]

/-- The path of the last text of the template. -/
def lastText : Path :=
  loopStatements ++ [.index 0, .field "expression", .field "elements", .index 2]

/-- The jump can be dropped from the loop and the loop can be blanked under its label, but not
the last text of the template. -/
theorem variants_valid_of_deletion_loopWithTemplate :
    loopWithTemplate.isValid = true ∧
    (∃ e ∈ (edits none loopWithTemplate).items, e.path = loopStatements ∧
      e.Drops loopWithTemplate ∧ ∃ c ∈ (variants none loopWithTemplate).items,
        e.apply loopWithTemplate = .ok c ∧ c.isValid = true) ∧
    (∃ e ∈ (edits none loopWithTemplate).items, e.path = loopPath ∧
      e.Blanks loopWithTemplate .whileStatement .emptyStatement ∧
      ∃ c ∈ (variants none loopWithTemplate).items,
        e.apply loopWithTemplate = .ok c ∧ c.isValid = true) ∧
    (∃ e ∈ (edits none loopWithTemplate).items, e.path = lastText ∧
      e.Blanks loopWithTemplate .templateElement .literalNullExpression ∧
      ∃ c ∈ (variants none loopWithTemplate).items,
        e.apply loopWithTemplate = .ok c ∧ c.isValid = false) := by
  have ht : loopWithTemplate.isValid = true := by decide +kernel
  have hedit : ∀ {i e}, (edits none loopWithTemplate).items[i]? = some e →
      e ∈ (edits none loopWithTemplate).items := List.mem_of_getElem?
  have hdrop := @hedit 8 ⟨loopStatements, .list [_]⟩ rfl
  have hloop := @hedit 3 ⟨loopPath, .node .emptyStatement []⟩ rfl
  have htext := @hedit 16 ⟨lastText, .node .literalNullExpression []⟩ rfl
  refine ⟨ht, ⟨_, hdrop, rfl, ?_⟩, ⟨_, hloop, rfl, ?_⟩, ⟨_, htext, rfl, ?_⟩⟩
  · have hdrops : Edit.Drops ⟨loopStatements, .list [_]⟩ loopWithTemplate :=
      ⟨[_], _, [], rfl, rfl⟩
    obtain ⟨c, hc, happly, hvalid, -⟩ := variants_valid_of_deletion ht hdrop
    exact ⟨hdrops, c, hc, happly, hvalid hdrops⟩
  · have hblanks : Edit.Blanks ⟨loopPath, .node .emptyStatement []⟩ loopWithTemplate
        .whileStatement .emptyStatement := ⟨⟨_, rfl⟩, by decide, rfl⟩
    obtain ⟨c, hc, happly, -, hvalid⟩ := variants_valid_of_deletion ht hloop
    exact ⟨hblanks, c, hc, happly, (hvalid _ _ hblanks).2 (by decide)⟩
  · have hblanks : Edit.Blanks ⟨lastText, .node .literalNullExpression []⟩ loopWithTemplate
        .templateElement .literalNullExpression := ⟨⟨_, rfl⟩, by decide, rfl⟩
    obtain ⟨c, hc, happly, -, hvalid⟩ := variants_valid_of_deletion ht htext
    exact ⟨hblanks, c, hc, happly, Bool.eq_false_iff.2 fun h => (hvalid _ _ hblanks).1 h rfl⟩

end Whittle
