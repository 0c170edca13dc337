import Whittle.Proofs.Validity.Deletion
import Whittle.Proofs.Levels
import Whittle.Proofs.Search.LocalMinimum
import Whittle.Proofs.Search.Termination

/-!
# Candidates below a path

A search below a path sees less of the tree than a search in all of it: it does not promote
beyond the path, and it does not know what the path leads out of. Nevertheless its candidates are
among those for the whole tree, in the same order. Where it drops an item that would be kept in
the whole tree the result is no valid program.
-/

namespace Whittle.Search

open Grammar Whittle.Language

/-! ## What is accepted -/

/-- The tree after an edit, if it is accepted. -/
def accepted (V : Tree → Bool) (t target : Tree) (path : Path) (e : Edit) : Option Tree :=
  match editedWhole t target path e with
  | .ok c => if V c then some c else none
  | .error _ => none

/-- If all edits come about, what is answered is what is accepted. -/
theorem answered_judged (V : Tree → Bool) {t target : Tree} {path : Path} {es : List Edit}
    (h : ∀ e ∈ es, ∃ c, editedWhole t target path e = .ok c) :
    (judged t target path none es).answered V
      = .ofList (es.filterMap (accepted V t target path)) := by
  induction es with
  | nil => rfl
  | cons e es ih =>
    obtain ⟨c, hc⟩ := h e List.mem_cons_self
    have hrest := ih fun e' he' => h e' (List.mem_cons_of_mem _ he')
    rw [judged, hc, List.filterMap_cons]
    simp only [Feed.answered, accepted, hc]
    cases hV : V c with
    | true =>
      simp only [if_true, Feed.answered, hrest]
      rfl
    | false =>
      simp only [Bool.false_eq_true, if_false]
      exact hrest

/-- An edit of a part as an edit of the tree, in which the part is at the path `p`. -/
def Edit.below (p : Path) (e : Edit) : Edit := ⟨p ++ e.path, e.value⟩

/-- An edit of a part and the edit of the tree that it is are accepted alike. -/
theorem accepted_below {V : Tree → Bool} {t u c : Tree} {p : Path} {e : Edit}
    (hu : t.get p = .ok u) (hc : editedWhole t u p e = .ok c) :
    accepted V t u p e = accepted V t t [] (Edit.below p e) := by
  obtain ⟨v, hv, hreplace⟩ := editedWhole_eq_ok.1 hc
  have hwhole : editedWhole t t [] (Edit.below p e) = .ok c := by
    refine editedWhole_eq_ok.2 ⟨c, apply_eq_ok.2 ?_, rfl⟩
    exact Tree.replace_append hu (apply_eq_ok.1 hv) hreplace
  rw [accepted, accepted, hc, hwhole]

/-! ## Promotions below a path -/

/-- An enclosing position in a part as one of the tree, in which the part is at the path `p`. -/
def Enclosing.below (p : Path) (e : Enclosing) : Enclosing := { e with path := p ++ e.path }

/-- In the tree more positions enclose a hole than in the part, all of them further out. -/
theorem enclosingOf_append (root : Option Position) (ps fs : List Frame) :
    ∃ rest, enclosingOf root (fs ++ ps)
      = (enclosingOf (holeTypeOf false root ps) fs).map (Enclosing.below (pathOf ps)) ++ rest := by
  induction fs with
  | nil => exact ⟨enclosingOf root ps, rfl⟩
  | cons f fs ih =>
    cases hfs : fs with
    | nil => exact ⟨enclosingOf root ([f] ++ ps), rfl⟩
    | cons g gs =>
      rw [← hfs]
      obtain ⟨rest, hrest⟩ := ih
      refine ⟨rest, ?_⟩
      rw [List.cons_append, enclosingOf, enclosingOf, if_neg (by simp [hfs]),
        if_neg (by simp [hfs]), hrest, pathOf_append, holeTypeOf_append]
      rfl

/-- What is promoted in a part is promoted in the tree, to the same position. -/
theorem promoteThrough_append {k : Kind} {node : Tree} {p : Path} {e : Edit}
    {enclosing : List Enclosing} (rest : List Enclosing) {asExpression asBlock : Bool}
    (h : promoteThrough k node asExpression asBlock enclosing = .ok (some e)) :
    promoteThrough k node asExpression asBlock (enclosing.map (Enclosing.below p) ++ rest)
      = .ok (some (Edit.below p e)) := by
  induction enclosing generalizing asExpression asBlock with
  | nil => cases h
  | cons x xs ih =>
    simp only [promoteThrough, List.map_cons, List.cons_append, Enclosing.below] at h ⊢
    split at h
    case isTrue hself =>
      rw [if_pos hself]
      cases h
      rfl
    case isFalse hself =>
    rw [if_neg hself]
    split at h
    case isTrue hstatement =>
      rw [if_pos hstatement]
      cases hnew : newNode .expressionStatement [node] with
      | error f => rw [hnew] at h; cases h
      | ok v => rw [hnew] at h; cases h; rfl
    case isFalse hstatement =>
    rw [if_neg hstatement]
    split at h
    case isTrue hblock =>
      rw [if_pos hblock]
      cases hfield : k.statementField? with
      | none => rw [hfield] at h; cases h
      | some field =>
        simp only [hfield] at h ⊢
        cases hof : blockOf node field with
        | error f => rw [hof] at h; cases h
        | ok v => rw [hof] at h; cases h; rfl
    case isFalse hblock =>
      rw [if_neg hblock]
      exact ih h

/-! ## Edits below a path -/

variable {ps fs : List Frame} {w : Tree}

/-- What an edit puts into the hole of frames is the tree that it leads to. -/
theorem accepted_pathOf {t : Tree} (hfs : Positions fs) (ht : plugAll fs w = t) (v : Tree) :
    accepted Tree.isValid t t [] ⟨pathOf fs, v⟩
      = if (plugAll fs v).isValid then some (plugAll fs v) else none := by
  have hwhole : editedWhole t t [] ⟨pathOf fs, v⟩ = .ok (plugAll fs v) := by
    rw [← ht]
    exact editedWhole_eq_ok.2 ⟨_, apply_plugAll hfs w v, rfl⟩
  rw [accepted, hwhole]

/-- The drops of items below a path are those in the whole tree, if they are accepted. -/
theorem accepted_drops {t : Tree} {items : List Tree} (hpos : Positions (fs ++ ps))
    (ht : plugAll (fs ++ ps) (.list items) = t) (hvalid : t.isValid = true) :
    (((pendingOf (holeTypeOf false none ps) fs (.list items)).site.edits.items.map
        (Edit.below (pathOf ps))).filterMap (accepted Tree.isValid t t [])).Sublist
      ((pendingOf none (fs ++ ps) (.list items)).site.edits.items.filterMap
        (accepted Tree.isValid t t [])) := by
  rw [site_pendingOf, site_pendingOf, Site.edits_list, Site.edits_list]
  have hpath : ∀ rest, Edit.below (pathOf ps) ⟨pathOf fs, .list rest⟩
      = ⟨pathOf (fs ++ ps), .list rest⟩ := fun rest => by
    rw [Edit.below, pathOf_append]
  have hsame : ((withoutEach items).map fun rest => (⟨pathOf fs, .list rest⟩ : Edit)).map
        (Edit.below (pathOf ps))
      = (withoutEach items).map fun rest => ⟨pathOf (fs ++ ps), .list rest⟩ := by
    rw [List.map_map]
    exact List.map_congr_left fun rest _ => hpath rest
  cases fs with
  | cons f fs =>
    -- the list has the same owner in the part and in the tree
    refine List.Sublist.filterMap _ ?_
    rw [List.cons_append, List.head?_cons, List.head?_cons]
    split
    · exact hsame ▸ List.Sublist.refl _
    · exact List.nil_sublist _
  | nil =>
    rw [List.head?_nil, Option.bind_none, if_pos (show mayDrop none items = true from rfl),
      Series.items_ofList, hsame, List.nil_append]
    split
    · exact List.Sublist.refl _
    · -- the drops that the tree does not allow lead to no valid program
      rename_i hkeep
      refine (List.filterMap_eq_nil_iff.2 fun e he => ?_).symm ▸ List.nil_sublist _
      obtain ⟨rest, hrest, rfl⟩ := List.mem_map.1 he
      rw [accepted_pathOf (show Positions ps from hpos) ht, if_neg]
      cases ps with
      | nil => exact absurd rfl hkeep
      | cons g gs =>
        cases g with
        | item before after => exact absurd rfl hkeep
        | field k before after =>
          have hfit := FitsAt.holeAll gs (show FitsAt false none _ from
            (isValid_iff.1 (ht ▸ hvalid)).1) hpos.tail
          have hdrop := isValid_drop hpos.tail (ht ▸ hvalid) hfit.isFit
            (Bool.eq_false_iff.2 hkeep) hrest
          exact Bool.eq_false_iff.1 hdrop

/-- The edits of a position of a part are edits of the same position of the tree, but for drops
that lead to no valid program. -/
theorem accepted_siteEdits {t : Tree} (hpos : Positions (fs ++ ps))
    (ht : plugAll (fs ++ ps) w = t) (hvalid : t.isValid = true) :
    (((pendingOf (holeTypeOf false none ps) fs w).site.edits.items.map
        (Edit.below (pathOf ps))).filterMap (accepted Tree.isValid t t [])).Sublist
      ((pendingOf none (fs ++ ps) w).site.edits.items.filterMap
        (accepted Tree.isValid t t [])) := by
  have hfit : FitsAt false none (plugAll (fs ++ ps) w) := ht ▸ (isValid_iff.1 hvalid).1
  have hhole := FitsAt.holeAll _ hfit hpos
  cases w with
  | list items => exact accepted_drops hpos ht hvalid
  | node k fields =>
    -- the promotion below the path is one of the tree, too
    obtain ⟨r, hr, -⟩ := promotion_whole hpos.left hpos.right
      (show FitsAt true none _ from Tree.IsFit.loosen hfit)
    obtain ⟨r', hr', -⟩ := exists_promotion hpos hfit
    have hpromotion : (r.toList.map (Edit.below (pathOf ps))).Sublist r'.toList := by
      cases r with
      | none => exact List.nil_sublist _
      | some e =>
        obtain ⟨rest, hrest⟩ := enclosingOf_append none ps fs
        have happend := promoteThrough_append (p := pathOf ps) rest hr
        rw [← hrest] at happend
        cases hr'.symm.trans happend
        exact List.Sublist.refl _
    rw [site_pendingOf, site_pendingOf, Site.edits_eq hr hhole.isFit, Site.edits_eq hr' hhole.isFit,
      Series.items_ofList, Series.items_ofList]
    refine List.Sublist.filterMap _ ?_
    simp only [List.map_append, holeTypeOf_append]
    refine List.Sublist.append (List.Sublist.append ?_ hpromotion) ?_
    · split <;> simp [Edit.below, pathOf_append]
    · simp [Edit.below, pathOf_append, Function.comp_def]
  | _ =>
    generalize holeTypeOf false none (fs ++ ps) = type at hhole
    cases type with
    | none => exact hhole.elim
    | some type =>
      first
      | exact hhole.elim
      | exact List.nil_sublist _

/-- The candidates of a search are what is accepted of the edits of each position. -/
theorem answered_candidates {t u : Tree} {path : Path} {f : Feed Tree EditFault Tree}
    (hps : Positions ps) (hfit : (plugAll ps u).IsFit true) (ht : plugAll ps u = t)
    (hpath : pathOf ps = path)
    (hres : resolve t path = .ok (u, holeTypeOf false none ps))
    (hf : candidates t path = .ok f) : f.answered Tree.isValid = .ofList
      ((positions (holeTypeOf false none ps) u).flatMap fun x =>
        (x.site.edits.items.map (Edit.below path)).filterMap
          (accepted Tree.isValid t t [])) := by
  subst ht hpath
  obtain ⟨u', type, hres', rfl⟩ := candidates_eq_ok.1 hf
  cases hres.symm.trans hres'
  obtain ⟨hfault, hedits⟩ := lightens_whole hfit hres
  have hcome : ∀ e ∈ (edits (holeTypeOf false none ps) u).items,
      ∃ c, editedWhole (plugAll ps u) u (pathOf ps) e = .ok c := fun e he => by
    obtain ⟨v, c, hv, hc, -⟩ := hedits e he
    exact ⟨c, editedWhole_eq_ok.2 ⟨v, hv, hc⟩⟩
  have hitems : (edits (holeTypeOf false none ps) u).items
      = (positions (holeTypeOf false none ps) u).flatMap fun x => x.site.edits.items := by
    rw [edits, Series.items_concat, sites_eq_positions, List.flatMap_map, List.flatMap_map]
    intro s hs
    obtain ⟨site, hsite, rfl⟩ := List.mem_map.1 hs
    exact (siteEdits_whole hps hfit hsite).1
  rw [hfault, answered_judged _ hcome]
  refine congrArg Series.ofList ?_
  rw [List.filterMap_congr fun e he => ?below, ← List.filterMap_map, hitems, List.map_flatMap,
    List.filterMap_flatMap]
  case below =>
    obtain ⟨c, hc⟩ := hcome e he
    exact accepted_below (get_plugAll hps u) hc

/-- A search below a path yields candidates for the whole tree, in the same order. -/
theorem candidates_sublist {t : Tree} (ht : t.isValid = true) {path : Path}
    {f : Feed Tree EditFault Tree} (hf : candidates t path = .ok f) :
    ∃ g, candidates t [] = .ok g ∧ (f.answered Tree.isValid).fault = none ∧
      (g.answered Tree.isValid).fault = none ∧
      (f.answered Tree.isValid).items.Sublist (g.answered Tree.isValid).items := by
  obtain ⟨u, type, hres, -⟩ := candidates_eq_ok.1 hf
  have hfit : t.IsFit true := Tree.IsFit.loosen (isValid_iff.1 ht).1
  obtain ⟨ps, hps, htu, hpath, rfl⟩ := exists_frames_of_resolve hfit hres
  have hroot : Positions [] := by simp [Positions]
  rw [answered_candidates hps (htu.symm ▸ hfit) htu hpath hres hf]
  refine ⟨_, rfl, rfl, ?_⟩
  rw [@answered_candidates [] t t [] _ hroot hfit rfl rfl rfl rfl]
  refine ⟨rfl, ?_⟩
  have hwhole : ∀ es : List Edit, es.map (Edit.below []) = es := fun es => List.map_id es
  simp only [Series.items_ofList, hwhole]
  subst hpath htu
  have hwider := (positions_sublist none hps u).flatMap fun x : Pending =>
    x.site.edits.items.filterMap (accepted Tree.isValid (plugAll ps u) (plugAll ps u) [])
  rw [List.flatMap_map] at hwider
  refine List.Sublist.trans (List.Sublist.flatMap_right _ fun x hx => ?_) hwider
  obtain ⟨fs, w, hfs, rfl, rfl⟩ := mem_visits_root.1 (List.mem_filter.1 hx).1
  rw [below_pendingOf]
  exact accepted_siteEdits (hfs.append hps) (plugAll_append _ _ _) ht

/-- Five of the eight candidates for a guarded throw are edits of the guard. -/
theorem candidates_sublist_guardedThrow :
    ∃ f g, candidates guardedThrow [.field "statements", .index 0] = .ok f ∧
      candidates guardedThrow [] = .ok g ∧
      (f.answered Tree.isValid).items.length = 5 ∧ (g.answered Tree.isValid).items.length = 8 ∧
      (f.answered Tree.isValid).items.Sublist (g.answered Tree.isValid).items := by
  have hvalid : guardedThrow.isValid = true := by decide +kernel
  obtain ⟨g, hg, -, -, hsub⟩ := @candidates_sublist guardedThrow hvalid
    [.field "statements", .index 0] _ rfl
  cases hg
  exact ⟨_, _, rfl, rfl, by decide +kernel, by decide +kernel, hsub⟩

end Whittle.Search
