import Whittle.Proofs.LevelOrder

/-!
# Size

Another value at a path changes the size of a tree by the difference of the two values' sizes.
So an edit that only drops something makes a tree smaller by the size of what it drops, which is
nothing for the holes of a list and something for all that contains a node.
-/

namespace Whittle

namespace Tree

/-! ## Lists of values -/

theorem sizeAll_append (xs ys : List Tree) : sizeAll (xs ++ ys) = sizeAll xs + sizeAll ys := by
  induction xs with
  | nil => simp [sizeAll]
  | cons x xs ih =>
    simp only [List.cons_append, sizeAll, ih]
    omega

theorem sizeAll_set {ts : List Tree} {i : Nat} {u : Tree} (h : ts[i]? = some u) (v : Tree) :
    sizeAll (ts.set i v) + u.size = sizeAll ts + v.size := by
  induction ts generalizing i with
  | nil => cases h
  | cons t ts ih =>
    cases i with
    | zero =>
      cases h
      simp only [List.set_cons_zero, sizeAll]
      omega
    | succ i =>
      have hrest := ih h
      simp only [List.set_cons_succ, sizeAll]
      omega

/-- A list is larger than it is without one of its items by the size of that item. -/
theorem size_list_drop (before after : List Tree) (u : Tree) :
    (Tree.list (before ++ u :: after)).size = (Tree.list (before ++ after)).size + u.size := by
  simp only [size, sizeAll_append, sizeAll]
  omega

/-! ## Replacing -/

theorem size_setChild {t c : Tree} {s : Step} (h : t.childAt s = .ok c) (v : Tree) :
    (t.setChild s v).size + c.size = t.size + v.size := by
  obtain ⟨i, hi, hc⟩ := childAt_eq_ok.1 h
  rw [setChild_of_place hi]
  have hparts := sizeAll_set hc v
  cases t with
  | list items =>
    simp only [parts, withParts, size] at hparts ⊢
    omega
  | node k fields =>
    simp only [parts, withParts, size] at hparts ⊢
    omega
  -- no step leads into a value without parts
  | _ => cases hc

/-- The size of what stands at a path counts once in the size of the tree. -/
theorem size_replace {t t' u v : Tree} {p : Path} (hget : t.get p = .ok u)
    (hput : t.replace p v = .ok t') : t'.size + u.size = t.size + v.size := by
  induction p generalizing t t' with
  | nil =>
    cases hget
    cases hput
    exact Nat.add_comm _ _
  | cons s p ih =>
    obtain ⟨c, hc, hget⟩ := get_cons_eq_ok.1 hget
    obtain ⟨d, c', hd, hput, rfl⟩ := replace_cons_eq_ok.1 hput
    obtain rfl : c = d := Except.ok.inj (hc.symm.trans hd)
    -- one step changes the size by as much as all below it
    have hchild := size_setChild hc c'
    have hbelow := ih hget hput
    omega

/-- What contains a node has a size. -/
theorem size_pos_of_contains {t : Tree} {k : Kind} (h : t.contains k = true) : 0 < t.size := by
  cases t with
  | list items =>
    rw [size]
    omega
  | node l fields =>
    rw [size]
    omega
  | _ => cases h

end Tree

/-! ## Edits that drop something -/

/-- The edit takes the value away from the tree and does nothing else: it is an item of a list,
or all that stands at a position. -/
inductive Edit.TakesAway (t : Tree) : Edit → Tree → Prop
  | item {p : Path} {before after : List Tree} {u : Tree}
    (h : t.get p = .ok (.list (before ++ u :: after))) :
    TakesAway t ⟨p, .list (before ++ after)⟩ u
  | optional {p : Path} {u : Tree} (h : t.get p = .ok u) : TakesAway t ⟨p, .absent⟩ u

theorem Edit.TakesAway.size {t c u : Tree} {e : Edit} (h : e.TakesAway t u)
    (hc : e.apply t = .ok c) : c.size + u.size = t.size := by
  rw [apply_eq_ok] at hc
  cases h with
  | @item p before after _ h =>
    have hlist : c.size + (Tree.list (before ++ u :: after)).size
        = t.size + (Tree.list (before ++ after)).size := Tree.size_replace h hc
    rw [Tree.size_list_drop] at hlist
    omega
  | optional h => exact Tree.size_replace h hc

/-- An edit at a list takes one of its items away. -/
theorem Site.takesAway_item {type : Option Position} {t : Tree} {site : Site}
    (hsite : site ∈ sites type t) {items : List Tree} (hitems : site.value = .list items)
    {e : Edit} (he : e ∈ site.edits.items) : ∃ u ∈ items, e.TakesAway t u := by
  obtain ⟨fs, w, hfs, rfl, -, rfl⟩ := mem_sites_iff.1 hsite
  obtain rfl : w = .list items := hitems
  rw [Site.edits_list] at he
  split at he
  · obtain ⟨rest, hrest, rfl⟩ := List.mem_map.1 he
    obtain ⟨before, u, after, rfl, rfl⟩ := mem_withoutEach.1 hrest
    exact ⟨u, List.mem_append_cons_self, .item (get_plugAll hfs _)⟩
  · cases he

/-- The removal of an optional value takes all of it away. -/
theorem Site.takesAway_removal {type : Option Position} {t : Tree} {site : Site}
    (hsite : site ∈ sites type t) {e : Edit} (he : e ∈ site.removals) :
    e.TakesAway t site.value := by
  obtain ⟨fs, w, hfs, rfl, -, rfl⟩ := mem_sites_iff.1 hsite
  rw [Site.removals] at he
  split at he
  · obtain rfl := List.mem_singleton.1 he
    exact .optional (get_plugAll hfs w)
  · cases he

/-- All edits of a well-typed tree come about. -/
theorem edits_apply {type : Option Position} {t : Tree} (ht : t.IsFit false) :
    (edits type t).Whole fun e => ∃ c, e.apply t = .ok c := by
  refine Series.whole_concat fun series hseries => ?_
  obtain ⟨site, hsite, rfl⟩ := List.mem_map.1 hseries
  obtain ⟨es, heq, -, happly⟩ := siteEdits_eq ht hsite
  rw [heq]
  exact Series.whole_ofList happly

theorem mem_variants {type : Option Position} {t c : Tree} (ht : t.IsFit false) {e : Edit}
    (he : e ∈ (edits type t).items) (hc : e.apply t = .ok c) : c ∈ (variants type t).items := by
  have hwhole : (variants type t).Whole fun _ => True := by
    refine (edits_apply ht).mapExcept ?_
    rintro e' ⟨c', hc'⟩
    exact ⟨c', hc', trivial⟩
  exact Series.mem_mapExcept hwhole.1 he hc

/-- The size of a tree with another value at a path is its size with the value's size for that of
what was there. The variants of a well-typed tree that lack an item of a list or an optional
value are no larger than the tree, and smaller if what they lack contains a node. -/
theorem variants_size (t : Tree) :
    (∀ p u, t.get p = .ok u → ∀ v, ∃ t', t.replace p v = .ok t' ∧
      t'.size + u.size = t.size + v.size) ∧
    (t.wellTyped = true → ∀ type, ∀ e ∈ (edits type t).items, ∀ u, e.TakesAway t u →
      ∃ c ∈ (variants type t).items, e.apply t = .ok c ∧ c.size ≤ t.size ∧
        ((∃ k, u.contains k = true) → c.size < t.size)) := by
  constructor
  · intro p u hu v
    obtain ⟨t', ht'⟩ := Tree.exists_replace hu v
    exact ⟨t', ht', Tree.size_replace hu ht'⟩
  · intro ht type e he u hu
    have hfit := wellTyped_iff.1 ht
    obtain ⟨c, hc⟩ := (edits_apply hfit).2 e he
    have hsize := hu.size hc
    refine ⟨c, mem_variants hfit he hc, hc, by omega, ?_⟩
    rintro ⟨k, hk⟩
    have hpos := Tree.size_pos_of_contains hk
    omega

/-- A script that returns an array of a hole and `this`. -/
def sparseReturn : Tree :=
  .node .script [.list [], .list [.node .returnStatement [.node .arrayExpression [.list [
    .absent, .node .thisExpression []]]]]]

/-- The path of what is returned. -/
def returnedPath : Path := [.field "statements", .index 0, .field "expression"]

/-- Without the hole the script is no larger; without `this` or without the array it is smaller. -/
theorem variants_size_sparseReturn :
    sparseReturn.wellTyped = true ∧
    (∃ c ∈ (variants none sparseReturn).items,
      Edit.apply ⟨returnedPath ++ [.field "elements"], .list [.node .thisExpression []]⟩
        sparseReturn = .ok c ∧ c.size ≤ sparseReturn.size) ∧
    (∃ c ∈ (variants none sparseReturn).items,
      Edit.apply ⟨returnedPath ++ [.field "elements"], .list [.absent]⟩ sparseReturn = .ok c ∧
        c.size < sparseReturn.size) ∧
    (∃ c ∈ (variants none sparseReturn).items,
      Edit.apply ⟨returnedPath, .absent⟩ sparseReturn = .ok c ∧ c.size < sparseReturn.size) ∧
    ∃ t', sparseReturn.replace returnedPath (.str "this") = .ok t' ∧
      t'.size + 3 = sparseReturn.size + 4 := by
  have ht : sparseReturn.wellTyped = true := by decide
  obtain ⟨hreplace, hdrop⟩ := variants_size sparseReturn
  have hedit : ∀ {i e}, (edits none sparseReturn).items[i]? = some e →
      e ∈ (edits none sparseReturn).items := List.mem_of_getElem?
  have hvalue := @hedit 2 ⟨returnedPath, .absent⟩ rfl
  have hthis := @hedit 4 ⟨returnedPath ++ [.field "elements"], .list [.absent]⟩ rfl
  have hhole := @hedit 5 ⟨returnedPath ++ [.field "elements"], .list [_]⟩ rfl
  refine ⟨ht, ?_, ?_, ?_, hreplace returnedPath _ rfl _⟩
  · obtain ⟨c, hc, happly, hle, -⟩ :=
      hdrop ht none _ hhole _ (@Edit.TakesAway.item sparseReturn _ [] [_] .absent rfl)
    exact ⟨c, hc, happly, hle⟩
  · obtain ⟨c, hc, happly, -, hlt⟩ :=
      hdrop ht none _ hthis _
        (@Edit.TakesAway.item sparseReturn _ [_] [] (.node .thisExpression []) rfl)
    exact ⟨c, hc, happly, hlt ⟨.thisExpression, rfl⟩⟩
  · obtain ⟨c, hc, happly, -, hlt⟩ := hdrop ht none _ hvalue _ (.optional rfl)
    exact ⟨c, hc, happly, hlt ⟨.arrayExpression, rfl⟩⟩

end Whittle
