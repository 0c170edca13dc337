import Whittle.Proofs.Frames
import Whittle.Proofs.Validity.Jumps

/-!
# What a node needs

Of what surrounds it a node may need nothing, or that it stands in a function, or that this
function is asynchronous. Only the parameters and the body of a function say anything new about
that; whatever else is around a node hands on what is around itself.
-/

namespace Whittle

open Grammar Whittle.Language

/-- What a node may need of its surroundings. -/
inductive Need where
  | nothing
  | function
  | async
deriving DecidableEq

/-- Whether a context has what is needed. -/
def Need.met : Need → Context → Bool
  | nothing, _ => true
  | function, c => c.inFunction
  | async, c => c.isAsync

/-- Whether a value is clean in just the contexts that have what it needs. -/
def Needs (n : Need) (v : Tree) : Prop := ∀ c, Clean c v ↔ n.met c = true

theorem Need.met_eases {n : Need} {keep : Prop} {c c' : Context} (h : Eases keep c c')
    (hc : n.met c = true) : n.met c' = true := by
  cases n with
  | nothing => rfl
  | function => exact h.inFunction hc
  | async => exact h.isAsync hc

/-- An expression statement needs what its expression does. -/
theorem Needs.expressionStatement {n : Need} {k : Kind} {fields : List Tree}
    (h : Needs n (.node k fields)) : Needs n (.node .expressionStatement [.node k fields]) := by
  intro c
  have hmet : n.met c.inherited = n.met c := by cases n <;> rfl
  rw [clean_node, ← hmet, ← h c.inherited]
  constructor
  · rintro ⟨-, hfields⟩
    obtain ⟨inner, hinner, hclean⟩ :=
      hfields "expression" (.node k fields) List.mem_cons_self rfl
    cases hinner
    exact hclean
  · intro hclean
    refine ⟨rfl, fun n v hmem _ => ?_⟩
    obtain ⟨rfl, rfl⟩ : n = "expression" ∧ v = .node k fields := by
      simpa [Kind.fieldNames, Kind.slots_eq, Kind.fields, named, Slot.of] using hmem
    exact ⟨_, rfl, hclean⟩

/-! ## Frames -/

/-- Whether the field at index `i` is for the parameters or the body of a function. -/
def Kind.isFunctionPart : Kind → Nat → Bool
  | functionDeclaration, 3 | functionDeclaration, 4 | functionExpression, 3
  | functionExpression, 4 | method, 3 | method, 4 | getter, 1 | setter, 1 | setter, 2
  | arrowExpression, 1 | arrowExpression, 2 => true
  | _, _ => false

/-- Whether a hole is for the parameters or the body of a function. -/
def Frame.isBoundary : Frame → Bool
  | .field k before _ => k.isFunctionPart before.length
  | .item _ _ => false

/-- A frame whose hole is for the body of a function, which is asynchronous or not. -/
inductive OwnsBody : Bool → Frame → Prop
  | declaration (isAsync : Bool) (isGenerator name params : Tree) :
    OwnsBody isAsync (.field .functionDeclaration [.bool isAsync, isGenerator, name, params] [])
  | expression (isAsync : Bool) (isGenerator name params : Tree) :
    OwnsBody isAsync (.field .functionExpression [.bool isAsync, isGenerator, name, params] [])
  | method (isAsync : Bool) (isGenerator name params : Tree) :
    OwnsBody isAsync (.field .method [.bool isAsync, isGenerator, name, params] [])
  | getter (name : Tree) : OwnsBody false (.field .getter [name] [])
  | setter (name param : Tree) : OwnsBody false (.field .setter [name, param] [])
  | arrow (isAsync : Bool) (params : Tree) :
    OwnsBody isAsync (.field .arrowExpression [.bool isAsync, params] [])

/-- The fields of a node around a hole in it. -/
theorem split_fields {before after vs : List Tree} {u : Tree} (h : before ++ u :: after = vs) :
    before = vs.take before.length ∧ vs[before.length]? = some u ∧
      after = vs.drop (before.length + 1) := by
  subst h
  simp

theorem mem_zip_fieldNames {k : Kind} {before after : List Tree} {u : Tree} {name : String}
    (h : k.fieldNames[before.length]? = some name) :
    (name, u) ∈ k.fieldNames.zip (before ++ u :: after) := by
  refine List.mem_of_getElem? (List.getElem?_zip_eq_some.2 ⟨h, ?_⟩)
  simp

/-! ## Contexts of holes -/

/-- The fields for the parameters and the body of functions have names of their own. -/
theorem isFunctionPart_eq {k : Kind} {i : Nat} {name : String}
    (h : k.fieldNames[i]? = some name) : k.isFunctionPart i =
      ([.functionDeclaration, .functionExpression, .method, .getter, .setter,
        .arrowExpression].contains k && ["params", "param", "body"].contains name) := by
  have hall : Kind.all.all (fun k => k.fieldNames.zipIdx.all fun e => k.isFunctionPart e.2 ==
      ([.functionDeclaration, .functionExpression, .method, .getter, .setter,
        .arrowExpression].contains k && ["params", "param", "body"].contains e.1)) = true := by
    decide
  have hk := List.all_eq_true.1 (Kind.forall_of_all hall k) (name, i)
    (List.mem_zipIdx_iff_getElem?.2 h)
  exact eq_of_beq hk

variable {c inner : Context}

theorem eq_bool_of_isTrue {t : Tree} (h : t.isTrue = true) : t = .bool true := by
  unfold Tree.isTrue at h
  split at h
  · exact congrArg Tree.bool h
  · cases h

/-- Around any other field the context is the same as around the node. -/
theorem ofField_other {k : Kind} {fields : List Tree} {i : Nat} {name : String}
    (hname : k.fieldNames[i]? = some name) (hi : k.isFunctionPart i = false)
    (h : c.ofField k fields name = some inner) :
    inner.inFunction = c.inFunction ∧ inner.isAsync = c.isAsync := by
  have hpart : (⟨k, fields, name⟩ : Ancestor).isFunctionPart = false :=
    (isFunctionPart_eq hname).symm.trans hi
  have hjumps := ofField_jumps (a := ⟨k, fields, name⟩) (List.mem_of_getElem? hname) h
  rw [Jumps.enter, if_neg (by simp [hpart])] at hjumps
  exact ⟨congrArg Jumps.inFunction hjumps, congrArg Jumps.isAsync hjumps⟩

/-- The parameters and the body of a function are in a function, and only the body of an
asynchronous function is in one. -/
theorem ofField_functionPart {k : Kind} {before after : List Tree} {u : Tree} {name : String}
    (hname : k.fieldNames[before.length]? = some name)
    (hi : k.isFunctionPart before.length = true)
    (hlen : (before ++ u :: after).length = k.fieldNames.length)
    (h : c.ofField k (before ++ u :: after) name = some inner) :
    inner.inFunction = true ∧
      (inner.isAsync = true → OwnsBody true (.field k before after)) := by
  have hpart : (⟨k, before ++ u :: after, name⟩ : Ancestor).isFunctionPart = true :=
    (isFunctionPart_eq hname).symm.trans hi
  have hjumps := ofField_jumps (a := ⟨k, before ++ u :: after, name⟩)
    (List.mem_of_getElem? hname) h
  rw [Jumps.enter, if_pos hpart] at hjumps
  refine ⟨congrArg Jumps.inFunction hjumps, fun htrue => ?_⟩
  obtain ⟨hbody, hset⟩ := Bool.and_eq_true_iff.1
    ((congrArg Jumps.isAsync hjumps).symm.trans htrue)
  clear h hjumps hpart htrue
  unfold Kind.isFunctionPart at hi
  split at hi
  case h_12 => cases hi
  all_goals
    rename_i hlength
    rw [hlength] at hname
    cases hname
    rw [List.length_append, List.length_cons, hlength] at hlen
  -- parameters
  case h_1 | h_3 | h_5 | h_8 | h_10 => cases hbody
  -- the bodies of functions that may be asynchronous
  case h_2 | h_4 | h_6 =>
    obtain ⟨isAsync, before, rfl⟩ := List.exists_cons_of_length_eq_add_one hlength
    obtain ⟨b, d, e, rfl⟩ := List.length_eq_three.1 (Nat.succ.inj hlength)
    obtain rfl := List.eq_nil_of_length_eq_zero (Nat.add_left_cancel (Nat.succ.inj hlen))
    rw [Ancestor.isSet_eq (List.mem_of_getElem? (i := 0) rfl)] at hset
    obtain rfl := eq_bool_of_isTrue hset
    constructor
  case h_11 =>
    obtain ⟨isAsync, params, rfl⟩ := List.length_eq_two.1 hlength
    obtain rfl := List.eq_nil_of_length_eq_zero (Nat.add_left_cancel (Nat.succ.inj hlen))
    rw [Ancestor.isSet_eq (List.mem_of_getElem? (i := 0) rfl)] at hset
    obtain rfl := eq_bool_of_isTrue hset
    constructor
  -- accessors have no flags
  case h_7 | h_9 =>
    rw [Ancestor.isSet_of_notMem] at hset
    · cases hset
    · dsimp only
      decide

variable {loose : Bool}

/-- What stands in the hole of a clean frame is clean. A hole that is not for a part of a
function says nothing new about functions; one that is, is in an asynchronous function only if
it is for the body of one. -/
theorem Clean.hole {type : Option Position} {f : Frame} {u : Tree} (h : Clean c (f.plug u))
    (hfit : FitsAt loose type (f.plug u)) (hu : u.isLeaf = false)
    (hitem : f.occupant = none → u.isNode = true) :
    ∃ inner, Clean inner u ∧
      (f.isBoundary = false → inner.inFunction = c.inFunction ∧ inner.isAsync = c.isAsync) ∧
      (f.isBoundary = true → inner.isAsync = true → OwnsBody true f) := by
  cases f with
  | item before after =>
    refine ⟨c, ?_, fun _ => ⟨rfl, rfl⟩, nofun⟩
    cases u with
    | node k fields => exact clean_list.1 h k fields (by simp)
    | _ => cases hitem rfl
  | field k before after =>
    have hlen : (before ++ u :: after).length = k.fieldNames.length := by
      rw [Kind.fieldNames, List.length_map]
      exact hfit.isFit.length_eq
    cases hname : k.fieldNames[before.length]? with
    | none =>
      rw [List.getElem?_eq_none_iff, ← hlen, List.length_append, List.length_cons] at hname
      omega
    | some name =>
      obtain ⟨inner, hinner, hclean⟩ :=
        (clean_node.1 h).2 name u (mem_zip_fieldNames hname) hu
      exact ⟨inner, hclean, fun hb => ofField_other hname hb hinner,
        fun hb => (ofField_functionPart hname hb hlen hinner).2⟩

/-- What stands in the hole of frames that are clean is clean. What it is to have around it is
around the frames, unless it comes of a function among them. -/
theorem Clean.holes {n : Need} {gs outer : List Frame} {u : Tree}
    (hpos : Positions (gs ++ outer)) (hfit : FitsAt loose none (plugAll (gs ++ outer) u))
    (hu : u.isLeaf = false) (hgs : n = .nothing ∨ ∀ f ∈ gs, f.isBoundary = false)
    (h : Clean c (plugAll gs u)) : ∃ inner, Clean inner u ∧ n.met inner = n.met c := by
  induction gs generalizing u with
  | nil => exact ⟨c, h, rfl⟩
  | cons f gs ih =>
    have hgs' : n = .nothing ∨ ∀ g ∈ gs, g.isBoundary = false :=
      hgs.imp_right fun hb g hg => hb g (List.mem_cons_of_mem _ hg)
    obtain ⟨around, haround, hmet⟩ := ih hpos.tail hfit (isLeaf_plug f u) hgs' h
    have hpart := hfit.holeAll (gs ++ outer) hpos.tail
    obtain ⟨inner, hinner, hflags, -⟩ := haround.hole hpart hu fun hitem => by
      cases f with
      | field k before after => cases hitem
      | item before after => exact isNode_of_item hpos.tail hfit hu
    refine ⟨inner, hinner, hmet ▸ ?_⟩
    rcases hgs with rfl | hb
    · rfl
    · obtain ⟨hfunction, hasync⟩ := hflags (hb f List.mem_cons_self)
      cases n with
      | nothing => rfl
      | function => exact hfunction
      | async => exact hasync

end Whittle
