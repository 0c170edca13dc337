import Whittle.Proofs.Construction
import Whittle.Proofs.Validity.Rules
import Whittle.Proofs.Weight

/-!
# Clean nodes

A node is clean if it breaks no rule itself and each of its fields is clean in the context that
the field has: for kinds with one to five fields, field by field. Whether a scope or a function
breaks a rule depends on the names that are declared in it only.
-/

namespace Whittle

open Grammar Whittle.Language

/-- A node without fields for nodes is clean if it breaks no rule itself. -/
theorem clean_leaves {c : Context} {k : Kind} {fields : List Tree}
    (h : ∀ v ∈ fields, v.isLeaf = true) :
    Clean c (.node k fields) ↔ nodeErrors c k fields = some [] := by
  rw [clean_node, and_iff_left]
  intro n v hmem hv
  rw [h v (List.of_mem_zip hmem).2] at hv
  cases hv

theorem clean_binding {c : Context} {name : String} :
    Clean c (.node .bindingIdentifier [.str name]) ↔ Rules.binding c name = [] := by
  rw [clean_leaves (by simp [Tree.isLeaf])]
  exact Option.some_inj

/-- Only a default export may have the name of one. -/
theorem ne_defaultExportName {c : Context} {name : String} (hc : c.defaultName = false)
    (h : Rules.binding c name = []) : name ≠ defaultExportName := by
  rintro rfl
  simp [Rules.binding, hc, EarlyError.when] at h

/-- A node is clean if it breaks no rule itself and each field is clean in the context that it
has. -/
theorem clean_fields {c : Context} {k : Kind} {fields : List Tree} {inners : List Context}
    {fs : List (String × TypeSpec)} (hk : k.fields = fs)
    (hinners : List.Forall₂ (fun f i => c.ofField k fields f.1 = some i) fs inners)
    (hlen : fields.length = fs.length) :
    Clean c (.node k fields) ↔
      nodeErrors c k fields = some [] ∧ List.Forall₂ Clean inners fields := by
  suffices hparts : ∀ {fs : List (String × TypeSpec)} {vs : List Tree} {is : List Context},
      List.Forall₂ (fun f i => c.ofField k fields f.1 = some i) fs is → vs.length = fs.length →
      ((∀ n v, (n, v) ∈ (fs.map (·.1)).zip vs → v.isLeaf = false →
        ∃ inner, c.ofField k fields n = some inner ∧ Clean inner v) ↔
        List.Forall₂ Clean is vs) by
    rw [clean_node, Kind.fieldNames_eq, hk, hparts hinners hlen]
  intro fs vs is his hlen
  induction his generalizing vs with
  | nil =>
    obtain rfl := List.eq_nil_of_length_eq_zero hlen
    simp
  | @cons f i fs is hi _ ih =>
    obtain ⟨v, vs, rfl⟩ := List.exists_cons_of_length_eq_add_one hlen
    have hfield : (v.isLeaf = false → ∃ inner, c.ofField k fields f.1 = some inner ∧
        Clean inner v) ↔ Clean i v := by
      simp only [hi, Option.some.injEq, exists_eq_left']
      cases hv : v.isLeaf with
      | true => exact iff_of_true nofun (clean_leaf hv)
      | false => exact ⟨fun h => h rfl, fun h _ => h⟩
    rw [List.forall₂_cons, ← ih (Nat.succ.inj hlen), ← hfield]
    simp only [List.map_cons, List.zip_cons_cons, List.mem_cons, Prod.mk.injEq, or_imp,
      forall_and, and_imp, forall_eq_apply_imp_iff, forall_eq]

section Arity

variable {c i i₁ i₂ i₃ i₄ : Context} {k : Kind} {f f₁ f₂ f₃ f₄ : String × TypeSpec}
  {v v₁ v₂ v₃ v₄ : Tree}

theorem clean_one (hk : k.fields = [f]) (h : c.ofField k [v] f.1 = some i) :
    Clean c (.node k [v]) ↔ nodeErrors c k [v] = some [] ∧ Clean i v := by
  rw [clean_fields hk (.cons h .nil) rfl]
  simp

theorem clean_two (hk : k.fields = [f, f₁]) (h : c.ofField k [v, v₁] f.1 = some i)
    (h₁ : c.ofField k [v, v₁] f₁.1 = some i₁) :
    Clean c (.node k [v, v₁]) ↔
      nodeErrors c k [v, v₁] = some [] ∧ Clean i v ∧ Clean i₁ v₁ := by
  rw [clean_fields hk (.cons h (.cons h₁ .nil)) rfl]
  simp

theorem clean_three (hk : k.fields = [f, f₁, f₂]) (h : c.ofField k [v, v₁, v₂] f.1 = some i)
    (h₁ : c.ofField k [v, v₁, v₂] f₁.1 = some i₁)
    (h₂ : c.ofField k [v, v₁, v₂] f₂.1 = some i₂) :
    Clean c (.node k [v, v₁, v₂]) ↔
      nodeErrors c k [v, v₁, v₂] = some [] ∧ Clean i v ∧ Clean i₁ v₁ ∧ Clean i₂ v₂ := by
  rw [clean_fields hk (.cons h (.cons h₁ (.cons h₂ .nil))) rfl]
  simp

theorem clean_four (hk : k.fields = [f, f₁, f₂, f₃])
    (h : c.ofField k [v, v₁, v₂, v₃] f.1 = some i)
    (h₁ : c.ofField k [v, v₁, v₂, v₃] f₁.1 = some i₁)
    (h₂ : c.ofField k [v, v₁, v₂, v₃] f₂.1 = some i₂)
    (h₃ : c.ofField k [v, v₁, v₂, v₃] f₃.1 = some i₃) :
    Clean c (.node k [v, v₁, v₂, v₃]) ↔ nodeErrors c k [v, v₁, v₂, v₃] = some [] ∧
      Clean i v ∧ Clean i₁ v₁ ∧ Clean i₂ v₂ ∧ Clean i₃ v₃ := by
  rw [clean_fields hk (.cons h (.cons h₁ (.cons h₂ (.cons h₃ .nil)))) rfl]
  simp

theorem clean_five (hk : k.fields = [f, f₁, f₂, f₃, f₄])
    (h : c.ofField k [v, v₁, v₂, v₃, v₄] f.1 = some i)
    (h₁ : c.ofField k [v, v₁, v₂, v₃, v₄] f₁.1 = some i₁)
    (h₂ : c.ofField k [v, v₁, v₂, v₃, v₄] f₂.1 = some i₂)
    (h₃ : c.ofField k [v, v₁, v₂, v₃, v₄] f₃.1 = some i₃)
    (h₄ : c.ofField k [v, v₁, v₂, v₃, v₄] f₄.1 = some i₄) :
    Clean c (.node k [v, v₁, v₂, v₃, v₄]) ↔ nodeErrors c k [v, v₁, v₂, v₃, v₄] = some [] ∧
      Clean i v ∧ Clean i₁ v₁ ∧ Clean i₂ v₂ ∧ Clean i₃ v₃ ∧ Clean i₄ v₄ := by
  rw [clean_fields hk (.cons h (.cons h₁ (.cons h₂ (.cons h₃ (.cons h₄ .nil))))) rfl]
  simp

end Arity

/-! ## Scopes and functions -/

section Names

variable {functionsAreVar unique directive simple : Bool} {items : List Tree}
  {lexical vars : List (List String)} {names : List String} {c : Context}

/-- The items of a scope do not clash exactly if no name is declared lexically and once more. -/
theorem scopeErrors_eq_nil
    (hlexical : items.mapM (·.lexicalNames? functionsAreVar) = some lexical)
    (hvars : items.mapM (·.itemVarNames? functionsAreVar) = some vars) :
    scopeErrors functionsAreVar items = some [] ↔
      lexical.flatten.Nodup ∧ ∀ n ∈ lexical.flatten, n ∉ vars.flatten := by
  simp [scopeErrors, hlexical, hvars, duplicates_eq_nil, shared_eq_nil]

theorem redeclared_eq_nil {directives : Tree}
    (hlexical : items.mapM (·.lexicalNames? true) = some lexical) :
    Rules.redeclared names (.node .functionBody [directives, .list items]) = some [] ↔
      ∀ n ∈ names, n ∉ lexical.flatten := by
  simp [Rules.redeclared, hlexical, shared_eq_nil]

/-- A function whose parameters have distinct names, of which its body declares none lexically,
breaks no rule, unless its body opens with a directive. -/
theorem function_eq_nil {params body : Tree} (hnames : params.parameterNames? = some names)
    (hnodup : names.Nodup) (hsimple : params.isSimple? = some simple)
    (hdirective : body.hasUseStrict? = some false)
    (hbody : Rules.redeclared names body = some []) :
    Rules.function c unique params body = some [] := by
  have hduplicates := duplicates_eq_nil.2 hnodup
  simp [Rules.function, hnames, hsimple, hdirective, hbody, hduplicates]

end Names

end Whittle
