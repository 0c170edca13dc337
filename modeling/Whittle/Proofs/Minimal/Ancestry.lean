import Whittle.Proofs.Minimal.Lifting
import Whittle.Proofs.Minimal.Need

/-!
# What may stand around a node

In a script the outermost node is the script, no module is below it, and nothing is exported.
-/

namespace Whittle

open Grammar Whittle.Language

/-! ## Scripts -/

section Script

variable {t u : Tree} {gs q : List Frame} {f : Frame}

/-- A program stands at the root only, and the root is a script. -/
theorem root_eq (hroot : t.isKind .script = true) (h : t.IsFit false)
    (hpos : Positions (gs ++ f :: q)) (ht : plugAll (gs ++ f :: q) u = t)
    (hf : f.occupant = some .script ∨ f.occupant = some .esModule) :
    f.occupant = some .script ∧ q = [] := by
  cases f with
  | item before after => rcases hf with hf | hf <;> cases hf
  | field k before after =>
    rw [plugAll_append] at ht
    have hq : q = [] := by
      by_cases hq : q = []
      · exact hq
      · have hfit : FitsAt true none (plugAll q (.node k (before ++ plugAll gs u :: after))) := by
          show Tree.IsFit true _
          exact (show Tree.IsFit false _ from ht ▸ h).loosen
        obtain ⟨hscript, hmodule⟩ := not_program_of_hole hpos.right.tail hq hfit
        rcases hf with hf | hf
        · exact absurd (Option.some.inj hf) hscript
        · exact absurd (Option.some.inj hf) hmodule
    subst hq
    refine ⟨?_, rfl⟩
    subst ht
    exact beq_iff_eq.1 hroot

/-- In a script nothing is exported. -/
theorem not_exports (hroot : t.isKind .script = true) (h : t.IsFit false)
    (hpos : Positions (gs ++ f :: q)) (ht : plugAll (gs ++ f :: q) u = t) {k : Kind}
    (hf : f.occupant = some k) : k.exports = false := by
  cases f with
  | item before after => cases hf
  | field l before after =>
    cases hf
    cases hk : k.exports with
    | false => rfl
    | true =>
      rw [plugAll_append] at ht
      have hq : q ≠ [] := by
        rintro rfl
        subst ht
        obtain rfl := Option.some.inj (beq_iff_eq.1 hroot)
        cases hk
      have hholders : k.holders = [] ∧ k.listHolders = [(.esModule, 1)] := by
        have hall : Kind.all.all (fun k => !k.exports ||
          (k.holders == [] && k.listHolders == [(.esModule, 1)])) = true := by decide
        simpa [hk] using Kind.forall_of_all hall k
      have hnode : plugAll q (.node k (before ++ plugAll gs u :: after)) = t := ht
      rcases exists_holder hpos.right.tail hq (show FitsAt false none _ from hnode ▸ h) with
        ⟨l, b, a, q', -, hmem⟩ | ⟨b, a, l, b', a', q', rfl, hmem⟩
      · rw [hholders.1] at hmem
        cases hmem
      · rw [hholders.2, List.mem_singleton, Prod.mk.injEq] at hmem
        obtain ⟨rfl, -⟩ := hmem
        have hroot' := @root_eq t _ [.item b a] q' (.field .esModule b' a') hroot h
          hpos.right.tail hnode (.inr rfl)
        cases hroot'.1

end Script

end Whittle
