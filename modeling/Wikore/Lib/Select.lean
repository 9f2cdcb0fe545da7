import Mathlib.Logic.Basic

/-! One entry of a list against the others. -/

namespace Select

variable {α : Type*} {l : List α} {i : Nat} {x y : α}

theorem mem_iff_of_getElem? (h : l[i]? = some x) : y ∈ l ↔ y = x ∨ y ∈ l.eraseIdx i := by
  constructor
  · intro hy
    obtain ⟨j, hj⟩ := List.mem_iff_getElem?.mp hy
    by_cases hij : j = i
    · subst hij
      exact .inl (Option.some.inj (hj.symm.trans h))
    · exact .inr (List.mem_eraseIdx_iff_getElem?.mpr ⟨j, hij, hj⟩)
  · rintro (rfl | hy)
    · exact List.mem_of_getElem? h
    · exact List.mem_of_mem_eraseIdx hy

end Select
