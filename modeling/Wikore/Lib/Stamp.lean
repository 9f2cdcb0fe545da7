import Mathlib.Order.Basic

/-! States that carry a stamp.  A change of state is guarded when the stamp never goes back and an
unchanged stamp means that nothing was changed which the stamp guards. -/

namespace Stamp

variable {σ τ : Type*} [PartialOrder τ]

/-- From `s` to `s'` the stamp, while it exists, only grows, and `same` holds when it has not
grown. -/
def Guarded (stamp : σ → Option τ) (same : σ → σ → Prop) (s s' : σ) : Prop :=
  ∀ e', stamp s' = some e' → ∃ e, stamp s = some e ∧ e ≤ e' ∧ (e = e' → same s s')

variable {stamp : σ → Option τ} {same : σ → σ → Prop} {s s' s'' : σ}

theorem Guarded.of_same (hstamp : stamp s' = stamp s) (hsame : same s s') :
    Guarded stamp same s s' :=
  fun e' he => ⟨e', hstamp ▸ he, le_refl e', fun _ => hsame⟩

theorem Guarded.trans (htrans : same s s' → same s' s'' → same s s'')
    (h1 : Guarded stamp same s s') (h2 : Guarded stamp same s' s'') :
    Guarded stamp same s s'' := by
  intro e'' he''
  obtain ⟨e', he', hle', hsame'⟩ := h2 e'' he''
  obtain ⟨e, he, hle, hsame⟩ := h1 e' he'
  refine ⟨e, he, le_trans hle hle', fun heq => ?_⟩
  subst heq
  have hee : e = e' := le_antisymm hle hle'
  exact htrans (hsame hee) (hsame' hee.symm)

/-- A value that was computed under a stamp is current while the stamp is. -/
theorem Guarded.same_of_eq (h : Guarded stamp same s s') (heq : stamp s' = stamp s)
    {e : τ} (he : stamp s = some e) : same s s' := by
  obtain ⟨e0, he0, -, hsame⟩ := h e (heq.trans he)
  exact hsame (Option.some.inj (he0.symm.trans he))

end Stamp
