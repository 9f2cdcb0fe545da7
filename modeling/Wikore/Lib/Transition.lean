import Mathlib.Data.List.Induction

/-! Runs of a system given by a step function, and the rules that carry an invariant along a run. -/

namespace Transition

variable {σ α : Type*} (step : σ → α → σ)

/-- The state after a sequence of actions. -/
def run (s : σ) : List α → σ
  | [] => s
  | a :: as => run (step s a) as

/-- Every action of the run meets `cond` in the state that it is taken in. -/
def Along (cond : σ → α → Prop) (s : σ) : List α → Prop
  | [] => True
  | a :: as => cond s a ∧ Along cond (step s a) as

instance decidableAlong (cond : σ → α → Prop) [∀ s a, Decidable (cond s a)] :
    ∀ (s : σ) (as : List α), Decidable (Along step cond s as)
  | _, [] => .isTrue trivial
  | s, a :: as =>
    have := decidableAlong cond (step s a) as
    inferInstanceAs (Decidable (cond s a ∧ Along step cond (step s a) as))

variable {step} {s : σ} {as : List α} {P : σ → Prop} {cond : σ → α → Prop}

theorem run_append (bs : List α) : run step s (as ++ bs) = run step (run step s as) bs := by
  induction as generalizing s with
  | nil => rfl
  | cons a as ih => exact ih

theorem along_append (bs : List α) : Along step cond s (as ++ bs) ↔
    Along step cond s as ∧ Along step cond (run step s as) bs := by
  induction as generalizing s with
  | nil => exact (iff_of_eq (true_and _)).symm
  | cons a as ih => exact (and_congr_right fun _ => ih).trans and_assoc.symm

/-- What every step that meets `cond` preserves holds at the end of a run of such steps. -/
theorem run_invariant_of (h : P s) (hrun : Along step cond s as)
    (hstep : ∀ s a, P s → cond s a → P (step s a)) : P (run step s as) := by
  induction as generalizing s with
  | nil => exact h
  | cons a as ih => exact ih (hstep s a h hrun.1) hrun.2

/-- What every step preserves holds at the end of every run. -/
theorem run_invariant (h : P s) (hstep : ∀ s a, P s → P (step s a)) : P (run step s as) := by
  induction as generalizing s with
  | nil => exact h
  | cons a as ih => exact ih (hstep s a h)

/-- The same for an invariant that speaks of the actions taken so far. -/
theorem run_invariant_trace {P : σ → List α → Prop} (h : P s [])
    (hstep : ∀ s as a, P s as → P (step s a) (as ++ [a])) : P (run step s as) as := by
  induction as using List.reverseRecOn with
  | nil => exact h
  | append_singleton as a ih =>
    rw [run_append]
    exact hstep _ as a ih

/-- A run that meets one condition meets another that follows from it under an invariant. -/
theorem along_of_invariant {cond' : σ → α → Prop} (h : P s) (hrun : Along step cond s as)
    (hstep : ∀ s a, P s → cond s a → P (step s a)) (himp : ∀ s a, P s → cond s a → cond' s a) :
    Along step cond' s as := by
  induction as generalizing s with
  | nil => exact trivial
  | cons a as ih => exact ⟨himp s a h hrun.1, ih (hstep s a h hrun.1) hrun.2⟩

/-- Two conditions that agree wherever an invariant holds are met by the same runs, when every step
that meets the first preserves the invariant. -/
theorem along_congr_of_invariant {cond' : σ → α → Prop} (h : P s)
    (hstep : ∀ s a, P s → cond s a → P (step s a)) (hiff : ∀ s a, P s → (cond s a ↔ cond' s a)) :
    Along step cond s as ↔ Along step cond' s as := by
  induction as generalizing s with
  | nil => exact Iff.rfl
  | cons a as ih =>
    constructor
    · rintro ⟨ha, has⟩
      exact ⟨(hiff s a h).mp ha, (ih (hstep s a h ha)).mp has⟩
    · rintro ⟨ha, has⟩
      have hcond := (hiff s a h).mpr ha
      exact ⟨hcond, (ih (hstep s a h hcond)).mpr has⟩

/-- The same for an invariant that every step preserves. -/
theorem along_iff_of_invariant {cond' : σ → α → Prop} (h : P s)
    (hstep : ∀ s a, P s → P (step s a)) (hiff : ∀ s a, P s → (cond s a ↔ cond' s a)) :
    Along step cond s as ↔ Along step cond' s as :=
  along_congr_of_invariant h (fun s a hs _ => hstep s a hs) hiff

/-- A list that ends in `a` splits at an element with only `Q` after it: at `a`, or before it. -/
theorem exists_split_concat {P : List α → α → Prop} {Q : α → Prop} {a : α} :
    (∃ pre e suf, as ++ [a] = pre ++ e :: suf ∧ P pre e ∧ ∀ x ∈ suf, Q x) ↔
      P as a ∨ Q a ∧ ∃ pre e suf, as = pre ++ e :: suf ∧ P pre e ∧ ∀ x ∈ suf, Q x := by
  constructor
  · rintro ⟨pre, e, suf, heq, hP, hQ⟩
    rcases List.eq_nil_or_concat suf with rfl | ⟨suf, x, rfl⟩
    · obtain ⟨rfl, he⟩ := List.append_inj' heq rfl
      obtain rfl := List.singleton_inj.mp he
      exact .inl hP
    · rw [List.concat_eq_append, ← List.cons_append, ← List.append_assoc] at heq
      obtain ⟨rfl, he⟩ := List.append_inj' heq rfl
      obtain rfl := List.singleton_inj.mp he
      exact .inr ⟨hQ a (by simp), pre, e, suf, rfl, hP, fun x hx => hQ x (by simp [hx])⟩
  · rintro (hP | ⟨ha, pre, e, suf, rfl, hP, hQ⟩)
    · exact ⟨as, a, [], rfl, hP, fun x hx => nomatch hx⟩
    · refine ⟨pre, e, suf ++ [a], by simp, hP, fun x hx => ?_⟩
      rcases List.mem_append.mp hx with hx | hx
      · exact hQ x hx
      · exact List.mem_singleton.mp hx ▸ ha

end Transition
