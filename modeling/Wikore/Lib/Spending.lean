import Mathlib.Algebra.BigOperators.Group.List.Basic
import Mathlib.Algebra.Order.Field.Basic
import Mathlib.Tactic.Linarith
import Mathlib.Tactic.Ring

/-! Spending from a level that refills at a bounded rate and never exceeds a cap: over any window of
time, no more is spent than the cap and what the window refills. -/

namespace Spending

variable {K σ α : Type*} [Field K] [LinearOrder K]

/-- The events with what each of them spends in the state that it finds. -/
def spending (step : σ → α → σ) (spent : σ → α → K) : σ → List α → List (α × K)
  | _, [] => []
  | s, a :: as => (a, spent s a) :: spending step spent (step s a) as

/-- What is spent at times from `a` to `b`. -/
def within (time : α → K) (a b : K) (l : List (α × K)) : K :=
  ((l.filter fun e => a ≤ time e.1 ∧ time e.1 ≤ b).map Prod.snd).sum

/-- A level under a cap, which grows by at most `rate` for each unit of time and pays for what is
spent. -/
structure Metered (step : σ → α → σ) (spent : σ → α → K) (time : α → K) (level : σ → K → K)
    (cap rate : K) : Prop where
  nonneg : ∀ s t, 0 ≤ level s t
  le_cap : ∀ s t, level s t ≤ cap
  grows : ∀ s t t', t ≤ t' → level s t' ≤ level s t + rate * (t' - t)
  pays : ∀ s a, level (step s a) (time a) + spent s a ≤ level s (time a)
  rate_nonneg : 0 ≤ rate

variable {step : σ → α → σ} {spent : σ → α → K} {time : α → K} {level : σ → K → K} {cap rate : K}
  {a b t : K} {s : σ} {as : List α}

theorem within_cons_of_mem {e : α × K} {l : List (α × K)} (h : a ≤ time e.1 ∧ time e.1 ≤ b) :
    within time a b (e :: l) = e.2 + within time a b l := by
  simp [within, h]

theorem within_cons_of_not_mem {e : α × K} {l : List (α × K)}
    (h : ¬(a ≤ time e.1 ∧ time e.1 ≤ b)) : within time a b (e :: l) = within time a b l := by
  simp [within, h]

theorem within_eq_zero (h : ∀ x ∈ as, b < time x) :
    within time a b (spending step spent s as) = 0 := by
  induction as generalizing s with
  | nil => rfl
  | cons x as ih =>
    have hx : b < time x := h x (by simp)
    rw [spending, within_cons_of_not_mem (by simp [hx])]
    exact ih fun y hy => h y (by simp [hy])

variable [IsStrictOrderedRing K]

/-- From a time inside the window on, the level at that time and the refill until the end of the
window pay for everything. -/
theorem within_le_level (m : Metered step spent time level cap rate)
    (hsorted : as.Pairwise fun x y => time x ≤ time y) (hfrom : ∀ x ∈ as, t ≤ time x) (hat : a ≤ t)
    (htb : t ≤ b) :
    within time a b (spending step spent s as) ≤ level s t + rate * (b - t) := by
  have hpos : 0 ≤ level s t + rate * (b - t) :=
    add_nonneg (m.nonneg s t) (mul_nonneg m.rate_nonneg (sub_nonneg.mpr htb))
  induction as generalizing s t with
  | nil => exact hpos
  | cons x as ih =>
    obtain ⟨hx, hrest⟩ := List.pairwise_cons.mp hsorted
    have htx : t ≤ time x := hfrom x (by simp)
    rcases lt_or_ge b (time x) with hb | hb
    · -- the window has ended before `x`, and so before all that follows
      have hafter : ∀ y ∈ x :: as, b < time y := by
        intro y hy
        rcases List.mem_cons.mp hy with rfl | hy
        · exact hb
        · exact hb.trans_le (hx y hy)
      rwa [within_eq_zero hafter]
    · have hsum : rate * (time x - t) + rate * (b - time x) = rate * (b - t) := by ring
      calc within time a b (spending step spent s (x :: as))
          = spent s x + within time a b (spending step spent (step s x) as) :=
            within_cons_of_mem ⟨hat.trans htx, hb⟩
        _ ≤ spent s x + (level (step s x) (time x) + rate * (b - time x)) :=
            add_le_add_right (ih hrest hx (hat.trans htx) hb (add_nonneg (m.nonneg _ _)
              (mul_nonneg m.rate_nonneg (sub_nonneg.mpr hb)))) _
        _ ≤ level s (time x) + rate * (b - time x) := by linarith [m.pays s x]
        _ ≤ level s t + rate * (b - t) := by linarith [m.grows s t (time x) htx]

/-- The bound over a window. -/
theorem within_le_window (m : Metered step spent time level cap rate)
    (hsorted : as.Pairwise fun x y => time x ≤ time y) (hab : a ≤ b) :
    within time a b (spending step spent s as) ≤ cap + rate * (b - a) := by
  have hpos : 0 ≤ cap + rate * (b - a) :=
    add_nonneg ((m.nonneg s a).trans (m.le_cap s a)) (mul_nonneg m.rate_nonneg (sub_nonneg.mpr hab))
  induction as generalizing s with
  | nil => exact hpos
  | cons x as ih =>
    obtain ⟨hx, hrest⟩ := List.pairwise_cons.mp hsorted
    rcases lt_or_ge (time x) a with ha | ha
    · rw [spending, within_cons_of_not_mem (by simp [ha])]
      exact ih hrest
    have hfrom : ∀ y ∈ x :: as, time x ≤ time y := by
      intro y hy
      rcases List.mem_cons.mp hy with rfl | hy
      · exact le_rfl
      · exact hx y hy
    rcases lt_or_ge b (time x) with hb | hb
    · rwa [within_eq_zero fun y hy => hb.trans_le (hfrom y hy)]
    · have hle := within_le_level (s := s) m hsorted hfrom ha hb
      have hrefill := mul_le_mul_of_nonneg_left (sub_le_sub_left ha b) m.rate_nonneg
      linarith [m.le_cap s (time x)]

end Spending
