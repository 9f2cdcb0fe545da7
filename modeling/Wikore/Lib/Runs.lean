import Mathlib.Order.Basic

/-! Forward scans over positions, and the maximal runs of positions at which a predicate holds. -/

namespace Runs

/-- `while i < stop && p i do ++i`. -/
def scan (p : Nat → Bool) (stop i : Nat) : Nat :=
  if i < stop ∧ p i then scan p stop (i + 1) else i
termination_by stop - i

variable {p : Nat → Bool} {n stop i : Nat}

theorem scan_next (h : i < stop ∧ p i) : scan p stop i = scan p stop (i + 1) := by
  rw [scan, if_pos h]

theorem scan_done (h : ¬(i < stop ∧ p i)) : scan p stop i = i := by
  rw [scan, if_neg h]

theorem le_scan (p : Nat → Bool) (stop i : Nat) : i ≤ scan p stop i := by
  fun_induction scan p stop i with
  | case1 i h ih => omega
  | case2 i h => exact Nat.le_refl i

theorem scan_le (p : Nat → Bool) (h : i ≤ stop) : scan p stop i ≤ stop := by
  fun_induction scan p stop i with
  | case1 i hi ih => exact ih hi.1
  | case2 i hi => exact h

/-- The scan passes positions of `p` only. -/
theorem scan_passes {j : Nat} (hi : i ≤ j) (hj : j < scan p stop i) : p j := by
  fun_induction scan p stop i with
  | case1 i h ih =>
    rcases Nat.eq_or_lt_of_le hi with rfl | hlt
    · exact h.2
    · exact ih hlt hj
  | case2 i h => omega

/-- It stops at `stop` or at the first position that is not one of `p`. -/
theorem scan_stops (h : scan p stop i < stop) : p (scan p stop i) = false := by
  fun_induction scan p stop i with
  | case1 i hi ih => exact ih h
  | case2 i hi => simpa [h] using hi

/-- A scan looks at positions before `stop` only. -/
theorem scan_congr {q : Nat → Bool} (h : ∀ j < stop, p j = q j) : scan p stop i = scan q stop i := by
  fun_induction scan p stop i with
  | case1 i hi ih => rw [ih, scan_next ⟨hi.1, (h i hi.1).symm.trans hi.2⟩]
  | case2 i hi =>
    refine (scan_done fun hq => hi ⟨hq.1, ?_⟩).symm
    rw [h i hq.1]
    exact hq.2

/-- The positions `a`, …, `b - 1` are a maximal run of `p` below `n`. -/
structure IsRun (p : Nat → Bool) (n a b : Nat) : Prop where
  lt : a < b
  le : b ≤ n
  inside : ∀ i, a ≤ i → i < b → p i
  left : ∀ i, i + 1 = a → p i = false
  right : b < n → p b = false

/-- No run below `n` lies on both sides of `i`. -/
def Outside (p : Nat → Bool) (n i : Nat) : Prop :=
  ∀ a b, IsRun p n a b → i ≤ a ∨ b ≤ i

theorem outside_zero (p : Nat → Bool) (n : Nat) : Outside p n 0 :=
  fun a _ _ => .inl (Nat.zero_le a)

theorem outside_end (p : Nat → Bool) (n : Nat) : Outside p n n :=
  fun _ _ run => .inr run.le

/-- A position that is not one of `p` is in no run. -/
theorem outside_of_not (h : p i = false) : Outside p n i := by
  intro a b run
  by_contra hin
  rw [not_or] at hin
  have := run.inside i (by omega) (by omega)
  simp [h] at this

/-- Nor does a run go on after such a position. -/
theorem outside_succ_of_not (h : p i = false) : Outside p n (i + 1) := by
  intro a b run
  by_contra hin
  rw [not_or] at hin
  have := run.inside i (by omega) (by omega)
  simp [h] at this

/-- A run that starts before a position outside the runs ends before it. -/
theorem Outside.run_le {a b : Nat} (h : Outside p n i) (run : IsRun p n a b) (ha : a < i) :
    b ≤ i := by
  rcases h a b run with hle | hle
  · omega
  · exact hle

/-- The first position of the run that holds `i`. -/
theorem exists_run_start (h : p i) :
    ∃ a ≤ i, (∀ j, a ≤ j → j ≤ i → p j) ∧ ∀ j, j + 1 = a → p j = false := by
  induction i with
  | zero => exact ⟨0, Nat.le_refl 0, fun j _ hj => by rwa [Nat.le_zero.mp hj], by simp⟩
  | succ i ih =>
    cases hp : p i with
    | false =>
      refine ⟨i + 1, Nat.le_refl _, fun j ha hi => ?_, fun j hj => ?_⟩
      · rwa [Nat.le_antisymm hi ha]
      · rwa [Nat.succ.inj hj]
    | true =>
      obtain ⟨a, hle, hin, hleft⟩ := ih hp
      refine ⟨a, by omega, fun j ha hi => ?_, hleft⟩
      rcases Nat.eq_or_lt_of_le hi with rfl | hlt
      · exact h
      · exact hin j ha (by omega)

/-- A position of `p` is in a run, which ends where the scan from it stops. -/
theorem exists_run (h : p i) (hn : i < n) :
    ∃ a ≤ i, i < scan p n i ∧ IsRun p n a (scan p n i) := by
  obtain ⟨a, hle, hin, hleft⟩ := exists_run_start h
  have hlt : i < scan p n i := by
    have := le_scan p n (i + 1)
    rw [scan_next ⟨hn, h⟩]
    omega
  refine ⟨a, hle, hlt, by omega, scan_le p (by omega), fun j ha hb => ?_, hleft, scan_stops⟩
  by_cases hji : j ≤ i
  · exact hin j ha hji
  · exact scan_passes (by omega) hb

end Runs
