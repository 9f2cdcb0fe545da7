import Mathlib.Data.List.Basic

/-! Two lists taken in turns, up to a number of elements. -/

namespace Interleave

variable {α : Type*}

/-- The elements of both lists in turns, the first list first; what is left of the longer one
follows. -/
def interleave : List α → List α → List α
  | [], bs => bs
  | a :: as, [] => a :: as
  | a :: as, b :: bs => a :: b :: interleave as bs

variable {as bs : List α}

@[simp] theorem interleave_nil_left (bs : List α) : interleave [] bs = bs := by
  rw [interleave]

@[simp] theorem interleave_nil_right (as : List α) : interleave as [] = as := by
  cases as with
  | nil => rfl
  | cons a as => rw [interleave]

@[simp] theorem interleave_cons_cons (a b : α) (as bs : List α) :
    interleave (a :: as) (b :: bs) = a :: b :: interleave as bs := by
  rw [interleave]

theorem mem_interleave {a : α} : a ∈ interleave as bs ↔ a ∈ as ∨ a ∈ bs := by
  induction as generalizing bs with
  | nil => simp
  | cons x as ih =>
    cases bs with
    | nil => simp
    | cons y bs =>
      simp only [interleave_cons_cons, List.mem_cons, ih]
      tauto

/-- `i` and `j` elements are a fair part of `n`: as many as there are, and in turns while both lists
last. -/
structure Fair (as bs : List α) (n i j : Nat) : Prop where
  left : i ≤ as.length
  right : j ≤ bs.length
  total : i + j = min n (as.length + bs.length)
  turns : i = as.length ∨ j = bs.length ∨ j ≤ i ∧ i ≤ j + 1

/-- The first elements of the two lists in turns are the first elements of each. -/
theorem take_interleave (as bs : List α) (n : Nat) : ∃ i j, Fair as bs n i j ∧
    (interleave as bs).take n = interleave (as.take i) (bs.take j) := by
  induction as generalizing bs n with
  | nil => exact ⟨0, min n bs.length, ⟨by simp, by omega, by simp, .inl rfl⟩, by simp⟩
  | cons a as ih =>
    cases bs with
    | nil =>
      refine ⟨min n (as.length + 1), 0, ⟨Nat.min_le_right _ _, by simp, by simp, .inr (.inl rfl)⟩, ?_⟩
      rw [interleave_nil_right, List.take_nil, interleave_nil_right, ← List.length_cons,
        List.take_eq_take_min]
    | cons b bs =>
      match n with
      | 0 => exact ⟨0, 0, ⟨by simp, by simp, by simp, by omega⟩, by simp⟩
      | 1 =>
        refine ⟨1, 0, ⟨by simp, by simp, ?_, by omega⟩, by simp⟩
        simp only [List.length_cons]
        omega
      | n + 2 =>
        obtain ⟨i, j, h, htake⟩ := ih bs n
        obtain ⟨hleft, hright, htotal, hturns⟩ := h
        refine ⟨i + 1, j + 1, ⟨?_, ?_, ?_, ?_⟩, ?_⟩
        · simpa using hleft
        · simpa using hright
        · simp only [List.length_cons]
          omega
        · simp only [List.length_cons]
          omega
        · rw [interleave_cons_cons, List.take_succ_cons, List.take_succ_cons, htake,
            List.take_succ_cons, List.take_succ_cons, interleave_cons_cons]

end Interleave
