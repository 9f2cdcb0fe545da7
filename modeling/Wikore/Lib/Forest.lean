import Mathlib.Data.Nat.Find
import Mathlib.Logic.Basic
import Mathlib.Tactic.WLOG

/-! Forests given by a parent function: the node that a number of parent links leads to, acyclicity,
and how the ancestors of every node change when one node is hung under another one. -/

namespace ParentForest

variable {α : Type*}

/-- The node that `k` parent links from a node lead to, if there are that many. -/
def ancestor (parent : α → Option α) : Nat → α → Option α
  | 0, d => some d
  | k + 1, d => (parent d).bind (ancestor parent k)

/-- No node is a proper ancestor of itself. -/
def Acyclic (parent : α → Option α) : Prop :=
  ∀ d k, ancestor parent (k + 1) d ≠ some d

/-- `n` is `d` or an ancestor of `d`. -/
def Below (parent : α → Option α) (n d : α) : Prop :=
  ∃ k, ancestor parent k d = some n

variable {parent parent' : α → Option α} {a d n p q : α} {j k : Nat}

@[simp] theorem ancestor_zero : ancestor parent 0 d = some d := rfl

theorem ancestor_succ : ancestor parent (k + 1) d = (parent d).bind (ancestor parent k) := rfl

theorem ancestor_succ_of_parent (h : parent d = some p) :
    ancestor parent (k + 1) d = ancestor parent k p := by
  rw [ancestor_succ, h, Option.bind_some]

theorem ancestor_add :
    ancestor parent (j + k) d = (ancestor parent j d).bind (ancestor parent k) := by
  induction j generalizing d with
  | zero => simp
  | succ j ih =>
    rw [Nat.succ_add, ancestor_succ, ancestor_succ]
    cases parent d with
    | none => rfl
    | some p => exact ih

theorem ancestor_add_of (h : ancestor parent j d = some a) :
    ancestor parent (j + k) d = ancestor parent k a := by
  rw [ancestor_add, h, Option.bind_some]

theorem ancestor_succ_last : ancestor parent (k + 1) d = (ancestor parent k d).bind parent := by
  rw [ancestor_add]
  congr
  funext a
  rw [ancestor_succ]
  cases parent a <;> rfl

theorem Below.refl : Below parent d d := ⟨0, rfl⟩

theorem Below.trans (h1 : Below parent a n) (h2 : Below parent n d) : Below parent a d := by
  obtain ⟨i, hi⟩ := h1
  obtain ⟨j, hj⟩ := h2
  exact ⟨j + i, by rw [ancestor_add_of hj, hi]⟩

theorem Below.of_parent (h : parent d = some p) : Below parent p d :=
  ⟨1, ancestor_succ_of_parent h⟩

/-- A node with finitely many ancestors is below one without a parent. -/
theorem exists_root {bound : Nat} (h : ∀ k a, ancestor parent k d = some a → k ≤ bound) :
    ∃ k r, ancestor parent k d = some r ∧ parent r = none := by
  have hex : ∃ k, ancestor parent k d = none := by
    refine ⟨bound + 1, Option.eq_none_iff_forall_ne_some.mpr fun a ha => ?_⟩
    have := h _ a ha
    omega
  -- the first number of links that leads nowhere
  obtain ⟨k, hk, hmin⟩ : ∃ k, ancestor parent k d = none ∧ ∀ j < k, ancestor parent j d ≠ none :=
    ⟨Nat.find hex, Nat.find_spec hex, fun j hj => Nat.find_min hex hj⟩
  cases k with
  | zero => cases hk
  | succ j =>
    obtain ⟨r, hr⟩ := Option.ne_none_iff_exists'.mp (hmin j (Nat.lt_succ_self j))
    refine ⟨j, r, hr, ?_⟩
    rwa [ancestor_succ_last, hr, Option.bind_some] at hk

/-- Two ancestors of a node are on one path. -/
theorem Below.total (ha : Below parent a d) (hn : Below parent n d) :
    Below parent a n ∨ Below parent n a := by
  obtain ⟨i, hi⟩ := ha
  obtain ⟨j, hj⟩ := hn
  rcases Nat.le_total i j with hle | hle
  · obtain ⟨k, rfl⟩ := Nat.exists_eq_add_of_le hle
    rw [ancestor_add_of hi] at hj
    exact .inr ⟨k, hj⟩
  · obtain ⟨k, rfl⟩ := Nat.exists_eq_add_of_le hle
    rw [ancestor_add_of hj] at hi
    exact .inl ⟨k, hi⟩

/-- A path to an ancestor passes through every nearer ancestor. -/
theorem ancestor_sub (h : ancestor parent j d = some n) (hk : ancestor parent (j + k) d = some a) :
    ancestor parent k n = some a := by
  rwa [ancestor_add_of h] at hk

/-- In a forest without cycles an ancestor is met at one distance only. -/
theorem Acyclic.depth_unique (h : Acyclic parent) (hj : ancestor parent j d = some a)
    (hk : ancestor parent k d = some a) : j = k := by
  wlog hle : j ≤ k generalizing j k
  · exact (this hk hj (by omega)).symm
  obtain ⟨i, rfl⟩ := Nat.exists_eq_add_of_le hle
  cases i with
  | zero => rfl
  | succ i => exact absurd (ancestor_sub hj hk) (h a i)

/-- The ancestors up to distance `k` depend only on the parents of the nodes before it. -/
theorem ancestor_congr
    (h : ∀ j < k, ∀ a, ancestor parent j d = some a → parent' a = parent a) :
    ancestor parent' k d = ancestor parent k d := by
  induction k with
  | zero => rfl
  | succ k ih =>
    rw [ancestor_succ_last, ancestor_succ_last, ih fun j hj => h j (by omega)]
    cases ha : ancestor parent k d with
    | none => rfl
    | some a => exact h k (by omega) a ha

section Hang

/-! `parent'` is `parent` with `n` hung under `q`, which is not below `n`. -/

variable (hn : parent' n = some q) (hoff : ∀ x, x ≠ n → parent' x = parent x)
  (hq : ¬Below parent n q)

include hoff in
/-- A node that is not below the hung one keeps its ancestors. -/
theorem ancestor_hang_of_not_below (hd : ¬Below parent n d) :
    ancestor parent' k d = ancestor parent k d := by
  refine ancestor_congr fun j _ a ha => hoff a ?_
  rintro rfl
  exact hd ⟨j, ha⟩

include hoff in
/-- A node below the hung one keeps its ancestors up to the hung one. -/
theorem ancestor_hang_of_le (hac : Acyclic parent) (hj : ancestor parent j d = some n)
    (hk : k ≤ j) : ancestor parent' k d = ancestor parent k d := by
  refine ancestor_congr fun i hi a ha => hoff a ?_
  rintro rfl
  have := hac.depth_unique ha hj
  omega

include hn hoff hq in
/-- Past the hung node, the ancestors are those of the new parent. -/
theorem ancestor_hang_beyond (hac : Acyclic parent) (hj : ancestor parent j d = some n) :
    ancestor parent' (j + 1 + k) d = ancestor parent k q := by
  have hjn : ancestor parent' j d = some n := by
    rw [ancestor_hang_of_le hoff hac hj (Nat.le_refl j), hj]
  rw [Nat.add_assoc, ancestor_add_of hjn, Nat.add_comm, ancestor_succ_of_parent hn,
    ancestor_hang_of_not_below hoff hq]

include hn hoff hq in
/-- Hanging a node under one that is not below it makes no cycle. -/
theorem Acyclic.hang (hac : Acyclic parent) : Acyclic parent' := by
  intro d k hk
  by_cases hd : Below parent n d
  · obtain ⟨j, hj⟩ := hd
    by_cases hle : k + 1 ≤ j
    · rw [ancestor_hang_of_le hoff hac hj hle] at hk
      exact hac d k hk
    · obtain ⟨i, hi⟩ : ∃ i, k + 1 = j + 1 + i := ⟨k - j, by omega⟩
      rw [hi, ancestor_hang_beyond hn hoff hq hac hj] at hk
      exact hq ⟨i + j, by rw [ancestor_add_of hk, hj]⟩
  · rw [ancestor_hang_of_not_below hoff hd] at hk
    exact hac d k hk

include hn hoff hq in
/-- A node `a` that is neither below the hung one nor above its new parent loses the hung subtree, if
it had it, and nothing else. -/
theorem below_hang_iff (hac : Acyclic parent) (ha : ¬Below parent n a) (haq : ¬Below parent a q) :
    Below parent' a d ↔ Below parent a d ∧ ¬Below parent n d := by
  by_cases hd : Below parent n d
  · obtain ⟨j, hj⟩ := hd
    refine ⟨fun ⟨k, hk⟩ => ?_, fun h => absurd ⟨j, hj⟩ h.2⟩
    by_cases hle : k ≤ j
    · obtain ⟨i, rfl⟩ := Nat.exists_eq_add_of_le hle
      rw [ancestor_hang_of_le hoff hac hj hle] at hk
      exact absurd ⟨i, ancestor_sub hk hj⟩ ha
    · obtain ⟨i, rfl⟩ : ∃ i, k = j + 1 + i := ⟨k - j - 1, by omega⟩
      rw [ancestor_hang_beyond hn hoff hq hac hj] at hk
      exact absurd ⟨i, hk⟩ haq
  · have heq : ∀ k, ancestor parent' k d = ancestor parent k d :=
      fun k => ancestor_hang_of_not_below hoff hd
    simp only [Below, heq]
    exact ⟨fun h => ⟨h, hd⟩, fun h => h.1⟩

end Hang

/-- Acyclicity is a fact about the parent function alone, so it passes to a function with fewer
links. -/
theorem Acyclic.mono (hac : Acyclic parent) (h : ∀ x p, parent' x = some p → parent x = some p) :
    Acyclic parent' := by
  have hsub : ∀ k d a, ancestor parent' k d = some a → ancestor parent k d = some a := by
    intro k
    induction k with
    | zero => exact fun _ _ h => h
    | succ k ih =>
      intro d a ha
      cases hp : parent' d with
      | none => simp [ancestor_succ, hp] at ha
      | some p =>
        rw [ancestor_succ_of_parent hp] at ha
        rw [ancestor_succ_of_parent (h d p hp)]
        exact ih p a ha
  exact fun d k hk => hac d k (hsub _ _ _ hk)

end ParentForest
