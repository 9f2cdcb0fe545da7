import Mathlib.Data.List.Induction
import Mathlib.Order.Lattice

/-! The last value of a list below a given one, and the stack that finds it: what is not below a new
value is popped before the value is pushed. -/

namespace NearestBelow

variable {α : Type*} [LinearOrder α]

/-- The index of the last value below `d`. -/
def lastBelow (d : α) (ds : List α) : Option Nat :=
  (List.range ds.length).reverse.find? fun i => (ds[i]?).any fun x => decide (x < d)

/-- What is on the stack after the values, with their indices, the last one first. -/
def chain (ds : List α) : List (Nat × α) :=
  (ds.zipIdx.map Prod.swap).foldl
    (fun stack p => p :: stack.dropWhile fun q => decide (p.2 ≤ q.2)) []

theorem find?_congr {β : Type*} {p q : β → Bool} {l : List β} (h : ∀ x ∈ l, p x = q x) :
    l.find? p = l.find? q := by
  induction l with
  | nil => rfl
  | cons x l ih =>
    rw [List.find?_cons, List.find?_cons, h x List.mem_cons_self,
      ih fun y hy => h y (List.mem_cons_of_mem x hy)]

theorem lastBelow_concat (d e : α) (ds : List α) :
    lastBelow d (ds ++ [e]) = if e < d then some ds.length else lastBelow d ds := by
  unfold lastBelow
  rw [List.length_append, List.length_singleton, List.range_succ, List.reverse_append,
    List.reverse_singleton, List.singleton_append, List.find?_cons]
  rw [List.getElem?_append_right (Nat.le_refl _), Nat.sub_self]
  by_cases he : e < d
  · simp [he]
  · simp only [List.getElem?_cons_zero, Option.any_some, he, decide_false, if_false]
    refine find?_congr fun i hi => ?_
    have hlt : i < ds.length := by simpa using hi
    rw [List.getElem?_append_left hlt]

theorem chain_concat (ds : List α) (e : α) :
    chain (ds ++ [e]) = (ds.length, e) :: (chain ds).dropWhile fun q => decide (e ≤ q.2) := by
  unfold chain
  rw [List.zipIdx_append, List.map_append, List.foldl_append]
  simp

theorem dropWhile_dropWhile {β : Type*} {p q : β → Bool} (h : ∀ x, q x = true → p x = true)
    (l : List β) : (l.dropWhile q).dropWhile p = l.dropWhile p := by
  induction l with
  | nil => rfl
  | cons x l ih =>
    by_cases hq : q x = true
    · rw [List.dropWhile_cons_of_pos hq, ih, List.dropWhile_cons_of_pos (h x hq)]
    · rw [List.dropWhile_cons_of_neg hq]

/-- After the pops the top of the stack is the last value below. -/
theorem head?_dropWhile_chain (d : α) (ds : List α) :
    ((chain ds).dropWhile fun q => decide (d ≤ q.2)).head?.map Prod.fst = lastBelow d ds := by
  induction ds using List.reverseRecOn with
  | nil => rfl
  | append_singleton ds e ih =>
    rw [chain_concat, lastBelow_concat]
    by_cases he : e < d
    · rw [List.dropWhile_cons_of_neg (by simpa using he), if_pos he]
      rfl
    · have hle : d ≤ e := le_of_not_gt he
      rw [List.dropWhile_cons_of_pos (by simpa using hle), if_neg he, dropWhile_dropWhile, ih]
      intro q hq
      simp only [decide_eq_true_eq] at hq ⊢
      exact hle.trans hq

end NearestBelow
