import Mathlib.Algebra.GroupWithZero.Nat
import Mathlib.Data.List.Basic

/-! Texts made of pieces and of marks, each in their order, with filling between them. -/

namespace Weave

variable {α : Type*} {filler : α → Bool} {m p out out' : List α} {ms ps ms' ps' : List (List α)}

inductive Woven (filler : α → Bool) : List (List α) → List (List α) → List α → Prop
  | nil : Woven filler [] [] []
  | fill {c : α} {ms ps : List (List α)} {out : List α} :
    filler c = true → Woven filler ms ps out → Woven filler ms ps (c :: out)
  | mark {m : List α} {ms ps : List (List α)} {out : List α} :
    Woven filler ms ps out → Woven filler (m :: ms) ps (m ++ out)
  | piece {p : List α} {ms ps : List (List α)} {out : List α} :
    Woven filler ms ps out → Woven filler ms (p :: ps) (p ++ out)

theorem Woven.append (h : Woven filler ms ps out) (h' : Woven filler ms' ps' out') :
    Woven filler (ms ++ ms') (ps ++ ps') (out ++ out') := by
  induction h with
  | nil => exact h'
  | fill hc _ ih => exact .fill hc ih
  | mark _ ih =>
    rw [List.append_assoc]
    exact .mark ih
  | piece _ ih =>
    rw [List.append_assoc]
    exact .piece ih

theorem woven_fill (h : ∀ c ∈ out, filler c = true) : Woven filler [] [] out := by
  induction out with
  | nil => exact .nil
  | cons c out ih =>
    exact .fill (h c List.mem_cons_self) (ih fun d hd => h d (List.mem_cons_of_mem c hd))

theorem woven_piece (p : List α) : Woven filler [] [p] p := by
  have h : Woven filler [] [p] (p ++ []) := .piece .nil
  rwa [List.append_nil] at h

/-- How much of a list is not filling. -/
def weight (filler : α → Bool) (l : List α) : Nat := (l.filter fun c => !filler c).length

theorem weight_append (l l' : List α) :
    weight filler (l ++ l') = weight filler l + weight filler l' := by
  rw [weight, List.filter_append, List.length_append]
  rfl

/-- Nothing but the marks, the pieces and the filling is in the text. -/
theorem Woven.weight_eq (h : Woven filler ms ps out) :
    weight filler out = (ms.map (weight filler)).sum + (ps.map (weight filler)).sum := by
  induction h with
  | nil => rfl
  | fill hc _ ih =>
    rw [weight, List.filter_cons_of_neg (by simp [hc])]
    exact ih
  | mark _ ih =>
    rw [weight_append, ih, List.map_cons, List.sum_cons, Nat.add_assoc]
  | piece _ ih =>
    rw [weight_append, ih, List.map_cons, List.sum_cons, Nat.add_left_comm]

end Weave
