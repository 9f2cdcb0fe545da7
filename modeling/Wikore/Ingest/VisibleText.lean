import Wikore.Ingest.Chunker

/-! What of a text is read: its bytes but for white space.  A trim at both ends keeps them. -/

namespace Wikore.Parser

open Chunker (isspace substr findFirstNotOf findLastNotOf)
open Chunker (findFirstNotOf_some findFirstNotOf_none findLastNotOf_some findLastNotOf_none)

def visible (s : List UInt8) : List UInt8 := s.filter fun c => !isspace c

theorem visible_append (s t : List UInt8) : visible (s ++ t) = visible s ++ visible t :=
  List.filter_append ..

theorem visible_cons_space {c : UInt8} (h : isspace c = true) (s : List UInt8) :
    visible (c :: s) = visible s := by
  rw [visible, List.filter_cons_of_neg (by simp [h])]
  rfl

theorem visible_cons {c : UInt8} (h : isspace c = false) (s : List UInt8) :
    visible (c :: s) = c :: visible s := by
  rw [visible, List.filter_cons_of_pos (by simp [h])]
  rfl

theorem visible_cons_congr (c : UInt8) {s t : List UInt8} (h : visible s = visible t) :
    visible (c :: s) = visible (c :: t) := by
  cases hc : isspace c with
  | true => rw [visible_cons_space hc, visible_cons_space hc, h]
  | false => rw [visible_cons hc, visible_cons hc, h]

theorem isspace_of_visible {s : List UInt8} (h : visible s = []) : ∀ c ∈ s, isspace c = true := by
  intro c hc
  have := List.filter_eq_nil_iff.mp h c hc
  simpa using this

theorem visible_of_isspace {s : List UInt8} (h : ∀ c ∈ s, isspace c = true) : visible s = [] := by
  rw [visible, List.filter_eq_nil_iff]
  intro c hc
  rw [h c hc]
  exact Bool.false_ne_true

section Trim

variable {set s : List UInt8} {p : UInt8 → Bool}

theorem filter_eq_nil_of_mem (hset : ∀ c ∈ set, p c = false) (h : ∀ c ∈ s, c ∈ set) :
    s.filter p = [] := by
  rw [List.filter_eq_nil_iff]
  intro c hc
  rw [hset c (h c hc)]
  exact Bool.false_ne_true

theorem filter_of_findFirstNotOf_none (hset : ∀ c ∈ set, p c = false)
    (h : findFirstNotOf set s = none) : s.filter p = [] :=
  filter_eq_nil_of_mem hset (findFirstNotOf_none h)

/-- The first byte that is not of the set comes no later than the last one. -/
theorem findFirstNotOf_le {first last : Nat} (hfirst : findFirstNotOf set s = some first)
    (hlast : findLastNotOf set s = some last) : first ≤ last := by
  obtain ⟨-, hbefore⟩ := findFirstNotOf_some hfirst
  obtain ⟨hllt, hkeep, -⟩ := findLastNotOf_some hlast
  by_contra hgt
  exact hkeep (hbefore last hllt (by omega))

/-- Around what is between the first and the last byte that is not of the set are bytes of the
set. -/
theorem exists_around {first last : Nat} (hfirst : findFirstNotOf set s = some first)
    (hlast : findLastNotOf set s = some last) :
    ∃ front back, s = front ++ (substr s first (last - first + 1) ++ back) ∧
      (∀ c ∈ front, c ∈ set) ∧ ∀ c ∈ back, c ∈ set := by
  have hle := findFirstNotOf_le hfirst hlast
  obtain ⟨hflt, hbefore⟩ := findFirstNotOf_some hfirst
  obtain ⟨hllt, -, hafter⟩ := findLastNotOf_some hlast
  refine ⟨s.take first, s.drop (last + 1), ?_, fun c hc => ?_, fun c hc => ?_⟩
  · have hdrop : s.drop (last + 1) = (s.drop first).drop (last - first + 1) := by
      rw [List.drop_drop]
      congr 1
      omega
    rw [substr, hdrop, List.take_append_drop, List.take_append_drop]
  · obtain ⟨i, hi, rfl⟩ := List.mem_take_iff_getElem.mp hc
    exact hbefore i (by omega) (by omega)
  · obtain ⟨i, hi, rfl⟩ := List.mem_drop_iff_getElem.mp hc
    exact hafter _ (by omega) (by omega)

/-- A filter that drops the bytes of the set does not see the trim. -/
theorem filter_substr {first last : Nat} (hset : ∀ c ∈ set, p c = false)
    (hfirst : findFirstNotOf set s = some first) (hlast : findLastNotOf set s = some last) :
    (substr s first (last - first + 1)).filter p = s.filter p := by
  obtain ⟨front, back, hs, hfront, hback⟩ := exists_around hfirst hlast
  conv => rhs; rw [hs]
  rw [List.filter_append, List.filter_append, filter_eq_nil_of_mem hset hfront,
    filter_eq_nil_of_mem hset hback, List.nil_append, List.append_nil]

end Trim

/-! ### Parts of a text -/

theorem flatMap_filter_sublist {α β : Type} (f : α → List β) (p : α → Bool) (l : List α) :
    ((l.filter p).flatMap f).Sublist (l.flatMap f) := by
  induction l with
  | nil => exact List.Sublist.refl []
  | cons x l ih =>
    rw [List.filter_cons, List.flatMap_cons]
    split
    · rw [List.flatMap_cons]
      exact (List.Sublist.refl _).append ih
    · exact List.sublist_append_of_sublist_right ih

/-- A part of the pieces says the same as all of them if the others are empty. -/
theorem flatMap_filter_eq_iff {α β : Type} (f : α → List β) (p : α → Bool) (l : List α) :
    (l.filter p).flatMap f = l.flatMap f ↔ ∀ x ∈ l, p x = false → f x = [] := by
  induction l with
  | nil => simp
  | cons x l ih =>
    rw [List.filter_cons, List.flatMap_cons, List.forall_mem_cons, ← ih]
    cases hp : p x with
    | true => simp
    | false =>
      have hle := (flatMap_filter_sublist f p l).length_le
      constructor
      · intro h
        have h : (l.filter p).flatMap f = f x ++ l.flatMap f := h
        have hlen := congrArg List.length h
        rw [List.length_append] at hlen
        have hnil : f x = [] := List.length_eq_zero_iff.mp (by omega)
        rw [hnil] at h
        exact ⟨fun _ => hnil, h⟩
      · rintro ⟨hnil, h⟩
        rw [hnil rfl]
        exact h

end Wikore.Parser
