import Mathlib.Data.Finset.Card
import Mathlib.Data.List.Basic
import Mathlib.Data.Finset.Range

/-! Two kinds of events in a log: when the second kind never outnumbers the first, each event of the
second kind can be given an earlier one of the first kind, no two the same. -/

namespace Matching

variable {α : Type*} [DecidableEq α] {a b : α} {l : List α}

/-- The places of `a` in the log. -/
def places (l : List α) (a : α) : Finset ℕ := (Finset.range l.length).filter fun n => l[n]? = some a

theorem mem_places {n : ℕ} : n ∈ places l a ↔ l[n]? = some a := by
  simp only [places, Finset.mem_filter, Finset.mem_range, and_iff_right_iff_imp]
  intro h
  exact (List.getElem?_eq_some_iff.mp h).1

theorem getElem?_snoc {x : α} {n : ℕ} :
    (l ++ [x])[n]? = some a ↔ l[n]? = some a ∨ n = l.length ∧ x = a := by
  rw [List.getElem?_append]
  split
  next h =>
    constructor
    · exact .inl
    · rintro (ha | ⟨rfl, -⟩)
      · exact ha
      · omega
  next h =>
    rw [List.getElem?_eq_none (Nat.le_of_not_lt h)]
    by_cases hn : n = l.length
    · simp [hn]
    · have hpos : n - l.length ≠ 0 := by omega
      simp [hn, hpos]

theorem card_places : (places l a).card = l.count a := by
  induction l using List.reverseRecOn with
  | nil => simp [places]
  | append_singleton l x ih =>
    by_cases hx : x = a
    · have hnew : l.length ∉ places l a := by
        rw [mem_places, List.getElem?_eq_none (le_refl _)]
        simp
      have heq : places (l ++ [x]) a = insert l.length (places l a) := by
        ext n
        rw [Finset.mem_insert, mem_places, mem_places, getElem?_snoc]
        tauto
      rw [heq, Finset.card_insert_of_notMem hnew, ih, List.count_append, hx]
      simp
    · have heq : places (l ++ [x]) a = places l a := by
        ext n
        rw [mem_places, mem_places, getElem?_snoc]
        tauto
      rw [heq, ih, List.count_append]
      simp [hx]

/-- Each `b` of the log follows an `a` of its own. -/
def Follows (l : List α) (a b : α) : Prop :=
  ∃ f : ℕ → ℕ, (∀ n, l[n]? = some b → f n < n ∧ l[f n]? = some a) ∧
    ∀ n m, l[n]? = some b → l[m]? = some b → f n = f m → n = m

theorem Follows.snoc_ne {x : α} (h : Follows l a b) (hx : x ≠ b) : Follows (l ++ [x]) a b := by
  obtain ⟨f, hf, hinj⟩ := h
  have hold : ∀ n, (l ++ [x])[n]? = some b → l[n]? = some b := fun n hn => by
    rcases getElem?_snoc.mp hn with hn | ⟨-, heq⟩
    · exact hn
    · exact absurd heq hx
  refine ⟨f, fun n hn => ?_, fun n m hn hm => hinj n m (hold n hn) (hold m hm)⟩
  obtain ⟨hlt, ha⟩ := hf n (hold n hn)
  exact ⟨hlt, getElem?_snoc.mpr (.inl ha)⟩

/-- One more `b` finds an `a` that is free, while there are more of them. -/
theorem Follows.snoc (h : Follows l a b) (hlt : l.count b < l.count a) :
    Follows (l ++ [b]) a b := by
  obtain ⟨f, hf, hinj⟩ := h
  have hcard : ((places l b).image f).card < (places l a).card := by
    refine lt_of_le_of_lt Finset.card_image_le ?_
    rw [card_places, card_places]
    exact hlt
  obtain ⟨i, hi, hfree⟩ := Finset.exists_mem_notMem_of_card_lt_card hcard
  rw [mem_places] at hi
  have hlen : i < l.length := (List.getElem?_eq_some_iff.mp hi).1
  have hne : ∀ n, l[n]? = some b → n ≠ l.length := by
    intro n hn heq
    have := (List.getElem?_eq_some_iff.mp hn).1
    omega
  have htaken : ∀ n, l[n]? = some b → f n ≠ i := fun n hn heq =>
    hfree (heq ▸ Finset.mem_image_of_mem f (mem_places.mpr hn))
  refine ⟨Function.update f l.length i, fun n hn => ?_, fun n m hn hm hnm => ?_⟩
  · rcases getElem?_snoc.mp hn with hn | ⟨rfl, -⟩
    · rw [Function.update_of_ne (hne n hn)]
      exact ⟨(hf n hn).1, getElem?_snoc.mpr (.inl (hf n hn).2)⟩
    · rw [Function.update_self]
      exact ⟨hlen, getElem?_snoc.mpr (.inl hi)⟩
  · rcases getElem?_snoc.mp hn with hn | ⟨rfl, -⟩ <;> rcases getElem?_snoc.mp hm with hm | ⟨rfl, -⟩
    · rw [Function.update_of_ne (hne n hn), Function.update_of_ne (hne m hm)] at hnm
      exact hinj n m hn hm hnm
    · rw [Function.update_of_ne (hne n hn), Function.update_self] at hnm
      exact absurd hnm (htaken n hn)
    · rw [Function.update_of_ne (hne m hm), Function.update_self] at hnm
      exact absurd hnm.symm (htaken m hm)
    · rfl

omit [DecidableEq α] in
theorem follows_nil : Follows ([] : List α) a b := ⟨id, by simp, by simp⟩

end Matching
