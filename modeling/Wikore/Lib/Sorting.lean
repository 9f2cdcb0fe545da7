import Mathlib.Data.List.Sort

/-! Sorts by a key that need not be stable, and when the keys come out as a given ordered list. -/

namespace Sorting

variable {α β : Type*} [LinearOrder β]

/-- What a sort by a key promises: the same items, in the order of their keys. -/
structure Sorts (key : α → β) (sort : List α → List α) : Prop where
  perm : ∀ l, (sort l).Perm l
  ordered : ∀ l, ((sort l).map key).Pairwise (· ≤ ·)

variable {key : α → β} {sort : List α → List α} {l l' : List α} {ks : List β}

theorem Sorts.mem_iff (h : Sorts key sort) {a : α} : a ∈ sort l ↔ a ∈ l := (h.perm l).mem_iff

theorem Sorts.length_eq (h : Sorts key sort) : (sort l).length = l.length := (h.perm l).length_eq

/-- The keys come out as the ordered list `ks` exactly when they are a permutation of it. -/
theorem Sorts.keys_eq_iff (h : Sorts key sort) (hks : ks.Pairwise (· ≤ ·)) :
    (sort l).map key = ks ↔ (l.map key).Perm ks := by
  constructor
  · rintro rfl
    exact ((h.perm l).map key).symm
  · intro hperm
    exact (((h.perm l).map key).trans hperm).eq_of_pairwise' (h.ordered l) hks

/-- Where no two items share a key, the order of the items does not count. -/
theorem Sorts.eq_of_perm (h : Sorts key sort) (hperm : l.Perm l') (hkeys : (l.map key).Nodup) :
    sort l = sort l' := by
  have hinj : ∀ a ∈ l, ∀ b ∈ l, key a = key b → a = b := fun a ha b hb he =>
    List.inj_on_of_nodup_map hkeys ha hb he
  have hsorted : (sort l).Perm (sort l') := (h.perm l).trans (hperm.trans (h.perm l').symm)
  have hle : ∀ m, (sort m).Pairwise fun a b => key a ≤ key b := fun m =>
    List.pairwise_map.mp (h.ordered m)
  refine List.Perm.eq_of_pairwise ?_ (hle l) (hle l') hsorted
  intro a b ha hb hab hba
  exact hinj a (h.mem_iff.mp ha) b (hperm.mem_iff.mpr (h.mem_iff.mp hb)) (le_antisymm hab hba)

theorem mergeSort_sorts (key : α → β) :
    Sorts key fun l => l.mergeSort fun a b => decide (key a ≤ key b) where
  perm l := List.mergeSort_perm l _
  ordered l := by
    have hsorted : (l.mergeSort fun a b => decide (key a ≤ key b)).Pairwise
        fun a b => decide (key a ≤ key b) = true := List.pairwise_mergeSort
      (fun a b c hab hbc => by
        simp only [decide_eq_true_eq] at hab hbc ⊢
        exact le_trans hab hbc)
      (fun a b => by simpa using le_total (key a) (key b)) l
    simpa [List.pairwise_map] using hsorted

end Sorting
