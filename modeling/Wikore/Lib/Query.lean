import Mathlib.Data.List.Dedup
import Mathlib.Data.List.Find

/-! Lists as tables: outer joins, and lookups by a key that one row at most has. -/

namespace Query

variable {α β : Type*}

/-- The right side of a `LEFT JOIN`: the matching rows, or one `NULL` when there is none. -/
def leftJoin (rows : List β) (p : β → Bool) : List (Option β) :=
  if rows.any p then (rows.filter p).map some else [none]

/-- One row at most satisfies `p`. -/
def AtMostOne (rows : List α) (p : α → Bool) : Prop :=
  ∀ a ∈ rows, ∀ b ∈ rows, p a = true → p b = true → a = b

/-- A lookup by a unique key finds the row that has it, wherever it stands. -/
theorem find?_eq_some_iff {rows : List α} {p : α → Bool} (h : AtMostOne rows p) {a : α} :
    rows.find? p = some a ↔ a ∈ rows ∧ p a = true := by
  constructor
  · intro hf
    exact ⟨List.mem_of_find?_eq_some hf, List.find?_some hf⟩
  · rintro ⟨ha, hp⟩
    cases hf : rows.find? p with
    | none => exact absurd hp (List.find?_eq_none.mp hf a ha)
    | some b =>
      have hb := List.mem_of_find?_eq_some hf
      rw [h b hb a ha (List.find?_some hf) hp]

/-- Tables with the same rows give the same answer to a lookup by a unique key. -/
theorem find?_congr {rows : List α} {p : α → Bool} (h : AtMostOne rows p) (rows' : List α)
    (hmem : ∀ a, p a = true → (a ∈ rows ↔ a ∈ rows')) : rows.find? p = rows'.find? p := by
  have h' : AtMostOne rows' p := fun a ha b hb hpa hpb =>
    h a ((hmem a hpa).mpr ha) b ((hmem b hpb).mpr hb) hpa hpb
  apply Option.ext
  intro a
  rw [find?_eq_some_iff h, find?_eq_some_iff h']
  constructor
  · exact fun ⟨ha, hp⟩ => ⟨(hmem a hp).mp ha, hp⟩
  · exact fun ⟨ha, hp⟩ => ⟨(hmem a hp).mpr ha, hp⟩

theorem filter_eq_singleton {rows : List α} {p : α → Bool} (h : AtMostOne rows p)
    (hnodup : rows.Nodup) {a : α} (ha : a ∈ rows) (hp : p a = true) : rows.filter p = [a] := by
  have hall : ∀ b ∈ rows.filter p, b = a := by
    intro b hb
    obtain ⟨hb, hpb⟩ := List.mem_filter.mp hb
    exact h b hb a ha hpb hp
  have hmem : a ∈ rows.filter p := List.mem_filter.mpr ⟨ha, hp⟩
  have hnd : (rows.filter p).Nodup := hnodup.filter p
  cases hl : rows.filter p with
  | nil => simp [hl] at hmem
  | cons b bs =>
    rw [hl] at hall hnd
    obtain rfl : b = a := hall b (by simp)
    have hbs : bs = [] := by
      apply List.eq_nil_iff_forall_not_mem.mpr
      intro x hx
      have hxb := hall x (by simp [hx])
      exact (List.nodup_cons.mp hnd).1 (hxb ▸ hx)
    rw [hbs]

/-- An outer join on a key of the right table adds no rows. -/
theorem leftJoin_eq_find? {rows : List β} {p : β → Bool} (h : AtMostOne rows p)
    (hnodup : rows.Nodup) : leftJoin rows p = [rows.find? p] := by
  unfold leftJoin
  split
  next hany =>
    obtain ⟨b, hb, hp⟩ := List.any_eq_true.mp hany
    rw [filter_eq_singleton h hnodup hb hp, (find?_eq_some_iff h).mpr ⟨hb, hp⟩]
    rfl
  next hany =>
    have hnone : rows.find? p = none := by
      apply List.find?_eq_none.mpr
      intro x hx hp
      exact hany (List.any_eq_true.mpr ⟨x, hx, hp⟩)
    rw [hnone]

/-! ### Insertions -/

section Insert

variable {κ : Type*} [DecidableEq κ] (key : α → κ)

/-- `INSERT ... ON CONFLICT (key) DO NOTHING`: the rows go in one by one, except those whose key is
taken. -/
def insertNew (rows : List α) : List α → List α
  | [] => rows
  | x :: xs => if key x ∈ rows.map key then insertNew rows xs else insertNew (rows ++ [x]) xs

theorem insertNew_nil (rows : List α) : insertNew key rows [] = rows := rfl

theorem insertNew_cons (rows : List α) (x : α) (xs : List α) : insertNew key rows (x :: xs) =
    if key x ∈ rows.map key then insertNew key rows xs else insertNew key (rows ++ [x]) xs := rfl

theorem insertNew_of_mem {key : α → κ} {rows : List α} {x : α} (h : key x ∈ rows.map key) :
    insertNew key rows [x] = rows := by
  rw [insertNew_cons, if_pos h, insertNew_nil]

theorem insertNew_of_not_mem {key : α → κ} {rows : List α} {x : α} (h : key x ∉ rows.map key) :
    insertNew key rows [x] = rows ++ [x] := by
  rw [insertNew_cons, if_neg h, insertNew_nil]

/-- Rows with keys of their own all go in. -/
theorem insertNew_of_fresh {key : α → κ} {rows new : List α} (hnew : (new.map key).Nodup)
    (hfresh : ∀ x ∈ new, key x ∉ rows.map key) : insertNew key rows new = rows ++ new := by
  induction new generalizing rows with
  | nil => rw [insertNew_nil, List.append_nil]
  | cons x xs ih =>
    obtain ⟨hx, hxs⟩ := List.nodup_cons.mp hnew
    have hfresh' : ∀ y ∈ xs, key y ∉ (rows ++ [x]).map key := by
      intro y hy
      rw [List.map_append, List.mem_append, not_or]
      refine ⟨hfresh y (List.mem_cons_of_mem x hy), fun h => hx ?_⟩
      rw [← List.mem_singleton.mp h]
      exact List.mem_map_of_mem hy
    rw [insertNew_cons, if_neg (hfresh x List.mem_cons_self), ih hxs hfresh', List.append_assoc]
    rfl

theorem prefix_insertNew (key : α → κ) (rows new : List α) : rows <+: insertNew key rows new := by
  induction new generalizing rows with
  | nil => exact List.prefix_refl rows
  | cons x xs ih =>
    rw [insertNew_cons]
    split
    · exact ih rows
    · exact List.IsPrefix.trans (List.prefix_append rows [x]) (ih (rows ++ [x]))

theorem subset_insertNew {key : α → κ} {rows : List α} (new : List α) :
    rows ⊆ insertNew key rows new :=
  (prefix_insertNew key rows new).subset

/-- Every row is an old one or one of those that were to go in. -/
theorem mem_or_mem_of_mem_insertNew {key : α → κ} {rows new : List α} {y : α}
    (hy : y ∈ insertNew key rows new) : y ∈ rows ∨ y ∈ new := by
  induction new generalizing rows with
  | nil => exact .inl hy
  | cons x xs ih =>
    rw [insertNew_cons] at hy
    split at hy
    · exact (ih hy).imp_right (List.mem_cons_of_mem x)
    · rcases ih hy with hy | hy
      · rcases List.mem_append.mp hy with hy | hy
        · exact .inl hy
        · exact .inr (List.mem_singleton.mp hy ▸ List.mem_cons_self)
      · exact .inr (List.mem_cons_of_mem x hy)

/-- Every row that was to go in has its key there afterwards. -/
theorem exists_mem_insertNew {key : α → κ} {rows new : List α} {x : α} (hx : x ∈ new) :
    ∃ y ∈ insertNew key rows new, key y = key x := by
  induction new generalizing rows with
  | nil => cases hx
  | cons z zs ih =>
    rw [insertNew_cons]
    split
    next hz =>
      rcases List.mem_cons.mp hx with rfl | hx
      · obtain ⟨y, hy, hk⟩ := List.mem_map.mp hz
        exact ⟨y, subset_insertNew zs hy, hk⟩
      · exact ih hx
    next =>
      rcases List.mem_cons.mp hx with rfl | hx
      · exact ⟨x, subset_insertNew zs (List.mem_append_right rows List.mem_cons_self), rfl⟩
      · exact ih hx

theorem insertNew_append (key : α → κ) (rows xs ys : List α) :
    insertNew key rows (xs ++ ys) = insertNew key (insertNew key rows xs) ys := by
  induction xs generalizing rows with
  | nil => rfl
  | cons x xs ih =>
    rw [List.cons_append, insertNew_cons, insertNew_cons]
    split
    · exact ih rows
    · exact ih (rows ++ [x])

/-- The first row with a key stays. -/
theorem find?_insertNew (key : α → κ) (rows new : List α) (k : κ) :
    (insertNew key rows new).find? (fun r => decide (key r = k)) =
      (rows ++ new).find? fun r => decide (key r = k) := by
  induction new generalizing rows with
  | nil => rw [insertNew_nil, List.append_nil]
  | cons x xs ih =>
    rw [insertNew_cons]
    split
    next hx =>
      obtain ⟨r, hr, hrx⟩ := List.mem_map.mp hx
      rw [ih, List.find?_append, List.find?_append, List.find?_cons]
      split
      next hk =>
        -- a row with the key of `x` stands before it
        have hsome : (rows.find? fun r => decide (key r = k)).isSome := by
          rw [List.find?_isSome]
          exact ⟨r, hr, by rw [hrx]; exact hk⟩
        obtain ⟨r', hr'⟩ := Option.isSome_iff_exists.mp hsome
        rw [hr', Option.some_or, Option.some_or]
      next => rfl
    next => rw [ih, List.append_assoc, List.singleton_append]

/-- Keys stay distinct. -/
theorem nodup_insertNew {key : α → κ} {rows : List α} (h : (rows.map key).Nodup) (new : List α) :
    ((insertNew key rows new).map key).Nodup := by
  induction new generalizing rows with
  | nil => exact h
  | cons x xs ih =>
    rw [insertNew_cons]
    split
    next => exact ih h
    next hx =>
      apply ih
      rw [List.map_append, List.nodup_append]
      refine ⟨h, List.nodup_singleton _, ?_⟩
      rintro k hk k' hk' rfl
      exact hx (List.mem_singleton.mp hk' ▸ hk)

end Insert

section Set

variable {α : Type*}

/-- A row is still there after another one is put in the place of `x`, or it is `x`. -/
theorem mem_set_or_eq {rows : List α} {k : Nat} {x y : α} (hk : rows[k]? = some x) (hy : y ∈ rows)
    (z : α) : y ∈ rows.set k z ∨ y = x := by
  obtain ⟨j, hj⟩ := List.mem_iff_getElem?.mp hy
  by_cases hjk : j = k
  · subst hjk
    exact .inr (Option.some.inj (hj.symm.trans hk))
  · refine .inl (List.mem_of_getElem? (i := j) ?_)
    rw [List.getElem?_set_ne (Ne.symm hjk), hj]

end Set

section Lookup

/-! The row with a given key, after one row is inserted, replaced or removed. -/

variable {α κ : Type*} [DecidableEq κ] (key : α → κ) {rows : List α} {a b : α} {x : κ}

theorem find?_insert (hnew : ∀ r ∈ rows, key r ≠ key a) (k : κ) :
    (rows ++ [a]).find? (fun r => decide (key r = k)) =
      if k = key a then some a else rows.find? fun r => decide (key r = k) := by
  simp only [List.find?_append, List.find?_singleton]
  by_cases hk : k = key a
  · subst hk
    have hnone : rows.find? (fun r => decide (key r = key a)) = none := by simpa using hnew
    simp [hnone]
  · have hne : key a ≠ k := fun h => hk h.symm
    simp [hk, hne]

/-- The new row may take another key, one that no row has. -/
theorem find?_replace (ha : rows.find? (fun r => decide (key r = x)) = some a)
    (hb : key b = x ∨ ∀ r ∈ rows, key r ≠ key b) (k : κ) :
    (rows.map fun r => if key r = x then b else r).find? (fun r => decide (key r = k)) =
      if k = key b then some b
      else if k = x then none else rows.find? fun r => decide (key r = k) := by
  rw [List.find?_map]
  by_cases hk : k = key b
  · subst hk
    -- the rows that match are those that were replaced
    have hfind : rows.find? ((fun r => decide (key r = key b)) ∘
        fun r => if key r = x then b else r) = rows.find? fun r => decide (key r = x) := by
      apply List.find?_congr
      intro r hr
      by_cases hx : key r = x
      · simp [hx]
      · rcases hb with hb | hb
        · simp [hx, hb]
        · simp [hx, hb r hr]
    have hax : key a = x := by simpa using List.find?_some ha
    rw [hfind, ha, if_pos rfl, Option.map_some, if_pos hax]
  · have hkb : key b ≠ k := fun h => hk h.symm
    rw [if_neg hk]
    by_cases hkx : k = x
    · subst hkx
      have hnone : rows.find? ((fun r => decide (key r = k)) ∘
          fun r => if key r = k then b else r) = none := by
        rw [List.find?_eq_none]
        intro r _
        by_cases hx : key r = k <;> simp [hx, hkb]
      rw [hnone, if_pos rfl]
      rfl
    · have hfind : rows.find? ((fun r => decide (key r = k)) ∘
          fun r => if key r = x then b else r) = rows.find? fun r => decide (key r = k) := by
        apply List.find?_congr
        intro r _
        by_cases hx : key r = x
        · have hxk : x ≠ k := fun h => hkx h.symm
          simp [hx, hkb, hxk]
        · simp [hx]
      rw [hfind, if_neg hkx]
      cases hr : rows.find? fun r => decide (key r = k) with
      | none => rfl
      | some r =>
        have hrk : key r = k := by simpa using List.find?_some hr
        simp [hrk, hkx]

theorem find?_remove (rows : List α) (x k : κ) :
    (rows.filter fun r => decide (key r ≠ x)).find? (fun r => decide (key r = k)) =
      if k = x then none else rows.find? fun r => decide (key r = k) := by
  rw [List.find?_filter]
  by_cases hk : k = x
  · simp [hk]
  · rw [if_neg hk]
    apply List.find?_congr
    intro r _
    by_cases hr : key r = k <;> simp [hr, hk]

end Lookup

end Query
