import Mathlib.Data.List.Basic
import Mathlib.Data.List.Induction
import Mathlib.Data.List.Nodup

/-! Tables as lists of rows with a unique key, `INSERT ... ON CONFLICT (key) DO UPDATE`, and what a
sequence of such statements with different keys leaves behind. -/

namespace Upsert

variable {α κ ι : Type} [DecidableEq κ] (key : α → κ) (merge : α → α → α)

/-- The rows after the statement and the row that it returns; `merge old row` is the row that
`DO UPDATE` writes. -/
def upsert (row : α) (rows : List α) : List α × α :=
  match rows.find? fun r => key r = key row with
  | some old => (rows.map fun r => if key r = key row then merge r row else r, merge old row)
  | none => (rows ++ [row], row)

/-- The row under which `row` is stored in `rows`. -/
def stored (rows : List α) (row : α) : α :=
  (upsert key merge row rows).2

/-- The statements for the rows `done`, in this order. -/
def upserts (rows done : List α) : List α :=
  done.foldl (fun rows row => (upsert key merge row rows).1) rows

/-- What such statements make of `rows`. -/
structure Upserted (rows done rows' : List α) : Prop where
  mem_iff : ∀ r, r ∈ rows' ↔
    r ∈ done.map (stored key merge rows) ∨ r ∈ rows ∧ key r ∉ done.map key
  keys : (rows'.map key).Nodup

variable {key merge} {rows done rows' : List α} {row : α}

omit [DecidableEq κ] in
theorem eq_of_key (h : (rows.map key).Nodup) {a b : α} (ha : a ∈ rows) (hb : b ∈ rows)
    (hk : key a = key b) : a = b :=
  List.inj_on_of_nodup_map h ha hb hk

/-- Which row a row is stored under depends on the row with its key only. -/
theorem stored_of_mem (merge : α → α → α) (h : (rows.map key).Nodup) {old : α} (hm : old ∈ rows)
    (hk : key old = key row) : stored key merge rows row = merge old row := by
  have hfind : rows.find? (fun r => key r = key row) = some old := by
    cases hf : rows.find? (fun r => key r = key row) with
    | none =>
      have := List.find?_eq_none.mp hf old hm
      simp [hk] at this
    | some old' =>
      have hk' : key old' = key row := by simpa using List.find?_some hf
      rw [eq_of_key h (List.mem_of_find?_eq_some hf) hm (hk'.trans hk.symm)]
  simp only [stored, upsert, hfind]

theorem stored_of_not_mem (h : ∀ r ∈ rows, key r ≠ key row) :
    stored key merge rows row = row := by
  have hfind : rows.find? (fun r => key r = key row) = none :=
    List.find?_eq_none.mpr fun r hr => by simpa using h r hr
  simp only [stored, upsert, hfind]

theorem key_stored (hmerge : ∀ old row, key (merge old row) = key old) :
    key (stored key merge rows row) = key row := by
  simp only [stored, upsert]
  cases hf : rows.find? (fun r => key r = key row) with
  | none => rfl
  | some old => simpa [hmerge] using List.find?_some hf

/-- One statement replaces the row with its key, or adds one. -/
theorem mem_upsert (h : (rows.map key).Nodup) (r : α) :
    r ∈ (upsert key merge row rows).1 ↔
      r = stored key merge rows row ∨ r ∈ rows ∧ key r ≠ key row := by
  simp only [stored, upsert]
  cases hf : rows.find? (fun r => key r = key row) with
  | none =>
    have hne : ∀ r ∈ rows, key r ≠ key row := by simpa using List.find?_eq_none.mp hf
    rw [List.mem_append, List.mem_singleton, or_comm]
    exact or_congr_right ⟨fun hr => ⟨hr, hne r hr⟩, fun hr => hr.1⟩
  | some old =>
    have hold := List.mem_of_find?_eq_some hf
    have hk : key old = key row := by simpa using List.find?_some hf
    rw [List.mem_map]
    constructor
    · rintro ⟨x, hx, rfl⟩
      by_cases hxk : key x = key row
      · rw [if_pos hxk, eq_of_key h hx hold (hxk.trans hk.symm)]
        exact .inl rfl
      · rw [if_neg hxk]
        exact .inr ⟨hx, hxk⟩
    · rintro (rfl | ⟨hr, hne⟩)
      · exact ⟨old, hold, if_pos hk⟩
      · exact ⟨r, hr, if_neg hne⟩

theorem nodup_upsert (hmerge : ∀ old row, key (merge old row) = key old)
    (h : (rows.map key).Nodup) : ((upsert key merge row rows).1.map key).Nodup := by
  simp only [upsert]
  cases hf : rows.find? (fun r => key r = key row) with
  | none =>
    have hne : ∀ r ∈ rows, key r ≠ key row := by simpa using List.find?_eq_none.mp hf
    rw [List.map_append, List.nodup_append]
    refine ⟨h, by simp, fun a ha b hb => ?_⟩
    obtain ⟨r, hr, rfl⟩ := List.mem_map.mp ha
    obtain rfl := List.mem_singleton.mp hb
    exact hne r hr
  | some old =>
    have hkeys : (rows.map fun r => if key r = key row then merge r row else r).map key =
        rows.map key := by
      rw [List.map_map]
      refine List.map_congr_left fun r _ => ?_
      simp only [Function.comp_apply]
      split
      · exact hmerge r row
      · rfl
    rw [hkeys]
    exact h

/-- A statement that would write a row that is already there changes nothing. -/
theorem upsert_of_mem (h : (rows.map key).Nodup) {old : α} (hm : old ∈ rows)
    (hk : key old = key row) (hsame : merge old row = old) :
    upsert key merge row rows = (rows, old) := by
  have hstored := stored_of_mem merge h hm hk
  simp only [stored, upsert] at hstored ⊢
  cases hf : rows.find? (fun r => key r = key row) with
  | none =>
    have := List.find?_eq_none.mp hf old hm
    simp [hk] at this
  | some old' =>
    rw [hf] at hstored
    rw [Prod.mk.injEq]
    refine ⟨?_, hstored.trans hsame⟩
    refine (List.map_congr_left fun r hr => ?_).trans (List.map_id rows)
    split
    · rename_i hrk
      rw [eq_of_key h hr hm (hrk.trans hk.symm)]
      exact hsame
    · rfl

/-! ### Sequences of statements -/

theorem Upserted.start (h : (rows.map key).Nodup) : Upserted key merge rows [] rows :=
  ⟨by simp, h⟩

/-- Under a key that no statement had so far, a row is stored as it would be at the start. -/
theorem Upserted.stored_eq (hmerge : ∀ old row, key (merge old row) = key old)
    (h : Upserted key merge rows done rows') (hrows : (rows.map key).Nodup)
    (hnew : key row ∉ done.map key) :
    stored key merge rows' row = stored key merge rows row := by
  by_cases hold : ∃ old ∈ rows, key old = key row
  · obtain ⟨old, hm, hk⟩ := hold
    have hm' : old ∈ rows' := (h.mem_iff old).mpr (.inr ⟨hm, hk ▸ hnew⟩)
    rw [stored_of_mem merge h.keys hm' hk, stored_of_mem merge hrows hm hk]
  · push Not at hold
    rw [stored_of_not_mem hold, stored_of_not_mem fun r hr hk => ?_]
    rcases (h.mem_iff r).mp hr with hd | ⟨hr, -⟩
    · obtain ⟨d, hmem, rfl⟩ := List.mem_map.mp hd
      rw [key_stored hmerge] at hk
      exact hnew (List.mem_map.mpr ⟨d, hmem, hk⟩)
    · exact hold r hr hk

/-- The statements so far and one more. -/
theorem Upserted.snoc (hmerge : ∀ old row, key (merge old row) = key old)
    (h : Upserted key merge rows done rows') (hrows : (rows.map key).Nodup)
    (hnew : key row ∉ done.map key) :
    Upserted key merge rows (done ++ [row]) (upsert key merge row rows').1 := by
  refine ⟨fun r => ?_, nodup_upsert hmerge h.keys⟩
  rw [mem_upsert h.keys, h.stored_eq hmerge hrows hnew, h.mem_iff]
  simp only [List.map_append, List.map_cons, List.map_nil, List.mem_append, List.mem_singleton,
    not_or]
  constructor
  · rintro (rfl | ⟨hd | hr, hk⟩)
    · exact .inl (.inr rfl)
    · exact .inl (.inl hd)
    · exact .inr ⟨hr.1, hr.2, hk⟩
  · rintro ((hd | rfl) | ⟨hr, hd, hk⟩)
    · refine .inr ⟨.inl hd, fun hk => hnew ?_⟩
      obtain ⟨d, hmem, rfl⟩ := List.mem_map.mp hd
      rw [key_stored hmerge] at hk
      exact List.mem_map.mpr ⟨d, hmem, hk⟩
    · exact .inl rfl
    · exact .inr ⟨.inr ⟨hr, hd⟩, hk⟩

/-- Statements with different keys leave each new row stored, and the rows with other keys. -/
theorem upserted_upserts (hmerge : ∀ old row, key (merge old row) = key old)
    (hrows : (rows.map key).Nodup) (hdone : (done.map key).Nodup) :
    Upserted key merge rows done (upserts key merge rows done) := by
  induction done using List.reverseRecOn with
  | nil => exact .start hrows
  | append_singleton done row ih =>
    rw [List.map_append, List.nodup_append] at hdone
    have hnew : key row ∉ done.map key := fun hm => hdone.2.2 _ hm _ List.mem_cons_self rfl
    have hlast : upserts key merge rows (done ++ [row]) =
        (upsert key merge row (upserts key merge rows done)).1 := by
      simp [upserts]
    rw [hlast]
    exact (ih hdone.1).snoc hmerge hrows hnew

/-- Statements that would write rows that are already there change nothing. -/
theorem upserts_of_mem (hrows : (rows.map key).Nodup)
    (h : ∀ d ∈ done, ∃ old ∈ rows, key old = key d ∧ merge old d = old) :
    upserts key merge rows done = rows := by
  induction done with
  | nil => rfl
  | cons d done ih =>
    obtain ⟨old, hm, hk, hsame⟩ := h d List.mem_cons_self
    have hfirst := upsert_of_mem hrows hm hk hsame
    simp only [upserts, List.foldl_cons, hfirst] at ih ⊢
    exact ih fun x hx => h x (List.mem_cons_of_mem d hx)

/-- Where a row comes from: it keeps the columns `g` of a row with its key, or it is new. -/
theorem Upserted.origin (g : α → ι) (hmerge : ∀ old row, key (merge old row) = key old)
    (hg : ∀ old row, g (merge old row) = g old) (h : Upserted key merge rows done rows')
    (hrows : (rows.map key).Nodup) {r : α} (hr : r ∈ rows') :
    (∃ old ∈ rows, key old = key r ∧ g old = g r) ∨ r ∈ done := by
  rcases (h.mem_iff r).mp hr with hd | ⟨hm, -⟩
  · obtain ⟨d, hmem, rfl⟩ := List.mem_map.mp hd
    by_cases hold : ∃ old ∈ rows, key old = key d
    · obtain ⟨old, hm, hk⟩ := hold
      rw [stored_of_mem merge hrows hm hk]
      exact .inl ⟨old, hm, (hmerge old d).symm, (hg old d).symm⟩
    · push Not at hold
      rw [stored_of_not_mem hold]
      exact .inr hmem
  · exact .inl ⟨r, hm, rfl, rfl⟩

/-- A column that updates keep stays unique when the new rows have new values in it. -/
theorem Upserted.unique (g : α → ι) (hmerge : ∀ old row, key (merge old row) = key old)
    (hg : ∀ old row, g (merge old row) = g old) (h : Upserted key merge rows done rows')
    (hrows : (rows.map key).Nodup) (hids : (rows.map g).Nodup) (hnew : (done.map g).Nodup)
    (hfresh : ∀ d ∈ done, g d ∉ rows.map g) : (rows'.map g).Nodup := by
  rw [List.nodup_map_iff_inj_on (List.Nodup.of_map key h.keys)]
  intro a ha b hb hab
  rcases h.origin g hmerge hg hrows ha with ⟨x, hx, hxk, hxg⟩ | hda
  · rcases h.origin g hmerge hg hrows hb with ⟨y, hy, hyk, hyg⟩ | hdb
    · have hxy : x = y := eq_of_key hids hx hy (hxg.trans (hab.trans hyg.symm))
      exact eq_of_key h.keys ha hb (hxk.symm.trans (hxy ▸ hyk))
    · exact absurd (List.mem_map.mpr ⟨x, hx, hxg.trans hab⟩) (hfresh b hdb)
  · rcases h.origin g hmerge hg hrows hb with ⟨y, hy, hyk, hyg⟩ | hdb
    · exact absurd (List.mem_map.mpr ⟨y, hy, hyg.trans hab.symm⟩) (hfresh a hda)
    · exact eq_of_key hnew hda hdb hab

end Upsert
