import Mathlib.Data.List.Basic
import Mathlib.Data.List.Chain
import Mathlib.Order.Nat

/-! Tables that keep every version of a row with the interval in which it was current, as-of lookups
in them, and how they follow the log of the row that they shadow. -/

namespace Timeline

/-- A version of the row `key`, current from `start` until `stop` or, with no `stop`, still. -/
structure Version (κ α : Type) where
  key : κ
  value : α
  start : Nat
  stop : Option Nat
deriving DecidableEq, Repr

variable {κ α β : Type}

/-- The version was current at `t`. -/
def Version.Covers (r : Version κ α) (t : Nat) : Prop :=
  r.start ≤ t ∧ r.stop.all (fun u => decide (t < u)) = true

instance (r : Version κ α) (t : Nat) : Decidable (r.Covers t) := inferInstanceAs (Decidable (_ ∧ _))

/-- The values that were current at `t`. -/
def asOf (rows : List (Version κ α)) (t : Nat) : List α :=
  (rows.filter fun r => r.Covers t).map Version.value

def opened (rows : List (Version κ α)) : List α :=
  (rows.filter fun r => r.stop.isNone).map Version.value

/-- Ends an open version at `t`. -/
def Version.close (t : Nat) (r : Version κ α) : Version κ α :=
  match r.stop with
  | none => { r with stop := some t }
  | some _ => r

/-- The value that a log of states had at `t`: that of the last entry up to then. -/
def stateAt (log : List (Nat × Option β)) (t : Nat) : Option β :=
  ((log.filter fun e => e.1 ≤ t).getLast?).bind Prod.snd

/-- The value that a log has at its end. -/
def latest (log : List (Nat × Option β)) : Option β := log.getLast?.bind Prod.snd

section Lookup

variable {rows : List (Version κ α)} {r : Version κ α} {t u : Nat}

theorem asOf_append (rows' : List (Version κ α)) :
    asOf (rows ++ rows') t = asOf rows t ++ asOf rows' t := by
  simp [asOf]

theorem opened_append (rows' : List (Version κ α)) :
    opened (rows ++ rows') = opened rows ++ opened rows' := by
  simp [opened]

/-- Before the instant at which it is ended, a version covers what it covered. -/
theorem Version.covers_close (h : t < u) : (r.close u).Covers t ↔ r.Covers t := by
  unfold Version.close Version.Covers
  cases hs : r.stop <;> simp [hs, h]

@[simp] theorem Version.close_value (u : Nat) : (r.close u).value = r.value := by
  unfold Version.close
  cases r.stop <;> rfl

@[simp] theorem Version.close_key (u : Nat) : (r.close u).key = r.key := by
  unfold Version.close
  cases r.stop <;> rfl

@[simp] theorem Version.close_start (u : Nat) : (r.close u).start = r.start := by
  unfold Version.close
  cases r.stop <;> rfl

theorem Version.close_stop (u : Nat) : (r.close u).stop = some (r.stop.getD u) := by
  unfold Version.close
  cases hs : r.stop <;> simp [hs]

theorem asOf_close (h : t < u) : asOf (rows.map (Version.close u)) t = asOf rows t := by
  induction rows with
  | nil => rfl
  | cons r rows ih =>
    simp only [asOf] at ih
    simp only [asOf, List.map_cons, List.filter_cons, Version.covers_close h]
    split <;> simp [ih]

theorem opened_close (u : Nat) : opened (rows.map (Version.close u)) = [] := by
  simp [opened, Version.close_stop]

theorem map_close_of_opened (h : opened rows = []) (u : Nat) :
    rows.map (Version.close u) = rows := by
  simp only [opened, List.map_eq_nil_iff, List.filter_eq_nil_iff] at h
  conv_rhs => rw [← List.map_id rows]
  apply List.map_congr_left
  intro r hr
  cases hs : r.stop with
  | none => exact absurd (by simp [hs]) (h r hr)
  | some v => simp [Version.close, hs]

/-- Nothing is current at an instant at which every version has ended. -/
theorem asOf_ended (h : ∀ r ∈ rows, ∃ u ∈ r.stop, u ≤ t) : asOf rows t = [] := by
  simp only [asOf, List.map_eq_nil_iff, List.filter_eq_nil_iff, decide_eq_true_eq]
  rintro r hr ⟨-, hc⟩
  obtain ⟨u, hu, hle⟩ := h r hr
  rw [Option.mem_def.mp hu] at hc
  simp only [Option.all_some, decide_eq_true_eq] at hc
  omega

/-- At an instant past the start of every version and the end of every ended one, the open ones are
current. -/
theorem asOf_opened (hstart : ∀ r ∈ rows, r.start ≤ t) (hstop : ∀ r ∈ rows, ∀ u ∈ r.stop, u ≤ t) :
    asOf rows t = opened rows := by
  unfold asOf opened
  congr 1
  apply List.filter_congr
  intro r hr
  have hs := hstart r hr
  have hu := hstop r hr
  cases h : r.stop with
  | none => simp [Version.Covers, h, hs]
  | some u =>
    have hle := hu u h
    simp [Version.Covers, h, hle]

theorem asOf_single_later (h : t < r.start) : asOf [r] t = [] := by
  simp [asOf, Version.Covers, Nat.not_le.mpr h]

end Lookup

section Log

variable {log : List (Nat × Option β)} {live : Option β} {t u : Nat}

theorem stateAt_append_lt (h : t < u) : stateAt (log ++ [(u, live)]) t = stateAt log t := by
  simp [stateAt, Nat.not_le.mpr h]

theorem stateAt_append_le (h : u ≤ t) : stateAt (log ++ [(u, live)]) t = live := by
  simp [stateAt, h]

@[simp] theorem latest_append : latest (log ++ [(u, live)]) = live := by
  simp [latest]

theorem stateAt_eq_latest (h : ∀ e ∈ log, e.1 ≤ t) : stateAt log t = latest log := by
  have hall : log.filter (fun e => e.1 ≤ t) = log := by
    rw [List.filter_eq_self]
    exact fun e he => decide_eq_true (h e he)
  rw [stateAt, hall, latest]

theorem exists_of_stateAt {v : β} (h : stateAt log t = some v) : ∃ e ∈ log, e.2 = some v := by
  obtain ⟨e, he, hv⟩ := Option.bind_eq_some_iff.mp h
  exact ⟨e, (List.mem_filter.mp (List.mem_of_getLast? he)).1, hv⟩

end Log

/-- The versions of one row, in the order in which they were written, up to `now`: each begins and
ends in order and no later than `now`, and ends before the next begins. -/
structure Ordered (now : Nat) (rows : List (Version κ α)) : Prop where
  started : ∀ r ∈ rows, r.start ≤ now
  stopped : ∀ r ∈ rows, ∀ u ∈ r.stop, r.start ≤ u ∧ u ≤ now
  disjoint : rows.Pairwise fun r r' => ∃ u ∈ r.stop, u ≤ r'.start

theorem Ordered.mono {now now' : Nat} {rows : List (Version κ α)} (h : Ordered now rows)
    (hle : now ≤ now') : Ordered now' rows where
  started r hr := (h.started r hr).trans hle
  stopped r hr u hu := ⟨(h.stopped r hr u hu).1, (h.stopped r hr u hu).2.trans hle⟩
  disjoint := h.disjoint

section Ordered

variable {now τ : Nat} {rows : List (Version κ α)} {r : Version κ α}

/-- After the versions are ended at `τ`, each has ended by then. -/
theorem Ordered.close_ended (h : Ordered now rows) (hτ : now ≤ τ) :
    ∀ r ∈ rows.map (Version.close τ), ∃ u ∈ r.stop, u ≤ τ := by
  intro r' hr'
  obtain ⟨r, hr, rfl⟩ := List.mem_map.mp hr'
  refine ⟨r.stop.getD τ, by rw [Version.close_stop]; rfl, ?_⟩
  cases hs : r.stop with
  | none => exact Nat.le_refl _
  | some u => exact (h.stopped r hr u hs).2.trans hτ

theorem Ordered.close (h : Ordered now rows) (hτ : now ≤ τ) :
    Ordered τ (rows.map (Version.close τ)) where
  started r' hr' := by
    obtain ⟨r, hr, rfl⟩ := List.mem_map.mp hr'
    rw [Version.close_start]
    exact (h.started r hr).trans hτ
  stopped r' hr' u hu := by
    obtain ⟨r, hr, rfl⟩ := List.mem_map.mp hr'
    rw [Version.close_stop] at hu
    obtain rfl := Option.some.inj hu
    rw [Version.close_start]
    cases hs : r.stop with
    | none => exact ⟨(h.started r hr).trans hτ, Nat.le_refl _⟩
    | some u =>
      have hu := h.stopped r hr u hs
      exact ⟨hu.1, hu.2.trans hτ⟩
  disjoint := by
    rw [List.pairwise_map]
    apply h.disjoint.imp
    rintro r r' ⟨u, hu, hle⟩
    refine ⟨u, ?_, by rwa [Version.close_start]⟩
    rw [Version.close_stop, Option.mem_def.mp hu]
    rfl

/-- A version that begins at `τ` follows versions that have all ended by then. -/
theorem Ordered.append (h : Ordered τ rows) (hended : ∀ r ∈ rows, ∃ u ∈ r.stop, u ≤ τ)
    (hstart : r.start = τ) (hstop : ∀ u ∈ r.stop, u = τ) : Ordered τ (rows ++ [r]) where
  started r' hr' := by
    rcases List.mem_append.mp hr' with hr' | hr'
    · exact h.started r' hr'
    · obtain rfl := List.mem_singleton.mp hr'
      exact hstart.le
  stopped r' hr' u hu := by
    rcases List.mem_append.mp hr' with hr' | hr'
    · exact h.stopped r' hr' u hu
    · obtain rfl := List.mem_singleton.mp hr'
      rw [hstop u hu, hstart]
      exact ⟨Nat.le_refl _, Nat.le_refl _⟩
  disjoint := by
    rw [List.pairwise_append]
    refine ⟨h.disjoint, List.pairwise_singleton _ _, ?_⟩
    intro r1 hr1 r2 hr2
    obtain rfl := List.mem_singleton.mp hr2
    rw [hstart]
    exact hended r1 hr1

end Ordered

/-- No two versions were current at once. -/
def Disjoint (rows : List (Version κ α)) : Prop :=
  rows.Pairwise fun r r' => ∀ t, ¬(r.Covers t ∧ r'.Covers t)

theorem Ordered.not_covers {now : Nat} {rows : List (Version κ α)} (h : Ordered now rows) :
    Disjoint rows := by
  refine h.disjoint.imp ?_
  rintro r r' ⟨u, hu, hle⟩ t ⟨⟨-, hend⟩, hbegin, -⟩
  rw [Option.mem_def.mp hu] at hend
  simp only [Option.all_some, decide_eq_true_eq] at hend
  omega

/-- One version ends when the next begins. -/
def Contiguous (rows : List (Version κ α)) : Prop :=
  rows.IsChain fun r r' => r.stop = some r'.start

theorem Contiguous.put {τ : Nat} {rows : List (Version κ α)} {r : Version κ α}
    (h : Contiguous rows) (hopen : opened rows ≠ []) (hstart : r.start = τ) :
    Contiguous (rows.map (Version.close τ) ++ [r]) := by
  induction rows with
  | nil => exact absurd rfl hopen
  | cons r1 rows ih =>
    cases rows with
    | nil =>
      -- the only version is the open one
      have hr1 : r1.stop = none := by
        cases hs : r1.stop with
        | none => rfl
        | some u => simp [opened, hs] at hopen
      simp [Contiguous, Version.close_stop, hr1, hstart]
    | cons r2 rows =>
      obtain ⟨h12, h2⟩ := List.isChain_cons_cons.mp h
      have hopen2 : opened (r2 :: rows) ≠ [] := by
        simpa [opened, List.filter_cons, h12] using hopen
      refine List.isChain_cons_cons.mpr ⟨?_, ih h2 hopen2⟩
      rw [Version.close_stop, h12, Version.close_start]
      rfl

/-- From `since` on, the versions of a row tell what its log tells, seen through `view`; `live` is
the row now. -/
structure Records (view : α → β) (since now : Nat) (rows : List (Version κ α))
    (log : List (Nat × Option β)) (live : Option β) : Prop extends Ordered now rows where
  current : (opened rows).map view = live.toList
  lookup : ∀ t, since ≤ t → (asOf rows t).map view = (stateAt log t).toList

namespace Records

variable {view : α → β} {since now τ : Nat} {rows : List (Version κ α)}
  {log : List (Nat × Option β)} {live : Option β} {r : Version κ α}

/-- The row stays as it is. -/
theorem tick (h : Records view since now rows log live) (hτ : now < τ) :
    Records view since τ rows (log ++ [(τ, live)]) live where
  toOrdered := h.toOrdered.mono hτ.le
  current := h.current
  lookup t ht := by
    rcases Nat.lt_or_ge t τ with hlt | hle
    · rw [stateAt_append_lt hlt]
      exact h.lookup t ht
    · have hstart : ∀ r ∈ rows, r.start ≤ t := fun r hr => by have := h.started r hr; omega
      have hstop : ∀ r ∈ rows, ∀ u ∈ r.stop, u ≤ t :=
        fun r hr u hu => by have := (h.stopped r hr u hu).2; omega
      rw [asOf_opened hstart hstop, stateAt_append_le hle]
      exact h.current

theorem mono (h : Records view since now rows log live) (hle : now ≤ τ) :
    Records view since τ rows log live where
  toOrdered := h.toOrdered.mono hle
  current := h.current
  lookup := h.lookup

/-- The row takes a new value: its open version is ended and another is begun. -/
theorem put (h : Records view since now rows log live) (hτ : now < τ) (hstart : r.start = τ)
    (hstop : r.stop = none) :
    Records view since τ (rows.map (Version.close τ) ++ [r]) (log ++ [(τ, some (view r.value))])
      (some (view r.value)) where
  toOrdered :=
    (h.toOrdered.close hτ.le).append (h.toOrdered.close_ended hτ.le) hstart (by simp [hstop])
  current := by
    rw [opened_append, opened_close]
    simp [opened, hstop]
  lookup t ht := by
    rw [asOf_append]
    rcases Nat.lt_or_ge t τ with hlt | hle
    · rw [asOf_close hlt, asOf_single_later (hstart ▸ hlt), List.append_nil,
        stateAt_append_lt hlt]
      exact h.lookup t ht
    · have hended : asOf (rows.map (Version.close τ)) t = [] := by
        apply asOf_ended
        intro r hr
        obtain ⟨u, hu, hu'⟩ := h.toOrdered.close_ended hτ.le r hr
        exact ⟨u, hu, hu'.trans hle⟩
      rw [hended, stateAt_append_le hle]
      simp [asOf, Version.Covers, hstart, hstop, hle]

/-- The row is taken away: its open version is ended. -/
theorem stop (h : Records view since now rows log live) (hτ : now < τ) :
    Records view since τ (rows.map (Version.close τ)) (log ++ [(τ, none)]) none where
  toOrdered := h.toOrdered.close hτ.le
  current := by
    rw [opened_close]
    rfl
  lookup t ht := by
    rcases Nat.lt_or_ge t τ with hlt | hle
    · rw [asOf_close hlt, stateAt_append_lt hlt]
      exact h.lookup t ht
    · have hended : asOf (rows.map (Version.close τ)) t = [] := by
        apply asOf_ended
        intro r hr
        obtain ⟨u, hu, hu'⟩ := h.toOrdered.close_ended hτ.le r hr
        exact ⟨u, hu, hu'.trans hle⟩
      rw [hended, stateAt_append_le hle]
      rfl

/-- The row is taken away, and a version that covers no instant marks it. -/
theorem drop (h : Records view since now rows log live) (hτ : now < τ) (hstart : r.start = τ)
    (hstop : r.stop = some τ) :
    Records view since τ (rows.map (Version.close τ) ++ [r]) (log ++ [(τ, none)]) none where
  toOrdered :=
    (h.toOrdered.close hτ.le).append (h.toOrdered.close_ended hτ.le) hstart (by simp [hstop])
  current := by
    rw [opened_append, opened_close]
    simp [opened, hstop]
  lookup t ht := by
    have hmarker : asOf [r] t = [] := by
      rcases Nat.lt_or_ge t τ with hlt | hle
      · exact asOf_single_later (hstart ▸ hlt)
      · exact asOf_ended (by simp [hstop, hle])
    rw [asOf_append, hmarker, List.append_nil]
    exact (h.stop hτ).lookup t ht

/-- The first version of a row, which may begin before the row is there. -/
theorem first (hstart : r.start ≤ τ) (hstop : r.stop = none) :
    Records view τ τ [r] (log ++ [(τ, some (view r.value))]) (some (view r.value)) where
  started r' hr' := by
    obtain rfl := List.mem_singleton.mp hr'
    exact hstart
  stopped r' hr' u hu := by
    obtain rfl := List.mem_singleton.mp hr'
    simp [hstop] at hu
  disjoint := List.pairwise_singleton _ _
  current := by simp [opened, hstop]
  lookup t ht := by
    rw [stateAt_append_le ht]
    simp [asOf, Version.Covers, hstop, hstart.trans ht]

end Records

/-! ### A table of versions of many rows -/

section Table

variable [DecidableEq κ] {table : List (Version κ α)} {k j : κ} {τ : Nat}

/-- The versions of one row. -/
def rowsOf (k : κ) (table : List (Version κ α)) : List (Version κ α) :=
  table.filter fun r => r.key = k

/-- Ends the open version of one row. -/
def closeOpen (k : κ) (τ : Nat) (table : List (Version κ α)) : List (Version κ α) :=
  table.map fun r => if r.key = k then r.close τ else r

theorem rowsOf_append (table' : List (Version κ α)) :
    rowsOf k (table ++ table') = rowsOf k table ++ rowsOf k table' := by
  simp [rowsOf]

theorem rowsOf_closeOpen_self :
    rowsOf k (closeOpen k τ table) = (rowsOf k table).map (Version.close τ) := by
  induction table with
  | nil => rfl
  | cons r table ih =>
    simp only [rowsOf, closeOpen] at ih
    simp only [rowsOf, closeOpen, List.map_cons, List.filter_cons]
    by_cases hk : r.key = k
    · simp [hk, ih]
    · simp [hk, ih]

theorem rowsOf_closeOpen_ne (h : j ≠ k) : rowsOf j (closeOpen k τ table) = rowsOf j table := by
  induction table with
  | nil => rfl
  | cons r table ih =>
    simp only [rowsOf, closeOpen] at ih
    simp only [rowsOf, closeOpen, List.map_cons, List.filter_cons]
    by_cases hk : r.key = k
    · have hj : r.key ≠ j := fun hj => h (hj.symm.trans hk)
      simp [hk, ih, hk ▸ hj]
    · simp [hk, ih]

end Table

end Timeline
