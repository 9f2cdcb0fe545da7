import Mathlib.Order.Lattice
import Mathlib.Data.Set.Insert

/-! A register of versions and a ledger that is kept apart from it.  A writer first puts its version
into the register and then records it; in between its version is pending.  The ledger keeps the
newest version that was recorded. -/

namespace Ledger

variable {ν : Type*} [LinearOrder ν]

/-- The ledger after the version `v` was recorded. -/
def newest (record : Option ν) (v : ν) : ν := record.elim v (max v)

/-- The register is never behind what is recorded or pending, and what it holds is recorded or
pending, unless nothing is. -/
structure Tracked (register record : Option ν) (pending : Set ν) : Prop where
  pending_le : ∀ v ∈ pending, ∃ q ∈ register, v ≤ q
  record_le : ∀ v ∈ record, ∃ q ∈ register, v ≤ q
  accounted : ∀ q ∈ register, q ∈ record ∨ q ∈ pending ∨ record = none ∧ pending = ∅

/-- A pending write of `v` can be given up. -/
def Dispensable (record : Option ν) (pending : Set ν) (v : ν) : Prop :=
  (∃ r ∈ record, v ≤ r) ∨ v ∈ pending ∨ record = none ∧ pending = ∅

variable {register record : Option ν} {pending : Set ν} {v : ν}

theorem Tracked.empty : Tracked (none : Option ν) none ∅ := ⟨nofun, nofun, nofun⟩

theorem Tracked.accounted_of_dispensable {q : ν} (hrec : ∀ r ∈ record, r ≤ q)
    (h : Dispensable record pending q) : q ∈ record ∨ q ∈ pending ∨ record = none ∧ pending = ∅ := by
  rcases h with ⟨r, hr, hle⟩ | h
  · have heq : r = q := le_antisymm (hrec r hr) hle
    exact .inl (heq ▸ hr)
  · exact .inr h

theorem Tracked.congr {pending' : Set ν} (h : Tracked register record pending)
    (heq : ∀ v, v ∈ pending' ↔ v ∈ pending) : Tracked register record pending' := by
  rw [Set.ext heq]
  exact h

/-- A write that is not behind. -/
theorem Tracked.write (hrec : ∀ r ∈ record, r ≤ v) (hpend : ∀ p ∈ pending, p ≤ v) :
    Tracked (some v) record (insert v pending) where
  pending_le p hp := by
    refine ⟨v, rfl, ?_⟩
    rcases hp with rfl | hp
    · exact le_refl p
    · exact hpend p hp
  record_le r hr := ⟨v, rfl, hrec r hr⟩
  accounted q hq := by
    cases hq
    exact .inr (.inl (Set.mem_insert v pending))

/-- A write that is not behind and whose writer does not go on. -/
theorem Tracked.write_lost (hrec : ∀ r ∈ record, r ≤ v) (hpend : ∀ p ∈ pending, p ≤ v)
    (hv : Dispensable record pending v) : Tracked (some v) record pending where
  pending_le p hp := ⟨v, rfl, hpend p hp⟩
  record_le r hr := ⟨v, rfl, hrec r hr⟩
  accounted q hq := by
    cases hq
    exact accounted_of_dispensable hrec hv

theorem Tracked.abandon (h : Tracked register record (insert v pending))
    (hv : v ∈ register → Dispensable record pending v) : Tracked register record pending where
  pending_le p hp := h.pending_le p (Set.mem_insert_of_mem v hp)
  record_le := h.record_le
  accounted q hq := by
    rcases h.accounted q hq with hr | hp | ⟨-, hempty⟩
    · exact .inl hr
    · rcases hp with rfl | hp
      · refine accounted_of_dispensable (fun r hr => ?_) (hv hq)
        obtain ⟨q', hq', hle⟩ := h.record_le r hr
        cases Option.mem_unique hq hq'
        exact hle
      · exact .inr (.inl hp)
    · exact absurd hempty (Set.insert_nonempty v pending).ne_empty

theorem Tracked.recorded (h : Tracked register record (insert v pending)) :
    Tracked register (some (newest record v)) pending := by
  obtain ⟨q, hq, hvq⟩ := h.pending_le v (Set.mem_insert v pending)
  have hle : newest record v ≤ q := by
    cases hrec : record with
    | none => exact hvq
    | some r =>
      obtain ⟨q', hq', hrq⟩ := h.record_le r hrec
      cases Option.mem_unique hq hq'
      exact max_le hvq hrq
  have hge : ∀ r ∈ record, r ≤ newest record v := by
    intro r hr
    cases hr
    exact le_max_right v r
  have hv : v ≤ newest record v := by
    cases record with
    | none => exact le_refl v
    | some r => exact le_max_left v r
  refine ⟨fun p hp => h.pending_le p (Set.mem_insert_of_mem v hp), fun r hr => ?_, fun q' hq' => ?_⟩
  · cases hr
    exact ⟨q, hq, hle⟩
  · cases Option.mem_unique hq hq'
    rcases h.accounted q hq with hr | hp | ⟨-, hempty⟩
    · exact .inl (congrArg some (le_antisymm hle (hge q hr)))
    · rcases hp with rfl | hp
      · exact .inl (congrArg some (le_antisymm hle hv))
      · exact .inr (.inl hp)
    · exact absurd hempty (Set.insert_nonempty v pending).ne_empty

/-- With nothing pending the register holds what is recorded. -/
theorem Tracked.register_eq (h : Tracked register record ∅) (hv : v ∈ record) :
    register = some v := by
  obtain ⟨q, hq, -⟩ := h.record_le v hv
  rcases h.accounted q hq with hr | hp | ⟨hnone, -⟩
  · cases Option.mem_unique hr hv
    exact hq
  · exact absurd hp (Set.notMem_empty q)
  · rw [hnone] at hv
    cases hv

end Ledger
