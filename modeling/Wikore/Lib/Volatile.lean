import Mathlib.Data.Option.Basic
import Mathlib.Order.Lattice

/-! A value of a key-value store under a deadline: once the deadline has passed, the key is gone. -/

structure Volatile (α : Type) (τ : Type := Nat) where
  value : α
  deadline : τ
deriving DecidableEq, Repr

namespace Volatile

variable {α τ : Type} [LinearOrder τ] {now : τ} {key : Option (Volatile α τ)} {v : Volatile α τ}

/-- The key at `now`. -/
def current (now : τ) (key : Option (Volatile α τ)) : Option (Volatile α τ) :=
  key.filter fun v => now ≤ v.deadline

/-- What a read of the key finds at `now`. -/
def read (now : τ) (key : Option (Volatile α τ)) : Option α := (current now key).map value

theorem current_some (h : now ≤ v.deadline) : current now (some v) = some v := by
  simp [current, h]

theorem current_expired (h : v.deadline < now) : current now (some v) = none := by
  simp [current, h]

/-- The key as it was, or gone after its deadline. -/
theorem current_cases (now : τ) (key : Option (Volatile α τ)) :
    current now key = key ∨ ∃ v, key = some v ∧ v.deadline < now ∧ current now key = none := by
  rcases key with - | v
  · exact .inl rfl
  · by_cases h : now ≤ v.deadline
    · exact .inl (current_some h)
    · exact .inr ⟨v, rfl, not_le.mp h, current_expired (not_le.mp h)⟩

end Volatile
