import Mathlib.Data.Option.Basic

/-! Computations that spend from a budget.  One that asks for more than is left is cut off. -/

namespace Budget

variable {α β : Type}

abbrev Limited (α : Type) := StateT Nat Option α

/-- Nothing is paid for from an empty budget, not even nothing. -/
def consume (n : Nat) : Limited Unit := fun remaining =>
  if remaining = 0 ∨ remaining < n then none else some ((), remaining - n)

def truncate : Limited α := fun _ => none

/-- What a computation returns, if it is not cut off. -/
def Returns (x : Limited α) (P : α → Prop) : Prop :=
  ∀ remaining r, x remaining = some r → P r.1

variable {x : Limited α} {f : α → Limited β} {P P' : α → Prop} {Q : β → Prop}

theorem Returns.pure {a : α} (h : P a) : Returns (Pure.pure a : Limited α) P := by
  intro remaining r hr
  cases hr
  exact h

theorem Returns.truncate : Returns (truncate : Limited α) P := nofun

theorem Returns.mono (h : Returns x P) (hp : ∀ a, P a → P' a) : Returns x P' :=
  fun remaining r hr => hp r.1 (h remaining r hr)

theorem Returns.bind (h : Returns x P) (hf : ∀ a, P a → Returns (f a) Q) :
    Returns (x >>= f) Q := by
  intro remaining r hr
  obtain ⟨a, ha, hfa⟩ := Option.bind_eq_some_iff.mp hr
  exact hf a.1 (h remaining a ha) a.2 r hfa

/-- A payment returns nothing to be used. -/
theorem Returns.paid {n : Nat} {f : Unit → Limited β} (h : Returns (f ()) Q) :
    Returns (consume n >>= f) Q :=
  Returns.bind (P := fun _ => True) (fun _ _ _ => trivial) fun _ _ => h

theorem Returns.ite {c : Prop} [Decidable c] {y : Limited α} (hx : c → Returns x P)
    (hy : ¬c → Returns y P) : Returns (if c then x else y) P := by
  split
  next h => exact hx h
  next h => exact hy h

end Budget
