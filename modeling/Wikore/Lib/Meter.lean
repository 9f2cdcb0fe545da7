import Mathlib.Data.Option.Basic

/-! Computations that charge a counter and pay back to it.  The counter is a machine word: its
arithmetic is a parameter that is only known where it does not wrap around. -/

namespace Meter

variable {ε α β : Type}

/-- Subtraction and addition of machine words. -/
structure Arithmetic where
  sub : Nat → Nat → Nat
  add : Nat → Nat → Nat

/-- The arithmetic of words below `size`: what it does on wrapping around is not said. -/
structure Arithmetic.Exact (ar : Arithmetic) (size : Nat) : Prop where
  sub_eq : ∀ a b, a < size → b ≤ a → ar.sub a b = a - b
  add_eq : ∀ a b, a + b < size → ar.add a b = a + b

/-- Words that wrap around. -/
def wrapping (size : Nat) : Arithmetic where
  sub a b := (a + size - b) % size
  add a b := (a + b) % size

/-- Numbers without a bound. -/
def natural : Arithmetic where
  sub a b := a - b
  add a b := a + b

theorem wrapping_exact (size : Nat) : (wrapping size).Exact size where
  sub_eq a b ha hb := by
    have hsplit : a + size - b = a - b + size := by omega
    show (a + size - b) % size = a - b
    rw [hsplit, Nat.add_mod_right]
    exact Nat.mod_eq_of_lt (Nat.lt_of_le_of_lt (Nat.sub_le a b) ha)
  add_eq _ _ h := Nat.mod_eq_of_lt h

theorem natural_exact (size : Nat) : natural.Exact size where
  sub_eq _ _ _ _ := rfl
  add_eq _ _ _ := rfl

abbrev Metered (ε α : Type) := StateT Nat (Except ε) α

def stop (e : ε) : Metered ε α := fun _ => .error e

/-- More than is left stops the computation. -/
def charge (ar : Arithmetic) (full : ε) (n : Nat) : Metered ε Unit := fun remaining =>
  if remaining < n then .error full else .ok ((), ar.sub remaining n)

def refund (ar : Arithmetic) (n : Nat) : Metered ε Unit := fun remaining =>
  .ok ((), ar.add remaining n)

variable {ar : Arithmetic} {size n remaining : Nat} {full : ε} {x : Metered ε α}
  {f : α → Metered ε β}

theorem bind_ok {a : α} {r : Nat} (h : x remaining = .ok (a, r)) : (x >>= f) remaining = f a r := by
  show Except.bind (x remaining) _ = _
  rw [h]
  rfl

theorem bind_error {e : ε} (h : x remaining = .error e) : (x >>= f) remaining = .error e := by
  show Except.bind (x remaining) _ = _
  rw [h]
  rfl

/-- Two computations that go on alike from where the first parts end alike. -/
theorem bind_congr {y : Metered ε α} {g : α → Metered ε β} (h : x remaining = y remaining)
    (hf : ∀ a r, y remaining = .ok (a, r) → f a r = g a r) :
    (x >>= f) remaining = (y >>= g) remaining := by
  cases hy : y remaining with
  | error e => rw [bind_error hy, bind_error (h.trans hy)]
  | ok p => rw [bind_ok (a := p.1) (r := p.2) hy, bind_ok (a := p.1) (r := p.2) (h.trans hy), hf _ _ hy]

theorem ok_of_bind {b : β} {r : Nat} (h : (x >>= f) remaining = .ok (b, r)) :
    ∃ a r', x remaining = .ok (a, r') ∧ f a r' = .ok (b, r) := by
  cases hx : x remaining with
  | error e =>
    rw [bind_error hx] at h
    cases h
  | ok p =>
    rw [bind_ok (a := p.1) (r := p.2) hx] at h
    exact ⟨p.1, p.2, rfl, h⟩

theorem charge_ok (har : ar.Exact size) (hsize : remaining < size) (hn : n ≤ remaining) :
    charge ar full n remaining = .ok ((), remaining - n) := by
  rw [charge, if_neg (Nat.not_lt.mpr hn), har.sub_eq remaining n hsize hn]

theorem charge_full (hn : remaining < n) : charge ar full n remaining = .error full := if_pos hn

theorem refund_ok (har : ar.Exact size) (hn : remaining + n < size) :
    (refund ar n : Metered ε Unit) remaining = .ok ((), remaining + n) := by
  rw [refund, har.add_eq remaining n hn]

end Meter
