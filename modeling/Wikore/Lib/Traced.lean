import Wikore.Lib.Fallible

/-! Computations that return a value or an error and leave a record of the calls they made. -/

/-- What a computation returns, with its calls in the order they were made. -/
structure Traced (κ ε α : Type) where
  calls : List κ
  result : Except ε α

namespace Traced

open Fallible

variable {κ ε α β : Type}

/-- The second part runs, and makes its calls, when the first returns. -/
def andThen (x : Traced κ ε α) (f : α → Traced κ ε β) : Traced κ ε β :=
  match x.result with
  | .error e => ⟨x.calls, .error e⟩
  | .ok a => ⟨x.calls ++ (f a).calls, (f a).result⟩

instance : Monad (Traced κ ε) where
  pure a := ⟨[], .ok a⟩
  bind := andThen

/-- A call with its answer. -/
def call (c : κ) (answer : Except ε α) : Traced κ ε α := ⟨[c], answer⟩

/-- What is computed without a call. -/
def plain (r : Except ε α) : Traced κ ε α := ⟨[], r⟩

variable {x : Traced κ ε α} {f g : α → Traced κ ε β} {a : α} {e : ε} {c : κ}

@[simp] theorem calls_pure : (pure a : Traced κ ε α).calls = [] := rfl

@[simp] theorem result_pure : (pure a : Traced κ ε α).result = .ok a := rfl

@[simp] theorem calls_plain (r : Except ε α) : (plain r : Traced κ ε α).calls = [] := rfl

@[simp] theorem result_plain (r : Except ε α) : (plain r : Traced κ ε α).result = r := rfl

@[simp] theorem calls_call (r : Except ε α) : (call c r).calls = [c] := rfl

@[simp] theorem result_call (r : Except ε α) : (call c r).result = r := rfl

theorem bind_of_ok (h : x.result = .ok a) :
    x >>= f = ⟨x.calls ++ (f a).calls, (f a).result⟩ := by
  change andThen x f = _
  rw [andThen, h]

theorem bind_of_error (h : x.result = .error e) : x >>= f = ⟨x.calls, .error e⟩ := by
  change andThen x f = _
  rw [andThen, h]

@[simp] theorem result_bind : (x >>= f).result = x.result >>= fun a => (f a).result := by
  cases h : x.result with
  | error e => rw [bind_of_error h]; rfl
  | ok a => rw [bind_of_ok h]; rfl

/-- A call is made by the first part, or by the second with what the first returned. -/
theorem mem_calls_bind :
    c ∈ (x >>= f).calls ↔ c ∈ x.calls ∨ ∃ a, x.result = .ok a ∧ c ∈ (f a).calls := by
  cases h : x.result with
  | error e =>
    rw [bind_of_error h]
    simp
  | ok a =>
    rw [bind_of_ok h]
    simp

/-- Computations are equal that differ in the second part only, and not on what the first returns. -/
theorem bind_congr (h : ∀ a, x.result = .ok a → f a = g a) : x >>= f = x >>= g := by
  cases hx : x.result with
  | error e => rw [bind_of_error hx, bind_of_error hx]
  | ok a => rw [bind_of_ok hx, bind_of_ok hx, h a hx]

/-- Computations are equal whose first parts make the same calls and fail alike, where what they
return is treated alike. -/
theorem bind_related {y : Traced κ ε α} (hcalls : x.calls = y.calls)
    (herror : ∀ e, x.result = .error e ↔ y.result = .error e)
    (hok : ∀ a b, x.result = .ok a → y.result = .ok b → f a = g b) : x >>= f = y >>= g := by
  cases hx : x.result with
  | error e => rw [bind_of_error hx, bind_of_error ((herror e).mp hx), hcalls]
  | ok a =>
    cases hy : y.result with
    | error e => exact absurd (hx.symm.trans ((herror e).mpr hy)) (ok_ne_error a e)
    | ok b => rw [bind_of_ok hx, bind_of_ok hy, hok a b hx hy, hcalls]

theorem ok_bind (a : α) (k : α → Except ε β) : (.ok a >>= k : Except ε β) = k a := rfl

/-! ### Calls in an order -/

/-- The calls have ranks from `lo` up to, but not including, `hi`, each higher than those before it,
and all satisfy `P`. -/
structure Orderly (rank : κ → Nat) (P : κ → Prop) (lo hi : Nat) (x : Traced κ ε α) : Prop where
  ascending : x.calls.Pairwise fun c d => rank c < rank d
  within : ∀ c ∈ x.calls, lo ≤ rank c ∧ rank c < hi
  each : ∀ c ∈ x.calls, P c

variable {rank : κ → Nat} {P : κ → Prop} {lo mid hi lo' hi' : Nat}

theorem Orderly.of_nil (h : x.calls = []) : Orderly rank P lo hi x := by
  constructor <;> simp [h]

theorem orderly_call (r : Except ε α) (hrank : rank c = lo) (hp : P c) :
    Orderly rank P lo (lo + 1) (call c r) := by
  constructor <;> simp [call, hrank, hp]

theorem Orderly.mono (h : Orderly rank P lo hi x) (hlo : lo' ≤ lo) (hhi : hi ≤ hi') :
    Orderly rank P lo' hi' x := by
  refine ⟨h.ascending, fun c hc => ?_, h.each⟩
  have := h.within c hc
  omega

/-- The ranks of the second part follow those of the first. -/
theorem Orderly.bind (hx : Orderly rank P lo mid x) (hle : lo ≤ mid) (hle' : mid ≤ hi)
    (hf : ∀ a, x.result = .ok a → Orderly rank P mid hi (f a)) :
    Orderly rank P lo hi (x >>= f) := by
  cases h : x.result with
  | error e =>
    have hmono := hx.mono (Nat.le_refl lo) hle'
    rw [bind_of_error h]
    exact ⟨hmono.ascending, hmono.within, hmono.each⟩
  | ok a =>
    have hfa := hf a h
    rw [bind_of_ok h]
    refine ⟨?_, fun c hc => ?_, fun c hc => ?_⟩
    · refine List.pairwise_append.mpr ⟨hx.ascending, hfa.ascending, fun c hc d hd => ?_⟩
      have hc := (hx.within c hc).2
      have hd := (hfa.within d hd).1
      omega
    · rcases List.mem_append.mp hc with hc | hc
      · have := hx.within c hc
        omega
      · have := hfa.within c hc
        omega
    · rcases List.mem_append.mp hc with hc | hc
      · exact hx.each c hc
      · exact hfa.each c hc

/-- What comes before makes no calls. -/
theorem Orderly.plain_bind {r : Except ε α} (hle : lo ≤ hi)
    (hf : ∀ a, r = .ok a → Orderly rank P lo hi (f a)) :
    Orderly rank P lo hi (plain r >>= f) :=
  Orderly.bind (.of_nil rfl) (Nat.le_refl lo) hle hf

/-! ### Calls of a run that succeeds -/

/-- A run that returns has made calls of just these ranks. -/
def Makes (rank : κ → Nat) (ranks : List Nat) (x : Traced κ ε α) : Prop :=
  ∀ a, x.result = .ok a → x.calls.map rank = ranks

variable {ranks ranks' : List Nat}

theorem makes_pure (a : α) : Makes rank [] (pure a : Traced κ ε α) := fun _ _ => rfl

theorem makes_plain (r : Except ε α) : Makes rank [] (plain r : Traced κ ε α) := fun _ _ => rfl

theorem makes_call (c : κ) (r : Except ε α) : Makes rank [rank c] (call c r) := fun _ _ => rfl

theorem Makes.bind (hx : Makes rank ranks x) (hf : ∀ a, Makes rank ranks' (f a)) :
    Makes rank (ranks ++ ranks') (x >>= f) := by
  intro b hb
  rw [result_bind, bind_ok] at hb
  obtain ⟨a, ha, hb⟩ := hb
  rw [bind_of_ok ha, List.map_append, hx a ha, hf a b hb]

end Traced
