import Mathlib.Data.List.Basic

/-! Computations that return a value or an error, and loops over a list in which an item is taken,
passed over or fatal. -/

namespace Fallible

variable {ε α β σ : Type}

/-- Fails with `e` when `c` holds. -/
def rejectIf (c : Prop) [Decidable c] (e : ε) : Except ε Unit :=
  if c then .error e else .ok ()

theorem bind_ok {x : Except ε α} {f : α → Except ε β} {b : β} :
    (x >>= f) = .ok b ↔ ∃ a, x = .ok a ∧ f a = .ok b := by
  cases x with
  | error e =>
    constructor
    · intro h
      cases h
    · rintro ⟨_, h, _⟩
      cases h
  | ok a =>
    constructor
    · exact fun h => ⟨a, rfl, h⟩
    · rintro ⟨_, h, hf⟩
      cases h
      exact hf

theorem ok_ne_error (a : α) (e : ε) : (.ok a : Except ε α) ≠ .error e := nofun

theorem mapError_map {ε' : Type} (f : ε → ε') (g : α → β) (x : Except ε α) :
    (x.map g).mapError f = (x.mapError f).map g := by
  cases x with
  | error e => rfl
  | ok a => rfl

/-- An error that the second part does not return is one of the first part. -/
theorem bind_ne_error_iff {x : Except ε α} {f : α → Except ε β} {e : ε}
    (hf : ∀ a, f a ≠ .error e) : (x >>= f) ≠ .error e ↔ x ≠ .error e := by
  cases x with
  | error e' =>
    constructor
    · intro h he
      cases he
      exact h rfl
    · intro h he
      cases he
      exact h rfl
  | ok a => exact iff_of_true (hf a) (ok_ne_error a e)

theorem rejectIf_ok {c : Prop} [Decidable c] {e : ε} {u : Unit} :
    rejectIf c e = .ok u ↔ ¬c := by
  unfold rejectIf
  split <;> simp_all

theorem rejectIf_bind_ok {c : Prop} [Decidable c] {e : ε} {f : Unit → Except ε β} {b : β} :
    (rejectIf c e >>= f) = .ok b ↔ ¬c ∧ f () = .ok b := by
  rw [bind_ok]
  constructor
  · rintro ⟨u, h, hf⟩
    exact ⟨rejectIf_ok.mp h, hf⟩
  · rintro ⟨h, hf⟩
    exact ⟨(), rejectIf_ok.mpr h, hf⟩

/-! ### Loops that take or pass over -/

variable (step : σ → α → Except ε (Option σ))

/-- Goes through a list.  A step gives the next state when it takes the item; an item that it passes
over leaves the state as it was. -/
def select (s : σ) : List α → Except ε σ
  | [] => .ok s
  | a :: as => do
    let next ← step s a
    select (next.getD s) as

/-- What `note` says of the items that are taken, each with the state that it is taken in. -/
def taken (note : σ → α → β) (s : σ) : List α → List β
  | [] => []
  | a :: as =>
    match step s a with
    | .error _ => []
    | .ok none => taken note s as
    | .ok (some s') => note s a :: taken note s' as

variable {step} {note : σ → α → β} {s t : σ} {as : List α}

/-- The items that are taken stand in the order of the list. -/
theorem taken_sublist (f : β → α) (hf : ∀ s a, f (note s a) = a) :
    ((taken step note s as).map f).Sublist as := by
  induction as generalizing s with
  | nil => exact List.Sublist.refl []
  | cons a as ih =>
    rw [taken]
    split
    next => exact List.nil_sublist _
    next => exact ih.cons a
    next s' _ =>
      rw [List.map_cons, hf]
      exact ih.cons_cons a

/-- What a step that takes an item preserves, for the notes so far, holds at the end of the loop. -/
theorem select_invariant {P : σ → List β → Prop} (note : σ → α → β) (log : List β) (h : P s log)
    (hstep : ∀ s log a s', P s log → step s a = .ok (some s') → P s' (log ++ [note s a]))
    (hok : select step s as = .ok t) : P t (log ++ taken step note s as) := by
  induction as generalizing s log with
  | nil =>
    rw [select] at hok
    cases hok
    rw [taken, List.append_nil]
    exact h
  | cons a as ih =>
    obtain ⟨next, hnext, hok⟩ := bind_ok.mp hok
    cases next with
    | none =>
      rw [taken, hnext]
      exact ih log h hok
    | some s' =>
      rw [taken, hnext, List.append_cons]
      exact ih (log ++ [note s a]) (hstep s log a s' h hnext) hok

/-- The same for what does not speak of the items. -/
theorem select_preserves {P : σ → Prop} (h : P s)
    (hstep : ∀ s a s', P s → step s a = .ok (some s') → P s') (hok : select step s as = .ok t) :
    P t := by
  exact select_invariant (P := fun s _ => P s) (fun _ _ => ()) [] h
    (fun s _ a s' hs => hstep s a s' hs) hok

end Fallible
