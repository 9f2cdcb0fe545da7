import Mathlib.Logic.Basic

/-! Database statements as computations that read and write a state and may raise.  A computation
keeps the changes it made before it raised; `exec`, the boundary of a statement, undoes them. -/

namespace Statement

variable {ε σ α β : Type}

/-- Runs a statement.  One that raises leaves the state as it was. -/
def exec (m : EStateM ε σ Unit) (s : σ) : σ × Option ε :=
  match m s with
  | .ok _ s' => (s', none)
  | .error e _ => (s, some e)

/-- The state after a sequence of statements, each of which returns or raises. -/
def execAll (s : σ) : List (EStateM ε σ Unit) → σ
  | [] => s
  | m :: ms => execAll (exec m s).1 ms

/-- Raises `e` when `c` holds. -/
def raiseIf (c : Prop) [Decidable c] (e : ε) : EStateM ε σ Unit :=
  if c then throw e else pure ()

/-- Raises the error that is there, if any. -/
def raiseSome : Option ε → EStateM ε σ Unit
  | some e => throw e
  | none => pure ()

/-- Runs a statement for each element of a list. -/
def forEach (f : α → EStateM ε σ Unit) : List α → EStateM ε σ Unit
  | [] => pure ()
  | x :: xs => do
    f x
    forEach f xs

section Ok

/-! What a computation that returned did. -/

variable {s s' : σ} {a a' : α} {b : β} {e : ε}

theorem bind_ok {m : EStateM ε σ α} {f : α → EStateM ε σ β} :
    (m >>= f) s = .ok b s' ↔ ∃ a s1, m s = .ok a s1 ∧ f a s1 = .ok b s' := by
  show EStateM.bind m f s = _ ↔ _
  unfold EStateM.bind
  cases m s with
  | ok a s1 =>
    constructor
    · exact fun h => ⟨a, s1, rfl, h⟩
    · rintro ⟨_, _, h1, h2⟩
      cases h1
      exact h2
  | error e s1 => simp

theorem pure_ok : (pure a : EStateM ε σ α) s = .ok a' s' ↔ a = a' ∧ s = s' := by
  show EStateM.pure a s = _ ↔ _
  simp [EStateM.pure]

theorem get_ok {s1 : σ} : (get : EStateM ε σ σ) s = .ok s1 s' ↔ s = s1 ∧ s = s' := by
  show (.ok s s : EStateM.Result ε σ σ) = _ ↔ _
  simp

theorem modify_ok {f : σ → σ} {u : Unit} :
    (modify f : EStateM ε σ Unit) s = .ok u s' ↔ f s = s' := by
  show (.ok PUnit.unit (f s) : EStateM.Result ε σ Unit) = _ ↔ _
  simp

theorem throw_ok : (throw e : EStateM ε σ α) s = .ok a s' ↔ False := by
  show (.error e s : EStateM.Result ε σ α) = _ ↔ _
  simp

theorem raiseIf_ok {c : Prop} [Decidable c] {u : Unit} :
    (raiseIf c e : EStateM ε σ Unit) s = .ok u s' ↔ ¬c ∧ s = s' := by
  unfold raiseIf
  by_cases h : c
  · simp [h, throw_ok]
  · simp [h, pure_ok]

theorem raiseSome_ok {o : Option ε} {u : Unit} :
    (raiseSome o : EStateM ε σ Unit) s = .ok u s' ↔ o = none ∧ s = s' := by
  cases o with
  | none => simp [raiseSome, pure_ok]
  | some e => simp [raiseSome, throw_ok]

/-! The same for the first of two computations. -/

theorem get_bind_ok {f : σ → EStateM ε σ β} :
    ((get : EStateM ε σ σ) >>= f) s = .ok b s' ↔ f s s = .ok b s' := by
  rw [bind_ok]
  simp [get_ok, and_assoc]

theorem modify_bind_ok {f : σ → σ} {g : Unit → EStateM ε σ β} :
    ((modify f : EStateM ε σ Unit) >>= g) s = .ok b s' ↔ g () (f s) = .ok b s' := by
  rw [bind_ok]
  simp only [modify_ok, exists_eq_left']
  exact ⟨fun ⟨_, h⟩ => h, fun h => ⟨(), h⟩⟩

theorem raiseIf_bind_ok {c : Prop} [Decidable c] {f : Unit → EStateM ε σ β} :
    ((raiseIf c e : EStateM ε σ Unit) >>= f) s = .ok b s' ↔ ¬c ∧ f () s = .ok b s' := by
  rw [bind_ok]
  simp only [raiseIf_ok, and_assoc, exists_and_left, exists_eq_left']
  exact and_congr_right fun _ => ⟨fun ⟨_, h⟩ => h, fun h => ⟨(), h⟩⟩

theorem raiseSome_bind_ok {o : Option ε} {f : Unit → EStateM ε σ β} :
    ((raiseSome o : EStateM ε σ Unit) >>= f) s = .ok b s' ↔ o = none ∧ f () s = .ok b s' := by
  rw [bind_ok]
  simp only [raiseSome_ok, and_assoc, exists_and_left, exists_eq_left']
  exact and_congr_right fun _ => ⟨fun ⟨_, h⟩ => h, fun h => ⟨(), h⟩⟩

theorem ite_ok {c : Prop} [Decidable c] {m n : EStateM ε σ α} :
    (if c then m else n) s = .ok a s' ↔ (c ∧ m s = .ok a s') ∨ (¬c ∧ n s = .ok a s') := by
  by_cases h : c <;> simp [h]

/-- What every element's statement preserves, the whole loop preserves. -/
theorem forEach_ok {f : α → EStateM ε σ Unit} {P : List α → σ → Prop} {xs : List α} {u : Unit}
    (hstep : ∀ x ∈ xs, ∀ done t t', P done t → f x t = .ok () t' → P (done ++ [x]) t')
    (h : forEach f xs s = .ok u s') {done : List α} (hs : P done s) : P (done ++ xs) s' := by
  induction xs generalizing s done with
  | nil =>
    obtain ⟨-, rfl⟩ := pure_ok.mp h
    simpa using hs
  | cons x xs ih =>
    obtain ⟨_, s1, h1, h2⟩ := bind_ok.mp h
    have := ih (fun y hy => hstep y (by simp [hy])) h2 (hstep x (by simp) done s s1 hs h1)
    simpa using this

end Ok

theorem ok_of_exec {m : EStateM ε σ Unit} {s : σ} (h : (exec m s).2 = none) :
    m s = .ok () (exec m s).1 := by
  unfold exec at h ⊢
  split <;> simp_all

/-- A statement that raised changed nothing. -/
theorem exec_raised {m : EStateM ε σ Unit} {s : σ} {e : ε} (h : (exec m s).2 = some e) :
    (exec m s).1 = s := by
  unfold exec at h ⊢
  split <;> simp_all

/-- A property of the state before a statement and of the states it can return in. -/
theorem exec_preserves {P : σ → Prop} {m : EStateM ε σ Unit} {s : σ} (hs : P s)
    (h : ∀ s', m s = .ok () s' → P s') : P (exec m s).1 := by
  unfold exec
  split
  · rename_i s' hm
    exact h s' hm
  · exact hs

theorem execAll_preserves {P : σ → Prop} {ms : List (EStateM ε σ Unit)} {s : σ} (hs : P s)
    (h : ∀ m ∈ ms, ∀ t t', P t → m t = .ok () t' → P t') : P (execAll s ms) := by
  induction ms generalizing s with
  | nil => exact hs
  | cons m ms ih =>
    exact ih (exec_preserves hs fun s' => h m (by simp) s s' hs) fun m' hm => h m' (by simp [hm])

end Statement
