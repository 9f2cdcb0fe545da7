import Wikore.Schema.Types
import Wikore.Lib.Transition
import Mathlib.Data.Fintype.Basic

/-! `reactivate_user`, called by several sessions at once for one identity.  A call probes for the
row of the identity and then updates it or inserts a new one.  Where a row is there, the calls take
turns at its lock.  Where none is, two calls that both probe before either commits both insert, and
the second one fails. -/

namespace Wikore

open Transition

/-! ### The calls -/

/-- A row of `users`. -/
structure UserRow where
  id : Uuid
  companyId : Uuid
  externalIssuer : String
  externalSub : String
  email : String
  displayName : Option String
  avatarUrl : Option String
  deactivatedAt : Option Nat
  lastSeen : Option Nat
deriving DecidableEq, Repr

/-- What identifies the user at the identity provider. -/
structure Subject where
  companyId : Uuid
  externalIssuer : String
  externalSub : String
deriving DecidableEq, Repr

def UserRow.subject (u : UserRow) : Subject := ⟨u.companyId, u.externalIssuer, u.externalSub⟩

/-- The arguments of a call of `reactivate_user`, and the identifier that it would generate. -/
structure SignIn where
  subject : Subject
  email : String
  displayName : Option String
  avatarUrl : Option String
  newId : Uuid
deriving DecidableEq, Repr

/-- What the `UPDATE` makes of the row. -/
def SignIn.refresh (a : SignIn) (now : Nat) (u : UserRow) : UserRow :=
  { u with
    email := a.email
    displayName := a.displayName
    avatarUrl := a.avatarUrl
    deactivatedAt := none
    lastSeen := some now }

/-- The row of the `INSERT`. -/
def SignIn.newRow (a : SignIn) (now : Nat) : UserRow where
  id := a.newId
  companyId := a.subject.companyId
  externalIssuer := a.subject.externalIssuer
  externalSub := a.subject.externalSub
  email := a.email
  displayName := a.displayName
  avatarUrl := a.avatarUrl
  deactivatedAt := none
  lastSeen := some now

/-- Where a call stands between two of its statements. -/
inductive SignInPhase
  | started
  /-- `SELECT ... FOR UPDATE` has found and locked the row. -/
  | found (id : Uuid)
  | absent
  /-- The row is written and not committed. -/
  | updated (row : UserRow)
  | inserted (row : UserRow)
  | returned (id : Uuid)
  | failed
deriving DecidableEq, Repr

/-- The committed rows of `users`, and the calls. -/
structure SignInWorld (ι : Type) where
  users : List UserRow
  phase : ι → SignInPhase

/-- Two rows that a unique constraint of `users` does not let stand beside each other. -/
def UserRow.Conflicts (u v : UserRow) : Prop :=
  u.id = v.id ∨ u.subject = v.subject ∨ (u.companyId = v.companyId ∧ u.email = v.email)

instance (u v : UserRow) : Decidable (u.Conflicts v) :=
  inferInstanceAs (Decidable (_ ∨ _ ∨ _))

namespace SignInPhase

/-- The row that the call has locked. -/
def lock : SignInPhase → Option Uuid
  | found id => some id
  | updated row => some row.id
  | _ => none

/-- The row that the call has written and not committed. -/
def written : SignInPhase → Option UserRow
  | updated row => some row
  | inserted row => some row
  | _ => none

/-- The call has found no row, and has not returned. -/
def Inserting : SignInPhase → Prop
  | absent => True
  | inserted _ => True
  | _ => False

instance : (p : SignInPhase) → Decidable p.Inserting
  | absent => .isTrue trivial
  | inserted _ => .isTrue trivial
  | started => .isFalse fun h => h
  | found _ => .isFalse fun h => h
  | updated _ => .isFalse fun h => h
  | returned _ => .isFalse fun h => h
  | failed => .isFalse fun h => h

def Ended : SignInPhase → Prop
  | returned _ => True
  | failed => True
  | _ => False

end SignInPhase

namespace SignInWorld

variable {ι : Type}

/-- The rows of the subject. -/
def rowsOf (w : SignInWorld ι) (s : Subject) : List UserRow := w.users.filter fun u => u.subject = s

section Step

variable [DecidableEq ι]

def setPhase (w : SignInWorld ι) (i : ι) (p : SignInPhase) : SignInWorld ι :=
  { w with phase := Function.update w.phase i p }

/-- Another call has written a row that does not stand beside this one, and has not committed. -/
def Blocked (w : SignInWorld ι) (i : ι) (row : UserRow) : Prop :=
  ∃ j, j ≠ i ∧ ((w.phase j).written.any fun v => decide (row.Conflicts v)) = true

variable [Fintype ι]

instance (w : SignInWorld ι) (i : ι) (row : UserRow) : Decidable (w.Blocked i row) :=
  inferInstanceAs (Decidable (∃ j, j ≠ i ∧ _ = true))

/-- The next statement of the call `i`, or its commit.  A statement that waits for another call
leaves everything as it is. -/
def step (args : ι → SignIn) (w : SignInWorld ι) : ι × Nat → SignInWorld ι
  | (i, now) =>
    match w.phase i with
    | .started =>
      match w.rowsOf (args i).subject with
      | [] => w.setPhase i .absent
      | u :: _ =>
        if ∃ j, j ≠ i ∧ (w.phase j).lock = some u.id then w else w.setPhase i (.found u.id)
    | .found id =>
      match w.users.find? fun u => u.id = id with
      | none => w.setPhase i (.returned id)
      | some u =>
        let row := (args i).refresh now u
        if w.Blocked i row then w
        else if ∃ v ∈ w.users, v.id ≠ row.id ∧ row.Conflicts v then w.setPhase i .failed
        else w.setPhase i (.updated row)
    | .absent =>
      let row := (args i).newRow now
      if w.Blocked i row then w
      else if ∃ v ∈ w.users, row.Conflicts v then w.setPhase i .failed
      else w.setPhase i (.inserted row)
    | .updated row =>
      { w.setPhase i (.returned row.id) with
        users := w.users.map fun u => if u.id = row.id then row else u }
    | .inserted row => { w.setPhase i (.returned row.id) with users := w.users ++ [row] }
    | .returned _ | .failed => w

end Step

/-! ### With and without a row -/

section Run

variable {args : ι → SignIn} {s : Subject} {email : String} {w : SignInWorld ι} {u : UserRow}

/-- What a call writes for the subject. -/
def Active (s : Subject) (email : String) (row : UserRow) : Prop :=
  row.subject = s ∧ row.email = email ∧ row.deactivatedAt = none

/-- No row of the subject is committed, and at most one is written. -/
structure NoRow (args : ι → SignIn) (s : Subject) (email : String) (w : SignInWorld ι) : Prop where
  rows : w.rowsOf s = []
  phase : ∀ i, w.phase i = .started ∨ w.phase i = .absent ∨
    ∃ row, w.phase i = .inserted row ∧ Active s email row ∧ row.id = (args i).newId
  one : ∀ i j row row', w.phase i = .inserted row → w.phase j = .inserted row' → i = j
  fresh : ∀ i, ∀ v ∈ w.users, v.id ≠ (args i).newId
  email : ∀ v ∈ w.users, v.companyId = s.companyId → v.email ≠ email

/-- The row of the subject is committed, and at most one call has locked it. -/
structure HasRow (s : Subject) (email : String) (u : UserRow) (w : SignInWorld ι) : Prop where
  rows : w.rowsOf s = [u]
  phase : ∀ i, w.phase i = .started ∨ w.phase i = .absent ∨ w.phase i = .failed ∨
    w.phase i = .found u.id ∨
    (∃ row, w.phase i = .updated row ∧ Active s email row ∧ row.id = u.id) ∨
    (w.phase i = .returned u.id ∧ u.deactivatedAt = none)
  one : ∀ i j id id', (w.phase i).lock = some id → (w.phase j).lock = some id' → i = j
  only : ∀ v ∈ w.users, v.id = u.id → v = u
  email : ∀ v ∈ w.users, v.companyId = s.companyId → v.email = email → v = u

theorem mem_rowsOf {v : UserRow} : v ∈ w.rowsOf s ↔ v ∈ w.users ∧ v.subject = s := by
  rw [rowsOf, List.mem_filter, decide_eq_true_iff]

theorem HasRow.rows_ne (h : HasRow s email u w) : w.rowsOf s ≠ [] := by
  rw [h.rows]
  simp

theorem NoRow.not_mem (h : NoRow args s email w) {v : UserRow} (hv : v ∈ w.users) :
    v.subject ≠ s := by
  intro he
  have hmem := mem_rowsOf.mpr ⟨hv, he⟩
  rw [h.rows] at hmem
  cases hmem

theorem HasRow.mem (h : HasRow s email u w) : u ∈ w.users ∧ u.subject = s := by
  rw [← mem_rowsOf, h.rows]
  exact List.mem_singleton_self u

theorem HasRow.eq_of_subject (h : HasRow s email u w) {v : UserRow} (hv : v ∈ w.users)
    (hs : v.subject = s) : v = u := by
  have hmem := mem_rowsOf.mpr ⟨hv, hs⟩
  rw [h.rows] at hmem
  exact List.mem_singleton.mp hmem

theorem Active.companyId {row : UserRow} (h : Active s email row) : row.companyId = s.companyId :=
  congrArg Subject.companyId h.1

/-- A call that conflicts with nothing that another has written waits for no other. -/
theorem not_blocked {i : ι} {row : UserRow}
    (h : ∀ j v, j ≠ i → (w.phase j).written = some v → ¬row.Conflicts v) : ¬w.Blocked i row := by
  rintro ⟨j, hj, hany⟩
  cases hw : (w.phase j).written with
  | none =>
    rw [hw] at hany
    cases hany
  | some v =>
    rw [hw, Option.any_some, decide_eq_true_iff] at hany
    exact h j v hj hw hany

theorem HasRow.lock_eq (h : HasRow s email u w) {i : ι} {id : Uuid}
    (hi : (w.phase i).lock = some id) : id = u.id := by
  rcases h.phase i with hp | hp | hp | hp | ⟨row, hp, -, hid⟩ | ⟨hp, -⟩ <;> rw [hp] at hi <;> cases hi
  · rfl
  · exact hid

/-- What holds between any two statements. -/
def Consistent (args : ι → SignIn) (s : Subject) (email : String) (w : SignInWorld ι) : Prop :=
  NoRow args s email w ∨ ∃ u, HasRow s email u w

theorem HasRow.no_lock (h : HasRow s email u w) {i : ι} (hi : (w.phase i).lock = some u.id) :
    ∀ j, j ≠ i → (w.phase j).lock = none := by
  intro j hj
  cases hl : (w.phase j).lock with
  | none => rfl
  | some id => exact absurd (h.one j i id u.id hl hi) hj

/-- One call has failed or is going to: two calls have found no row, or one has and a row is
committed. -/
def Overlap (s : Subject) (w : SignInWorld ι) : Prop :=
  (∃ i, w.phase i = .failed) ∨ (∃ i j, i ≠ j ∧ (w.phase i).Inserting ∧ (w.phase j).Inserting) ∨
    (w.rowsOf s ≠ [] ∧ ∃ i, (w.phase i).Inserting)

/-- A call does not probe while another one that found no row is still running. -/
def Alone (s : Subject) (w : SignInWorld ι) (a : ι × Nat) : Prop :=
  w.phase a.1 = .started → w.rowsOf s = [] → ∀ j, j ≠ a.1 → ¬(w.phase j).Inserting

instance [Fintype ι] [DecidableEq ι] (s : Subject) (w : SignInWorld ι) (a : ι × Nat) :
    Decidable (Alone s w a) :=
  inferInstanceAs (Decidable (_ = _ → _ = _ → ∀ j, j ≠ a.1 → ¬(w.phase j).Inserting))

theorem NoRow.overlap_iff (h : NoRow args s email w) :
    Overlap s w ↔ ∃ i j, i ≠ j ∧ (w.phase i).Inserting ∧ (w.phase j).Inserting := by
  constructor
  · rintro (⟨i, hi⟩ | hpair | ⟨hrows, -⟩)
    · rcases h.phase i with hp | hp | ⟨row, hp, -⟩ <;> rw [hi] at hp <;> cases hp
    · exact hpair
    · exact absurd h.rows hrows
  · intro hpair
    exact .inr (.inl hpair)

theorem overlap_iff_of_rows (hrows : w.rowsOf s ≠ []) :
    Overlap s w ↔ ∃ i, w.phase i = .failed ∨ (w.phase i).Inserting := by
  constructor
  · rintro (⟨i, hi⟩ | ⟨i, j, -, hi, -⟩ | ⟨-, i, hi⟩)
    · exact ⟨i, .inl hi⟩
    · exact ⟨i, .inr hi⟩
    · exact ⟨i, .inr hi⟩
  · rintro ⟨i, hi | hi⟩
    · exact .inl ⟨i, hi⟩
    · exact .inr (.inr ⟨hrows, i, hi⟩)

/-- No call has begun, all of them are for one identity and with one e-mail, which no other user
has, and the identifiers that they would generate are new. -/
structure Begins (args : ι → SignIn) (s : Subject) (email : String) (w : SignInWorld ι) : Prop where
  started : ∀ i, w.phase i = .started
  calls : ∀ i, (args i).subject = s ∧ (args i).email = email
  ids : (w.users.map UserRow.id).Nodup
  subjects : (w.users.map UserRow.subject).Nodup
  email : ∀ u ∈ w.users, u.companyId = s.companyId → u.email = email → u.subject = s
  fresh : ∀ i, ∀ u ∈ w.users, u.id ≠ (args i).newId

/-- Every call has succeeded with the same identifier, and the one row of the subject is active and
has it. -/
def Agree (s : Subject) (w : SignInWorld ι) : Prop :=
  ∃ u, w.rowsOf s = [u] ∧ u.deactivatedAt = none ∧ ∀ i, w.phase i = .returned u.id

theorem Begins.consistent (h : Begins args s email w) : Consistent args s email w := by
  have hinj : ∀ u ∈ w.users, ∀ v ∈ w.users, u.subject = v.subject → u = v := fun u hu v hv he =>
    List.inj_on_of_nodup_map h.subjects hu hv he
  have hids : ∀ u ∈ w.users, ∀ v ∈ w.users, u.id = v.id → u = v := fun u hu v hv he =>
    List.inj_on_of_nodup_map h.ids hu hv he
  cases hrows : w.rowsOf s with
  | nil =>
    refine .inl ⟨hrows, fun i => .inl (h.started i), ?_, h.fresh, ?_⟩
    · intro i j row row' hi
      rw [h.started i] at hi
      cases hi
    · intro u hu hc he
      have hmem := mem_rowsOf.mpr ⟨hu, h.email u hu hc he⟩
      rw [hrows] at hmem
      cases hmem
  | cons u rest =>
    have hu : u ∈ w.users ∧ u.subject = s := by
      rw [← mem_rowsOf, hrows]
      exact List.mem_cons_self
    have hrest : rest = [] := by
      cases rest with
      | nil => rfl
      | cons v rest =>
        have hv : v ∈ w.users ∧ v.subject = s := by
          rw [← mem_rowsOf, hrows]
          simp
        have hnodup : ((w.rowsOf s).map UserRow.subject).Nodup :=
          h.subjects.sublist (List.filter_sublist.map _)
        rw [hrows, List.map_cons, List.map_cons, hu.2, hv.2] at hnodup
        simp at hnodup
    refine .inr ⟨u, ?_, fun i => .inl (h.started i), ?_, ?_, ?_⟩
    · rw [hrows, hrest]
    · intro i j id id' hi
      rw [h.started i] at hi
      cases hi
    · exact fun v hv hid => hids v hv u hu.1 hid
    · intro v hv hc he
      exact hinj v hv u hu.1 ((h.email v hv hc he).trans hu.2.symm)

theorem Begins.not_overlap (h : Begins args s email w) : ¬Overlap s w := by
  rintro (⟨i, hi⟩ | ⟨i, j, -, hi, -⟩ | ⟨-, i, hi⟩)
  all_goals
    rw [h.started i] at hi
    cases hi

/-- Where every call has ended, the calls agree unless two of them have overlapped. -/
theorem Consistent.agree_iff [Nonempty ι] (h : Consistent args s email w)
    (hended : ∀ i, (w.phase i).Ended) : Agree s w ↔ ¬Overlap s w := by
  rcases h with h | ⟨u, h⟩
  · obtain ⟨i⟩ := ‹Nonempty ι›
    have hi := hended i
    rcases h.phase i with hp | hp | ⟨row, hp, -⟩ <;> rw [hp] at hi <;> cases hi
  · rw [overlap_iff_of_rows h.rows_ne]
    constructor
    · rintro ⟨v, -, -, hall⟩ ⟨i, hi⟩
      rw [hall i] at hi
      rcases hi with hi | hi <;> cases hi
    · intro hno
      have hreturned : ∀ i, w.phase i = .returned u.id ∧ u.deactivatedAt = none := by
        intro i
        have hi := hended i
        rcases h.phase i with hp | hp | hp | hp | ⟨row, hp, -⟩ | hp
        case inr.inr.inl => exact absurd ⟨i, .inl hp⟩ hno
        case inr.inr.inr.inr.inr => exact hp
        all_goals
          rw [hp] at hi
          cases hi
      obtain ⟨i⟩ := ‹Nonempty ι›
      exact ⟨u, h.rows, (hreturned i).2, fun i => (hreturned i).1⟩

variable [DecidableEq ι]

theorem phase_setPhase (i j : ι) (p : SignInPhase) :
    (w.setPhase i p).phase j = if j = i then p else w.phase j :=
  Function.update_apply ..

/-! ### What a statement keeps -/

theorem NoRow.absent (h : NoRow args s email w) (i : ι) :
    NoRow args s email (w.setPhase i .absent) where
  rows := h.rows
  phase j := by
    rw [phase_setPhase]
    split
    · exact .inr (.inl rfl)
    · exact h.phase j
  one j k row row' hj hk := by
    rw [phase_setPhase] at hj hk
    split at hj
    · cases hj
    split at hk
    · cases hk
    exact h.one j k row row' hj hk
  fresh := h.fresh
  email := h.email

theorem active_newRow {a : SignIn} (ha : a.subject = s ∧ a.email = email) (now : Nat) :
    Active s email (a.newRow now) := ⟨ha.1, ha.2, rfl⟩

theorem NoRow.inserted (h : NoRow args s email w) (hargs : ∀ i, (args i).subject = s ∧
    (args i).email = email) (i : ι) (now : Nat) (hnone : ∀ j row, w.phase j ≠ .inserted row) :
    NoRow args s email (w.setPhase i (.inserted ((args i).newRow now))) where
  rows := h.rows
  phase j := by
    rw [phase_setPhase]
    split
    next hj =>
      rw [hj]
      exact .inr (.inr ⟨_, rfl, active_newRow (hargs i) now, rfl⟩)
    · exact h.phase j
  one j k row row' hj hk := by
    rw [phase_setPhase] at hj hk
    split at hj
    next hji =>
      split at hk
      next hki => rw [hji, hki]
      next => exact absurd hk (hnone k row')
    next => exact absurd hj (hnone j row)
  fresh := h.fresh
  email := h.email

/-- The first commit. -/
theorem NoRow.commit (h : NoRow args s email w) {i : ι} {row : UserRow}
    (hi : w.phase i = .inserted row) :
    HasRow s email row { w.setPhase i (.returned row.id) with users := w.users ++ [row] } := by
  have hrow : Active s email row ∧ row.id = (args i).newId := by
    rcases h.phase i with hp | hp | ⟨row', hp, hrow⟩ <;> rw [hi] at hp <;> cases hp
    exact hrow
  have hphase : ∀ j, (w.setPhase i (.returned row.id)).phase j = .started ∨
      (w.setPhase i (.returned row.id)).phase j = .absent ∨
      (w.setPhase i (.returned row.id)).phase j = .returned row.id := by
    intro j
    rw [phase_setPhase]
    split
    · exact .inr (.inr rfl)
    next hj =>
      rcases h.phase j with hp | hp | ⟨row', hp, -⟩
      · exact .inl hp
      · exact .inr (.inl hp)
      · exact absurd (h.one j i row' row hp hi) hj
  refine ⟨?_, ?_, ?_, ?_, ?_⟩
  · show (w.users ++ [row]).filter _ = [row]
    have hnone : w.users.filter (fun u => u.subject = s) = [] := h.rows
    rw [List.filter_append, hnone]
    simp [hrow.1.1]
  · intro j
    rcases hphase j with hp | hp | hp
    · exact .inl hp
    · exact .inr (.inl hp)
    · exact .inr (.inr (.inr (.inr (.inr ⟨hp, hrow.1.2.2⟩))))
  · intro j k id id' hj _
    have hlock : ((w.setPhase i (.returned row.id)).phase j).lock = none := by
      rcases hphase j with hp | hp | hp <;> rw [hp] <;> rfl
    rw [show ((w.setPhase i (.returned row.id)).phase j).lock = some id from hj] at hlock
    cases hlock
  · intro v hv hid
    rcases List.mem_append.mp hv with hv | hv
    · exact absurd (hid.trans hrow.2) (h.fresh i v hv)
    · exact List.mem_singleton.mp hv
  · intro v hv hc he
    rcases List.mem_append.mp hv with hv | hv
    · exact absurd he (h.email v hv hc)
    · exact List.mem_singleton.mp hv

/-- A call goes on, and the row stays as it is. -/
theorem HasRow.setPhase (h : HasRow s email u w) {i : ι} {p : SignInPhase}
    (hp : p = .failed ∨ p = .found u.id ∨ ∃ row, p = .updated row ∧ Active s email row ∧ row.id = u.id)
    (hlock : p.lock = none ∨ ∀ j, j ≠ i → (w.phase j).lock = none) :
    HasRow s email u (w.setPhase i p) where
  rows := h.rows
  phase j := by
    rw [phase_setPhase]
    split
    · rcases hp with rfl | rfl | hp
      · exact .inr (.inr (.inl rfl))
      · exact .inr (.inr (.inr (.inl rfl)))
      · exact .inr (.inr (.inr (.inr (.inl hp))))
    · exact h.phase j
  one j k id id' hj hk := by
    rw [phase_setPhase] at hj hk
    split at hj
    next hji =>
      split at hk
      next hki => rw [hji, hki]
      next hki =>
        rcases hlock with hlock | hlock
        · rw [hlock] at hj
          cases hj
        · rw [hlock k hki] at hk
          cases hk
    next hji =>
      split at hk
      next hki =>
        rcases hlock with hlock | hlock
        · rw [hlock] at hk
          cases hk
        · rw [hlock j hji] at hj
          cases hj
      next => exact h.one j k id id' hj hk
  only := h.only
  email := h.email

/-- The commit of an update. -/
theorem HasRow.commit (h : HasRow s email u w) {i : ι} {row : UserRow}
    (hi : w.phase i = .updated row) :
    HasRow s email row { w.setPhase i (.returned row.id) with
      users := w.users.map fun v => if v.id = row.id then row else v } := by
  have hrow : Active s email row ∧ row.id = u.id := by
    rcases h.phase i with hp | hp | hp | hp | ⟨row', hp, hrow⟩ | ⟨hp, -⟩ <;> rw [hi] at hp <;> cases hp
    exact hrow
  have hmap : ∀ v ∈ w.users, (if v.id = row.id then row else v) = if v = u then row else v := by
    intro v hv
    by_cases hv' : v = u
    · rw [if_pos hv', if_pos (by rw [hv', hrow.2])]
    · rw [if_neg hv', if_neg fun hid => hv' (h.only v hv (hid.trans hrow.2))]
  refine ⟨?_, ?_, ?_, ?_, ?_⟩
  · show (w.users.map _).filter _ = [row]
    rw [List.map_congr_left hmap, List.filter_map]
    have hsame : w.users.filter ((fun v => decide (v.subject = s)) ∘
        fun v => if v = u then row else v) = w.rowsOf s := by
      refine List.filter_congr fun v _ => ?_
      show decide ((if v = u then row else v).subject = s) = decide (v.subject = s)
      split
      next hv => rw [hv, hrow.1.1, h.mem.2]
      next => rfl
    rw [hsame, h.rows]
    simp
  · intro j
    show (w.setPhase i (.returned row.id)).phase j = _ ∨ _
    rw [phase_setPhase, hrow.2]
    split
    · exact .inr (.inr (.inr (.inr (.inr ⟨rfl, hrow.1.2.2⟩))))
    next hj =>
      rcases h.phase j with hp | hp | hp | hp | hp | ⟨hp, -⟩
      · exact .inl hp
      · exact .inr (.inl hp)
      · exact .inr (.inr (.inl hp))
      · exact .inr (.inr (.inr (.inl hp)))
      · exact .inr (.inr (.inr (.inr (.inl hp))))
      · exact .inr (.inr (.inr (.inr (.inr ⟨hp, hrow.1.2.2⟩))))
  · intro j k id id' hj hk
    have hj : ((w.setPhase i (.returned row.id)).phase j).lock = some id := hj
    have hk : ((w.setPhase i (.returned row.id)).phase k).lock = some id' := hk
    rw [phase_setPhase] at hj hk
    split at hj
    · cases hj
    split at hk
    · cases hk
    exact h.one j k id id' hj hk
  · intro v hv hid
    obtain ⟨v, hv, rfl⟩ := List.mem_map.mp hv
    split
    next => rfl
    next hne =>
      rw [if_neg hne] at hid
      exact absurd hid hne
  · intro v hv hc he
    obtain ⟨v, hmem, rfl⟩ := List.mem_map.mp hv
    split
    next => rfl
    next hne =>
      rw [if_neg hne] at hc he
      have hv : v = u := h.email v hmem hc he
      exact absurd (by rw [hv, hrow.2]) hne

variable [Fintype ι]

/-! ### One statement -/

/-- A statement of a call without a committed row. -/
theorem NoRow.step_cases (h : NoRow args s email w) (hargs : ∀ i, (args i).subject = s ∧
    (args i).email = email) (i : ι) (now : Nat) :
    (w.phase i = .started ∧ step args w (i, now) = w.setPhase i .absent) ∨
    (w.phase i = .absent ∧ (step args w (i, now) = w ∧ (∃ j ≠ i, ∃ row, w.phase j = .inserted row) ∨
      step args w (i, now) = w.setPhase i (.inserted ((args i).newRow now)) ∧
        ∀ j row, w.phase j ≠ .inserted row)) ∨
    (∃ row, w.phase i = .inserted row ∧ step args w (i, now) =
      { w.setPhase i (.returned row.id) with users := w.users ++ [row] }) := by
  rcases h.phase i with hp | hp | ⟨row, hp, -⟩
  · refine .inl ⟨hp, ?_⟩
    simp only [step, hp, (hargs i).1, h.rows]
  · refine .inr (.inl ⟨hp, ?_⟩)
    have hfree : ¬∃ v ∈ w.users, ((args i).newRow now).Conflicts v := by
      rintro ⟨v, hv, hid | hsub | hmail⟩
      · exact h.fresh i v hv hid.symm
      · exact h.not_mem hv (hsub.symm.trans (hargs i).1)
      · refine h.email v hv ?_ (hmail.2.symm.trans (hargs i).2)
        exact hmail.1.symm.trans (congrArg Subject.companyId (hargs i).1)
    by_cases hother : ∃ j row, w.phase j = .inserted row
    · obtain ⟨j, row, hj⟩ := hother
      have hji : j ≠ i := by
        rintro rfl
        rw [hp] at hj
        cases hj
      have hactive : row.subject = s := by
        rcases h.phase j with hp' | hp' | ⟨row', hp', ha, -⟩ <;> rw [hj] at hp' <;> cases hp'
        exact ha.1
      have hblocked : w.Blocked i ((args i).newRow now) := by
        refine ⟨j, hji, ?_⟩
        rw [hj]
        exact decide_eq_true (.inr (.inl ((hargs i).1.trans hactive.symm)))
      refine .inl ⟨?_, j, hji, row, hj⟩
      simp only [step, hp, if_pos hblocked]
    · have hnot : ¬w.Blocked i ((args i).newRow now) := by
        refine not_blocked fun j v _ hv => ?_
        rcases h.phase j with hp' | hp' | ⟨row, hp', -⟩
        · rw [hp'] at hv
          cases hv
        · rw [hp'] at hv
          cases hv
        · exact absurd ⟨j, row, hp'⟩ hother
      refine .inr ⟨?_, fun j row hj => hother ⟨j, row, hj⟩⟩
      simp only [step, hp, if_neg hnot, if_neg hfree]
  · refine .inr (.inr ⟨row, hp, ?_⟩)
    simp only [step, hp]

/-- A statement of a call with a committed row. -/
theorem HasRow.step_cases (h : HasRow s email u w) (hargs : ∀ i, (args i).subject = s ∧
    (args i).email = email) (i : ι) (now : Nat) :
    (w.phase i = .started ∧
      (step args w (i, now) = w ∧ (∃ j ≠ i, (w.phase j).lock = some u.id) ∨
      step args w (i, now) = w.setPhase i (.found u.id) ∧
        ∀ j, j ≠ i → (w.phase j).lock ≠ some u.id)) ∨
    (w.phase i = .absent ∧
      (step args w (i, now) = w ∧ (∃ j ≠ i, ∃ row, w.phase j = .updated row) ∨
      step args w (i, now) = w.setPhase i .failed)) ∨
    (w.phase i = .found u.id ∧
      step args w (i, now) = w.setPhase i (.updated ((args i).refresh now u))) ∨
    (∃ row, w.phase i = .updated row ∧ step args w (i, now) =
      { w.setPhase i (.returned row.id) with
        users := w.users.map fun v => if v.id = row.id then row else v }) ∨
    ((w.phase i).Ended ∧ step args w (i, now) = w) := by
  rcases h.phase i with hp | hp | hp | hp | ⟨row, hp, -⟩ | ⟨hp, -⟩
  · refine .inl ⟨hp, ?_⟩
    simp only [step, hp, (hargs i).1, h.rows]
    split
    next hlock =>
      obtain ⟨j, hj, hlock⟩ := hlock
      exact .inl ⟨rfl, j, hj, hlock⟩
    next hlock => exact .inr ⟨rfl, fun j hj hl => hlock ⟨j, hj, hl⟩⟩
  · refine .inr (.inl ⟨hp, ?_⟩)
    by_cases hblocked : w.Blocked i ((args i).newRow now)
    · refine .inl ⟨by simp only [step, hp, if_pos hblocked], ?_⟩
      obtain ⟨j, hj, hany⟩ := hblocked
      rcases h.phase j with hp' | hp' | hp' | hp' | ⟨row, hp', -⟩ | ⟨hp', -⟩
      case inr.inr.inr.inr.inl => exact ⟨j, hj, row, hp'⟩
      all_goals
        rw [hp'] at hany
        cases hany
    · have hconflict : ∃ v ∈ w.users, ((args i).newRow now).Conflicts v :=
        ⟨u, h.mem.1, .inr (.inl ((hargs i).1.trans h.mem.2.symm))⟩
      exact .inr (by simp only [step, hp, if_neg hblocked, if_pos hconflict])
  · exact .inr (.inr (.inr (.inr ⟨by rw [hp]; trivial, by simp only [step, hp]⟩)))
  · refine .inr (.inr (.inl ⟨hp, ?_⟩))
    have hfind : (w.users.find? fun v => v.id = u.id) = some u := by
      cases hf : w.users.find? fun v => v.id = u.id with
      | none => exact absurd (List.find?_eq_none.mp hf u h.mem.1) (by simp)
      | some v =>
        have hid : v.id = u.id := by simpa using List.find?_some hf
        rw [h.only v (List.mem_of_find?_eq_some hf) hid]
    have hnot : ¬w.Blocked i ((args i).refresh now u) := by
      refine not_blocked fun j v hj hv => ?_
      rcases h.phase j with hp' | hp' | hp' | hp' | ⟨row, hp', -, hid⟩ | ⟨hp', -⟩
      case inr.inr.inr.inr.inl =>
        -- the lock is taken
        refine absurd (h.one j i row.id u.id ?_ ?_) hj
        · rw [hp']
          rfl
        · rw [hp]
          rfl
      all_goals
        rw [hp'] at hv
        cases hv
    have hfree : ¬∃ v ∈ w.users, v.id ≠ ((args i).refresh now u).id ∧
        ((args i).refresh now u).Conflicts v := by
      rintro ⟨v, hv, hne, hid | hsub | hmail⟩
      · exact hne hid.symm
      · have hv : v = u := h.eq_of_subject hv (hsub.symm.trans h.mem.2)
        have hid : v.id = u.id := congrArg UserRow.id hv
        exact hne hid
      · have hcompany : v.companyId = s.companyId :=
          hmail.1.symm.trans (congrArg Subject.companyId h.mem.2)
        have hv : v = u := h.email v hv hcompany (hmail.2.symm.trans (hargs i).2)
        have hid : v.id = u.id := congrArg UserRow.id hv
        exact hne hid
    simp only [step, hp, hfind, if_neg hnot, if_neg hfree]
  · exact .inr (.inr (.inr (.inl ⟨row, hp, by simp only [step, hp]⟩)))
  · exact .inr (.inr (.inr (.inr ⟨by rw [hp]; trivial, by simp only [step, hp]⟩)))

/-- A committed row stays. -/
theorem HasRow.step (h : HasRow s email u w)
    (hargs : ∀ i, (args i).subject = s ∧ (args i).email = email) (a : ι × Nat) :
    ∃ u', HasRow s email u' (SignInWorld.step args w a) := by
  obtain ⟨i, now⟩ := a
  rcases h.step_cases hargs i now with
    ⟨-, ⟨he, -⟩ | ⟨he, hfree⟩⟩ | ⟨-, ⟨he, -⟩ | he⟩ | ⟨hp, he⟩ | ⟨row, hp, he⟩ | ⟨-, he⟩ <;> rw [he]
  · exact ⟨u, h⟩
  · refine ⟨u, h.setPhase (.inr (.inl rfl)) (.inr fun j hj => ?_)⟩
    cases hl : (w.phase j).lock with
    | none => rfl
    | some id =>
      rw [h.lock_eq hl] at hl
      exact absurd hl (hfree j hj)
  · exact ⟨u, h⟩
  · exact ⟨u, h.setPhase (.inl rfl) (.inl rfl)⟩
  · have hlock : (w.phase i).lock = some u.id := by
      rw [hp]
      rfl
    have hrow : Active s email ((args i).refresh now u) := ⟨h.mem.2, (hargs i).2, rfl⟩
    exact ⟨u, h.setPhase (.inr (.inr ⟨_, rfl, hrow, rfl⟩)) (.inr (h.no_lock hlock))⟩
  · exact ⟨row, h.commit hp⟩
  · exact ⟨u, h⟩

theorem Consistent.step (h : Consistent args s email w)
    (hargs : ∀ i, (args i).subject = s ∧ (args i).email = email) (a : ι × Nat) :
    Consistent args s email (SignInWorld.step args w a) := by
  rcases h with h | ⟨u, h⟩
  · obtain ⟨i, now⟩ := a
    rcases h.step_cases hargs i now with ⟨-, he⟩ | ⟨-, ⟨he, -⟩ | ⟨he, hnone⟩⟩ | ⟨row, hp, he⟩ <;>
      rw [he]
    · exact .inl (h.absent i)
    · exact .inl h
    · exact .inl (h.inserted hargs i now hnone)
    · exact .inr ⟨row, h.commit hp⟩
  · exact .inr (h.step hargs a)

/-- Two calls overlap from the step on at which one probes beside another that inserts. -/
theorem Consistent.overlap_step (h : Consistent args s email w)
    (hargs : ∀ i, (args i).subject = s ∧ (args i).email = email) (a : ι × Nat) :
    Overlap s (SignInWorld.step args w a) ↔ Overlap s w ∨ ¬Alone s w a := by
  obtain ⟨i, now⟩ := a
  have halone : w.phase i ≠ .started ∨ w.rowsOf s ≠ [] →
      (Overlap s w ↔ Overlap s w ∨ ¬Alone s w (i, now)) := by
    intro hno
    refine (or_iff_left (not_not.mpr fun hs hr => ?_)).symm
    exact absurd hno (not_or.mpr ⟨not_not.mpr hs, not_not.mpr hr⟩)
  rcases h with h | ⟨u, h⟩
  · rcases h.step_cases hargs i now with
      ⟨hp, he⟩ | ⟨hp, ⟨he, -⟩ | ⟨he, hnone⟩⟩ | ⟨row, hp, he⟩ <;> rw [he]
    · -- the probe that finds nothing
      rw [(h.absent i).overlap_iff, h.overlap_iff]
      constructor
      · rintro ⟨j, k, hjk, hj, hk⟩
        rw [phase_setPhase] at hj hk
        by_cases hji : j = i
        · rw [if_neg fun hki => hjk (hji.trans hki.symm)] at hk
          exact .inr fun hal => hal hp h.rows k (fun hki => hjk (hji.trans hki.symm)) hk
        · rw [if_neg hji] at hj
          by_cases hki : k = i
          · exact .inr fun hal => hal hp h.rows j hji hj
          · rw [if_neg hki] at hk
            exact .inl ⟨j, k, hjk, hj, hk⟩
      · have hstay : ∀ j, (w.phase j).Inserting →
            j ≠ i ∧ ((w.setPhase i .absent).phase j).Inserting := by
          intro j hj
          have hji : j ≠ i := by
            rintro rfl
            rw [hp] at hj
            exact hj
          rw [phase_setPhase, if_neg hji]
          exact ⟨hji, hj⟩
        rintro (⟨j, k, hjk, hj, hk⟩ | hnot)
        · exact ⟨j, k, hjk, (hstay j hj).2, (hstay k hk).2⟩
        · simp only [Alone, not_forall, not_not] at hnot
          obtain ⟨-, -, j, hji, hj⟩ := hnot
          refine ⟨j, i, hji, (hstay j hj).2, ?_⟩
          rw [phase_setPhase, if_pos rfl]
          trivial
    · exact halone (.inl (by rw [hp]; simp))
    · rw [← halone (.inl (by rw [hp]; simp)), (h.inserted hargs i now hnone).overlap_iff,
        h.overlap_iff]
      have hsame : ∀ j, ((w.setPhase i (.inserted ((args i).newRow now))).phase j).Inserting ↔
          (w.phase j).Inserting := by
        intro j
        rw [phase_setPhase]
        split
        next hj => rw [hj, hp]; exact Iff.rfl
        next => exact Iff.rfl
      simp only [hsame]
    · -- the first commit
      rw [← halone (.inl (by rw [hp]; simp)), overlap_iff_of_rows (h.commit hp).rows_ne, h.overlap_iff]
      constructor
      · rintro ⟨j, hj⟩
        have hj : (w.setPhase i (.returned row.id)).phase j = .failed ∨
            ((w.setPhase i (.returned row.id)).phase j).Inserting := hj
        rw [phase_setPhase] at hj
        split at hj
        · rcases hj with hj | hj <;> cases hj
        next hji =>
          refine ⟨j, i, hji, ?_, by rw [hp]; trivial⟩
          rcases hj with hj | hj
          · rcases h.phase j with hp' | hp' | ⟨row', hp', -⟩ <;> rw [hj] at hp' <;> cases hp'
          · exact hj
      · rintro ⟨j, k, hjk, hj, hk⟩
        have hother : ∃ j, j ≠ i ∧ (w.phase j).Inserting := by
          by_cases hji : j = i
          · exact ⟨k, fun hki => hjk (hji.trans hki.symm), hk⟩
          · exact ⟨j, hji, hj⟩
        obtain ⟨j, hji, hj⟩ := hother
        refine ⟨j, .inr ?_⟩
        show ((w.setPhase i (.returned row.id)).phase j).Inserting
        rwa [phase_setPhase, if_neg hji]
  · have hrows := h.rows_ne
    rw [← halone (.inr hrows), overlap_iff_of_rows hrows]
    have hset : ∀ p, (p = .failed ∨ p.Inserting ↔ w.phase i = .failed ∨ (w.phase i).Inserting) →
        ∀ j, ((w.setPhase i p).phase j = .failed ∨ ((w.setPhase i p).phase j).Inserting ↔
          w.phase j = .failed ∨ (w.phase j).Inserting) := by
      intro p hp j
      rw [phase_setPhase]
      split
      next hj => rw [hj, hp]
      next => exact Iff.rfl
    have hneither : ∀ {p q : SignInPhase}, ¬(p = .failed ∨ p.Inserting) →
        ¬(q = .failed ∨ q.Inserting) → (p = .failed ∨ p.Inserting ↔ q = .failed ∨ q.Inserting) :=
      fun hp hq => iff_of_false hp hq
    rcases h.step_cases hargs i now with
      ⟨hp, ⟨he, -⟩ | ⟨he, -⟩⟩ | ⟨hp, ⟨he, -⟩ | he⟩ | ⟨hp, he⟩ | ⟨row, hp, he⟩ | ⟨-, he⟩ <;> rw [he]
    · exact overlap_iff_of_rows hrows
    · rw [overlap_iff_of_rows (w := w.setPhase i _) hrows]
      refine exists_congr (hset _ (hneither ?_ ?_))
      · simp [SignInPhase.Inserting]
      · simp [hp, SignInPhase.Inserting]
    · exact overlap_iff_of_rows hrows
    · rw [overlap_iff_of_rows (w := w.setPhase i _) hrows]
      refine exists_congr (hset _ (iff_of_true (.inl rfl) (.inr ?_)))
      rw [hp]
      trivial
    · rw [overlap_iff_of_rows (w := w.setPhase i _) hrows]
      refine exists_congr (hset _ (hneither ?_ ?_))
      · simp [SignInPhase.Inserting]
      · simp [hp, SignInPhase.Inserting]
    · rw [overlap_iff_of_rows (h.commit hp).rows_ne]
      refine exists_congr (hset _ (hneither ?_ ?_))
      · simp [SignInPhase.Inserting]
      · simp [hp, SignInPhase.Inserting]
    · exact overlap_iff_of_rows hrows

/-! ### Runs -/

theorem overlap_run (h : Consistent args s email w)
    (hargs : ∀ i, (args i).subject = s ∧ (args i).email = email) (as : List (ι × Nat)) :
    Overlap s (run (SignInWorld.step args) w as) ↔
      Overlap s w ∨ ¬Along (SignInWorld.step args) (Alone s) w as := by
  induction as generalizing w with
  | nil => simp [run, Along]
  | cons a as ih =>
    rw [run, ih (h.step hargs a), h.overlap_step hargs a, Along, not_and_or, or_assoc]

/-- A call that has not ended can go on, or waits for one that can. -/
theorem Consistent.progress (h : Consistent args s email w)
    (hargs : ∀ i, (args i).subject = s ∧ (args i).email = email) (now : Nat) {i : ι}
    (hi : ¬(w.phase i).Ended) : ∃ j, (SignInWorld.step args w (j, now)).phase j ≠ w.phase j := by
  have hgo : ∀ j p, w.phase j ≠ p → SignInWorld.step args w (j, now) = w.setPhase j p →
      (SignInWorld.step args w (j, now)).phase j ≠ w.phase j := by
    intro j p hp he
    rw [he, phase_setPhase, if_pos rfl]
    exact hp.symm
  rcases h with h | ⟨u, h⟩
  · have hcommit : ∀ j row, w.phase j = .inserted row →
        (SignInWorld.step args w (j, now)).phase j ≠ w.phase j := by
      intro j row hj
      simp only [SignInWorld.step, hj]
      show (w.setPhase j (.returned row.id)).phase j ≠ _
      rw [phase_setPhase, if_pos rfl]
      simp
    rcases h.step_cases hargs i now with
      ⟨hp, he⟩ | ⟨hp, ⟨-, j, -, row, hj⟩ | ⟨he, -⟩⟩ | ⟨row, hp, -⟩
    · exact ⟨i, hgo i _ (by rw [hp]; simp) he⟩
    · exact ⟨j, hcommit j row hj⟩
    · exact ⟨i, hgo i _ (by rw [hp]; simp) he⟩
    · exact ⟨i, hcommit i row hp⟩
  · have hholder : ∀ j id, (w.phase j).lock = some id →
        (SignInWorld.step args w (j, now)).phase j ≠ w.phase j := by
      intro j id hl
      rcases h.step_cases hargs j now with ⟨hp, -⟩ | ⟨hp, -⟩ | ⟨hp, he⟩ | ⟨row, hp, he⟩ | ⟨hp, -⟩
      · rw [hp] at hl
        cases hl
      · rw [hp] at hl
        cases hl
      · exact hgo j _ (by rw [hp]; simp) he
      · rw [he, hp]
        show (w.setPhase j (.returned row.id)).phase j ≠ _
        rw [phase_setPhase, if_pos rfl]
        simp
      · cases hph : w.phase j <;> rw [hph] at hl hp <;>
          first | exact False.elim hp | cases hl
    rcases h.step_cases hargs i now with
      ⟨hp, ⟨-, j, -, hj⟩ | ⟨he, -⟩⟩ | ⟨hp, ⟨-, j, -, row, hj⟩ | he⟩ | ⟨hp, -⟩ | ⟨row, hp, -⟩ | ⟨hp, -⟩
    · exact ⟨j, hholder j _ hj⟩
    · exact ⟨i, hgo i _ (by rw [hp]; simp) he⟩
    · exact ⟨j, hholder j row.id (by rw [hj]; rfl)⟩
    · exact ⟨i, hgo i _ (by rw [hp]; simp) he⟩
    · exact ⟨i, hholder i u.id (by rw [hp]; rfl)⟩
    · exact ⟨i, hholder i row.id (by rw [hp]; rfl)⟩
    · exact absurd hp hi

/-- The calls agree exactly when none probes beside another that has found no row. -/
theorem sign_ins_agree_iff [Nonempty ι] (h : Begins args s email w) (as : List (ι × Nat))
    (hended : ∀ i, ((run (SignInWorld.step args) w as).phase i).Ended) :
    Agree s (run (SignInWorld.step args) w as) ↔ Along (SignInWorld.step args) (Alone s) w as := by
  have hrun : Consistent args s email (run (SignInWorld.step args) w as) :=
    run_invariant h.consistent fun _ a hc => hc.step h.calls a
  rw [hrun.agree_iff hended, overlap_run h.consistent h.calls, or_iff_right h.not_overlap, not_not]

/-- Where the subject has a row, deactivated or not, all calls agree. -/
theorem sign_ins_agree_of_row [Nonempty ι] (h : Begins args s email w) (hrow : w.rowsOf s ≠ [])
    (as : List (ι × Nat)) (hended : ∀ i, ((run (SignInWorld.step args) w as).phase i).Ended) :
    Agree s (run (SignInWorld.step args) w as) := by
  have halong : ∀ (as : List (ι × Nat)) w u, HasRow s email u w →
      Along (SignInWorld.step args) (Alone s) w as := by
    intro as
    induction as with
    | nil => exact fun _ _ _ => trivial
    | cons a as ih =>
      intro w u hu
      obtain ⟨u', hu'⟩ := hu.step h.calls a
      exact ⟨fun _ hno => absurd hno hu.rows_ne, ih _ u' hu'⟩
  rcases h.consistent with hno | ⟨u, hu⟩
  · exact absurd hno.rows hrow
  · exact (sign_ins_agree_iff h as hended).mpr (halong as w u hu)

end Run

section TwoTabs

/-- Two browser tabs sign in for the same new user. -/
def tabs (tab : Bool) : SignIn where
  subject := ⟨1, "https://id.example/realms/wikore", "sub-7"⟩
  email := "new@example"
  displayName := some "New Comer"
  avatarUrl := none
  newId := if tab then 11 else 10

def noUsers : SignInWorld Bool := ⟨[], fun _ => .started⟩

theorem tabs_begin : Begins tabs ⟨1, "https://id.example/realms/wikore", "sub-7"⟩ "new@example"
    noUsers where
  started _ := rfl
  calls _ := ⟨rfl, rfl⟩
  ids := List.nodup_nil
  subjects := List.nodup_nil
  email := by simp [noUsers]
  fresh := by simp [noUsers]

/-- One tab after the other. -/
theorem tabs_in_turn :
    let as := [(false, 1), (false, 2), (false, 3), (true, 4), (true, 5), (true, 6)]
    Agree ⟨1, "https://id.example/realms/wikore", "sub-7"⟩ (run (step tabs) noUsers as) := by
  intro as
  refine (sign_ins_agree_iff tabs_begin as ?_).mpr ?_
  · intro tab
    cases tab <;> trivial
  · decide

/-- Both tabs probe before either commits, and the second one fails. -/
theorem second_tab_fails :
    let as := [(false, 1), (true, 2), (false, 3), (true, 4), (false, 5), (true, 6)]
    Begins tabs ⟨1, "https://id.example/realms/wikore", "sub-7"⟩ "new@example" noUsers ∧
      (∀ tab, ((run (step tabs) noUsers as).phase tab).Ended) ∧
      (run (step tabs) noUsers as).phase true = .failed ∧
      ¬Agree ⟨1, "https://id.example/realms/wikore", "sub-7"⟩ (run (step tabs) noUsers as) := by
  intro as
  have hfailed : (run (step tabs) noUsers as).phase true = .failed := by decide
  refine ⟨tabs_begin, ?_, hfailed, ?_⟩
  · intro tab
    cases tab <;> trivial
  · rintro ⟨u, -, -, hall⟩
    rw [hall true] at hfailed
    cases hfailed

end TwoTabs

end SignInWorld

end Wikore
