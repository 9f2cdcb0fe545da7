import Wikore.Access.PrivilegedTables
import Wikore.Access.Resolver
import Wikore.Access.Visibility
import Wikore.Lib.Query
import Wikore.Lib.Timeline
import Wikore.Lib.Transition

/-! The history that V024 keeps of `memberships` and of `resource_grants`: one trigger function,
which the migration writes once for each table, and what an as-of lookup finds after any run of
`INSERT`s, `UPDATE`s and `DELETE`s of rows. -/

namespace Wikore

open Statement Timeline Query

/-- A row of `resource_grants` with all its columns. -/
structure GrantRow extends ResourceGrant where
  grantedBy : Option Uuid
  grantedAt : Nat
deriving DecidableEq, Repr

/-- What the two tables do not share: their names, columns, checks and unique keys.  `violated` is
the constraint that a row violates beside the other rows. -/
structure AccessTable (α : Type) where
  name : String
  rowId : α → Uuid
  grantedAt : α → Nat
  violated : α → List α → Option PgError

def membershipsTable : AccessTable Membership where
  name := "memberships"
  rowId := Membership.id
  grantedAt := Membership.grantedAt
  violated m others :=
    if m.userId.isSome = m.groupId.isSome then
      some (.checkViolation "memberships_exactly_one_principal")
    else if ∃ e ∈ m.expiresAt, e ≤ m.grantedAt then
      some (.checkViolation "memberships_expires_after_granted_chk")
    else if m.userId.isSome ∧ ∃ o ∈ others, o.companyId = m.companyId ∧ o.userId = m.userId ∧
        o.orgUnitId = m.orgUnitId then
      some (.uniqueViolation "memberships_user_org_uidx")
    else if m.groupId.isSome ∧ ∃ o ∈ others, o.companyId = m.companyId ∧ o.groupId = m.groupId ∧
        o.orgUnitId = m.orgUnitId then
      some (.uniqueViolation "memberships_group_org_uidx")
    else none

def resourceGrantsTable : AccessTable GrantRow where
  name := "resource_grants"
  rowId g := g.id
  grantedAt := GrantRow.grantedAt
  violated g others :=
    if ∃ e ∈ g.expiresAt, e ≤ g.grantedAt then
      some (.checkViolation "resource_grants_check")
    else if ¬(g.resourceAppliesTo = .selfOnly ∨ g.resourceType = .orgUnit) then
      some (.checkViolation "rg_resource_applies_to_valid")
    else if ¬(g.principalAppliesTo = .selfOnly ∨ g.principalType = .orgUnit) then
      some (.checkViolation "rg_principal_applies_to_valid")
    else if ∃ o ∈ others, o.companyId = g.companyId ∧ o.resourceType = g.resourceType ∧
        o.resourceId = g.resourceId ∧ o.principalType = g.principalType ∧
        o.principalId = g.principalId then
      some (.uniqueViolation
        "resource_grants_company_id_resource_type_resource_id_princi_key")
    else none

/-- The columns of a history row beside `live_row_id`, `valid_from` and `valid_to`. -/
structure AccessVersion (α : Type) where
  row : α
  changeKind : ChangeKind
deriving DecidableEq, Repr

/-- A table with its history, and what its rows were after each statement. -/
structure AccessStore (α : Type) where
  clock : Nat
  rows : List α := []
  history : List (Version Uuid (AccessVersion α)) := []
  trace : List (Nat × List α) := []
deriving DecidableEq, Repr

abbrev AccessM (α : Type) := EStateM PgError (AccessStore α)

variable {α : Type} (T : AccessTable α)

/-- The row with `id = x`. -/
def AccessTable.find (rows : List α) (x : Uuid) : Option α := rows.find? fun r => T.rowId r = x

def AccessStore.historyOf (s : AccessStore α) (x : Uuid) : List (Version Uuid (AccessVersion α)) :=
  rowsOf x s.history

/-! ### The trigger -/

def insertVersion (r : Version Uuid (AccessVersion α)) : AccessM α Unit := do
  let s ← get
  raiseIf (∃ o ∈ s.historyOf r.key, o.start = r.start)
    (.uniqueViolation (T.name ++ "_history_live_row_id_valid_from_key"))
  raiseIf (r.stop = none ∧ ∃ o ∈ s.historyOf r.key, o.stop = none)
    (.uniqueViolation (T.name ++ "_history_open_uidx"))
  modify fun s => { s with history := s.history ++ [r] }

/-- `UPDATE ... SET valid_to = v_now WHERE live_row_id = x AND valid_to IS NULL`. -/
def closeVersion (x : Uuid) : AccessM α Unit :=
  modify fun s => { s with history := closeOpen x s.clock s.history }

/-- `memberships_write_history` and `resource_grants_write_history`.  `granted_at` is `NOT NULL`, so
that the `COALESCE` of an `INSERT` gives it. -/
def writeHistory : RowChange α → AccessM α Unit
  | .insert new => insertVersion T ⟨T.rowId new, ⟨new, .insert⟩, T.grantedAt new, none⟩
  | .update old new => do
    let s ← get
    closeVersion (T.rowId old)
    insertVersion T ⟨T.rowId new, ⟨new, .update⟩, s.clock, none⟩
  | .delete old => do
    let s ← get
    closeVersion (T.rowId old)
    insertVersion T ⟨T.rowId old, ⟨old, .delete⟩, s.clock, some s.clock⟩

/-! ### Statements -/

/-- The table takes the row beside the rows `others`.  `refs` is the error, if any, of the foreign
keys and of the triggers that look the row's references up in other tables. -/
def AccessTable.Accepts (row : α) (others : List α) (refs : Option PgError) : Prop :=
  refs = none ∧ T.violated row others = none ∧ ∀ o ∈ others, T.rowId o ≠ T.rowId row

instance (row : α) (others : List α) (refs : Option PgError) :
    Decidable (T.Accepts row others refs) := inferInstanceAs (Decidable (_ ∧ _ ∧ _))

/-- The error of a row that the table does not take. -/
def AccessTable.refusal (row : α) (others : List α) (refs : Option PgError) : PgError :=
  (refs <|> T.violated row others).getD (.uniqueViolation (T.name ++ "_pkey"))

def insertRow (row : α) (refs : Option PgError) : AccessM α Unit := do
  let s ← get
  raiseIf (¬T.Accepts row s.rows refs) (T.refusal row s.rows refs)
  modify fun s => { s with rows := s.rows ++ [row] }
  writeHistory T (.insert row)

/-- `UPDATE ... WHERE id = x`; `new` is the row after the assignments, which may change the id. -/
def updateRow (x : Uuid) (new : α) (refs : Option PgError) : AccessM α Unit := do
  let s ← get
  match T.find s.rows x with
  | none => pure ()
  | some old => do
    let others := s.rows.filter fun r => T.rowId r ≠ x
    raiseIf (¬T.Accepts new others refs) (T.refusal new others refs)
    modify fun s => { s with rows := s.rows.map fun r => if T.rowId r = x then new else r }
    writeHistory T (.update old new)

def deleteRow (x : Uuid) : AccessM α Unit := do
  let s ← get
  match T.find s.rows x with
  | none => pure ()
  | some old => do
    modify fun s => { s with rows := s.rows.filter fun r => T.rowId r ≠ x }
    writeHistory T (.delete old)

inductive AccessStmt (α : Type)
  | insert (row : α) (refs : Option PgError)
  | update (x : Uuid) (new : α) (refs : Option PgError)
  | delete (x : Uuid)
deriving DecidableEq, Repr

/-- A statement, and the time that passes before it. -/
structure AccessOp (α : Type) where
  gap : Nat
  stmt : AccessStmt α
deriving DecidableEq, Repr

def AccessStmt.run : AccessStmt α → AccessM α Unit
  | .insert row refs => insertRow T row refs
  | .update x new refs => updateRow T x new refs
  | .delete x => deleteRow T x

/-- Runs a statement at a later instant, at which its trigger reads the clock. -/
def AccessTable.step (s : AccessStore α) (op : AccessOp α) : AccessStore α :=
  let s' := (exec (op.stmt.run T) { s with clock := s.clock + op.gap + 1 }).1
  { s' with trace := s'.trace ++ [(s'.clock, s'.rows)] }

/-- What the row `x` was after each statement. -/
def AccessTable.logOf (s : AccessStore α) (x : Uuid) : List (Nat × Option α) :=
  s.trace.map fun entry => (entry.1, T.find entry.2 x)

/-- When the row `x` was first there. -/
def AccessTable.insertedAt (s : AccessStore α) (x : Uuid) : Option Nat :=
  (s.trace.find? fun entry => (T.find entry.2 x).isSome).map Prod.fst

/-- An `INSERT` that the table and the keys of the history take names a `granted_at` that is no
later than the clock its trigger reads; if the id has a history, the two are the same. -/
def AccessTable.Timely (s : AccessStore α) (op : AccessOp α) : Prop :=
  match op.stmt with
  | .insert row refs =>
      T.Accepts row s.rows refs →
      (∀ o ∈ s.historyOf (T.rowId row), o.start ≠ T.grantedAt row) →
      T.grantedAt row ≤ s.clock + op.gap + 1 ∧
        (s.historyOf (T.rowId row) ≠ [] → T.grantedAt row = s.clock + op.gap + 1)
  | _ => True

instance (s : AccessStore α) : ∀ op : AccessOp α, Decidable (T.Timely s op)
  | ⟨gap, .insert row refs⟩ => inferInstanceAs (Decidable (T.Accepts row s.rows refs →
      (∀ o ∈ s.historyOf (T.rowId row), o.start ≠ T.grantedAt row) →
      T.grantedAt row ≤ s.clock + gap + 1 ∧
        (s.historyOf (T.rowId row) ≠ [] → T.grantedAt row = s.clock + gap + 1)))
  | ⟨_, .update _ _ _⟩ | ⟨_, .delete _⟩ => .isTrue trivial

/-! ### What a statement does to the history of each row -/

/-- What a statement at `τ` makes of the versions of a row and of the row. -/
inductive AccessStep (τ : Nat) : List (Version Uuid (AccessVersion α)) → Option α →
    List (Version Uuid (AccessVersion α)) → Option α → Prop
  | keep {rows : List (Version Uuid (AccessVersion α))} {live : Option α} :
      AccessStep τ rows live rows live
  | put {rows : List (Version Uuid (AccessVersion α))} {live : Option α}
      (r : Version Uuid (AccessVersion α)) (hstop : r.stop = none)
      (hstart : r.start = τ ∨ rows = [] ∧ r.start ≤ τ) :
      AccessStep τ rows live (rows.map (Version.close τ) ++ [r]) (some r.value.row)
  | drop {rows : List (Version Uuid (AccessVersion α))} {old : α}
      (r : Version Uuid (AccessVersion α)) (hstart : r.start = τ) (hstop : r.stop = some τ) :
      AccessStep τ rows (some old) (rows.map (Version.close τ) ++ [r]) none
  | stop {rows : List (Version Uuid (AccessVersion α))} {old : α} :
      AccessStep τ rows (some old) (rows.map (Version.close τ)) none

section Steps

variable {T} {s s' : AccessStore α} {x : Uuid}

theorem insertVersion_ok {r : Version Uuid (AccessVersion α)}
    (h : insertVersion T r s = .ok () s') :
    (∀ o ∈ s.historyOf r.key, o.start ≠ r.start) ∧
      { s with history := s.history ++ [r] } = s' := by
  simp only [insertVersion, get_bind_ok, raiseIf_bind_ok, modify_ok] at h
  exact ⟨fun o ho heq => h.1 ⟨o, ho, heq⟩, h.2.2⟩

theorem rowsOf_singleton (r : Version Uuid (AccessVersion α)) (y : Uuid) :
    rowsOf y [r] = if y = r.key then [r] else [] := by
  by_cases hy : y = r.key
  · simp [rowsOf, hy]
  · have hne : r.key ≠ y := fun h => hy h.symm
    simp [rowsOf, hy, hne]

/-- What the table and its history are for each id, after a statement that changed `s` to `s'`. -/
structure RowChanged (T : AccessTable α) (s s' : AccessStore α) : Prop where
  clock : s'.clock = s.clock
  trace : s'.trace = s.trace
  rows : ∀ y, AccessStep s.clock (s.historyOf y) (T.find s.rows y) (s'.historyOf y) (T.find s'.rows y)

/-- A row that is not there has no open version. -/
def Settled (T : AccessTable α) (s : AccessStore α) : Prop :=
  ∀ y, T.find s.rows y = none → opened (s.historyOf y) = []

theorem insertRow_changed {row : α} {refs : Option PgError} (hs : Settled T s)
    (htime : T.Accepts row s.rows refs →
      (∀ o ∈ s.historyOf (T.rowId row), o.start ≠ T.grantedAt row) →
      T.grantedAt row ≤ s.clock ∧ (s.historyOf (T.rowId row) ≠ [] → T.grantedAt row = s.clock))
    (h : insertRow T row refs s = .ok () s') : RowChanged T s s' := by
  simp only [insertRow, get_bind_ok, raiseIf_bind_ok, modify_bind_ok, writeHistory] at h
  obtain ⟨hacc, h⟩ := h
  obtain ⟨hkey, rfl⟩ := insertVersion_ok h
  have hacc := not_not.mp hacc
  obtain ⟨hle, heq⟩ := htime hacc hkey
  refine ⟨rfl, rfl, fun y => ?_⟩
  have hfind := find?_insert T.rowId hacc.2.2 y
  simp only [AccessStore.historyOf, AccessTable.find, rowsOf_append, rowsOf_singleton, hfind]
  by_cases hy : y = T.rowId row
  · subst hy
    have hnone : T.find s.rows (T.rowId row) = none := by
      simpa [AccessTable.find] using hacc.2.2
    have hclosed := map_close_of_opened (hs _ hnone) s.clock
    rw [if_pos rfl, if_pos rfl]
    simp only [AccessStore.historyOf] at hclosed
    have hput : AccessStep s.clock (s.historyOf (T.rowId row)) (T.find s.rows (T.rowId row))
        ((s.historyOf (T.rowId row)).map (Version.close s.clock) ++
          [⟨T.rowId row, ⟨row, .insert⟩, T.grantedAt row, none⟩]) (some row) := by
      refine .put ⟨T.rowId row, ⟨row, .insert⟩, T.grantedAt row, none⟩ rfl ?_
      by_cases hnil : s.historyOf (T.rowId row) = []
      · exact .inr ⟨hnil, hle⟩
      · exact .inl (heq hnil)
    simp only [AccessStore.historyOf, hclosed] at hput
    exact hput
  · rw [if_neg hy, if_neg hy, List.append_nil]
    exact .keep

theorem updateRow_changed {new : α} {refs : Option PgError} (hs : Settled T s)
    (h : updateRow T x new refs s = .ok () s') : RowChanged T s s' := by
  simp only [updateRow, get_bind_ok] at h
  cases hold : T.find s.rows x with
  | none =>
    simp only [hold] at h
    obtain ⟨-, rfl⟩ := pure_ok.mp h
    exact ⟨rfl, rfl, fun _ => .keep⟩
  | some old =>
    simp only [hold, raiseIf_bind_ok, modify_bind_ok, writeHistory, get_bind_ok, closeVersion] at h
    obtain ⟨hacc, h⟩ := h
    obtain ⟨-, rfl⟩ := insertVersion_ok h
    have hold' : T.rowId old = x := by simpa [AccessTable.find] using List.find?_some hold
    have hfree : T.rowId new = x ∨ ∀ r ∈ s.rows, T.rowId r ≠ T.rowId new := by
      by_cases hid : T.rowId new = x
      · exact .inl hid
      · right
        intro r hr heq
        refine (not_not.mp hacc).2.2 r (List.mem_filter.mpr ⟨hr, ?_⟩) heq
        simp [heq, hid]
    refine ⟨rfl, rfl, fun y => ?_⟩
    have hfind := find?_replace T.rowId hold hfree y
    simp only [AccessStore.historyOf, AccessTable.find, rowsOf_append, rowsOf_singleton, hfind,
      hold']
    by_cases hy : y = T.rowId new
    · subst hy
      rw [if_pos rfl, if_pos rfl]
      have hrows : rowsOf (T.rowId new) (closeOpen x s.clock s.history) =
          (s.historyOf (T.rowId new)).map (Version.close s.clock) := by
        by_cases hid : T.rowId new = x
        · rw [hid, rowsOf_closeOpen_self]
          rfl
        · -- the id is a new one, and has no open version to be ended
          have hnone : T.find s.rows (T.rowId new) = none := by
            simpa [AccessTable.find] using hfree.resolve_left hid
          rw [rowsOf_closeOpen_ne hid, map_close_of_opened (hs _ hnone)]
          rfl
      rw [hrows]
      exact .put ⟨T.rowId new, ⟨new, .update⟩, s.clock, none⟩ rfl (.inl rfl)
    · rw [if_neg hy, if_neg hy, List.append_nil]
      by_cases hx : y = x
      · subst hx
        rw [if_pos rfl, rowsOf_closeOpen_self]
        have hold : s.rows.find? (fun r => decide (T.rowId r = y)) = some old := hold
        rw [hold]
        exact .stop
      · rw [if_neg hx, rowsOf_closeOpen_ne hx]
        exact .keep

theorem deleteRow_changed (h : deleteRow T x s = .ok () s') : RowChanged T s s' := by
  simp only [deleteRow, get_bind_ok] at h
  cases hold : T.find s.rows x with
  | none =>
    simp only [hold] at h
    obtain ⟨-, rfl⟩ := pure_ok.mp h
    exact ⟨rfl, rfl, fun _ => .keep⟩
  | some old =>
    simp only [hold, modify_bind_ok, writeHistory, get_bind_ok, closeVersion] at h
    obtain ⟨-, rfl⟩ := insertVersion_ok h
    have hold' : T.rowId old = x := by simpa [AccessTable.find] using List.find?_some hold
    refine ⟨rfl, rfl, fun y => ?_⟩
    have hfind := find?_remove T.rowId s.rows x y
    simp only [AccessStore.historyOf, AccessTable.find, rowsOf_append, rowsOf_singleton, hfind,
      hold']
    by_cases hy : y = x
    · subst hy
      rw [if_pos rfl, if_pos rfl, rowsOf_closeOpen_self]
      have hold : s.rows.find? (fun r => decide (T.rowId r = y)) = some old := hold
      rw [hold]
      exact .drop ⟨y, ⟨old, .delete⟩, s.clock, some s.clock⟩ rfl rfl
    · rw [if_neg hy, if_neg hy, List.append_nil, rowsOf_closeOpen_ne hy]
      exact .keep

end Steps

/-! ### Runs -/

/-- A row was never there, or its versions tell what it was since it was first there. -/
inductive Recorded (T : AccessTable α) (s : AccessStore α) (x : Uuid) : Prop
  | never (hat : T.insertedAt s x = none) (hrows : s.historyOf x = [])
      (hlive : T.find s.rows x = none)
  | since (c : Nat) (hat : T.insertedAt s x = some c) (hrows : s.historyOf x ≠ [])
      (hrec : Records AccessVersion.row c s.clock (s.historyOf x) (T.logOf s x)
        (T.find s.rows x))

section Runs

variable {T} {s s' : AccessStore α}

theorem settled_of_recorded (hs : ∀ x, Recorded T s x) : Settled T s := by
  intro x hlive
  cases hs x with
  | never _ hrows =>
    rw [hrows]
    rfl
  | since c _ _ hrec =>
    have hcur := hrec.current
    rw [hlive, Option.toList_none, List.map_eq_nil_iff] at hcur
    exact hcur

theorem insertedAt_append (s : AccessStore α) (τ : Nat) (rows : List α) (x : Uuid) :
    T.insertedAt { s with trace := s.trace ++ [(τ, rows)] } x =
      (T.insertedAt s x).or (if (T.find rows x).isSome then some τ else none) := by
  simp only [AccessTable.insertedAt, List.find?_append, List.find?_singleton]
  cases s.trace.find? fun entry => (T.find entry.2 x).isSome with
  | none =>
    simp only [Option.none_or, Option.map_none]
    split <;> rfl
  | some entry => rfl

/-- One statement, for one row: it took what the table had at `now`, and the log takes what it
left. -/
theorem Recorded.step {now : Nat} {x : Uuid} (h : Recorded T s x) (hclock : s.clock < now)
    (hlater : s'.clock = now) (htrace : s'.trace = s.trace ++ [(now, s'.rows)])
    (hstep : AccessStep now (s.historyOf x) (T.find s.rows x) (s'.historyOf x) (T.find s'.rows x)) :
    Recorded T s' x := by
  have hlog : T.logOf s' x = T.logOf s x ++ [(now, T.find s'.rows x)] := by
    simp [AccessTable.logOf, htrace]
  have hat' : T.insertedAt s' x =
      (T.insertedAt s x).or (if (T.find s'.rows x).isSome then some now else none) := by
    rw [← insertedAt_append]
    simp only [AccessTable.insertedAt, htrace]
  cases h with
  | never hat hrows hlive =>
    rw [hat, Option.none_or] at hat'
    rw [hrows, hlive] at hstep
    generalize hr : s'.historyOf x = rows' at hstep
    generalize hl : T.find s'.rows x = live' at hstep hat' hlog
    cases hstep with
    | keep => exact .never hat' hr hl
    | put r hstop hstart =>
      have hstart : r.start ≤ now := by
        rcases hstart with heq | ⟨-, hle⟩
        · exact heq.le
        · exact hle
      refine .since now hat' (by simp [hr]) ?_
      rw [hr, hl, hlog, hlater]
      exact Records.first hstart hstop
  | since c hat hrows hrec =>
    rw [hat, Option.some_or] at hat'
    refine .since c hat' ?_ ?_
    · generalize s'.historyOf x = rows' at hstep
      generalize T.find s'.rows x = live' at hstep
      generalize T.find s.rows x = live at hstep
      cases hstep with
      | keep => exact hrows
      | put => simp
      | drop => simp
      | stop => simpa using hrows
    · rw [hlog, hlater]
      generalize s'.historyOf x = rows' at hstep
      generalize T.find s'.rows x = live' at hstep
      generalize hlive : T.find s.rows x = live at hstep hrec
      cases hstep with
      | keep => exact hrec.tick hclock
      | put r hstop hstart => exact hrec.put hclock (hstart.resolve_right fun h => hrows h.1) hstop
      | drop r hstart hstop => exact hrec.drop hclock hstart hstop
      | stop => exact hrec.stop hclock

/-- Every timely statement keeps the history of every row. -/
theorem step_recorded (op : AccessOp α) (hs : ∀ x, Recorded T s x) (htime : T.Timely s op) :
    ∀ x, Recorded T (T.step s op) x := by
  have hchanged : RowChanged T { s with clock := s.clock + op.gap + 1 }
      (exec (op.stmt.run T) { s with clock := s.clock + op.gap + 1 }).1 := by
    have hbefore := settled_of_recorded hs
    have hsettled : Settled T { s with clock := s.clock + op.gap + 1 } := hbefore
    apply exec_preserves (P := RowChanged T { s with clock := s.clock + op.gap + 1 })
    · exact ⟨rfl, rfl, fun _ => .keep⟩
    · intro s' hrun
      obtain ⟨gap, stmt⟩ := op
      cases stmt with
      | insert row refs => exact insertRow_changed hsettled htime hrun
      | update x new refs => exact updateRow_changed hsettled hrun
      | delete x => exact deleteRow_changed hrun
  intro x
  have hlater : s.clock < s.clock + op.gap + 1 := by omega
  refine (hs x).step hlater hchanged.clock ?_ (hchanged.rows x)
  show _ ++ [(_, _)] = _
  rw [hchanged.trace, hchanged.clock]
  rfl

/-- What the history of a table says after a run of timely statements. -/
theorem run_recorded (T : AccessTable α) (clock : Nat) (ops : List (AccessOp α))
    (htime : Transition.Along T.step T.Timely { clock } ops) (x : Uuid) :
    Recorded T (Transition.run T.step { clock } ops) x := by
  have hstart : ∀ x, Recorded T { clock } x := fun x => .never rfl rfl rfl
  exact Transition.run_invariant_of (P := fun s => ∀ x, Recorded T s x) hstart htime
    (fun s op hs => step_recorded op hs) x

end Runs

/-- The history of a table answers as-of lookups: the intervals of a row begin before they end and
are disjoint, one is open if the row is there, with its columns, and none otherwise, and since the
row was first there a lookup gives what the row was. -/
def AccessTable.Answers (s : AccessStore α) : Prop :=
  ∀ x, (∀ r ∈ s.historyOf x, ∀ u ∈ r.stop, r.start ≤ u) ∧ Disjoint (s.historyOf x) ∧
    (opened (s.historyOf x)).map AccessVersion.row = (T.find s.rows x).toList ∧
    ∀ c, T.insertedAt s x = some c → ∀ t, c ≤ t →
      (asOf (s.historyOf x) t).map AccessVersion.row = (stateAt (T.logOf s x) t).toList

theorem answers_of_recorded {T} {s : AccessStore α} (hs : ∀ x, Recorded T s x) : T.Answers s := by
  intro x
  cases hs x with
  | never hat hrows hlive =>
    rw [hrows, hlive]
    refine ⟨by simp, List.Pairwise.nil, rfl, fun c hc => ?_⟩
    rw [hat] at hc
    cases hc
  | since c hat _ hrec =>
    refine ⟨fun r hr u hu => (hrec.stopped r hr u hu).1, hrec.toOrdered.not_covers, hrec.current,
      fun c' hc t ht => ?_⟩
    obtain rfl := Option.some.inj (hat.symm.trans hc)
    exact hrec.lookup t ht

/-- After every run of `INSERT`s, `UPDATE`s and `DELETE`s in which no accepted `INSERT` names a
`granted_at` after its trigger's clock, nor one before it for an id that was there already, the
histories of both tables answer as-of lookups. -/
theorem access_history_answers (clock : Nat) :
    (∀ ops, Transition.Along membershipsTable.step membershipsTable.Timely { clock } ops →
      membershipsTable.Answers (Transition.run membershipsTable.step { clock } ops)) ∧
    (∀ ops, Transition.Along resourceGrantsTable.step resourceGrantsTable.Timely { clock } ops →
      resourceGrantsTable.Answers (Transition.run resourceGrantsTable.step { clock } ops)) :=
  ⟨fun ops htime => answers_of_recorded (run_recorded membershipsTable clock ops htime),
    fun ops htime => answers_of_recorded (run_recorded resourceGrantsTable clock ops htime)⟩

/-- The user 10 is a member of the unit 20, from `grantedAt` on. -/
def unitMember (grantedAt : Nat) (role : Role) : Membership :=
  ⟨5, 1, some 10, none, 20, role, .selfOnly, none, grantedAt, none⟩

/-- A membership that was granted at 3 is inserted at 5, changed at 8 and deleted at 12. -/
def memberRun : List (AccessOp Membership) :=
  [⟨4, .insert (unitMember 3 .viewer) none⟩, ⟨2, .update 5 (unitMember 3 .admin) none⟩,
    ⟨3, .delete 5⟩]

/-- A grant on the unit 20 that is deleted again. -/
def grantRun : List (AccessOp GrantRow) :=
  [⟨0, .insert ⟨⟨6, 1, .orgUnit, 20, .orgUnit, 30, .read, .selfOnly, .selfOnly, none⟩, none, 1⟩ none⟩,
    ⟨0, .delete 6⟩]

theorem access_runs_answer :
    (Transition.Along membershipsTable.step membershipsTable.Timely { clock := 0 } memberRun ∧
      membershipsTable.Answers (Transition.run membershipsTable.step { clock := 0 } memberRun) ∧
      (asOf ((Transition.run membershipsTable.step { clock := 0 } memberRun).historyOf 5) 9).map
        AccessVersion.row = [unitMember 3 .admin]) ∧
    (Transition.Along resourceGrantsTable.step resourceGrantsTable.Timely { clock := 0 } grantRun ∧
      resourceGrantsTable.Answers
        (Transition.run resourceGrantsTable.step { clock := 0 } grantRun)) := by
  have hmember : Transition.Along membershipsTable.step membershipsTable.Timely { clock := 0 }
      memberRun := by decide
  have hgrant : Transition.Along resourceGrantsTable.step resourceGrantsTable.Timely { clock := 0 }
      grantRun := by decide
  exact ⟨⟨hmember, (access_history_answers 0).1 memberRun hmember, by decide⟩,
    hgrant, (access_history_answers 0).2 grantRun hgrant⟩

/-- A `granted_at` in the future: a lookup misses the row while it is there, and once it is updated
its first interval ends before it begins. -/
theorem future_grant_unanswered :
    let inserted := Transition.run membershipsTable.step { clock := 0 }
      [⟨0, .insert (unitMember 100 .viewer) none⟩]
    let updated := membershipsTable.step inserted ⟨0, .update 5 (unitMember 100 .admin) none⟩
    membershipsTable.insertedAt inserted 5 = some 1 ∧
      membershipsTable.find inserted.rows 5 = some (unitMember 100 .viewer) ∧
      asOf (inserted.historyOf 5) 1 = [] ∧
      (updated.historyOf 5).map (fun r => (r.start, r.stop)) = [(100, some 2), (2, none)] := by
  decide

end Wikore
