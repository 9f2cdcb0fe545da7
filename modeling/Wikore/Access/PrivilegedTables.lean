import Wikore.Lib.Statement
import Wikore.Schema.Types

/-! The tables of V036 for privileged access: sessions, the decisions on them and the scopes they
ask for, with the statements that change a row of these tables and the triggers and constraints that
the statements meet.  A statement that changes several rows is a sequence of these. -/

namespace Wikore

open Statement

/-- `privileged_access_sessions.access_kind`. -/
inductive AccessKind
  | temporaryEngagement | sensitiveAnalysis | retrievalDiagnostics | breakGlass
deriving DecidableEq, Repr

/-- `privileged_access_sessions.status`. -/
inductive SessionStatus
  | pending | approved | active | expired | revoked | rejected
deriving DecidableEq, Repr

def SessionStatus.text : SessionStatus → String
  | pending => "pending"
  | approved => "approved"
  | active => "active"
  | expired => "expired"
  | revoked => "revoked"
  | rejected => "rejected"

/-- `privileged_access_approvals.decision`. -/
inductive Decision
  | approved | rejected
deriving DecidableEq, Repr

/-- The columns of a session that say what is asked for. -/
structure SessionRequest where
  subjectUserId : Uuid
  requestedBy : Uuid
  purpose : String
  accessKind : AccessKind
  startsAt : Nat
  expiresAt : Nat
  allowLlm : Bool := false
  requireDualApproval : Bool := false
deriving DecidableEq, Repr

/-- A row of `privileged_access_sessions`. -/
structure PrivilegedSession where
  id : Uuid
  companyId : Uuid
  request : SessionRequest
  status : SessionStatus := .pending
  decisionCount : Nat := 0
  activatedAt : Option Nat := none
  revokedAt : Option Nat := none
  revokedBy : Option Uuid := none
  revocationReason : Option String := none
deriving DecidableEq, Repr

/-- A row of `privileged_access_approvals`. -/
structure SessionApproval where
  sessionId : Uuid
  companyId : Uuid
  approverUserId : Uuid
  decision : Decision
  reason : String
  decidedAt : Nat
deriving DecidableEq, Repr

/-- A row of `privileged_access_scopes`. -/
structure SessionScope where
  sessionId : Uuid
  companyId : Uuid
  orgUnitId : Uuid
  appliesTo : AppliesTo
  maximumSensitivity : SensitivityLabel
  allowRelationships : Bool := true
  allowImpactAnalysis : Bool := false
  allowDiagnostics : Bool := false
deriving DecidableEq, Repr

/-- The tables.  Of `users` and `org_units`, which the foreign keys name, the keys are kept:
`(company_id, id)`. -/
structure PrivilegedDb where
  companies : List Uuid
  users : List (Uuid × Uuid)
  orgUnits : List (Uuid × Uuid)
  sessions : List PrivilegedSession := []
  approvals : List SessionApproval := []
  scopes : List SessionScope := []
deriving DecidableEq, Repr

inductive ErrCode
  | checkViolation | insufficientPrivilege | foreignKeyViolation | uniqueViolation
deriving DecidableEq, Repr

/-- An error with its `ERRCODE` and `CONSTRAINT`, and the text of a `RAISE`. -/
structure RaisedError where
  errcode : ErrCode
  constraint : String
  message : String := ""
deriving DecidableEq, Repr

abbrev PrivilegedStmt := EStateM RaisedError PrivilegedDb

/-- `length(btrim(s))`. -/
def btrimLength (s : String) : Nat :=
  (((s.toList.dropWhile (· = ' ')).reverse).dropWhile (· = ' ')).length

namespace PrivilegedDb

variable (db : PrivilegedDb)

def HasSession (x : Uuid) : Prop := ∃ s ∈ db.sessions, s.id = x

instance (x : Uuid) : Decidable (db.HasSession x) :=
  inferInstanceAs (Decidable (∃ s ∈ db.sessions, _))

/-- `WHERE company_id = c AND id = x`. -/
def findSession (c x : Uuid) : Option PrivilegedSession :=
  db.sessions.find? fun s => s.companyId = c ∧ s.id = x

/-- A decision on the session is recorded. -/
def Decided (x : Uuid) : Prop := ∃ a ∈ db.approvals, a.sessionId = x

instance (x : Uuid) : Decidable (db.Decided x) := inferInstanceAs (Decidable (∃ a ∈ db.approvals, _))

/-- The decisions of one kind on a session. -/
def decisions (x : Uuid) (d : Decision) : List SessionApproval :=
  db.approvals.filter fun a => a.sessionId = x ∧ a.decision = d

/-- The scope rows of a session. -/
def scopesOf (x : Uuid) : List SessionScope := db.scopes.filter fun sc => sc.sessionId = x

end PrivilegedDb

/-! ### The triggers of the sessions -/

/-- `privileged_access_sessions_initial_state_fn`. -/
def sessionsInitialState (new : PrivilegedSession) : PrivilegedStmt Unit :=
  raiseIf (new.status ≠ .pending ∨ new.activatedAt ≠ none ∨ new.revokedAt ≠ none ∨
      new.revokedBy ≠ none ∨ new.revocationReason ≠ none ∨ new.decisionCount ≠ 0)
    ⟨.checkViolation, "privileged_access_sessions_initial_state",
      "new privileged_access sessions must start pending with no transition metadata"⟩

/-- `privileged_access_sessions_lock_request_after_decision`, at `pg_trigger_depth() = depth`. -/
def sessionsLockRequest (depth : Nat) (old new : PrivilegedSession) : PrivilegedStmt Unit := do
  raiseIf (new.id ≠ old.id ∨ new.companyId ≠ old.companyId)
    ⟨.insufficientPrivilege, "privileged_access_sessions_identity_immutable",
      "privileged_access session identity is immutable"⟩
  raiseIf (new.decisionCount ≠ old.decisionCount ∧
      (depth < 2 ∨ new.decisionCount ≠ old.decisionCount + 1))
    ⟨.insufficientPrivilege, "privileged_access_sessions_decision_count_managed",
      "privileged_access decision_count is trigger-managed"⟩
  raiseIf (new.request ≠ old.request ∧ (old.status ≠ .pending ∨ 0 < old.decisionCount))
    ⟨.insufficientPrivilege, "privileged_access_sessions_request_immutable_after_decision",
      "privileged_access request fields are immutable once decisions exist for session " ++
        Uuid.text old.id⟩

/-- The transitions of the workflow. -/
def legalTransition : SessionStatus → SessionStatus → Bool
  | .pending, .approved | .pending, .rejected | .pending, .expired | .pending, .revoked => true
  | .approved, .active | .approved, .expired | .approved, .revoked => true
  | .active, .expired | .active, .revoked => true
  | _, _ => false

/-- The approvals that a session needs. -/
def requiredCount (request : SessionRequest) : Nat := if request.requireDualApproval then 2 else 1

/-- The part of `privileged_access_sessions_validate_transition` on the decisions. -/
def validateDecisions (old new : PrivilegedSession) : PrivilegedStmt Unit := do
  let db ← get
  let approved := (db.decisions old.id .approved).length
  let rejected := (db.decisions old.id .rejected).length
  raiseIf ((new.status = .approved ∨ new.status = .active) ∧
      (0 < rejected ∨ approved < requiredCount new.request))
    ⟨.insufficientPrivilege, "privileged_access_sessions_approval_requirement",
      "session " ++ Uuid.text old.id ++ " needs " ++ Nat.repr (requiredCount new.request) ++
        " approvals and no rejection (approved " ++ Nat.repr approved ++ ", rejected " ++
        Nat.repr rejected ++ ")"⟩
  raiseIf ((new.status = .approved ∨ new.status = .active) ∧
      ¬∃ sc ∈ db.scopes, sc.sessionId = old.id)
    ⟨.insufficientPrivilege, "privileged_access_sessions_scope_required",
      "session " ++ Uuid.text old.id ++ " has no approved scope"⟩
  raiseIf (new.status = .rejected ∧ rejected = 0)
    ⟨.checkViolation, "privileged_access_sessions_rejection_requirement",
      "session " ++ Uuid.text old.id ++ " cannot be rejected without a rejection decision"⟩

/-- The part of `privileged_access_sessions_validate_transition` on the times and the metadata;
`now` is `clock_timestamp()`.  Returns the row that is written. -/
def validateMetadata (now : Nat) (old new : PrivilegedSession) :
    PrivilegedStmt PrivilegedSession := do
  raiseIf (new.status = .active ∧ (now < new.request.startsAt ∨ new.request.expiresAt ≤ now))
    ⟨.insufficientPrivilege, "privileged_access_sessions_active_time_window",
      "session " ++ Uuid.text old.id ++ " is outside its approved time window"⟩
  raiseIf (new.status ≠ .active ∧ new.activatedAt ≠ old.activatedAt)
    ⟨.checkViolation, "privileged_access_sessions_activated_at",
      "activated_at is set only by transition to active"⟩
  raiseIf (new.status = .expired ∧ now < new.request.expiresAt)
    ⟨.checkViolation, "privileged_access_sessions_expiry_time",
      "session " ++ Uuid.text old.id ++ " cannot expire before expires_at"⟩
  raiseIf (new.status = .revoked ∧ (new.revokedAt = none ∨ new.revokedBy = none ∨
      btrimLength (new.revocationReason.getD "") < 5))
    ⟨.checkViolation, "privileged_access_sessions_revocation_metadata",
      "revocation requires actor, timestamp, and reason"⟩
  raiseIf (new.status ≠ .revoked ∧ (new.revokedAt ≠ none ∨ new.revokedBy ≠ none ∨
      new.revocationReason ≠ none))
    ⟨.checkViolation, "privileged_access_sessions_revocation_metadata",
      "revocation metadata is only valid for revoked sessions"⟩
  pure (if new.status = .active then { new with activatedAt := some now } else new)

/-- `privileged_access_sessions_validate_transition`. -/
def sessionsValidateTransition (now : Nat) (old new : PrivilegedSession) :
    PrivilegedStmt PrivilegedSession :=
  if new.status = old.status then do
    raiseIf (new.activatedAt ≠ old.activatedAt ∨ new.revokedAt ≠ old.revokedAt ∨
        new.revokedBy ≠ old.revokedBy ∨ new.revocationReason ≠ old.revocationReason)
      ⟨.checkViolation, "privileged_access_sessions_transition_metadata",
        "transition metadata may only change with session status"⟩
    pure new
  else do
    raiseIf (legalTransition old.status new.status = false)
      ⟨.checkViolation, "privileged_access_sessions_legal_transition",
        "illegal privileged_access transition " ++ old.status.text ++ " -> " ++ new.status.text⟩
    validateDecisions old new
    validateMetadata now old new

/-! ### Statements on the sessions -/

/-- The checks and foreign keys of a row that is written to `privileged_access_sessions`. -/
def checkSession (s : PrivilegedSession) : PrivilegedStmt Unit := do
  let db ← get
  raiseIf (btrimLength s.request.purpose < 10)
    ⟨.checkViolation, "privileged_access_sessions_purpose_check", ""⟩
  raiseIf (s.request.expiresAt ≤ s.request.startsAt)
    ⟨.checkViolation, "privileged_access_sessions_check", ""⟩
  raiseIf (s.revokedAt.isNone ≠ s.revokedBy.isNone)
    ⟨.checkViolation, "privileged_access_sessions_check1", ""⟩
  raiseIf (s.companyId ∉ db.companies)
    ⟨.foreignKeyViolation, "privileged_access_sessions_company_id_fkey", ""⟩
  raiseIf ((s.companyId, s.request.subjectUserId) ∉ db.users)
    ⟨.foreignKeyViolation, "privileged_access_sessions_company_id_subject_user_id_fkey", ""⟩
  raiseIf ((s.companyId, s.request.requestedBy) ∉ db.users)
    ⟨.foreignKeyViolation, "privileged_access_sessions_company_id_requested_by_fkey", ""⟩
  raiseIf (∃ u ∈ s.revokedBy, (s.companyId, u) ∉ db.users)
    ⟨.foreignKeyViolation, "privileged_access_sessions_company_id_revoked_by_fkey", ""⟩

def insertSession (s : PrivilegedSession) : PrivilegedStmt Unit := do
  sessionsInitialState s
  let db ← get
  raiseIf (db.HasSession s.id) ⟨.uniqueViolation, "privileged_access_sessions_pkey", ""⟩
  checkSession s
  modify fun db => { db with sessions := db.sessions ++ [s] }

/-- The `UPDATE` of one row, with the triggers before it in the order of their names. -/
def writeSession (depth now : Nat) (old new : PrivilegedSession) : PrivilegedStmt Unit := do
  sessionsLockRequest depth old new
  let new ← sessionsValidateTransition now old new
  checkSession new
  modify fun db => { db with sessions := db.sessions.map fun s => if s = old then new else s }

/-- `UPDATE privileged_access_sessions SET ... WHERE id = x`; `new` is the row after the
assignments. -/
def updateSession (now : Nat) (x : Uuid) (new : PrivilegedSession) : PrivilegedStmt Unit := do
  let db ← get
  match db.sessions.find? fun s => s.id = x with
  | none => pure ()
  | some old => writeSession 1 now old new

/-! ### Statements on the approvals -/

/-- The rows that a statement takes and leaves. -/
inductive RowChange (α : Type)
  | insert (new : α)
  | update (old new : α)
  | delete (old : α)
deriving DecidableEq, Repr

/-- `COALESCE(NEW, OLD)`. -/
def RowChange.target {α : Type} : RowChange α → α
  | .insert new | .update _ new => new
  | .delete old => old

/-- `privileged_access_approvals_append_only`, which fires before an `UPDATE` or a `DELETE`. -/
def approvalsAppendOnly (change : RowChange SessionApproval) : PrivilegedStmt Unit := do
  let db ← get
  match change with
  | .delete old =>
    if old.companyId ∉ db.companies ∨ ¬db.HasSession old.sessionId then pure ()
    else do
      raiseIf ((old.companyId, old.approverUserId) ∉ db.users)
        ⟨.foreignKeyViolation, "privileged_access_approvals_company_id_approver_user_id_fkey",
          "user " ++ Uuid.text old.approverUserId ++
            " is referenced by privileged_access_approvals"⟩
      throw ⟨.insufficientPrivilege, "privileged_access_approvals_append_only",
        "privileged_access_approvals is append-only; DELETE rejected"⟩
  | _ =>
    throw ⟨.insufficientPrivilege, "privileged_access_approvals_append_only",
      "privileged_access_approvals is append-only; UPDATE rejected"⟩

/-- `privileged_access_approvals_separation_of_duties`. -/
def approvalsSeparationOfDuties (new : SessionApproval) : PrivilegedStmt Unit := do
  let db ← get
  match db.findSession new.companyId new.sessionId with
  | none => pure ()
  | some session => do
    raiseIf (session.status ≠ .pending)
      ⟨.checkViolation, "privileged_access_approvals_session_pending",
        "approval decisions can only be recorded while session " ++ Uuid.text new.sessionId ++
          " is pending"⟩
    raiseIf (¬∃ sc ∈ db.scopes, sc.companyId = new.companyId ∧ sc.sessionId = new.sessionId)
      ⟨.checkViolation, "privileged_access_approvals_scope_required",
        "privileged_access session " ++ Uuid.text new.sessionId ++
          " must have a scope before approval"⟩
    raiseIf (new.approverUserId = session.request.subjectUserId)
      ⟨.insufficientPrivilege, "privileged_access_approvals_no_self_approval",
        "privileged_access approver cannot be the subject of the session"⟩
    raiseIf (new.approverUserId = session.request.requestedBy ∧
        session.request.requireDualApproval = true)
      ⟨.insufficientPrivilege, "privileged_access_approvals_no_requester_approval",
        "privileged_access requester cannot approve a dual-approval session"⟩

/-- `privileged_access_approvals_increment_count_fn`: an `UPDATE` from inside a trigger. -/
def approvalsIncrementCount (now : Nat) (new : SessionApproval) : PrivilegedStmt Unit := do
  let db ← get
  match db.findSession new.companyId new.sessionId with
  | none => pure ()
  | some old => writeSession 2 now old { old with decisionCount := old.decisionCount + 1 }

def insertApproval (now : Nat) (a : SessionApproval) : PrivilegedStmt Unit := do
  approvalsSeparationOfDuties a
  let db ← get
  raiseIf (btrimLength a.reason < 5) ⟨.checkViolation, "privileged_access_approvals_reason_check", ""⟩
  raiseIf (∃ o ∈ db.approvals, o.sessionId = a.sessionId ∧ o.approverUserId = a.approverUserId)
    ⟨.uniqueViolation, "privileged_access_approvals_pkey", ""⟩
  modify fun db => { db with approvals := db.approvals ++ [a] }
  raiseIf (db.findSession a.companyId a.sessionId = none)
    ⟨.foreignKeyViolation, "privileged_access_approvals_company_id_session_id_fkey", ""⟩
  raiseIf ((a.companyId, a.approverUserId) ∉ db.users)
    ⟨.foreignKeyViolation, "privileged_access_approvals_company_id_approver_user_id_fkey", ""⟩
  approvalsIncrementCount now a

/-- `UPDATE privileged_access_approvals SET ... WHERE session_id = x AND approver_user_id = u`. -/
def updateApproval (x u : Uuid) (new : SessionApproval) : PrivilegedStmt Unit := do
  let db ← get
  match db.approvals.find? fun a => a.sessionId = x ∧ a.approverUserId = u with
  | none => pure ()
  | some old => do
    approvalsAppendOnly (.update old new)
    modify fun db => { db with approvals := db.approvals.map fun a => if a = old then new else a }

def deleteApproval (x u : Uuid) : PrivilegedStmt Unit := do
  let db ← get
  match db.approvals.find? fun a => a.sessionId = x ∧ a.approverUserId = u with
  | none => pure ()
  | some old => do
    approvalsAppendOnly (.delete old)
    modify fun db => { db with approvals := db.approvals.filter (· ≠ old) }

/-! ### Statements on the scopes -/

/-- A `DELETE` of a scope row whose company, session or unit is gone: the row goes with it. -/
def cascaded (db : PrivilegedDb) : RowChange SessionScope → Prop
  | .delete old => old.companyId ∉ db.companies ∨ ¬db.HasSession old.sessionId ∨
      (old.companyId, old.orgUnitId) ∉ db.orgUnits
  | _ => False

instance (db : PrivilegedDb) : ∀ change, Decidable (cascaded db change)
  | .insert _ => .isFalse fun h => h
  | .update _ _ => .isFalse fun h => h
  | .delete _ => inferInstanceAs (Decidable (_ ∨ _ ∨ _))

/-- `privileged_access_scopes_mutable_only_before_decision`.  The session that it looks at is the
one of `COALESCE(NEW, OLD)`. -/
def scopesMutableOnlyBeforeDecision (change : RowChange SessionScope) : PrivilegedStmt Unit := do
  let db ← get
  if cascaded db change then pure ()
  else
    match db.findSession change.target.companyId change.target.sessionId with
    | none => pure ()
    | some session =>
      raiseIf (session.status ≠ .pending ∨ db.Decided change.target.sessionId)
        ⟨.insufficientPrivilege, "privileged_access_scopes_immutable_after_decision",
          "privileged_access scopes are immutable once a decision exists for session " ++
            Uuid.text change.target.sessionId⟩

/-- The keys of a row that is written to `privileged_access_scopes`, beside the rows `others`. -/
def checkScope (sc : SessionScope) (others : List SessionScope) : PrivilegedStmt Unit := do
  let db ← get
  raiseIf (∃ o ∈ others, o.sessionId = sc.sessionId ∧ o.orgUnitId = sc.orgUnitId)
    ⟨.uniqueViolation, "privileged_access_scopes_pkey", ""⟩
  raiseIf (db.findSession sc.companyId sc.sessionId = none)
    ⟨.foreignKeyViolation, "privileged_access_scopes_company_id_session_id_fkey", ""⟩
  raiseIf ((sc.companyId, sc.orgUnitId) ∉ db.orgUnits)
    ⟨.foreignKeyViolation, "privileged_access_scopes_company_id_org_unit_id_fkey", ""⟩

def insertScope (sc : SessionScope) : PrivilegedStmt Unit := do
  scopesMutableOnlyBeforeDecision (.insert sc)
  let db ← get
  checkScope sc db.scopes
  modify fun db => { db with scopes := db.scopes ++ [sc] }

/-- `UPDATE privileged_access_scopes SET ... WHERE session_id = x AND org_unit_id = u`. -/
def updateScope (x u : Uuid) (new : SessionScope) : PrivilegedStmt Unit := do
  let db ← get
  match db.scopes.find? fun sc => sc.sessionId = x ∧ sc.orgUnitId = u with
  | none => pure ()
  | some old => do
    scopesMutableOnlyBeforeDecision (.update old new)
    checkScope new (db.scopes.filter (· ≠ old))
    modify fun db => { db with scopes := db.scopes.map fun sc => if sc = old then new else sc }

def deleteScope (x u : Uuid) : PrivilegedStmt Unit := do
  let db ← get
  match db.scopes.find? fun sc => sc.sessionId = x ∧ sc.orgUnitId = u with
  | none => pure ()
  | some old => do
    scopesMutableOnlyBeforeDecision (.delete old)
    modify fun db => { db with scopes := db.scopes.filter (· ≠ old) }

/-! ### Cascades -/

/-- Deletes the approvals that meet `p`, with the trigger of each row. -/
def cascadeApprovals (p : SessionApproval → Bool) : PrivilegedStmt Unit := do
  let db ← get
  forEach (fun a => approvalsAppendOnly (.delete a)) (db.approvals.filter p)
  modify fun db => { db with approvals := db.approvals.filter fun a => !p a }

/-- Deletes the scope rows that meet `p`, with the trigger of each row. -/
def cascadeScopes (p : SessionScope → Bool) : PrivilegedStmt Unit := do
  let db ← get
  forEach (fun sc => scopesMutableOnlyBeforeDecision (.delete sc)) (db.scopes.filter p)
  modify fun db => { db with scopes := db.scopes.filter fun sc => !p sc }

def deleteSession (x : Uuid) : PrivilegedStmt Unit := do
  let db ← get
  match db.sessions.find? fun s => s.id = x with
  | none => pure ()
  | some old => do
    modify fun db => { db with sessions := db.sessions.filter (· ≠ old) }
    cascadeApprovals fun a => a.companyId = old.companyId ∧ a.sessionId = x
    cascadeScopes fun sc => sc.companyId = old.companyId ∧ sc.sessionId = x

/-- `DELETE FROM org_units WHERE company_id = c AND id = u`, as far as it reaches these tables. -/
def dropOrgUnit (c u : Uuid) : PrivilegedStmt Unit := do
  modify fun db => { db with orgUnits := db.orgUnits.filter (· ≠ (c, u)) }
  cascadeScopes fun sc => sc.companyId = c ∧ sc.orgUnitId = u

/-- `DELETE FROM companies WHERE id = c`, as far as it reaches these tables. -/
def dropCompany (c : Uuid) : PrivilegedStmt Unit := do
  modify fun db =>
    { db with
      companies := db.companies.filter (· ≠ c)
      users := db.users.filter fun u => u.1 ≠ c
      orgUnits := db.orgUnits.filter fun u => u.1 ≠ c
      sessions := db.sessions.filter fun s => s.companyId ≠ c }
  cascadeApprovals fun a => a.companyId = c
  cascadeScopes fun sc => sc.companyId = c

inductive PrivilegedOp
  | insertSession (s : PrivilegedSession)
  | updateSession (now : Nat) (x : Uuid) (new : PrivilegedSession)
  | deleteSession (x : Uuid)
  | insertApproval (now : Nat) (a : SessionApproval)
  | updateApproval (x u : Uuid) (new : SessionApproval)
  | deleteApproval (x u : Uuid)
  | insertScope (sc : SessionScope)
  | updateScope (x u : Uuid) (new : SessionScope)
  | deleteScope (x u : Uuid)
  | dropOrgUnit (c u : Uuid)
  | dropCompany (c : Uuid)
deriving DecidableEq, Repr

def PrivilegedOp.statement : PrivilegedOp → PrivilegedStmt Unit
  | .insertSession s => Wikore.insertSession s
  | .updateSession now x new => Wikore.updateSession now x new
  | .deleteSession x => Wikore.deleteSession x
  | .insertApproval now a => Wikore.insertApproval now a
  | .updateApproval x u new => Wikore.updateApproval x u new
  | .deleteApproval x u => Wikore.deleteApproval x u
  | .insertScope sc => Wikore.insertScope sc
  | .updateScope x u new => Wikore.updateScope x u new
  | .deleteScope x u => Wikore.deleteScope x u
  | .dropOrgUnit c u => Wikore.dropOrgUnit c u
  | .dropCompany c => Wikore.dropCompany c

/-- The tables after a statement; one that raises changes nothing. -/
def PrivilegedDb.step (db : PrivilegedDb) (op : PrivilegedOp) : PrivilegedDb :=
  (exec op.statement db).1

end Wikore
