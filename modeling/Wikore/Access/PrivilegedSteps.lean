import Wikore.Access.PrivilegedTables
import Mathlib.Data.List.Nodup

/-! What each statement on the tables of privileged access can do, its guards included. -/

namespace Wikore

open Statement

namespace PrivilegedDb

variable {db db' : PrivilegedDb}

theorem findSession_some {c x : Uuid} {s : PrivilegedSession} (h : db.findSession c x = some s) :
    s ∈ db.sessions ∧ s.companyId = c ∧ s.id = x := by
  have hp := List.find?_some h
  exact ⟨List.mem_of_find?_eq_some h, of_decide_eq_true hp⟩

/-- What an `UPDATE` of a session row from `old` to `new` has been checked for. -/
structure Rewrites (db : PrivilegedDb) (old new : PrivilegedSession) : Prop where
  id : new.id = old.id
  company : new.companyId = old.companyId
  companyExists : new.companyId ∈ db.companies
  request : new.request = old.request ∨ old.status = .pending ∧ old.decisionCount = 0
  status : new.status = old.status ∨ legalTransition old.status new.status = true
  decisions : new.status ≠ old.status → new.status = .approved ∨ new.status = .active →
    db.decisions old.id .rejected = [] ∧
      requiredCount new.request ≤ (db.decisions old.id .approved).length

/-- The tables with one session row replaced. -/
def setSession (db : PrivilegedDb) (old new : PrivilegedSession) : PrivilegedDb :=
  { db with sessions := db.sessions.map fun s => if s = old then new else s }

/-- What a statement makes of the tables. -/
inductive Step (db : PrivilegedDb) : PrivilegedOp → PrivilegedDb → Prop
  | same {op : PrivilegedOp} : Step db op db
  | insertSession {s : PrivilegedSession} (hnew : ¬db.HasSession s.id) (hpending : s.status = .pending)
      (hcount : s.decisionCount = 0) (hcompany : s.companyId ∈ db.companies) :
      Step db (.insertSession s) { db with sessions := db.sessions ++ [s] }
  | updateSession {now : Nat} {x : Uuid} {row old new : PrivilegedSession} (hold : old ∈ db.sessions)
      (hnew : db.Rewrites old new) (hcount : new.decisionCount = old.decisionCount) :
      Step db (.updateSession now x row) (db.setSession old new)
  | deleteSession {x : Uuid} {old : PrivilegedSession} (hold : old ∈ db.sessions) (hid : old.id = x) :
      Step db (.deleteSession x)
        { db with
          sessions := db.sessions.filter (· ≠ old)
          approvals := db.approvals.filter fun a =>
            !decide (a.companyId = old.companyId ∧ a.sessionId = x)
          scopes := db.scopes.filter fun sc =>
            !decide (sc.companyId = old.companyId ∧ sc.sessionId = x) }
  | insertApproval {now : Nat} {a : SessionApproval} {s : PrivilegedSession} (hs : s ∈ db.sessions)
      (hcompany : s.companyId = a.companyId) (hid : s.id = a.sessionId)
      (hpending : s.status = .pending) (hsubject : a.approverUserId ≠ s.request.subjectUserId)
      (hrequester : s.request.requireDualApproval = true →
        a.approverUserId ≠ s.request.requestedBy)
      (huser : (a.companyId, a.approverUserId) ∈ db.users)
      (hkey : ∀ o ∈ db.approvals, o.sessionId = a.sessionId → o.approverUserId ≠ a.approverUserId) :
      Step db (.insertApproval now a) ({ db with approvals := db.approvals ++ [a] }.setSession s
        { s with decisionCount := s.decisionCount + 1 })
  | deleteApproval {x u : Uuid} {old : SessionApproval} (hold : old ∈ db.approvals)
      (hgone : old.companyId ∉ db.companies ∨ ¬db.HasSession old.sessionId) :
      Step db (.deleteApproval x u) { db with approvals := db.approvals.filter (· ≠ old) }
  | insertScope {sc : SessionScope} {s : PrivilegedSession} (hs : s ∈ db.sessions)
      (hcompany : s.companyId = sc.companyId) (hid : s.id = sc.sessionId)
      (hopen : ¬db.Decided sc.sessionId) (hunit : (sc.companyId, sc.orgUnitId) ∈ db.orgUnits) :
      Step db (.insertScope sc) { db with scopes := db.scopes ++ [sc] }
  | updateScope {x u : Uuid} {old new : SessionScope} {s : PrivilegedSession} (hold : old ∈ db.scopes)
      (hx : old.sessionId = x ∧ old.orgUnitId = u) (hs : s ∈ db.sessions)
      (hcompany : s.companyId = new.companyId) (hid : s.id = new.sessionId)
      (hpending : s.status = .pending) (hopen : ¬db.Decided new.sessionId)
      (hunit : (new.companyId, new.orgUnitId) ∈ db.orgUnits) :
      Step db (.updateScope x u new)
        { db with scopes := db.scopes.map fun sc => if sc = old then new else sc }
  | deleteScope {x u : Uuid} {old : SessionScope} (hold : old ∈ db.scopes)
      (hopen : cascaded db (.delete old) ∨ db.findSession old.companyId old.sessionId = none ∨
        ¬db.Decided old.sessionId) :
      Step db (.deleteScope x u) { db with scopes := db.scopes.filter (· ≠ old) }
  | dropOrgUnit {c u : Uuid} :
      Step db (.dropOrgUnit c u)
        { db with
          orgUnits := db.orgUnits.filter (· ≠ (c, u))
          scopes := db.scopes.filter fun sc => !decide (sc.companyId = c ∧ sc.orgUnitId = u) }
  | dropCompany {c : Uuid} :
      Step db (.dropCompany c)
        { db with
          companies := db.companies.filter (· ≠ c)
          users := db.users.filter fun u => u.1 ≠ c
          orgUnits := db.orgUnits.filter fun u => u.1 ≠ c
          sessions := db.sessions.filter fun s => s.companyId ≠ c
          approvals := db.approvals.filter fun a => !decide (a.companyId = c)
          scopes := db.scopes.filter fun sc => !decide (sc.companyId = c) }

/-! ### The triggers -/

theorem initialState_ok {s : PrivilegedSession} (h : sessionsInitialState s db = .ok () db') :
    db = db' ∧ s.status = .pending ∧ s.decisionCount = 0 := by
  obtain ⟨hc, rfl⟩ := raiseIf_ok.mp h
  refine ⟨rfl, ?_, ?_⟩
  · by_contra hne
    exact hc (.inl hne)
  · by_contra hne
    exact hc (.inr (.inr (.inr (.inr (.inr hne)))))

theorem lockRequest_ok {depth : Nat} {old new : PrivilegedSession}
    (h : sessionsLockRequest depth old new db = .ok () db') :
    db = db' ∧ new.id = old.id ∧ new.companyId = old.companyId ∧
      (depth < 2 → new.decisionCount = old.decisionCount) ∧
      (new.request = old.request ∨ old.status = .pending ∧ old.decisionCount = 0) := by
  obtain ⟨_, db1, h1, h⟩ := bind_ok.mp h
  obtain ⟨_, db2, h2, h3⟩ := bind_ok.mp h
  obtain ⟨hid, rfl⟩ := raiseIf_ok.mp h1
  obtain ⟨hcount, rfl⟩ := raiseIf_ok.mp h2
  obtain ⟨hreq, rfl⟩ := raiseIf_ok.mp h3
  have hid' : new.id = old.id ∧ new.companyId = old.companyId := by simpa using hid
  refine ⟨rfl, hid'.1, hid'.2, ?_, ?_⟩
  · intro hdepth
    by_contra hne
    exact hcount ⟨hne, .inl hdepth⟩
  · by_cases heq : new.request = old.request
    · exact .inl heq
    · right
      have hfree : ¬(old.status ≠ .pending ∨ 0 < old.decisionCount) := fun hor => hreq ⟨heq, hor⟩
      constructor
      · by_contra hne
        exact hfree (.inl hne)
      · have : ¬0 < old.decisionCount := fun hlt => hfree (.inr hlt)
        omega

theorem validateDecisions_ok {old new : PrivilegedSession}
    (h : validateDecisions old new db = .ok () db') :
    db = db' ∧ (new.status = .approved ∨ new.status = .active →
      db.decisions old.id .rejected = [] ∧
        requiredCount new.request ≤ (db.decisions old.id .approved).length) := by
  obtain ⟨db1, _, h1, h⟩ := bind_ok.mp h
  obtain ⟨rfl, rfl⟩ := get_ok.mp h1
  obtain ⟨_, _, h2, h⟩ := bind_ok.mp h
  obtain ⟨hcounts, rfl⟩ := raiseIf_ok.mp h2
  obtain ⟨_, _, h3, h4⟩ := bind_ok.mp h
  obtain ⟨-, rfl⟩ := raiseIf_ok.mp h3
  obtain ⟨-, rfl⟩ := raiseIf_ok.mp h4
  refine ⟨rfl, fun hst => ?_⟩
  have hno := fun hor => hcounts ⟨hst, hor⟩
  constructor
  · apply List.eq_nil_of_length_eq_zero
    have : ¬0 < (db.decisions old.id .rejected).length := fun hlt => hno (.inl hlt)
    omega
  · have : ¬(db.decisions old.id .approved).length < requiredCount new.request :=
      fun hlt => hno (.inr hlt)
    omega

/-- The metadata checks give the row back, with `activated_at` set when it becomes active. -/
theorem validateMetadata_ok {now : Nat} {old new new' : PrivilegedSession}
    (h : validateMetadata now old new db = .ok new' db') :
    db = db' ∧ ∃ t, new' = { new with activatedAt := t } := by
  obtain ⟨_, _, h1, h⟩ := bind_ok.mp h
  obtain ⟨_, _, h2, h⟩ := bind_ok.mp h
  obtain ⟨_, _, h3, h⟩ := bind_ok.mp h
  obtain ⟨_, _, h4, h⟩ := bind_ok.mp h
  obtain ⟨_, _, h5, h⟩ := bind_ok.mp h
  obtain ⟨-, rfl⟩ := raiseIf_ok.mp h1
  obtain ⟨-, rfl⟩ := raiseIf_ok.mp h2
  obtain ⟨-, rfl⟩ := raiseIf_ok.mp h3
  obtain ⟨-, rfl⟩ := raiseIf_ok.mp h4
  obtain ⟨-, rfl⟩ := raiseIf_ok.mp h5
  obtain ⟨rfl, rfl⟩ := pure_ok.mp h
  refine ⟨rfl, ?_⟩
  split
  · exact ⟨some now, rfl⟩
  · exact ⟨new.activatedAt, rfl⟩

theorem validateTransition_ok {now : Nat} {old new new' : PrivilegedSession}
    (h : sessionsValidateTransition now old new db = .ok new' db') :
    db = db' ∧ (∃ t, new' = { new with activatedAt := t }) ∧
      (new.status = old.status → new' = new) ∧
      (new.status = old.status ∨ legalTransition old.status new.status = true) ∧
      (new.status ≠ old.status → new.status = .approved ∨ new.status = .active →
        db.decisions old.id .rejected = [] ∧
          requiredCount new.request ≤ (db.decisions old.id .approved).length) := by
  rcases ite_ok.mp h with ⟨hst, h⟩ | ⟨hst, h⟩
  · obtain ⟨_, _, h1, h2⟩ := bind_ok.mp h
    obtain ⟨-, rfl⟩ := raiseIf_ok.mp h1
    obtain ⟨rfl, rfl⟩ := pure_ok.mp h2
    exact ⟨rfl, ⟨new.activatedAt, rfl⟩, fun _ => rfl, .inl hst, fun hne => absurd hst hne⟩
  · obtain ⟨_, _, h1, h⟩ := bind_ok.mp h
    obtain ⟨hlegal, rfl⟩ := raiseIf_ok.mp h1
    obtain ⟨_, _, h2, h3⟩ := bind_ok.mp h
    obtain ⟨rfl, hdec⟩ := validateDecisions_ok h2
    obtain ⟨rfl, hmeta⟩ := validateMetadata_ok h3
    exact ⟨rfl, hmeta, fun heq => absurd heq hst, .inr (by simpa using hlegal), fun _ => hdec⟩

theorem checkSession_ok {s : PrivilegedSession} (h : checkSession s db = .ok () db') :
    db = db' ∧ s.companyId ∈ db.companies := by
  obtain ⟨db1, _, h1, h⟩ := bind_ok.mp h
  obtain ⟨rfl, rfl⟩ := get_ok.mp h1
  obtain ⟨_, _, h2, h⟩ := bind_ok.mp h
  obtain ⟨-, rfl⟩ := raiseIf_ok.mp h2
  obtain ⟨_, _, h3, h⟩ := bind_ok.mp h
  obtain ⟨-, rfl⟩ := raiseIf_ok.mp h3
  obtain ⟨_, _, h4, h⟩ := bind_ok.mp h
  obtain ⟨-, rfl⟩ := raiseIf_ok.mp h4
  obtain ⟨_, _, h5, h⟩ := bind_ok.mp h
  obtain ⟨hc, rfl⟩ := raiseIf_ok.mp h5
  obtain ⟨_, _, h6, h⟩ := bind_ok.mp h
  obtain ⟨-, rfl⟩ := raiseIf_ok.mp h6
  obtain ⟨_, _, h7, h8⟩ := bind_ok.mp h
  obtain ⟨-, rfl⟩ := raiseIf_ok.mp h7
  obtain ⟨-, rfl⟩ := raiseIf_ok.mp h8
  exact ⟨rfl, Decidable.not_not.mp hc⟩

theorem writeSession_ok {depth now : Nat} {old row : PrivilegedSession}
    (h : writeSession depth now old row db = .ok () db') :
    ∃ new, db.Rewrites old new ∧ new.decisionCount = row.decisionCount ∧
      (depth < 2 → row.decisionCount = old.decisionCount) ∧
      (row.status = old.status → new = row) ∧ db' = db.setSession old new := by
  obtain ⟨_, _, h1, h⟩ := bind_ok.mp h
  obtain ⟨rfl, hid, hcompany, hcount, hreq⟩ := lockRequest_ok h1
  obtain ⟨new, _, h2, h⟩ := bind_ok.mp h
  obtain ⟨rfl, ⟨t, rfl⟩, hsame, hstatus, hdec⟩ := validateTransition_ok h2
  obtain ⟨_, _, h3, h4⟩ := bind_ok.mp h
  obtain ⟨rfl, hexists⟩ := checkSession_ok h3
  obtain rfl := modify_ok.mp h4
  exact ⟨{ row with activatedAt := t }, ⟨hid, hcompany, hexists, hreq, hstatus, hdec⟩, rfl, hcount,
    hsame, rfl⟩

theorem appendOnly_ok {change : RowChange SessionApproval}
    (h : approvalsAppendOnly change db = .ok () db') :
    db = db' ∧ ∃ old, change = .delete old ∧
      (old.companyId ∉ db.companies ∨ ¬db.HasSession old.sessionId) := by
  obtain ⟨db1, _, h1, h⟩ := bind_ok.mp h
  obtain ⟨rfl, rfl⟩ := get_ok.mp h1
  cases change with
  | insert new => exact (throw_ok.mp h).elim
  | update old new => exact (throw_ok.mp h).elim
  | delete old =>
    rcases ite_ok.mp h with ⟨hgone, h⟩ | ⟨-, h⟩
    · obtain ⟨-, rfl⟩ := pure_ok.mp h
      exact ⟨rfl, old, rfl, hgone⟩
    · obtain ⟨_, _, _, h2⟩ := bind_ok.mp h
      exact (throw_ok.mp h2).elim

theorem separationOfDuties_ok {a : SessionApproval}
    (h : approvalsSeparationOfDuties a db = .ok () db') :
    db = db' ∧ ∀ s, db.findSession a.companyId a.sessionId = some s →
      s.status = .pending ∧ a.approverUserId ≠ s.request.subjectUserId ∧
        (s.request.requireDualApproval = true → a.approverUserId ≠ s.request.requestedBy) := by
  obtain ⟨db1, _, h1, h⟩ := bind_ok.mp h
  obtain ⟨rfl, rfl⟩ := get_ok.mp h1
  rcases hsome : db.findSession a.companyId a.sessionId with - | s
  · simp only [hsome] at h
    obtain ⟨-, rfl⟩ := pure_ok.mp h
    refine ⟨rfl, fun s hs => ?_⟩
    cases hs
  · simp only [hsome] at h
    obtain ⟨_, _, h2, h⟩ := bind_ok.mp h
    obtain ⟨hpending, rfl⟩ := raiseIf_ok.mp h2
    obtain ⟨_, _, h3, h⟩ := bind_ok.mp h
    obtain ⟨-, rfl⟩ := raiseIf_ok.mp h3
    obtain ⟨_, _, h4, h5⟩ := bind_ok.mp h
    obtain ⟨hsubject, rfl⟩ := raiseIf_ok.mp h4
    obtain ⟨hrequester, rfl⟩ := raiseIf_ok.mp h5
    refine ⟨rfl, fun s' hs' => ?_⟩
    obtain rfl := Option.some.inj hs'
    exact ⟨Decidable.not_not.mp hpending, hsubject, fun hdual heq => hrequester ⟨heq, hdual⟩⟩

theorem scopesMutable_ok {change : RowChange SessionScope}
    (h : scopesMutableOnlyBeforeDecision change db = .ok () db') :
    db = db' ∧ (cascaded db change ∨
      db.findSession change.target.companyId change.target.sessionId = none ∨
      ¬db.Decided change.target.sessionId ∧
        ∀ s, db.findSession change.target.companyId change.target.sessionId = some s →
          s.status = .pending) := by
  obtain ⟨db1, _, h1, h⟩ := bind_ok.mp h
  obtain ⟨rfl, rfl⟩ := get_ok.mp h1
  rcases ite_ok.mp h with ⟨hgone, h⟩ | ⟨-, h⟩
  · obtain ⟨-, rfl⟩ := pure_ok.mp h
    exact ⟨rfl, .inl hgone⟩
  · rcases hf : db.findSession change.target.companyId change.target.sessionId with - | s
    · simp only [hf] at h
      obtain ⟨-, rfl⟩ := pure_ok.mp h
      exact ⟨rfl, .inr (.inl rfl)⟩
    · simp only [hf] at h
      obtain ⟨hc, rfl⟩ := raiseIf_ok.mp h
      refine ⟨rfl, .inr (.inr ⟨fun hdec => hc (.inr hdec), fun t ht => ?_⟩)⟩
      obtain rfl := Option.some.inj ht
      exact Decidable.not_not.mp fun hst => hc (.inl hst)

theorem checkScope_ok {sc : SessionScope} {others : List SessionScope}
    (h : checkScope sc others db = .ok () db') :
    db = db' ∧ db.findSession sc.companyId sc.sessionId ≠ none ∧
      (sc.companyId, sc.orgUnitId) ∈ db.orgUnits := by
  obtain ⟨db1, _, h1, h⟩ := bind_ok.mp h
  obtain ⟨rfl, rfl⟩ := get_ok.mp h1
  obtain ⟨_, _, h2, h⟩ := bind_ok.mp h
  obtain ⟨-, rfl⟩ := raiseIf_ok.mp h2
  obtain ⟨_, _, h3, h4⟩ := bind_ok.mp h
  obtain ⟨hsession, rfl⟩ := raiseIf_ok.mp h3
  obtain ⟨hunit, rfl⟩ := raiseIf_ok.mp h4
  exact ⟨rfl, hsession, Decidable.not_not.mp hunit⟩

/-- A scope row that is written names an open session of its company. -/
theorem scope_written (change : RowChange SessionScope) {others : List SessionScope}
    {db1 : PrivilegedDb} (hins : ¬cascaded db change)
    (h1 : scopesMutableOnlyBeforeDecision change db = .ok () db1)
    (h2 : checkScope change.target others db1 = .ok () db') :
    db = db' ∧ ¬db.Decided change.target.sessionId ∧
      (change.target.companyId, change.target.orgUnitId) ∈ db.orgUnits ∧
      ∃ s ∈ db.sessions, s.companyId = change.target.companyId ∧ s.id = change.target.sessionId ∧
        s.status = .pending := by
  obtain ⟨rfl, hopen⟩ := scopesMutable_ok h1
  obtain ⟨rfl, hsession, hunit⟩ := checkScope_ok h2
  obtain ⟨hundecided, hpending⟩ := (hopen.resolve_left hins).resolve_left hsession
  obtain ⟨s, hs⟩ := Option.ne_none_iff_exists'.mp hsession
  obtain ⟨hmem, hcompany, hid⟩ := findSession_some hs
  exact ⟨rfl, hundecided, hunit, s, hmem, hcompany, hid, hpending s hs⟩

/-! ### The statements -/

theorem insertSession_step {s : PrivilegedSession} (h : insertSession s db = .ok () db') :
    Step db (.insertSession s) db' := by
  obtain ⟨_, _, h1, h⟩ := bind_ok.mp h
  obtain ⟨rfl, hpending, hcount⟩ := initialState_ok h1
  obtain ⟨db1, _, h2, h⟩ := bind_ok.mp h
  obtain ⟨rfl, rfl⟩ := get_ok.mp h2
  obtain ⟨_, _, h3, h⟩ := bind_ok.mp h
  obtain ⟨hnew, rfl⟩ := raiseIf_ok.mp h3
  obtain ⟨_, _, h4, h5⟩ := bind_ok.mp h
  obtain ⟨rfl, hcompany⟩ := checkSession_ok h4
  obtain rfl := modify_ok.mp h5
  exact .insertSession hnew hpending hcount hcompany

theorem updateSession_step {now : Nat} {x : Uuid} {row : PrivilegedSession}
    (h : updateSession now x row db = .ok () db') : Step db (.updateSession now x row) db' := by
  obtain ⟨db1, _, h1, h⟩ := bind_ok.mp h
  obtain ⟨rfl, rfl⟩ := get_ok.mp h1
  rcases hold : db.sessions.find? (fun s => s.id = x) with - | old
  · simp only [hold] at h
    obtain ⟨-, rfl⟩ := pure_ok.mp h
    exact .same
  · simp only [hold] at h
    obtain ⟨new, hnew, hrow, hcount, -, rfl⟩ := writeSession_ok h
    exact .updateSession (List.mem_of_find?_eq_some hold) hnew (hrow.trans (hcount (by omega)))

theorem insertApproval_step {now : Nat} {a : SessionApproval}
    (h : insertApproval now a db = .ok () db') : Step db (.insertApproval now a) db' := by
  obtain ⟨_, _, h1, h⟩ := bind_ok.mp h
  obtain ⟨rfl, hduties⟩ := separationOfDuties_ok h1
  obtain ⟨db1, _, h2, h⟩ := bind_ok.mp h
  obtain ⟨rfl, rfl⟩ := get_ok.mp h2
  obtain ⟨_, _, h3, h⟩ := bind_ok.mp h
  obtain ⟨-, rfl⟩ := raiseIf_ok.mp h3
  obtain ⟨_, _, h4, h⟩ := bind_ok.mp h
  obtain ⟨hkey, rfl⟩ := raiseIf_ok.mp h4
  obtain ⟨_, _, h5, h⟩ := bind_ok.mp h
  obtain rfl := modify_ok.mp h5
  obtain ⟨_, _, h6, h⟩ := bind_ok.mp h
  obtain ⟨hsession, rfl⟩ := raiseIf_ok.mp h6
  obtain ⟨_, _, h7, h⟩ := bind_ok.mp h
  obtain ⟨huser, rfl⟩ := raiseIf_ok.mp h7
  obtain ⟨db2, _, h8, h⟩ := bind_ok.mp h
  obtain ⟨rfl, rfl⟩ := get_ok.mp h8
  obtain ⟨s, hs⟩ := Option.ne_none_iff_exists'.mp hsession
  obtain ⟨hpending, hsubject, hrequester⟩ := hduties s hs
  obtain ⟨hmem, hcompany, hid⟩ := findSession_some hs
  have hs' : PrivilegedDb.findSession { db with approvals := db.approvals ++ [a] } a.companyId
    a.sessionId = some s := hs
  simp only [hs'] at h
  obtain ⟨new, -, -, -, hsame, rfl⟩ := writeSession_ok h
  obtain rfl := hsame rfl
  refine .insertApproval hmem hcompany hid hpending hsubject hrequester
    (Decidable.not_not.mp huser) fun o ho hx hu => hkey ⟨o, ho, hx, hu⟩

theorem updateApproval_step {x u : Uuid} {new : SessionApproval}
    (h : updateApproval x u new db = .ok () db') : Step db (.updateApproval x u new) db' := by
  obtain ⟨db1, _, h1, h⟩ := bind_ok.mp h
  obtain ⟨rfl, rfl⟩ := get_ok.mp h1
  rcases hold : db.approvals.find? (fun a => a.sessionId = x ∧ a.approverUserId = u) with - | old
  · simp only [hold] at h
    obtain ⟨-, rfl⟩ := pure_ok.mp h
    exact .same
  · simp only [hold] at h
    obtain ⟨_, _, h2, _⟩ := bind_ok.mp h
    obtain ⟨-, _, hdel, -⟩ := appendOnly_ok h2
    cases hdel

theorem deleteApproval_step {x u : Uuid} (h : deleteApproval x u db = .ok () db') :
    Step db (.deleteApproval x u) db' := by
  obtain ⟨db1, _, h1, h⟩ := bind_ok.mp h
  obtain ⟨rfl, rfl⟩ := get_ok.mp h1
  rcases hold : db.approvals.find? (fun a => a.sessionId = x ∧ a.approverUserId = u) with - | old
  · simp only [hold] at h
    obtain ⟨-, rfl⟩ := pure_ok.mp h
    exact .same
  · simp only [hold] at h
    obtain ⟨_, _, h2, h3⟩ := bind_ok.mp h
    obtain ⟨rfl, _, heq, hgone⟩ := appendOnly_ok h2
    cases heq
    obtain rfl := modify_ok.mp h3
    exact .deleteApproval (List.mem_of_find?_eq_some hold) hgone

theorem insertScope_step {sc : SessionScope} (h : insertScope sc db = .ok () db') :
    Step db (.insertScope sc) db' := by
  obtain ⟨_, _, h1, h⟩ := bind_ok.mp h
  obtain ⟨rfl, -⟩ := scopesMutable_ok h1
  obtain ⟨db1, _, h2, h⟩ := bind_ok.mp h
  obtain ⟨rfl, rfl⟩ := get_ok.mp h2
  obtain ⟨_, _, h3, h4⟩ := bind_ok.mp h
  obtain ⟨rfl, hopen, hunit, s, hs, hcompany, hid, -⟩ :=
    scope_written (.insert sc) (fun hc => hc) h1 h3
  obtain rfl := modify_ok.mp h4
  exact .insertScope hs hcompany hid hopen hunit

theorem updateScope_step {x u : Uuid} {new : SessionScope}
    (h : updateScope x u new db = .ok () db') : Step db (.updateScope x u new) db' := by
  obtain ⟨db1, _, h1, h⟩ := bind_ok.mp h
  obtain ⟨rfl, rfl⟩ := get_ok.mp h1
  rcases hold : db.scopes.find? (fun sc => sc.sessionId = x ∧ sc.orgUnitId = u) with - | old
  · simp only [hold] at h
    obtain ⟨-, rfl⟩ := pure_ok.mp h
    exact .same
  · simp only [hold] at h
    obtain ⟨_, _, h2, h⟩ := bind_ok.mp h
    obtain ⟨_, _, h3, h4⟩ := bind_ok.mp h
    obtain ⟨rfl, hopen, hunit, s, hs, hcompany, hid, hpending⟩ :=
      scope_written (.update old new) (fun hc => hc) h2 h3
    obtain rfl := modify_ok.mp h4
    have hx := List.find?_some hold
    exact .updateScope (List.mem_of_find?_eq_some hold) (of_decide_eq_true hx) hs hcompany hid
      hpending hopen hunit

theorem deleteScope_step {x u : Uuid} (h : deleteScope x u db = .ok () db') :
    Step db (.deleteScope x u) db' := by
  obtain ⟨db1, _, h1, h⟩ := bind_ok.mp h
  obtain ⟨rfl, rfl⟩ := get_ok.mp h1
  rcases hold : db.scopes.find? (fun sc => sc.sessionId = x ∧ sc.orgUnitId = u) with - | old
  · simp only [hold] at h
    obtain ⟨-, rfl⟩ := pure_ok.mp h
    exact .same
  · simp only [hold] at h
    obtain ⟨_, _, h2, h3⟩ := bind_ok.mp h
    obtain ⟨rfl, hopen⟩ := scopesMutable_ok h2
    obtain rfl := modify_ok.mp h3
    exact .deleteScope (List.mem_of_find?_eq_some hold) (hopen.imp_right (Or.imp_right And.left))

/-- A trigger that only checks leaves the tables as they are, row after row. -/
theorem forEach_same {α : Type} {f : α → PrivilegedStmt Unit} {xs : List α}
    (hf : ∀ x db db', f x db = .ok () db' → db = db') (h : forEach f xs db = .ok () db') :
    db = db' := by
  induction xs generalizing db with
  | nil => exact (pure_ok.mp h).2
  | cons x xs ih =>
    obtain ⟨_, _, h1, h2⟩ := bind_ok.mp h
    obtain rfl := hf _ _ _ h1
    exact ih h2

theorem cascadeApprovals_ok {p : SessionApproval → Bool}
    (h : cascadeApprovals p db = .ok () db') :
    db' = { db with approvals := db.approvals.filter fun a => !p a } := by
  obtain ⟨db1, _, h1, h⟩ := bind_ok.mp h
  obtain ⟨rfl, rfl⟩ := get_ok.mp h1
  obtain ⟨_, _, h2, h3⟩ := bind_ok.mp h
  obtain rfl := forEach_same (fun _ _ _ hx => (appendOnly_ok hx).1) h2
  exact (modify_ok.mp h3).symm

theorem cascadeScopes_ok {p : SessionScope → Bool} (h : cascadeScopes p db = .ok () db') :
    db' = { db with scopes := db.scopes.filter fun sc => !p sc } := by
  obtain ⟨db1, _, h1, h⟩ := bind_ok.mp h
  obtain ⟨rfl, rfl⟩ := get_ok.mp h1
  obtain ⟨_, _, h2, h3⟩ := bind_ok.mp h
  obtain rfl := forEach_same (fun _ _ _ hx => (scopesMutable_ok hx).1) h2
  exact (modify_ok.mp h3).symm

theorem deleteSession_step {x : Uuid} (h : deleteSession x db = .ok () db') :
    Step db (.deleteSession x) db' := by
  obtain ⟨db1, _, h1, h⟩ := bind_ok.mp h
  obtain ⟨rfl, rfl⟩ := get_ok.mp h1
  rcases hold : db.sessions.find? (fun s => s.id = x) with - | old
  · simp only [hold] at h
    obtain ⟨-, rfl⟩ := pure_ok.mp h
    exact .same
  · simp only [hold] at h
    obtain ⟨_, _, h2, h⟩ := bind_ok.mp h
    obtain rfl := modify_ok.mp h2
    obtain ⟨_, _, h3, h4⟩ := bind_ok.mp h
    obtain rfl := cascadeApprovals_ok h3
    obtain rfl := cascadeScopes_ok h4
    have hid := List.find?_some hold
    exact .deleteSession (List.mem_of_find?_eq_some hold) (of_decide_eq_true hid)

theorem dropOrgUnit_step {c u : Uuid} (h : dropOrgUnit c u db = .ok () db') :
    Step db (.dropOrgUnit c u) db' := by
  obtain ⟨_, _, h1, h2⟩ := bind_ok.mp h
  obtain rfl := modify_ok.mp h1
  obtain rfl := cascadeScopes_ok h2
  exact .dropOrgUnit

theorem dropCompany_step {c : Uuid} (h : dropCompany c db = .ok () db') :
    Step db (.dropCompany c) db' := by
  obtain ⟨_, _, h1, h⟩ := bind_ok.mp h
  obtain rfl := modify_ok.mp h1
  obtain ⟨_, _, h2, h3⟩ := bind_ok.mp h
  obtain rfl := cascadeApprovals_ok h2
  obtain rfl := cascadeScopes_ok h3
  exact .dropCompany

/-- Every statement, those that raise included. -/
theorem step_cases (db : PrivilegedDb) (op : PrivilegedOp) : Step db op (db.step op) := by
  refine exec_preserves .same fun db' h => ?_
  cases op with
  | insertSession s => exact insertSession_step h
  | updateSession now x new => exact updateSession_step h
  | deleteSession x => exact deleteSession_step h
  | insertApproval now a => exact insertApproval_step h
  | updateApproval x u new => exact updateApproval_step h
  | deleteApproval x u => exact deleteApproval_step h
  | insertScope sc => exact insertScope_step h
  | updateScope x u new => exact updateScope_step h
  | deleteScope x u => exact deleteScope_step h
  | dropOrgUnit c u => exact dropOrgUnit_step h
  | dropCompany c => exact dropCompany_step h

end PrivilegedDb

end Wikore
