import Wikore.Access.PrivilegedSteps
import Wikore.Lib.Transition
import Mathlib.Data.List.Chain

/-! The workflow of privileged access over whole runs: what the keys, foreign keys and triggers of
V036 keep true together, whatever statements come in whatever order. -/

namespace Wikore

open Transition

namespace PrivilegedDb

/-- The primary keys and foreign keys. -/
structure Refs (db : PrivilegedDb) : Prop where
  sessionIds : (db.sessions.map PrivilegedSession.id).Nodup
  sessionCompany : ∀ s ∈ db.sessions, s.companyId ∈ db.companies
  approvalKeys : (db.approvals.map fun a => (a.sessionId, a.approverUserId)).Nodup
  approvalSession : ∀ a ∈ db.approvals, ∃ s ∈ db.sessions,
    s.companyId = a.companyId ∧ s.id = a.sessionId
  approvalUser : ∀ a ∈ db.approvals, (a.companyId, a.approverUserId) ∈ db.users
  scopeSession : ∀ sc ∈ db.scopes, ∃ s ∈ db.sessions,
    s.companyId = sc.companyId ∧ s.id = sc.sessionId
  scopeUnit : ∀ sc ∈ db.scopes, (sc.companyId, sc.orgUnitId) ∈ db.orgUnits

/-- What the triggers keep of the decisions on a session. -/
structure Workflow (db : PrivilegedDb) : Prop extends Refs db where
  counted : ∀ s ∈ db.sessions, db.Decided s.id → 0 < s.decisionCount
  separated : ∀ s ∈ db.sessions, ∀ a ∈ db.approvals, a.sessionId = s.id →
    a.approverUserId ≠ s.request.subjectUserId ∧
      (s.request.requireDualApproval = true → a.approverUserId ≠ s.request.requestedBy)
  granted : ∀ s ∈ db.sessions, s.status = .approved ∨ s.status = .active →
    db.decisions s.id .rejected = [] ∧
      requiredCount s.request ≤ (db.decisions s.id .approved).length

section Rows

variable {db : PrivilegedDb} {old new s t : PrivilegedSession}

theorem Refs.session_ext (h : db.Refs) (hs : s ∈ db.sessions) (ht : t ∈ db.sessions)
    (hid : s.id = t.id) : s = t :=
  List.inj_on_of_nodup_map h.sessionIds hs ht hid

theorem mem_setSession (hs : s ∈ (db.setSession old new).sessions) :
    s = new ∨ s ∈ db.sessions ∧ s ≠ old := by
  obtain ⟨t, ht, heq⟩ := List.mem_map.mp hs
  split at heq
  · exact .inl heq.symm
  · rename_i hne
    subst heq
    exact .inr ⟨ht, hne⟩

/-- A replaced row keeps its key, so what refers to a session still finds one. -/
theorem exists_setSession {c x : Uuid} (hid : new.id = old.id) (hc : new.companyId = old.companyId)
    (h : ∃ s ∈ db.sessions, s.companyId = c ∧ s.id = x) :
    ∃ s ∈ (db.setSession old new).sessions, s.companyId = c ∧ s.id = x := by
  obtain ⟨s, hs, hsc, hsx⟩ := h
  by_cases heq : s = old
  · subst heq
    exact ⟨new, List.mem_map.mpr ⟨s, hs, if_pos rfl⟩, hc.trans hsc, hid.trans hsx⟩
  · exact ⟨s, List.mem_map.mpr ⟨s, hs, if_neg heq⟩, hsc, hsx⟩

theorem map_id_setSession (hid : new.id = old.id) :
    (db.setSession old new).sessions.map PrivilegedSession.id =
      db.sessions.map PrivilegedSession.id := by
  show (db.sessions.map _).map _ = _
  rw [List.map_map]
  apply List.map_congr_left
  intro s _
  show PrivilegedSession.id (if s = old then new else s) = s.id
  split
  · rename_i heq
    rw [hid, heq]
  · rfl

/-- Decisions on a session do not depend on the decisions on others. -/
theorem decisions_filter {p : SessionApproval → Bool} {x : Uuid} (d : Decision)
    (h : ∀ a ∈ db.approvals, a.sessionId = x → p a = true) :
    (db.approvals.filter p).filter (fun a => decide (a.sessionId = x ∧ a.decision = d)) =
      db.decisions x d := by
  rw [List.filter_filter]
  apply List.filter_congr
  intro a ha
  by_cases hx : a.sessionId = x
  · simp [hx, h a ha hx]
  · simp [hx]

end Rows

/-! ### Rows that go -/

/-- Rows are removed, and with a row all that refers to it. -/
structure Removes (db db' : PrivilegedDb) : Prop where
  sessions : db'.sessions.Sublist db.sessions
  approvals : db'.approvals.Sublist db.approvals
  scopes : db'.scopes ⊆ db.scopes
  companies : ∀ s ∈ db'.sessions, s.companyId ∈ db.companies → s.companyId ∈ db'.companies
  approvalSession : ∀ a ∈ db'.approvals, ∀ s ∈ db.sessions, s.companyId = a.companyId →
    s.id = a.sessionId → s ∈ db'.sessions
  approvalUser : ∀ a ∈ db'.approvals, (a.companyId, a.approverUserId) ∈ db.users →
    (a.companyId, a.approverUserId) ∈ db'.users
  scopeSession : ∀ sc ∈ db'.scopes, ∀ s ∈ db.sessions, s.companyId = sc.companyId →
    s.id = sc.sessionId → s ∈ db'.sessions
  scopeUnit : ∀ sc ∈ db'.scopes, (sc.companyId, sc.orgUnitId) ∈ db.orgUnits →
    (sc.companyId, sc.orgUnitId) ∈ db'.orgUnits
  decisions : ∀ s ∈ db'.sessions, ∀ d, db'.decisions s.id d = db.decisions s.id d

section Preserved

variable {db db' : PrivilegedDb} {op : PrivilegedOp}

theorem Removes.workflow (hr : Removes db db') (h : db.Workflow) : db'.Workflow where
  sessionIds := h.sessionIds.sublist (hr.sessions.map _)
  sessionCompany s hs := hr.companies s hs (h.sessionCompany s (hr.sessions.subset hs))
  approvalKeys := h.approvalKeys.sublist (hr.approvals.map _)
  approvalSession a ha := by
    obtain ⟨s, hs, hc, hid⟩ := h.approvalSession a (hr.approvals.subset ha)
    exact ⟨s, hr.approvalSession a ha s hs hc hid, hc, hid⟩
  approvalUser a ha := hr.approvalUser a ha (h.approvalUser a (hr.approvals.subset ha))
  scopeSession sc hsc := by
    obtain ⟨s, hs, hc, hid⟩ := h.scopeSession sc (hr.scopes hsc)
    exact ⟨s, hr.scopeSession sc hsc s hs hc hid, hc, hid⟩
  scopeUnit sc hsc := hr.scopeUnit sc hsc (h.scopeUnit sc (hr.scopes hsc))
  counted s hs := by
    rintro ⟨a, ha, hx⟩
    exact h.counted s (hr.sessions.subset hs) ⟨a, hr.approvals.subset ha, hx⟩
  separated s hs a ha := h.separated s (hr.sessions.subset hs) a (hr.approvals.subset ha)
  granted s hs hst := by
    rw [hr.decisions s hs, hr.decisions s hs]
    exact h.granted s (hr.sessions.subset hs) hst

theorem Refs.deleteSession (h : db.Refs) {old : PrivilegedSession} (hold : old ∈ db.sessions) :
    Removes db
      { db with
        sessions := db.sessions.filter (· ≠ old)
        approvals := db.approvals.filter fun a =>
          !decide (a.companyId = old.companyId ∧ a.sessionId = old.id)
        scopes := db.scopes.filter fun sc =>
          !decide (sc.companyId = old.companyId ∧ sc.sessionId = old.id) } where
  sessions := List.filter_sublist
  approvals := List.filter_sublist
  scopes := List.filter_subset_self _
  companies _ _ hc := hc
  approvalSession a ha s hs hc hid := by
    refine List.mem_filter.mpr ⟨hs, decide_eq_true ?_⟩
    rintro rfl
    have hkept := (List.mem_filter.mp ha).2
    simp [← hc, ← hid] at hkept
  approvalUser _ _ hu := hu
  scopeSession sc hsc s hs hc hid := by
    refine List.mem_filter.mpr ⟨hs, decide_eq_true ?_⟩
    rintro rfl
    have hkept := (List.mem_filter.mp hsc).2
    simp [← hc, ← hid] at hkept
  scopeUnit _ _ hu := hu
  decisions s hs d := by
    obtain ⟨hmem, hne⟩ := List.mem_filter.mp hs
    refine decisions_filter d fun a _ hx => ?_
    have : s.id ≠ old.id := fun hid => of_decide_eq_true hne (h.session_ext hmem hold hid)
    simp [hx, this]

theorem Refs.dropCompany (h : db.Refs) (c : Uuid) :
    Removes db
      { db with
        companies := db.companies.filter (· ≠ c)
        users := db.users.filter fun u => u.1 ≠ c
        orgUnits := db.orgUnits.filter fun u => u.1 ≠ c
        sessions := db.sessions.filter fun s => s.companyId ≠ c
        approvals := db.approvals.filter fun a => !decide (a.companyId = c)
        scopes := db.scopes.filter fun sc => !decide (sc.companyId = c) } where
  sessions := List.filter_sublist
  approvals := List.filter_sublist
  scopes := List.filter_subset_self _
  companies s hs hc := List.mem_filter.mpr ⟨hc, by simpa using (List.mem_filter.mp hs).2⟩
  approvalSession a ha s hs hc _ :=
    List.mem_filter.mpr ⟨hs, by simpa [hc] using (List.mem_filter.mp ha).2⟩
  approvalUser a ha hu := List.mem_filter.mpr ⟨hu, by simpa using (List.mem_filter.mp ha).2⟩
  scopeSession sc hsc s hs hc _ :=
    List.mem_filter.mpr ⟨hs, by simpa [hc] using (List.mem_filter.mp hsc).2⟩
  scopeUnit sc hsc hu := List.mem_filter.mpr ⟨hu, by simpa using (List.mem_filter.mp hsc).2⟩
  decisions s hs d := by
    obtain ⟨hmem, hne⟩ := List.mem_filter.mp hs
    refine decisions_filter d fun a ha hx => ?_
    -- the approval belongs to the company of its session
    obtain ⟨t, ht, hc, hid⟩ := h.approvalSession a ha
    obtain rfl := h.session_ext ht hmem (hid.trans hx)
    simpa [hc] using hne

theorem removes_scopes {scopes : List SessionScope} {units : List (Uuid × Uuid)}
    (hsub : scopes ⊆ db.scopes) (hunits : ∀ sc ∈ scopes,
      (sc.companyId, sc.orgUnitId) ∈ db.orgUnits → (sc.companyId, sc.orgUnitId) ∈ units) :
    Removes db { db with scopes, orgUnits := units } where
  sessions := .refl _
  approvals := .refl _
  scopes := hsub
  companies _ _ hc := hc
  approvalSession _ _ _ hs _ _ := hs
  approvalUser _ _ hu := hu
  scopeSession _ _ _ hs _ _ := hs
  scopeUnit := hunits
  decisions _ _ _ := rfl

/-! ### Rows that change or come -/

theorem Workflow.insertSession (h : db.Workflow) {s : PrivilegedSession}
    (hnew : ¬db.HasSession s.id) (hpending : s.status = .pending)
    (hcompany : s.companyId ∈ db.companies) :
    Workflow { db with sessions := db.sessions ++ [s] } := by
  have hnone : ∀ a ∈ db.approvals, a.sessionId ≠ s.id := by
    intro a ha hx
    obtain ⟨t, ht, -, hid⟩ := h.approvalSession a ha
    exact hnew ⟨t, ht, hid.trans hx⟩
  refine ⟨⟨?_, ?_, h.approvalKeys, ?_, h.approvalUser, ?_, h.scopeUnit⟩, ?_, ?_, ?_⟩
  · rw [List.map_append, List.nodup_append]
    refine ⟨h.sessionIds, List.nodup_singleton _, ?_⟩
    intro x hx y hy
    obtain ⟨t, ht, rfl⟩ := List.mem_map.mp hx
    obtain rfl : y = s.id := by simpa using hy
    exact fun hid => hnew ⟨t, ht, hid⟩
  · intro t ht
    rcases List.mem_append.mp ht with ht | ht
    · exact h.sessionCompany t ht
    · obtain rfl := List.mem_singleton.mp ht
      exact hcompany
  · intro a ha
    obtain ⟨t, ht, hrest⟩ := h.approvalSession a ha
    exact ⟨t, List.mem_append_left _ ht, hrest⟩
  · intro sc hsc
    obtain ⟨t, ht, hrest⟩ := h.scopeSession sc hsc
    exact ⟨t, List.mem_append_left _ ht, hrest⟩
  · intro t ht hdec
    rcases List.mem_append.mp ht with ht | ht
    · exact h.counted t ht hdec
    · obtain rfl := List.mem_singleton.mp ht
      obtain ⟨a, ha, hx⟩ := hdec
      exact absurd hx (hnone a ha)
  · intro t ht a ha hx
    rcases List.mem_append.mp ht with ht | ht
    · exact h.separated t ht a ha hx
    · obtain rfl := List.mem_singleton.mp ht
      exact absurd hx (hnone a ha)
  · intro t ht hst
    rcases List.mem_append.mp ht with ht | ht
    · exact h.granted t ht hst
    · obtain rfl := List.mem_singleton.mp ht
      simp [hpending] at hst

/-- A replaced row: what holds of the new row and of the others holds of all. -/
theorem Refs.setSession (h : db.Refs) {old new : PrivilegedSession} (hid : new.id = old.id)
    (hc : new.companyId = old.companyId) (hcompany : new.companyId ∈ db.companies) :
    (db.setSession old new).Refs where
  sessionIds := by
    rw [map_id_setSession hid]
    exact h.sessionIds
  sessionCompany s hs := by
    rcases mem_setSession hs with rfl | ⟨hs, -⟩
    · exact hcompany
    · exact h.sessionCompany s hs
  approvalKeys := h.approvalKeys
  approvalSession a ha := exists_setSession hid hc (h.approvalSession a ha)
  approvalUser := h.approvalUser
  scopeSession sc hsc := exists_setSession hid hc (h.scopeSession sc hsc)
  scopeUnit := h.scopeUnit

theorem Workflow.updateSession (h : db.Workflow) {old new : PrivilegedSession}
    (hold : old ∈ db.sessions) (hnew : db.Rewrites old new)
    (hcount : new.decisionCount = old.decisionCount) : (db.setSession old new).Workflow := by
  -- once a decision is there, the counter is positive and the request is locked
  have hrequest : db.Decided old.id → new.request = old.request := by
    intro hdec
    have := h.counted old hold hdec
    rcases hnew.request with heq | ⟨-, hzero⟩
    · exact heq
    · omega
  refine ⟨h.toRefs.setSession hnew.id hnew.company hnew.companyExists, ?_, ?_, ?_⟩
  · intro s hs hdec
    rcases mem_setSession hs with rfl | ⟨hs, -⟩
    · rw [hcount]
      exact h.counted old hold (hnew.id ▸ hdec)
    · exact h.counted s hs hdec
  · intro s hs a ha hx
    rcases mem_setSession hs with rfl | ⟨hs, -⟩
    · rw [hnew.id] at hx
      rw [hrequest ⟨a, ha, hx⟩]
      exact h.separated old hold a ha hx
    · exact h.separated s hs a ha hx
  · intro s hs hst
    rcases mem_setSession hs with rfl | ⟨hs, -⟩
    · by_cases hsame : s.status = old.status
      · obtain ⟨hrej, hreq⟩ := h.granted old hold (hsame ▸ hst)
        have hdec : db.Decided old.id := by
          have hpos : 0 < (db.decisions old.id .approved).length := by
            unfold requiredCount at hreq
            split at hreq <;> omega
          obtain ⟨a, ha⟩ := List.exists_mem_of_length_pos hpos
          obtain ⟨ha, hx⟩ := List.mem_filter.mp ha
          exact ⟨a, ha, (of_decide_eq_true hx).1⟩
        rw [hnew.id, hrequest hdec]
        exact ⟨hrej, hreq⟩
      · rw [hnew.id]
        exact hnew.decisions hsame hst
    · exact h.granted s hs hst

theorem Refs.insertApproval (h : db.Refs) {a : SessionApproval} {s : PrivilegedSession}
    (hs : s ∈ db.sessions) (hcompany : s.companyId = a.companyId) (hid : s.id = a.sessionId)
    (huser : (a.companyId, a.approverUserId) ∈ db.users)
    (hkey : ∀ o ∈ db.approvals, o.sessionId = a.sessionId →
      o.approverUserId ≠ a.approverUserId) :
    Refs { db with approvals := db.approvals ++ [a] } where
  sessionIds := h.sessionIds
  sessionCompany := h.sessionCompany
  approvalKeys := by
    rw [List.map_append, List.nodup_append]
    refine ⟨h.approvalKeys, List.nodup_singleton _, ?_⟩
    intro k hk k' hk' heq
    obtain ⟨o, ho, rfl⟩ := List.mem_map.mp hk
    obtain rfl : k' = (a.sessionId, a.approverUserId) := by simpa using hk'
    obtain ⟨hx, hu⟩ := Prod.mk.inj heq
    exact hkey o ho hx hu
  approvalSession o ho := by
    rcases List.mem_append.mp ho with ho | ho
    · exact h.approvalSession o ho
    · obtain rfl := List.mem_singleton.mp ho
      exact ⟨s, hs, hcompany, hid⟩
  approvalUser o ho := by
    rcases List.mem_append.mp ho with ho | ho
    · exact h.approvalUser o ho
    · obtain rfl := List.mem_singleton.mp ho
      exact huser
  scopeSession := h.scopeSession
  scopeUnit := h.scopeUnit

/-- A decision comes in: its session is pending, so nothing is granted on it yet. -/
theorem Workflow.insertApproval (h : db.Workflow) {a : SessionApproval} {s : PrivilegedSession}
    (hs : s ∈ db.sessions) (hcompany : s.companyId = a.companyId) (hid : s.id = a.sessionId)
    (hpending : s.status = .pending) (hsubject : a.approverUserId ≠ s.request.subjectUserId)
    (hrequester : s.request.requireDualApproval = true → a.approverUserId ≠ s.request.requestedBy)
    (huser : (a.companyId, a.approverUserId) ∈ db.users)
    (hkey : ∀ o ∈ db.approvals, o.sessionId = a.sessionId →
      o.approverUserId ≠ a.approverUserId) :
    ({ db with approvals := db.approvals ++ [a] }.setSession s
      { s with decisionCount := s.decisionCount + 1 }).Workflow := by
  have hother : ∀ t ∈ db.sessions, t ≠ s → a.sessionId ≠ t.id := by
    intro t ht hne hx
    exact hne (h.session_ext ht hs (hx.symm.trans hid.symm))
  refine ⟨(h.toRefs.insertApproval hs hcompany hid huser hkey).setSession rfl rfl
    (h.sessionCompany s hs), ?_, ?_, ?_⟩
  · intro t ht hdec
    rcases mem_setSession ht with rfl | ⟨ht, hne⟩
    · exact Nat.succ_pos _
    · obtain ⟨o, ho, hx⟩ := hdec
      rcases List.mem_append.mp ho with ho | ho
      · exact h.counted t ht ⟨o, ho, hx⟩
      · obtain rfl := List.mem_singleton.mp ho
        exact absurd hx (hother t ht hne)
  · intro t ht o ho hx
    have hboth : ∀ r ∈ db.sessions, o.sessionId = r.id →
        o.approverUserId ≠ r.request.subjectUserId ∧
          (r.request.requireDualApproval = true → o.approverUserId ≠ r.request.requestedBy) := by
      intro r hr hx
      rcases List.mem_append.mp ho with ho | ho
      · exact h.separated r hr o ho hx
      · obtain rfl := List.mem_singleton.mp ho
        obtain rfl := h.session_ext hr hs (hx.symm.trans hid.symm)
        exact ⟨hsubject, hrequester⟩
    rcases mem_setSession ht with rfl | ⟨ht, -⟩
    · exact hboth s hs hx
    · exact hboth t ht hx
  · intro t ht hst
    rcases mem_setSession ht with rfl | ⟨ht, hne⟩
    · simp [hpending] at hst
    · have hsame : ∀ d, PrivilegedDb.decisions ({ db with approvals := db.approvals ++ [a] }.setSession
          s { s with decisionCount := s.decisionCount + 1 }) t.id d = db.decisions t.id d := by
        intro d
        show (db.approvals ++ [a]).filter _ = _
        rw [List.filter_append, List.filter_cons_of_neg (by simp [hother t ht hne]), List.filter_nil,
          List.append_nil]
        rfl
      rw [hsame, hsame]
      exact h.granted t ht hst

/-- Scope rows that name a session and a unit. -/
theorem Workflow.setScopes (h : db.Workflow) {scopes : List SessionScope}
    (hscopes : ∀ sc ∈ scopes, sc ∈ db.scopes ∨
      (∃ s ∈ db.sessions, s.companyId = sc.companyId ∧ s.id = sc.sessionId) ∧
        (sc.companyId, sc.orgUnitId) ∈ db.orgUnits) :
    Workflow { db with scopes } := by
  refine ⟨⟨h.sessionIds, h.sessionCompany, h.approvalKeys, h.approvalSession, h.approvalUser, ?_, ?_⟩,
    h.counted, h.separated, h.granted⟩
  · intro sc hsc
    rcases hscopes sc hsc with hold | ⟨hs, -⟩
    · exact h.scopeSession sc hold
    · exact hs
  · intro sc hsc
    rcases hscopes sc hsc with hold | ⟨-, hu⟩
    · exact h.scopeUnit sc hold
    · exact hu

theorem Workflow.step (h : db.Workflow) (hs : Step db op db') : db'.Workflow := by
  cases hs with
  | same => exact h
  | insertSession hnew hpending hcount hcompany => exact h.insertSession hnew hpending hcompany
  | updateSession hold hnew hcount => exact h.updateSession hold hnew hcount
  | deleteSession hold hid =>
    subst hid
    exact (h.toRefs.deleteSession hold).workflow h
  | insertApproval hs hcompany hid hpending hsubject hrequester huser hkey =>
    exact h.insertApproval hs hcompany hid hpending hsubject hrequester huser hkey
  | @deleteApproval x u old hold hgone =>
    -- the foreign keys leave no approval without its company and session
    obtain ⟨s, hs, hc, hid⟩ := h.approvalSession old hold
    rcases hgone with hgone | hgone
    · exact absurd (hc ▸ h.sessionCompany s hs) hgone
    · exact absurd ⟨s, hs, hid⟩ hgone
  | insertScope hs hcompany hid hopen hunit =>
    refine h.setScopes fun sc hsc => ?_
    rcases List.mem_append.mp hsc with hsc | hsc
    · exact .inl hsc
    · obtain rfl := List.mem_singleton.mp hsc
      exact .inr ⟨⟨_, hs, hcompany, hid⟩, hunit⟩
  | updateScope hold hx hs hcompany hid hpending hopen hunit =>
    refine h.setScopes fun sc hsc => ?_
    obtain ⟨o, ho, rfl⟩ := List.mem_map.mp hsc
    split
    · exact .inr ⟨⟨_, hs, hcompany, hid⟩, hunit⟩
    · exact .inl ho
  | deleteScope hold hopen =>
    exact (removes_scopes (List.filter_subset_self _) fun _ _ hu => hu).workflow h
  | @dropOrgUnit c u =>
    refine (removes_scopes (List.filter_subset_self _) fun sc hsc hu => ?_).workflow h
    have hkept := (List.mem_filter.mp hsc).2
    refine List.mem_filter.mpr ⟨hu, decide_eq_true fun heq => ?_⟩
    obtain ⟨hc, hunit⟩ := Prod.mk.inj heq
    simp [hc, hunit] at hkept
  | dropCompany => exact (h.toRefs.dropCompany _).workflow h

/-! ### The past of a session -/

/-- The session before a statement, from the session after it: the same one, moved by at most one
legal transition, and with the same request if a decision was recorded. -/
def Continues (db db' : PrivilegedDb) (s' : PrivilegedSession) : Prop :=
  ∃ s ∈ db.sessions, s.id = s'.id ∧
    (s'.status = s.status ∨ legalTransition s.status s'.status = true) ∧
    (db.Decided s.id → db'.Decided s.id ∧ s'.request = s.request)

/-- The session was not there before the statement. -/
def Begins (db db' : PrivilegedDb) (s' : PrivilegedSession) : Prop :=
  ¬db.HasSession s'.id ∧ s'.status = .pending ∧ ¬db'.Decided s'.id

theorem continues_of_mem {s : PrivilegedSession} (hs : s ∈ db.sessions)
    (h : db.Decided s.id → db'.Decided s.id) : Continues db db' s :=
  ⟨s, hs, rfl, .inl rfl, fun hdec => ⟨h hdec, rfl⟩⟩

theorem Removes.decided (hr : Removes db db') {s : PrivilegedSession} (hs : s ∈ db'.sessions)
    (h : db.Decided s.id) : db'.Decided s.id := by
  obtain ⟨a, ha, hx⟩ := h
  have hmem : a ∈ db.decisions s.id a.decision := List.mem_filter.mpr ⟨ha, by simp [hx]⟩
  rw [← hr.decisions s hs] at hmem
  exact ⟨a, (List.mem_filter.mp hmem).1, hx⟩

theorem Removes.continues (hr : Removes db db') {s : PrivilegedSession} (hs : s ∈ db'.sessions) :
    Continues db db' s :=
  continues_of_mem (hr.sessions.subset hs) (hr.decided hs)

theorem Workflow.past (h : db.Workflow) (hstep : Step db op db') {s' : PrivilegedSession}
    (hs' : s' ∈ db'.sessions) : Begins db db' s' ∨ Continues db db' s' := by
  cases hstep with
  | same => exact .inr (continues_of_mem hs' id)
  | @insertSession s hnew hpending hcount hcompany =>
    rcases List.mem_append.mp hs' with hs' | hs'
    · exact .inr (continues_of_mem hs' id)
    · obtain rfl := List.mem_singleton.mp hs'
      refine .inl ⟨hnew, hpending, ?_⟩
      rintro ⟨a, ha, hx⟩
      obtain ⟨t, ht, -, hid⟩ := h.approvalSession a ha
      exact hnew ⟨t, ht, hid.trans hx⟩
  | @updateSession _ _ _ old new hold hnew hcount =>
    rcases mem_setSession hs' with rfl | ⟨hs', -⟩
    · refine .inr ⟨old, hold, hnew.id.symm, hnew.status, fun hdec => ⟨hdec, ?_⟩⟩
      have := h.counted old hold hdec
      rcases hnew.request with heq | ⟨-, hzero⟩
      · exact heq
      · omega
    · exact .inr (continues_of_mem hs' id)
  | deleteSession hold hid =>
    subst hid
    exact .inr ((h.toRefs.deleteSession hold).continues hs')
  | @insertApproval _ a s hs hcompany hid hpending hsubject hrequester huser hkey =>
    have hmore : ∀ x, db.Decided x → ∃ o ∈ db.approvals ++ [a], o.sessionId = x := by
      rintro x ⟨o, ho, hx⟩
      exact ⟨o, List.mem_append_left _ ho, hx⟩
    rcases mem_setSession hs' with rfl | ⟨hs', -⟩
    · exact .inr ⟨s, hs, rfl, .inl rfl, fun hdec => ⟨hmore s.id hdec, rfl⟩⟩
    · exact .inr (continues_of_mem hs' (hmore s'.id))
  | deleteApproval hold hgone =>
    obtain ⟨s, hs, hc, hid⟩ := h.approvalSession _ hold
    rcases hgone with hgone | hgone
    · exact absurd (hc ▸ h.sessionCompany s hs) hgone
    · exact absurd ⟨s, hs, hid⟩ hgone
  | insertScope => exact .inr (continues_of_mem hs' id)
  | updateScope => exact .inr (continues_of_mem hs' id)
  | deleteScope => exact .inr (continues_of_mem hs' id)
  | dropOrgUnit => exact .inr (continues_of_mem hs' id)
  | dropCompany => exact .inr ((h.toRefs.dropCompany _).continues hs')

end Preserved

end PrivilegedDb

/-- What an observer of one session has seen since it was inserted: the statuses it went through,
and its request when the first decision was there. -/
structure SessionPast where
  trail : List SessionStatus := []
  decided : Option SessionRequest := none
deriving DecidableEq, Repr

/-- The observer looks at the tables after a statement. -/
def SessionPast.observe (past : SessionPast) (x : Uuid) (db : PrivilegedDb) : SessionPast :=
  match db.sessions.find? fun s => s.id = x with
  | none => {}
  | some s =>
    { trail :=
        if past.trail.getLast? = some s.status then past.trail else past.trail ++ [s.status]
      decided := if db.Decided x then some (past.decided.getD s.request) else none }

/-- A statement, watched by the observer of the session `x`. -/
def watchedStep (x : Uuid) (w : PrivilegedDb × SessionPast) (op : PrivilegedOp) :
    PrivilegedDb × SessionPast :=
  (w.1.step op, w.2.observe x (w.1.step op))

/-- The path of a session in the workflow: it starts at `pending` and each step is legal. -/
structure LegalPath (trail : List SessionStatus) (status : SessionStatus) : Prop where
  starts : trail.head? = some .pending
  legal : trail.IsChain fun a b => legalTransition a b = true
  ends : trail.getLast? = some status

theorem LegalPath.extend {trail : List SessionStatus} {a b : SessionStatus} (h : LegalPath trail a)
    (hab : legalTransition a b = true) : LegalPath (trail ++ [b]) b where
  starts := by
    rw [List.head?_append, h.starts]
    rfl
  legal := by
    refine List.isChain_append.mpr ⟨h.legal, List.isChain_singleton b, ?_⟩
    intro x hx y hy
    obtain rfl : a = x := by simpa [h.ends] using hx
    obtain rfl : b = y := by simpa using hy
    exact hab
  ends := by simp

theorem legalTransition_ne {a b : SessionStatus} (h : legalTransition a b = true) : a ≠ b := by
  rintro rfl
  cases a <;> cases h

/-- What the observer knows. -/
structure Watched (x : Uuid) (w : PrivilegedDb × SessionPast) : Prop where
  workflow : w.1.Workflow
  absent : ¬w.1.HasSession x → w.2 = {}
  path : ∀ s ∈ w.1.sessions, s.id = x → LegalPath w.2.trail s.status
  decided : ∀ s ∈ w.1.sessions, s.id = x → w.1.Decided x → w.2.decided = some s.request
  undecided : ¬w.1.Decided x → w.2.decided = none

section Watched

variable {x : Uuid} {w : PrivilegedDb × SessionPast} {db' : PrivilegedDb} {s' : PrivilegedSession}

theorem Watched.trail_step (h : Watched x w) (hid : s'.id = x)
    (hpast : w.1.Begins db' s' ∨ w.1.Continues db' s') :
    LegalPath (if w.2.trail.getLast? = some s'.status then w.2.trail
      else w.2.trail ++ [s'.status]) s'.status := by
  rcases hpast with ⟨hnew, hpending, -⟩ | ⟨s, hs, hsid, hmove, -⟩
  · rw [h.absent (hid ▸ hnew), hpending]
    exact ⟨rfl, List.isChain_singleton _, rfl⟩
  · have hpath := h.path s hs (hsid.trans hid)
    rcases hmove with hsame | hlegal
    · rw [hsame, if_pos hpath.ends]
      exact hpath
    · have hne : w.2.trail.getLast? ≠ some s'.status := by
        rw [hpath.ends]
        exact fun heq => legalTransition_ne hlegal (Option.some.inj heq)
      rw [if_neg hne]
      exact hpath.extend hlegal

theorem Watched.decided_step (h : Watched x w) (hid : s'.id = x)
    (hpast : w.1.Begins db' s' ∨ w.1.Continues db' s') (hdec : db'.Decided x) :
    w.2.decided.getD s'.request = s'.request := by
  rcases hpast with ⟨-, -, hnone⟩ | ⟨s, hs, hsid, -, hkept⟩
  · exact absurd (hid ▸ hdec) hnone
  · by_cases hbefore : w.1.Decided x
    · have hsx : s.id = x := hsid.trans hid
      rw [h.decided s hs hsx hbefore, (hkept (hsx ▸ hbefore)).2]
      rfl
    · rw [h.undecided hbefore]
      rfl

theorem Watched.step (h : Watched x w) (op : PrivilegedOp) : Watched x (watchedStep x w op) := by
  have hstep := PrivilegedDb.step_cases w.1 op
  have hflow : (w.1.step op).Workflow := h.workflow.step hstep
  rcases hf : (w.1.step op).sessions.find? (fun s => s.id = x) with - | s'
  · have hnone : ∀ s ∈ (w.1.step op).sessions, s.id ≠ x := by
      simpa using List.find?_eq_none.mp hf
    have hpast : w.2.observe x (w.1.step op) = {} := by simp [SessionPast.observe, hf]
    refine ⟨hflow, fun _ => hpast, ?_, ?_, fun _ => congrArg SessionPast.decided hpast⟩
    · intro s hs hid
      exact absurd hid (hnone s hs)
    · intro s hs hid
      exact absurd hid (hnone s hs)
  · have hmem := List.mem_of_find?_eq_some hf
    have hid := List.find?_some hf
    replace hid : s'.id = x := of_decide_eq_true hid
    have hone : ∀ s ∈ (w.1.step op).sessions, s.id = x → s = s' :=
      fun s hs hx => hflow.session_ext hs hmem (hx.trans hid.symm)
    have hpast := h.workflow.past hstep hmem
    have hobs : w.2.observe x (w.1.step op) =
        { trail := if w.2.trail.getLast? = some s'.status then w.2.trail
            else w.2.trail ++ [s'.status]
          decided := if (w.1.step op).Decided x then some (w.2.decided.getD s'.request)
            else none } := by simp [SessionPast.observe, hf]
    refine ⟨hflow, fun hno => absurd ⟨s', hmem, hid⟩ hno, ?_, ?_, ?_⟩
    · intro s hs hx
      obtain rfl := hone s hs hx
      show LegalPath (w.2.observe x (w.1.step op)).trail _
      rw [hobs]
      exact h.trail_step hid hpast
    · intro s hs hx hdec
      obtain rfl := hone s hs hx
      show (w.2.observe x (w.1.step op)).decided = _
      rw [hobs]
      simp only [if_pos (show (w.1.step op).Decided x from hdec), h.decided_step hid hpast hdec]
    · intro hno
      show (w.2.observe x (w.1.step op)).decided = _
      rw [hobs]
      simp only [if_neg (show ¬(w.1.step op).Decided x from hno)]

end Watched

/-- The tables before any session. -/
def noSessions (companies : List Uuid) (users orgUnits : List (Uuid × Uuid)) : PrivilegedDb :=
  { companies, users, orgUnits }

theorem watched_noSessions (companies : List Uuid) (users orgUnits : List (Uuid × Uuid)) (x : Uuid) :
    Watched x (noSessions companies users orgUnits, {}) := by
  have hrows : ∀ {α : Type} {P : α → Prop}, ∀ a ∈ ([] : List α), P a := by
    intro α P a ha
    cases ha
  exact ⟨⟨⟨List.nodup_nil, hrows, List.nodup_nil, hrows, hrows, hrows, hrows⟩, hrows, hrows, hrows⟩,
    fun _ => rfl, hrows, hrows, fun _ => rfl⟩

/-- What allows a session: enough users of its company approved it, none of them its subject or, in
a dual approval, its requester, and nobody rejected it. -/
structure Authorized (db : PrivilegedDb) (s : PrivilegedSession) (approvers : List Uuid) : Prop where
  distinct : approvers.Nodup
  enough : (if s.request.requireDualApproval then 2 else 1) ≤ approvers.length
  approved : ∀ u ∈ approvers, ∃ a ∈ db.approvals, a.sessionId = s.id ∧ a.approverUserId = u ∧
    a.decision = .approved
  users : ∀ u ∈ approvers, (s.companyId, u) ∈ db.users
  notSubject : ∀ u ∈ approvers, u ≠ s.request.subjectUserId
  notRequester : s.request.requireDualApproval = true → ∀ u ∈ approvers, u ≠ s.request.requestedBy
  unopposed : ∀ a ∈ db.approvals, a.sessionId = s.id → a.decision ≠ .rejected

theorem PrivilegedDb.Workflow.authorized {db : PrivilegedDb} (h : db.Workflow)
    {s : PrivilegedSession} (hs : s ∈ db.sessions) (hst : s.status = .approved ∨ s.status = .active) :
    Authorized db s ((db.decisions s.id .approved).map SessionApproval.approverUserId) := by
  obtain ⟨hrej, hreq⟩ := h.granted s hs hst
  have hmem : ∀ a ∈ db.decisions s.id .approved,
      a ∈ db.approvals ∧ a.sessionId = s.id ∧ a.decision = .approved := by
    intro a ha
    obtain ⟨ha, hx⟩ := List.mem_filter.mp ha
    exact ⟨ha, of_decide_eq_true hx⟩
  refine ⟨?_, ?_, ?_, ?_, ?_, ?_, ?_⟩
  · refine List.Nodup.map_on ?_ (h.approvalKeys.of_map.filter _)
    intro a ha b hb hu
    obtain ⟨ha, hax, -⟩ := hmem a ha
    obtain ⟨hb, hbx, -⟩ := hmem b hb
    exact List.inj_on_of_nodup_map h.approvalKeys ha hb (by rw [hax, hbx, hu])
  · rw [List.length_map]
    exact hreq
  · intro u hu
    obtain ⟨a, ha, rfl⟩ := List.mem_map.mp hu
    obtain ⟨ha, hx, hd⟩ := hmem a ha
    exact ⟨a, ha, hx, rfl, hd⟩
  · intro u hu
    obtain ⟨a, ha, rfl⟩ := List.mem_map.mp hu
    obtain ⟨hmem, hx, -⟩ := hmem a ha
    obtain ⟨t, ht, hc, hid⟩ := h.approvalSession a hmem
    rw [← h.session_ext ht hs (hid.trans hx), hc]
    exact h.approvalUser a hmem
  · intro u hu
    obtain ⟨a, ha, rfl⟩ := List.mem_map.mp hu
    obtain ⟨ha, hx, -⟩ := hmem a ha
    exact (h.separated s hs a ha hx).1
  · intro hdual u hu
    obtain ⟨a, ha, rfl⟩ := List.mem_map.mp hu
    obtain ⟨ha, hx, -⟩ := hmem a ha
    exact (h.separated s hs a ha hx).2 hdual
  · intro a ha hx hd
    have : a ∈ db.decisions s.id .rejected := List.mem_filter.mpr ⟨ha, by simp [hx, hd]⟩
    rw [hrej] at this
    cases this

/-- After any statements on the tables, a session that is approved or active has its approvals, and
its request is what it was when the first decision was recorded; and every session has got to its
status on a path of the workflow. -/
theorem privileged_workflow (companies : List Uuid) (users orgUnits : List (Uuid × Uuid))
    (ops : List PrivilegedOp) (x : Uuid) :
    let w := run (watchedStep x) (noSessions companies users orgUnits, {}) ops
    ∀ s ∈ w.1.sessions, s.id = x →
      LegalPath w.2.trail s.status ∧
        (s.status = .approved ∨ s.status = .active →
          (∃ approvers, Authorized w.1 s approvers) ∧ w.2.decided = some s.request) := by
  intro w s hs hid
  have h : Watched x w :=
    run_invariant (watched_noSessions companies users orgUnits x) fun _ op hw => hw.step op
  refine ⟨h.path s hs hid, fun hst => ?_⟩
  have hauth := h.workflow.authorized hs hst
  refine ⟨⟨_, hauth⟩, h.decided s hs hid ?_⟩
  have hpos : 0 < ((w.1.decisions s.id .approved).map SessionApproval.approverUserId).length := by
    have := hauth.enough
    split at this <;> omega
  obtain ⟨u, hu⟩ := List.exists_mem_of_length_pos hpos
  obtain ⟨a, ha, hx, -⟩ := hauth.approved u hu
  exact ⟨a, ha, hx.trans hid⟩

/-- A session for a legal review; user 10 of company 1 asks for access of its own. -/
def legalReview : PrivilegedSession where
  id := 100
  companyId := 1
  request :=
    { subjectUserId := 10
      requestedBy := 10
      purpose := "Approved legal review for acquisition documents"
      accessKind := .sensitiveAnalysis
      startsAt := 1000
      expiresAt := 5000 }

/-- The review is requested for two units and approved by user 11. -/
def legalReviewDecided : List PrivilegedOp :=
  [.insertSession legalReview, .insertScope ⟨100, 1, 20, .selfOnly, .confidential, true, false, false⟩,
    .insertScope ⟨100, 1, 21, .selfOnly, .internal, true, false, false⟩,
    .insertApproval 500 ⟨100, 1, 11, .approved, "approved by legal counsel", 500⟩]

/-- The review once it is active. -/
def activeReview : PrivilegedSession :=
  { legalReview with status := .active, decisionCount := 1, activatedAt := some 1500 }

/-- The review up to its activation, with the observer of its session. -/
def legalReviewWatched : PrivilegedDb × SessionPast :=
  run (watchedStep 100) (noSessions [1] [(1, 10), (1, 11)] [(1, 20), (1, 21)], {})
    (legalReviewDecided ++
      [.updateSession 600 100 { legalReview with status := .approved, decisionCount := 1 },
        .updateSession 1500 100 { legalReview with status := .active, decisionCount := 1 }])

theorem legal_review_authorized :
    activeReview ∈ legalReviewWatched.1.sessions ∧
      LegalPath [.pending, .approved, .active] activeReview.status ∧
      ∃ approvers, Authorized legalReviewWatched.1 activeReview approvers := by
  have hmem : activeReview ∈ legalReviewWatched.1.sessions := by decide
  have htrail : legalReviewWatched.2.trail = [.pending, .approved, .active] := by decide
  obtain ⟨hpath, hauth⟩ := privileged_workflow [1] [(1, 10), (1, 11)] [(1, 20), (1, 21)] _ 100
    activeReview hmem rfl
  exact ⟨hmem, htrail ▸ hpath, (hauth (.inr rfl)).1⟩

end Wikore
