import Wikore.Access.PrivilegedWorkflow

/-! The scopes of a decided session: the trigger that freezes them looks at the session that a scope
row is written to, so an `UPDATE` can still take a row away from a decided session. -/

namespace Wikore

open Transition

namespace PrivilegedDb

variable {db db' : PrivilegedDb} {op : PrivilegedOp} {x : Uuid}

/-- The statement deletes the session, its company or the unit of one of its scopes. -/
def Erases (x : Uuid) (db : PrivilegedDb) : PrivilegedOp → Prop
  | .deleteSession y => y = x
  | .dropCompany c => ∃ s ∈ db.sessions, s.id = x ∧ s.companyId = c
  | .dropOrgUnit c u => ∃ sc ∈ db.scopesOf x, sc.companyId = c ∧ sc.orgUnitId = u
  | _ => False

/-- The statement is an `UPDATE` that gives a scope row of the session `x` to another session of the
row's new company, which is pending and has no decision. -/
def MovesScope (x : Uuid) (db : PrivilegedDb) : PrivilegedOp → Prop
  | .updateScope y u new => y = x ∧ new.sessionId ≠ x ∧ (∃ sc ∈ db.scopesOf x, sc.orgUnitId = u) ∧
      ¬db.Decided new.sessionId ∧ (new.companyId, new.orgUnitId) ∈ db.orgUnits ∧
      ∃ s ∈ db.sessions, s.companyId = new.companyId ∧ s.id = new.sessionId ∧ s.status = .pending
  | _ => False

instance : ∀ op, Decidable (Erases x db op)
  | .deleteSession y => inferInstanceAs (Decidable (y = x))
  | .dropCompany c => inferInstanceAs (Decidable (∃ s ∈ db.sessions, s.id = x ∧ s.companyId = c))
  | .dropOrgUnit c u =>
    inferInstanceAs (Decidable (∃ sc ∈ db.scopesOf x, sc.companyId = c ∧ sc.orgUnitId = u))
  | .insertSession _ | .updateSession _ _ _ | .insertApproval _ _ | .updateApproval _ _ _
  | .deleteApproval _ _ | .insertScope _ | .updateScope _ _ _ | .deleteScope _ _ =>
    .isFalse fun h => h

instance : ∀ op, Decidable (MovesScope x db op)
  | .updateScope y _ new => inferInstanceAs (Decidable (y = x ∧ new.sessionId ≠ x ∧ _))
  | .deleteSession _ | .dropCompany _ | .dropOrgUnit _ _
  | .insertSession _ | .updateSession _ _ _ | .insertApproval _ _ | .updateApproval _ _ _
  | .deleteApproval _ _ | .insertScope _ | .deleteScope _ _ => .isFalse fun h => h

/-- The scope rows of a session when others are removed. -/
theorem scopesOf_filter {p : SessionScope → Bool} (h : ∀ sc ∈ db.scopesOf x, p sc = true) :
    (db.scopes.filter p).filter (fun sc => decide (sc.sessionId = x)) = db.scopesOf x := by
  rw [List.filter_filter]
  apply List.filter_congr
  intro sc hsc
  by_cases hx : sc.sessionId = x
  · have hmem : sc ∈ db.scopesOf x := List.mem_filter.mpr ⟨hsc, decide_eq_true hx⟩
    simp [hx, h sc hmem]
  · simp [hx]

/-- The scope rows of a session when a row that is not one of them is replaced by another such. -/
theorem scopesOf_replace {old new : SessionScope} (hold : old.sessionId ≠ x)
    (hnew : new.sessionId ≠ x) :
    (db.scopes.map fun sc => if sc = old then new else sc).filter
      (fun sc => decide (sc.sessionId = x)) = db.scopesOf x := by
  rw [scopesOf]
  induction db.scopes with
  | nil => rfl
  | cons sc rest ih =>
    rw [List.map_cons, List.filter_cons, List.filter_cons, ih]
    by_cases heq : sc = old
    · subst heq
      simp [hold, hnew]
    · simp [heq]

theorem Refs.scopesOf_company (h : db.Refs) {s : PrivilegedSession} (hs : s ∈ db.sessions)
    {sc : SessionScope} (hsc : sc ∈ db.scopesOf s.id) : sc.companyId = s.companyId := by
  obtain ⟨hmem, hx⟩ := List.mem_filter.mp hsc
  obtain ⟨t, ht, hc, hid⟩ := h.scopeSession sc hmem
  rw [← hc, h.session_ext ht hs (hid.trans (of_decide_eq_true hx))]

/-- A scope row of a decided session is not deleted by a direct statement: all that it refers to
is there. -/
theorem Refs.not_deletable (h : db.Refs) {old : SessionScope} (hold : old ∈ db.scopes)
    (hdec : db.Decided old.sessionId) :
    ¬(cascaded db (.delete old) ∨ db.findSession old.companyId old.sessionId = none ∨
      ¬db.Decided old.sessionId) := by
  obtain ⟨s, hs, hc, hid⟩ := h.scopeSession old hold
  rintro ((hcompany | hsession | hunit) | hfind | hopen)
  · exact hcompany (hc ▸ h.sessionCompany s hs)
  · exact hsession ⟨s, hs, hid⟩
  · exact hunit (h.scopeUnit old hold)
  · exact List.find?_eq_none.mp hfind s hs (decide_eq_true ⟨hc, hid⟩)
  · exact hopen hdec

/-- One statement leaves the scopes of a decided session alone, unless it erases or moves them. -/
theorem Workflow.scopes_step (h : db.Workflow) (hdec : db.Decided x) (hstep : Step db op db')
    (hkeep : ¬Erases x db op) (hstay : ¬MovesScope x db op) :
    db'.scopesOf x = db.scopesOf x ∧ db'.Decided x := by
  obtain ⟨a, ha, hax⟩ := hdec
  obtain ⟨s, hs, hsc, hsid⟩ := h.approvalSession a ha
  have hsx : s.id = x := hsid.trans hax
  cases hstep with
  | same => exact ⟨rfl, a, ha, hax⟩
  | insertSession => exact ⟨rfl, a, ha, hax⟩
  | updateSession => exact ⟨rfl, a, ha, hax⟩
  | @deleteSession y old hold hid =>
    have hne : x ≠ y := fun heq => hkeep heq.symm
    refine ⟨scopesOf_filter fun sc hmem => ?_, a, List.mem_filter.mpr ⟨ha, ?_⟩, hax⟩
    · have := of_decide_eq_true (List.mem_filter.mp hmem).2
      simp [this, hne]
    · simp [hax, hne]
  | insertApproval => exact ⟨rfl, a, List.mem_append_left _ ha, hax⟩
  | deleteApproval hold hgone =>
    obtain ⟨t, ht, hc, hid⟩ := h.approvalSession _ hold
    rcases hgone with hgone | hgone
    · exact absurd (hc ▸ h.sessionCompany t ht) hgone
    · exact absurd ⟨t, ht, hid⟩ hgone
  | @insertScope sc _ _ _ _ hopen _ =>
    have hne : sc.sessionId ≠ x := by
      rintro rfl
      exact hopen ⟨a, ha, hax⟩
    refine ⟨?_, a, ha, hax⟩
    show (db.scopes ++ [sc]).filter _ = _
    rw [List.filter_append, List.filter_cons_of_neg (by simp [hne]), List.filter_nil, List.append_nil]
    rfl
  | @updateScope y u old new t hold hy ht hcompany hid hpending hopen hunit =>
    have hnew : new.sessionId ≠ x := by
      rintro rfl
      exact hopen ⟨a, ha, hax⟩
    have hne : old.sessionId ≠ x := by
      intro heq
      have hmem : old ∈ db.scopesOf x := List.mem_filter.mpr ⟨hold, decide_eq_true heq⟩
      exact hstay ⟨hy.1.symm.trans heq, hnew, ⟨old, hmem, hy.2⟩, hopen, hunit, t, ht, hcompany, hid,
        hpending⟩
    exact ⟨scopesOf_replace hne hnew, a, ha, hax⟩
  | @deleteScope _ _ old hold hopen =>
    have hne : old.sessionId ≠ x := by
      intro heq
      exact h.toRefs.not_deletable hold ⟨a, ha, hax.trans heq.symm⟩ hopen
    refine ⟨scopesOf_filter fun sc hmem => ?_, a, ha, hax⟩
    refine decide_eq_true ?_
    rintro rfl
    exact hne (of_decide_eq_true (List.mem_filter.mp hmem).2)
  | @dropOrgUnit c u =>
    refine ⟨scopesOf_filter fun sc hmem => ?_, a, ha, hax⟩
    have : ¬(sc.companyId = c ∧ sc.orgUnitId = u) := fun hu => hkeep ⟨sc, hmem, hu⟩
    simp only [this, decide_false, Bool.not_false]
  | @dropCompany c =>
    have hne : s.companyId ≠ c := fun hc => hkeep ⟨s, hs, hsx, hc⟩
    refine ⟨scopesOf_filter fun sc hmem => ?_, a, List.mem_filter.mpr ⟨ha, ?_⟩, hax⟩
    · rw [h.toRefs.scopesOf_company hs (hsx ▸ hmem)]
      simpa using hne
    · simpa [← hsc] using hne

theorem Workflow.scopes_run (h : db.Workflow) (hdec : db.Decided x) {ops : List PrivilegedOp}
    (hkeep : Along PrivilegedDb.step (fun db op => ¬Erases x db op) db ops)
    (hstay : Along PrivilegedDb.step (fun db op => ¬MovesScope x db op) db ops) :
    (run PrivilegedDb.step db ops).scopesOf x = db.scopesOf x := by
  induction ops generalizing db with
  | nil => rfl
  | cons op ops ih =>
    have hstep := step_cases db op
    obtain ⟨hsame, hdec'⟩ := h.scopes_step hdec hstep hkeep.1 hstay.1
    rw [← hsame]
    exact ih (h.step hstep) hdec' hkeep.2 hstay.2

theorem workflow_run (companies : List Uuid) (users orgUnits : List (Uuid × Uuid))
    (ops : List PrivilegedOp) :
    (run PrivilegedDb.step (noSessions companies users orgUnits) ops).Workflow :=
  run_invariant (watched_noSessions companies users orgUnits 0).workflow
    fun db op h => h.step (step_cases db op)

end PrivilegedDb

open PrivilegedDb

/-- Once a decision on a session is recorded, its scope rows stay as they are until the session, its
company or the unit of a scope is deleted, in every run in which no `UPDATE` moves a scope row from
the session to one that is still open. -/
theorem decided_scopes_frozen (companies : List Uuid) (users orgUnits : List (Uuid × Uuid))
    (ops later : List PrivilegedOp) (x : Uuid)
    (hdec : (run PrivilegedDb.step (noSessions companies users orgUnits) ops).Decided x)
    (hkeep : Along PrivilegedDb.step (fun db op => ¬Erases x db op)
      (run PrivilegedDb.step (noSessions companies users orgUnits) ops) later)
    (hstay : Along PrivilegedDb.step (fun db op => ¬MovesScope x db op)
      (run PrivilegedDb.step (noSessions companies users orgUnits) ops) later) :
    (run PrivilegedDb.step (noSessions companies users orgUnits) (ops ++ later)).scopesOf x =
      (run PrivilegedDb.step (noSessions companies users orgUnits) ops).scopesOf x := by
  rw [run_append]
  exact (workflow_run companies users orgUnits ops).scopes_run hdec hkeep hstay

/-- The scopes of the legal review stay through its approval, an attempt to widen one of them and an
attempt to delete the other. -/
theorem legal_review_scopes_frozen :
    (run PrivilegedDb.step (noSessions [1] [(1, 10), (1, 11)] [(1, 20), (1, 21)])
      (legalReviewDecided ++
        [.updateSession 600 100 { legalReview with status := .approved, decisionCount := 1 },
          .updateScope 100 20 ⟨100, 1, 20, .selfAndDescendants, .restricted, true, true, true⟩,
          .deleteScope 100 21])).scopesOf 100 =
      (run PrivilegedDb.step (noSessions [1] [(1, 10), (1, 11)] [(1, 20), (1, 21)])
        legalReviewDecided).scopesOf 100 :=
  decided_scopes_frozen _ _ _ legalReviewDecided _ 100 (by decide) (by decide)
    (by decide)

/-- A second session of the same user, for which nothing is decided, takes a scope row of the
approved review over. -/
theorem scope_moved_after_decision :
    ¬∀ (companies : List Uuid) (users orgUnits : List (Uuid × Uuid)) (ops later : List PrivilegedOp)
        (x : Uuid),
      (run PrivilegedDb.step (noSessions companies users orgUnits) ops).Decided x →
      Along PrivilegedDb.step (fun db op => ¬Erases x db op)
        (run PrivilegedDb.step (noSessions companies users orgUnits) ops) later →
      (run PrivilegedDb.step (noSessions companies users orgUnits) (ops ++ later)).scopesOf x =
        (run PrivilegedDb.step (noSessions companies users orgUnits) ops).scopesOf x := by
  intro h
  have := h [1] [(1, 10), (1, 11)] [(1, 20), (1, 21)] legalReviewDecided
    [.insertSession { legalReview with id := 200 },
      .updateScope 100 21 ⟨200, 1, 21, .selfOnly, .internal, true, false, false⟩] 100
    (by decide) (by decide)
  revert this
  decide

end Wikore
