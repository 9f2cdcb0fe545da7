import Wikore.Versions.Promotion

/-! `PromoteDocumentVersionUseCase::execute`, and which of its runs leave an event that tells the
vector store of the newly active version. -/

namespace Wikore

open Statement Query

/-- An event `qdrant_resync_version_lifecycle`.  Its payload says `new_status = 'active'`. -/
structure LifecycleEvent where
  companyId : Uuid
  aggregateId : Uuid
  documentId : Uuid
  versionId : Uuid
  traceId : String
  idempotencyKey : String
  completedAt : Option Nat := none
deriving DecidableEq, Repr

/-- A row of `audit_log` with the action `document.version.promoted`. -/
structure PromotedAudit where
  companyId : Uuid
  userId : Uuid
  actorType : String
  documentId : Uuid
  versionId : Uuid
deriving DecidableEq, Repr

/-- The tables that the use case writes.  Of `outbox_events` the rows of its job type are kept. -/
structure PromoteDb extends PromotionDb DocumentIngest where
  auditLog : List PromotedAudit := []
  events : List LifecycleEvent := []
deriving DecidableEq, Repr

/-- The parts of the `RequestContext` that the use case reads. -/
structure PromoteContext where
  companyId : Uuid
  userId : Uuid
  isServiceAccount : Bool
  traceId : String
  deadlineExceeded : Bool
deriving DecidableEq, Repr

structure PromoteDocumentVersionCmd where
  documentId : Uuid
  versionId : Uuid
deriving DecidableEq, Repr

/-- What the connection adds: an error for each statement, if any, and whether the `COMMIT` is
acknowledged.  `now` is the clock that the promotion reads. -/
structure PromoteReplies where
  now : Nat
  promote : Option PgError := none
  audit : Option PgError := none
  outbox : Option PgError := none
  committed : Bool := true
deriving DecidableEq, Repr

/-- `mapped` is what `map_db_exception` makes of an error of the database. -/
inductive PromoteError
  | unavailable (message : String)
  | mapped (error : PgError)
  | databaseError (message : String)
deriving DecidableEq, Repr

abbrev PromoteM := EStateM PgError PromoteDb

def onVersions (m : PromotionM DocumentIngest Unit) : PromoteM Unit := fun db =>
  match m db.toPromotionDb with
  | .ok _ versions => .ok () { db with toPromotionDb := versions }
  | .error e _ => .error e db

/-- `std::format("promote:\x7b\x7d:\x7b\x7d:active", document_id, version_id)`. -/
def promoteKey (document version : Uuid) : String :=
  "promote:" ++ Uuid.text document ++ ":" ++ Uuid.text version ++ ":active"

/-- The unique key of `outbox_events`, for one job type. -/
def LifecycleEvent.key (e : LifecycleEvent) : Uuid × String := (e.companyId, e.idempotencyKey)

/-- The three statements of the transaction. -/
def promoteBody (ctx : PromoteContext) (cmd : PromoteDocumentVersionCmd) (replies : PromoteReplies) :
    PromoteM Unit := do
  raiseSome replies.promote
  onVersions (promoteDocumentVersion replies.now ctx.companyId cmd.documentId cmd.versionId)
  raiseSome replies.audit
  modify fun db => { db with
    auditLog := db.auditLog ++ [⟨ctx.companyId, ctx.userId,
      if ctx.isServiceAccount then "service" else "user", cmd.documentId, cmd.versionId⟩] }
  raiseSome replies.outbox
  -- INSERT ... ON CONFLICT (company_id, job_type, idempotency_key) DO NOTHING
  modify fun db => { db with
    events := insertNew LifecycleEvent.key db.events [⟨ctx.companyId, cmd.versionId, cmd.documentId,
      cmd.versionId, ctx.traceId, promoteKey cmd.documentId cmd.versionId, none⟩] }

/-- `PromoteDocumentVersionUseCase::execute`. -/
def PromoteDb.execute (db : PromoteDb) (ctx : PromoteContext) (cmd : PromoteDocumentVersionCmd)
    (replies : PromoteReplies) : PromoteDb × Option PromoteError :=
  if ctx.deadlineExceeded then (db, some (.unavailable "deadline exceeded"))
  else
    match promoteBody ctx cmd replies db with
    | .error e _ => (db, some (.mapped e))
    | .ok _ db' =>
      if replies.committed then (db', none)
      else (db, some (.databaseError "uow.commit_failed"))

/-- A run of the use case, or a worker that completes the event at a place of the outbox. -/
inductive PromoteOp
  | execute (ctx : PromoteContext) (cmd : PromoteDocumentVersionCmd) (replies : PromoteReplies)
  | complete (k now : Nat)
deriving DecidableEq, Repr

def PromoteDb.step (db : PromoteDb) : PromoteOp → PromoteDb
  | .execute ctx cmd replies => (db.execute ctx cmd replies).1
  | .complete k now =>
    { db with events := db.events.modify k fun e => { e with completedAt := some now } }

/-- An uncompleted event for the version. -/
def PromoteDb.ResyncPending (db : PromoteDb) (company version : Uuid) : Prop :=
  ∃ e ∈ db.events, e.companyId = company ∧ e.versionId = version ∧ e.completedAt = none

/-- A completed event under the key of the version. -/
def PromoteDb.ResyncCompleted (db : PromoteDb) (company document version : Uuid) : Prop :=
  ∃ e ∈ db.events, e.companyId = company ∧ e.idempotencyKey = promoteKey document version ∧
    e.completedAt ≠ none

instance (db : PromoteDb) (company version : Uuid) : Decidable (db.ResyncPending company version) :=
  inferInstanceAs (Decidable (∃ e ∈ db.events, _))

instance (db : PromoteDb) (company document version : Uuid) :
    Decidable (db.ResyncCompleted company document version) :=
  inferInstanceAs (Decidable (∃ e ∈ db.events, _))

/-! ### The idempotency key -/

theorem Uuid.text_length (u : Uuid) : (Uuid.text u).toList.length = 36 := by
  simp [Uuid.text, Uuid.digits]

theorem promoteKey_injective {d v d' v' : Uuid} (h : promoteKey d v = promoteKey d' v') :
    d = d' ∧ v = v' := by
  have hl := congrArg String.toList h
  simp only [promoteKey, String.toList_append, List.append_assoc] at hl
  have hl := List.append_cancel_left hl
  obtain ⟨hd, hl⟩ := List.append_inj hl (by rw [Uuid.text_length, Uuid.text_length])
  have hl := List.append_cancel_left hl
  obtain ⟨hv, -⟩ := List.append_inj hl (by rw [Uuid.text_length, Uuid.text_length])
  exact ⟨Uuid.text_injective (String.toList_inj.mp hd),
    Uuid.text_injective (String.toList_inj.mp hv)⟩

/-! ### What a run of the use case does -/

/-- The version is an active one of the document. -/
def PromoteDb.ActiveVersion (db : PromoteDb) (company document version : Uuid) : Prop :=
  ∃ r ∈ db.versions, r.OwnedBy company document ∧ r.id = version ∧ r.lifecycleStatus = .active

instance (db : PromoteDb) (company document version : Uuid) :
    Decidable (db.ActiveVersion company document version) :=
  inferInstanceAs (Decidable (∃ r ∈ db.versions, _))

/-- The event of a run. -/
def activatedEvent (ctx : PromoteContext) (cmd : PromoteDocumentVersionCmd) : LifecycleEvent :=
  ⟨ctx.companyId, cmd.versionId, cmd.documentId, cmd.versionId, ctx.traceId,
    promoteKey cmd.documentId cmd.versionId, none⟩

section Runs

variable {db db' : PromoteDb} {ctx : PromoteContext} {cmd : PromoteDocumentVersionCmd}
  {replies : PromoteReplies}

theorem onVersions_ok {m : PromotionM DocumentIngest Unit} (h : onVersions m db = .ok () db') :
    ∃ versions, m db.toPromotionDb = .ok () versions ∧
      { db with toPromotionDb := versions } = db' := by
  rw [onVersions] at h
  split at h
  next versions hm =>
    injection h with _ h
    exact ⟨versions, hm, h⟩
  next => cases h

theorem promoteBody_ok (h : promoteBody ctx cmd replies db = .ok () db') :
    (∃ r ∈ db.versions, r.OwnedBy ctx.companyId cmd.documentId ∧ r.id = cmd.versionId) ∧
      db'.versions =
        db.versions.map (promotedRow replies.now ctx.companyId cmd.documentId cmd.versionId) ∧
      db'.events = insertNew LifecycleEvent.key db.events [activatedEvent ctx cmd] := by
  simp only [promoteBody, raiseSome_bind_ok] at h
  obtain ⟨-, h⟩ := h
  obtain ⟨_, db1, h1, h2⟩ := bind_ok.mp h
  obtain ⟨versions, hv, rfl⟩ := onVersions_ok h1
  obtain ⟨hrow, rfl⟩ := promoteVersion_ok hv
  simp only [raiseSome_bind_ok, modify_bind_ok, modify_ok] at h2
  obtain ⟨-, -, rfl⟩ := h2
  exact ⟨hrow, rfl, rfl⟩

/-- A run changes nothing, or it succeeds with its three statements done. -/
theorem PromoteDb.execute_cases (db : PromoteDb) (ctx : PromoteContext)
    (cmd : PromoteDocumentVersionCmd) (replies : PromoteReplies) :
    ((db.execute ctx cmd replies).1 = db ∧ (db.execute ctx cmd replies).2 ≠ none) ∨
      promoteBody ctx cmd replies db = .ok () (db.execute ctx cmd replies).1 := by
  rw [execute]
  split
  next => exact .inl ⟨rfl, by simp⟩
  next =>
    split
    next => exact .inl ⟨rfl, by simp⟩
    next db' hbody =>
      split
      next => exact .inr hbody
      next => exact .inl ⟨rfl, by simp⟩

/-- What holds of the outbox however the use case runs and events are completed. -/
structure OutboxInv (db : PromoteDb) : Prop where
  ids : (db.versions.map LifecycleVersion.id).Nodup
  keys : (db.events.map LifecycleEvent.key).Nodup
  named : ∀ e ∈ db.events, e.idempotencyKey = promoteKey e.documentId e.versionId
  known : ∀ e ∈ db.events, ∃ r ∈ db.versions, r.OwnedBy e.companyId e.documentId ∧
    r.id = e.versionId

theorem OutboxInv.promoted (h : OutboxInv db) (hbody : promoteBody ctx cmd replies db = .ok () db') :
    OutboxInv db' := by
  obtain ⟨hrow, hversions, hevents⟩ := promoteBody_ok hbody
  -- A row keeps its id and its owner, so that an event which names it still does.
  have hkeep : ∀ company document version,
      (∃ r ∈ db.versions, r.OwnedBy company document ∧ r.id = version) →
      ∃ r ∈ db'.versions, r.OwnedBy company document ∧ r.id = version := by
    rintro company document version ⟨r, hr, hown, hid⟩
    refine ⟨promotedRow replies.now ctx.companyId cmd.documentId cmd.versionId r, ?_, ?_,
      (promotedRow_id r).trans hid⟩
    · rw [hversions]
      exact List.mem_map_of_mem hr
    · exact (promotedRow_ownedBy r).mpr hown
  have hmem : ∀ e ∈ db'.events, e ∈ db.events ∨ e = activatedEvent ctx cmd := by
    intro e he
    rw [hevents] at he
    exact (mem_or_mem_of_mem_insertNew he).imp_right List.mem_singleton.mp
  constructor
  case ids =>
    rw [hversions, map_id_promotedRow]
    exact h.ids
  case keys =>
    rw [hevents]
    exact nodup_insertNew h.keys _
  case named =>
    intro e he
    rcases hmem e he with he | rfl
    · exact h.named e he
    · rfl
  case known =>
    intro e he
    rcases hmem e he with he | rfl
    · exact hkeep _ _ _ (h.known e he)
    · exact hkeep _ _ _ hrow

theorem OutboxInv.completed (h : OutboxInv db) (k now : Nat) :
    OutboxInv (db.step (.complete k now)) := by
  have hmem : ∀ e ∈ (db.step (.complete k now)).events, ∃ e' ∈ db.events,
      e.companyId = e'.companyId ∧ e.documentId = e'.documentId ∧ e.versionId = e'.versionId ∧
      e.idempotencyKey = e'.idempotencyKey := by
    intro e he
    obtain ⟨i, hi, rfl⟩ := List.getElem_of_mem he
    simp only [PromoteDb.step, List.length_modify] at hi ⊢
    refine ⟨db.events[i], List.getElem_mem hi, ?_⟩
    rw [List.getElem_modify]
    split
    · exact ⟨rfl, rfl, rfl, rfl⟩
    · exact ⟨rfl, rfl, rfl, rfl⟩
  have hkeys : (db.step (.complete k now)).events.map LifecycleEvent.key =
      db.events.map LifecycleEvent.key := by
    apply List.ext_getElem
    · simp [PromoteDb.step]
    · intro i h1 h2
      simp only [PromoteDb.step, List.getElem_map, List.getElem_modify]
      split
      · rfl
      · rfl
  constructor
  case ids => exact h.ids
  case keys => exact hkeys ▸ h.keys
  case named =>
    intro e he
    obtain ⟨e', he', -, hd, hv, hk⟩ := hmem e he
    rw [hk, hd, hv]
    exact h.named e' he'
  case known =>
    intro e he
    obtain ⟨e', he', hc, hd, hv, -⟩ := hmem e he
    rw [hc, hd, hv]
    exact h.known e' he'

theorem OutboxInv.step (h : OutboxInv db) (op : PromoteOp) : OutboxInv (db.step op) := by
  cases op with
  | execute ctx cmd replies =>
    rcases db.execute_cases ctx cmd replies with ⟨heq, -⟩ | hbody
    · rw [PromoteDb.step, heq]
      exact h
    · exact h.promoted hbody
  | complete k now => exact h.completed k now

/-- Events of one company for one version are one event: the version fixes its document, and the
two fix the key. -/
theorem OutboxInv.eq_of_version (h : OutboxInv db) {e e' : LifecycleEvent} (he : e ∈ db.events)
    (he' : e' ∈ db.events) (hc : e.companyId = e'.companyId) (hv : e.versionId = e'.versionId) :
    e = e' := by
  obtain ⟨r, hr, hown, hid⟩ := h.known e he
  obtain ⟨r', hr', hown', hid'⟩ := h.known e' he'
  obtain rfl : r = r' := List.inj_on_of_nodup_map h.ids hr hr' (by rw [hid, hid', hv])
  have hd : e.documentId = e'.documentId := hown.2.symm.trans hown'.2
  apply List.inj_on_of_nodup_map h.keys he he'
  rw [LifecycleEvent.key, LifecycleEvent.key, hc, h.named e he, h.named e' he', hd, hv]

/-- After a run that is done the resync of its version is pending, unless its key was taken by an
event that had been completed before. -/
theorem OutboxInv.resyncPending_iff (h : OutboxInv db)
    (hbody : promoteBody ctx cmd replies db = .ok () db') :
    db'.ResyncPending ctx.companyId cmd.versionId ↔
      ¬db.ResyncCompleted ctx.companyId cmd.documentId cmd.versionId := by
  have hinv := h.promoted hbody
  obtain ⟨-, -, hevents⟩ := promoteBody_ok hbody
  constructor
  · rintro ⟨e, he, hc, hv, hpending⟩ ⟨d, hd, hdc, hdk, hdone⟩
    have hd' : d ∈ db'.events := hevents ▸ subset_insertNew _ hd
    have hdv := (promoteKey_injective ((h.named d hd).symm.trans hdk)).2
    obtain rfl := hinv.eq_of_version he hd' (hc.trans hdc.symm) (hv.trans hdv.symm)
    exact hdone hpending
  · intro hnot
    by_cases htaken : (activatedEvent ctx cmd).key ∈ db.events.map LifecycleEvent.key
    · obtain ⟨d, hd, hkey⟩ := List.mem_map.mp htaken
      obtain ⟨hdc, hdk⟩ := Prod.mk.inj hkey
      have hdv := (promoteKey_injective ((h.named d hd).symm.trans hdk)).2
      refine ⟨d, hevents ▸ subset_insertNew _ hd, hdc, hdv, ?_⟩
      by_contra hdone
      exact hnot ⟨d, hd, hdc, hdk, hdone⟩
    · have happend : db'.events = db.events ++ [activatedEvent ctx cmd] := by
        rw [hevents]
        exact insertNew_of_not_mem htaken
      refine ⟨activatedEvent ctx cmd, ?_, rfl, rfl, rfl⟩
      rw [happend]
      exact List.mem_append_right _ List.mem_cons_self

theorem activeVersion_promoted (hbody : promoteBody ctx cmd replies db = .ok () db') :
    db'.ActiveVersion ctx.companyId cmd.documentId cmd.versionId := by
  obtain ⟨⟨r, hr, hown, hid⟩, hversions, -⟩ := promoteBody_ok hbody
  refine ⟨promotedRow replies.now ctx.companyId cmd.documentId cmd.versionId r, ?_,
    (promotedRow_ownedBy r).mpr hown, (promotedRow_id r).trans hid, ?_⟩
  · rw [hversions]
    exact List.mem_map_of_mem hr
  · rw [promotedRow, if_pos hown, if_pos hid]

end Runs

/-- For every sequence of runs of the use case and of completions, from an outbox without events of
the job type: after a run that succeeds its version is active, and an uncompleted event for that
version is there if and only if no event under the key of the version had been completed before. -/
theorem promotion_leaves_resync_pending (start : PromoteDb)
    (hids : (start.versions.map LifecycleVersion.id).Nodup) (hnone : start.events = [])
    (ops : List PromoteOp) (ctx : PromoteContext) (cmd : PromoteDocumentVersionCmd)
    (replies : PromoteReplies) :
    let before := Transition.run PromoteDb.step start ops
    let after := (before.execute ctx cmd replies).1
    (before.execute ctx cmd replies).2 = none →
      after.ActiveVersion ctx.companyId cmd.documentId cmd.versionId ∧
      (after.ResyncPending ctx.companyId cmd.versionId ↔
        ¬before.ResyncCompleted ctx.companyId cmd.documentId cmd.versionId) := by
  intro before after hok
  have hstart : OutboxInv start := by
    constructor <;> simp [hnone, hids]
  have hinv : OutboxInv before :=
    Transition.run_invariant hstart fun _ op h => h.step op
  rcases before.execute_cases ctx cmd replies with ⟨-, hne⟩ | hbody
  · exact absurd hok hne
  · exact ⟨activeVersion_promoted hbody, hinv.resyncPending_iff hbody⟩

/-- The document of `handbookVersions` before any event. -/
def handbookOutbox : PromoteDb := { handbookVersions with }

def handbookContext : PromoteContext := ⟨1, 5, false, "trace", false⟩

def promoteAt (now : Nat) (version : Uuid) : PromoteOp :=
  .execute handbookContext ⟨2, version⟩ { now }

theorem second_promotion_leaves_resync_pending :
    (((Transition.run PromoteDb.step handbookOutbox [promoteAt 10 11, .complete 0 15]).execute
      handbookContext ⟨2, 12⟩ { now := 20 }).1).ResyncPending 1 12 := by
  refine ((promotion_leaves_resync_pending handbookOutbox (by decide) rfl
    [promoteAt 10 11, .complete 0 15] handbookContext ⟨2, 12⟩ { now := 20 }
    (by decide)).2).mpr ?_
  decide

/-- A roll-back: the event of the version 11 is completed, 12 is promoted, and then 11 again.  The
active version changes to 11, and no event says so. -/
theorem rollback_leaves_no_resync :
    let before := Transition.run PromoteDb.step handbookOutbox
      [promoteAt 10 11, .complete 0 15, promoteAt 20 12]
    let result := before.execute handbookContext ⟨2, 11⟩ { now := 30 }
    result.2 = none ∧ before.ActiveVersion 1 2 12 ∧ ¬before.ActiveVersion 1 2 11 ∧
      result.1.ActiveVersion 1 2 11 ∧ ¬result.1.ResyncPending 1 11 := by
  decide

end Wikore
