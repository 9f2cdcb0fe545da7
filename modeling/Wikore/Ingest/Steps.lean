import Wikore.Ingest.Pipeline

/-! What one step of the pipeline can do: to a row of `document_versions`, to a worker, to the tokens
and to a sweep. -/

namespace Wikore

namespace IngestWorld

variable (env : IngestExternals) (opts : PollingOptions) (w w' : IngestWorld)

/-! ### Rows -/

/-- The row is the one of the command. -/
def RowOf (cmd : IngestDocumentVersionCmd) (r : VersionRow) : Prop :=
  r.companyId = cmd.company ∧ env.uuid cmd.documentVersionId = some r.id

/-- What an action makes of a row, when it takes `w` to `w'`. -/
inductive RowStep : IngestAction → VersionRow → VersionRow → Prop
  | same (a : IngestAction) (r : VersionRow) : RowStep a r r
  | enqueued {r : VersionRow} {t : Uuid} {p : String} (ht : r.companyId = t)
      (hn : Names env p r.id) : RowStep (.enqueue t p) r { r with enqueued := true }
  | claimed {r : VersionRow} {i : Nat} {id : String} {cmd : IngestDocumentVersionCmd}
      {payload : Option String} {token : Uuid} {reply : DbReply}
      (hi : w.workers[i]? = some ⟨id, .claiming cmd⟩) (hc : r.companyId = cmd.company)
      (hv : env.uuid cmd.documentVersionId = some r.id)
      (hp : jobPayload env cmd.payload = some payload) (ht : token ∉ w.tokens)
      (ht' : w'.tokens = token :: w.tokens) (hr : r.Claimable) :
      RowStep (.claim i token reply) r (r.claim payload token w.clock)
  | done {r : VersionRow} {i : Nat} {id : String} {token : Uuid} {uow : UnitOfWork}
      {reply : DbReply} (hi : w.workers[i]? = some ⟨id, .marked token uow⟩)
      (hc : r.companyId = uow.cmd.company) (hv : env.uuid uow.cmd.documentVersionId = some r.id)
      (hfree : ∃ x, w'.workers[i]? = some x ∧ x.lockedCmd = none) :
      RowStep (.commit i reply) r (r.markDone token uow)
  | failed {r : VersionRow} {i : Nat} {id : String} {cmd : IngestDocumentVersionCmd} {token : Uuid}
      {message : String} {reply : DbReply}
      (hi : w.workers[i]? = some ⟨id, .failing cmd token message⟩)
      (hl : ¬w.Locked env r.companyId r.id) (ht : r.ingestClaimToken = some token) :
      RowStep (.setIngestError i reply) r (r.setError token message w.clock)
  | touched {r : VersionRow} {j : Nat} {touch : DbReply} {lremOk : Bool}
      (hp : r.ingestStatus = .pending) : RowStep (.reapEntry j touch lremOk) r (r.touch w.clock)
  | swept {r : VersionRow} {j at_ now : Nat} {examined : List ReapedEntry}
      {deferred : List String} {selected : List Uuid} {reply : DbReply}
      (hj : w.sweepers[j]? = some ⟨at_, examined, .sweeping deferred⟩) (hat : at_ ≤ now)
      (hnow : now ≤ w.clock) (hs : r.id ∈ selected) (hl : ¬w.Locked env r.companyId r.id) :
      RowStep (.sweep j now selected reply) r (r.sweep opts now deferred)
  | tookBack {r : VersionRow} {j : Nat} {reply : DbReply} (hreply : reply ≠ .failed) :
      RowStep (.compensate j reply) r (r.takeBackRetry w.clock)

/-- The rows of `w'` come from those of `w`, each as `RowStep` says. -/
def RowsStep (a : IngestAction) : Prop :=
  ∃ g : VersionRow → VersionRow, w'.versions = w.versions.map g ∧
    ∀ r ∈ w.versions, RowStep env opts w w' a r (g r)

variable {env opts w w'} {a : IngestAction}

/-- A sweep leaves a row, resets it or promotes it to `error`. -/
theorem sweep_cases (opts : PollingOptions) (now : Nat) (deferred : List String) (r : VersionRow) :
    r.sweep opts now deferred = r ∨
      (r.ingestStatus = .pending ∨ r.ingestStatus = .processing) ∧
        (r.CanRequeue opts ∧ r.sweep opts now deferred = r.requeue now ∨
          ∃ message, r.sweep opts now deferred = r.promote now message) := by
  unfold VersionRow.sweep
  split
  next =>
    cases hs : r.ingestStatus with
    | pending =>
      dsimp only
      split
      next => exact .inl rfl
      next =>
        split
        next hreq => exact .inr ⟨.inl rfl, .inl ⟨hreq, rfl⟩⟩
        next => exact .inr ⟨.inl rfl, .inr ⟨_, rfl⟩⟩
    | processing =>
      dsimp only
      split
      next hreq => exact .inr ⟨.inr rfl, .inl ⟨hreq, rfl⟩⟩
      next => exact .inr ⟨.inr rfl, .inr ⟨_, rfl⟩⟩
    | done => exact .inl rfl
    | error => exact .inl rfl
  next => exact .inl rfl

theorem sweep_key (opts : PollingOptions) (now : Nat) (deferred : List String) (r : VersionRow) :
    (r.sweep opts now deferred).id = r.id ∧ (r.sweep opts now deferred).companyId = r.companyId ∧
      (r.sweep opts now deferred).lifecycleStatus = r.lifecycleStatus := by
  rcases sweep_cases opts now deferred r with h | ⟨-, ⟨-, h⟩ | ⟨message, h⟩⟩
  · simp [h]
  · simp [h, VersionRow.requeue]
  · simp [h, VersionRow.promote]

theorem RowStep.key {r r' : VersionRow} (h : RowStep env opts w w' a r r') :
    r'.id = r.id ∧ r'.companyId = r.companyId ∧ r'.lifecycleStatus = r.lifecycleStatus := by
  cases h with
  | swept hj hat hnow hs hl => exact sweep_key _ _ _ r
  | _ => exact ⟨rfl, rfl, rfl⟩

theorem RowsStep.of_eq (h : w'.versions = w.versions) : RowsStep env opts w w' a :=
  ⟨id, by rw [h, List.map_id], fun r _ => .same a r⟩

theorem RowsStep.map {p : VersionRow → Prop} [DecidablePred p] {f : VersionRow → VersionRow}
    (hv : w'.versions = w.versions.map fun r => if p r then f r else r)
    (h : ∀ r ∈ w.versions, p r → RowStep env opts w w' a r (f r)) : RowsStep env opts w w' a := by
  refine ⟨_, hv, fun r hr => ?_⟩
  split
  next hm => exact h r hr hm
  next => exact .same a r

theorem RowsStep.update {c v : Uuid} {p : VersionRow → Bool} {f : VersionRow → VersionRow}
    (hv : w'.versions = updateVersion c v p f w.versions)
    (h : ∀ r ∈ w.versions, r.companyId = c → r.id = v → p r = true →
      RowStep env opts w w' a r (f r)) : RowsStep env opts w w' a :=
  .map hv fun r hr hm => h r hr hm.1 hm.2.1 hm.2.2

@[simp] theorem versions_setWorker (i : Nat) (x : Worker) :
    (w.setWorker i x).versions = w.versions := rfl

@[simp] theorem versions_setSweeper (j : Nat) (x : Sweeper) :
    (w.setSweeper j x).versions = w.versions := rfl

@[simp] theorem versions_settle (t : Uuid) (p : String) : (w.settle t p).versions = w.versions := rfl

@[simp] theorem versions_push (t : Uuid) (p : String) : (w.push t p).versions = w.versions := rfl

@[simp] theorem versions_lrem (key : String × Uuid) (p : String) :
    (w.lrem key p).versions = w.versions := by
  unfold lrem
  split <;> rfl

@[simp] theorem versions_transfer (key : String × Uuid) (p : String) :
    (w.transfer key p).versions = w.versions := by
  unfold transfer
  split <;> rfl

theorem rowsStep_claim (i : Nat) (token : Uuid) (reply : DbReply) :
    RowsStep env opts w (w.claim env i token reply) (.claim i token reply) := by
  unfold claim
  split
  next id cmd hi =>
    split
    next v payload hv hp =>
      split
      next => exact .of_eq rfl
      next hfree =>
        split
        next =>
          refine .update rfl fun r _ hc hid hcl => ?_
          exact .claimed hi hc (hid ▸ hv) hp (fun ht => hfree (.inr ht)) rfl (by simpa using hcl)
        next => exact .of_eq rfl
    next v payload hv hp =>
      split
      next => exact .of_eq rfl
      next hfree =>
        refine .update rfl fun r _ hc hid hcl => ?_
        exact .claimed hi hc (hid ▸ hv) hp (fun ht => hfree (.inr ht)) rfl (by simpa using hcl)
    next => exact .of_eq rfl
  next => exact .of_eq rfl

theorem rowsStep_commit (i : Nat) (reply : DbReply) :
    RowsStep env opts w (w.commit env i reply) (.commit i reply) := by
  unfold commit
  split
  next id token uow hi =>
    split
    next => exact .of_eq rfl
    next v hv =>
      have hset : ∀ x : Worker, (w.workers.set i x)[i]? = some x := by
        intro x
        rw [List.getElem?_set_self (List.getElem?_eq_some_iff.mp hi).1]
      cases reply with
      | ok => exact .update rfl fun r _ hc hid _ => .done hi hc (hid ▸ hv) ⟨_, hset _, rfl⟩
      | lost => exact .update rfl fun r _ hc hid _ => .done hi hc (hid ▸ hv) ⟨_, hset _, rfl⟩
      | failed => exact .of_eq rfl
  next => exact .of_eq rfl

theorem rowsStep_setIngestError (i : Nat) (reply : DbReply) :
    RowsStep env opts w (w.setIngestError env i reply) (.setIngestError i reply) := by
  unfold setIngestError
  split
  next id cmd token message hi =>
    split
    next => exact .of_eq rfl
    next v hv =>
      split
      next => exact .of_eq rfl
      next hl =>
        have hfail : ∀ (w' : IngestWorld), ∀ r ∈ w.versions, r.companyId = cmd.company → r.id = v →
            decide (r.ingestClaimToken = some token) = true →
            RowStep env opts w w' (.setIngestError i reply) r (r.setError token message w.clock) := by
          intro w' r _ hc hid ht
          refine .failed hi ?_ (by simpa using ht)
          rw [hc, hid]
          exact hl
        cases reply with
        | ok => exact .update rfl (hfail _)
        | lost => exact .update rfl (hfail _)
        | failed => exact .of_eq rfl
  next => exact .of_eq rfl

theorem rowsStep_reapEntry (j : Nat) (touch : DbReply) (lremOk : Bool) :
    RowsStep env opts w (w.reapEntry env j touch lremOk) (.reapEntry j touch lremOk) := by
  unfold reapEntry
  split
  next => exact .of_eq rfl
  next =>
    split
    next =>
      refine .of_eq ?_
      dsimp only
      split <;> simp
    next =>
      dsimp only
      split
      next => exact .update rfl fun r _ _ _ hp => .touched (by simpa using hp)
      next => exact .update rfl fun r _ _ _ hp => .touched (by simpa using hp)
      next => exact .of_eq rfl
  next => exact .of_eq rfl

theorem rowsStep_sweep (j now : Nat) (selected : List Uuid) (reply : DbReply) :
    RowsStep env opts w (w.sweep env opts j now selected reply)
      (.sweep j now selected reply) := by
  unfold sweep
  split
  next at_ examined deferred hj =>
    split
    next hguard =>
      have hswept : ∀ (w' : IngestWorld), ∀ r ∈ w.versions, r.id ∈ selected →
          RowStep env opts w w' (.sweep j now selected reply) r (r.sweep opts now deferred) := by
        intro w' r hr hs
        exact .swept hj hguard.1.1 hguard.1.2 hs (hguard.2 r hr hs)
      cases reply with
      | ok => exact .map rfl (hswept _)
      | lost => exact .map rfl (hswept _)
      | failed => exact .of_eq rfl
    next => exact .of_eq rfl
  next => exact .of_eq rfl

theorem rowsStep_compensate (j : Nat) (reply : DbReply) :
    RowsStep env opts w (w.compensate env j reply) (.compensate j reply) := by
  unfold compensate
  split
  next =>
    split
    next => exact .of_eq rfl
    next hreply =>
      split
      next => exact .of_eq rfl
      next => exact .map rfl fun r _ _ => .tookBack hreply
  next => exact .of_eq rfl

/-- A step changes the rows one by one, each as `RowStep` says. -/
theorem versions_step (a : IngestAction) : RowsStep env opts w (w.step env opts a) a := by
  cases a with
  | enqueue t p => exact .map rfl fun r _ h => .enqueued h.1 h.2
  | claim i token reply => exact rowsStep_claim i token reply
  | commit i reply => exact rowsStep_commit i reply
  | setIngestError i reply => exact rowsStep_setIngestError i reply
  | reapEntry j touch lremOk => exact rowsStep_reapEntry j touch lremOk
  | sweep j now selected reply => exact rowsStep_sweep j now selected reply
  | compensate j reply => exact rowsStep_compensate j reply
  | tick d => exact .of_eq rfl
  | heartbeat id alive => exact .of_eq rfl
  | startWorker id => exact .of_eq rfl
  | lmove i t =>
    refine .of_eq ?_
    simp only [step, lmove]
    (repeat' split) <;> rfl
  | readJob i lremOk =>
    refine .of_eq ?_
    simp only [step, readJob]
    (repeat' split) <;> simp
  | giveUp i message =>
    refine .of_eq ?_
    simp only [step, giveUp]
    (repeat' split) <;> rfl
  | write i run =>
    refine .of_eq ?_
    simp only [step, write]
    (repeat' split) <;> rfl
  | markIngestDone i reply message =>
    refine .of_eq ?_
    simp only [step, markIngestDone]
    (repeat' split) <;> rfl
  | acknowledge i lremOk =>
    refine .of_eq ?_
    simp only [step, acknowledge]
    (repeat' split) <;> simp
  | transferBack i ok delOk =>
    refine .of_eq ?_
    simp only [step, transferBack]
    (repeat' split) <;> simp
  | stopWorker i =>
    refine .of_eq ?_
    simp only [step, stopWorker]
    split <;> rfl
  | startSweep keys =>
    refine .of_eq ?_
    simp only [step]
    split <;> rfl
  | reapKey j existsOk lrangeOk =>
    refine .of_eq ?_
    simp only [step, reapKey]
    (repeat' split) <;> rfl
  | reapTransfer j ok =>
    refine .of_eq ?_
    simp only [step, reapTransfer]
    (repeat' split) <;> simp
  | pushItem j ok =>
    refine .of_eq ?_
    simp only [step, pushItem]
    (repeat' split) <;> simp
  | stopSweeper j =>
    refine .of_eq ?_
    simp only [step, stopSweeper]
    split <;> rfl

/-- Every row of the next state comes from a row of the same version. -/
theorem exists_row_of_step {a : IngestAction} {r' : VersionRow}
    (hr' : r' ∈ (w.step env opts a).versions) :
    ∃ r ∈ w.versions, RowStep env opts w (w.step env opts a) a r r' := by
  obtain ⟨g, hg, hrows⟩ : RowsStep env opts w (w.step env opts a) a := versions_step a
  rw [hg] at hr'
  obtain ⟨r, hr, rfl⟩ := List.mem_map.mp hr'
  exact ⟨r, hr, hrows r hr⟩

/-! ### Workers -/

variable (env w w')

/-- What an action of worker `i` makes of its phase, when it takes `w` to `w'`. -/
inductive PhaseStep (i : Nat) : IngestAction → WorkerPhase → WorkerPhase → Prop
  | lmove {t : Uuid} {p : String} (hq : (w.queue t).getLast? = some p) :
      PhaseStep i (.lmove i t) .idle (.moved t p)
  | read {t : Uuid} {p : String} {lremOk : Bool} {job : IngestJob}
      (hp : env.parseJob p = some job) :
      PhaseStep i (.readJob i lremOk) (.moved t p)
        (.claiming ⟨t, job.documentId, job.documentVersionId, job.filePath, job.embedModelId, p⟩)
  | drop {t : Uuid} {p : String} {lremOk : Bool} (hp : env.parseJob p = none) :
      PhaseStep i (.readJob i lremOk) (.moved t p) .idle
  | claim {cmd : IngestDocumentVersionCmd} {token v : Uuid} {payload : Option String}
      (hv : env.uuid cmd.documentVersionId = some v)
      (hp : jobPayload env cmd.payload = some payload)
      (hrows : w'.versions = updateVersion cmd.company v (fun r => r.Claimable)
        (VersionRow.claim payload token w.clock) w.versions) :
      PhaseStep i (.claim i token .ok) (.claiming cmd) (.claimed cmd token)
  | duplicate {cmd : IngestDocumentVersionCmd} {token v : Uuid}
      (hv : env.uuid cmd.documentVersionId = some v)
      (hm : ¬versionMatches cmd.company v (fun r => r.Claimable) w.versions = true) :
      PhaseStep i (.claim i token .ok) (.claiming cmd) (.returned cmd .duplicateSkipped)
  | claimError {cmd : IngestDocumentVersionCmd} {token : Uuid} {reply : DbReply} :
      PhaseStep i (.claim i token reply) (.claiming cmd) (.infraFailed cmd 0)
  | giveUp {cmd : IngestDocumentVersionCmd} {token : Uuid} {message : String} :
      PhaseStep i (.giveUp i message) (.claimed cmd token) (.failing cmd token message)
  | rollback {token : Uuid} {uow : UnitOfWork} {message : String} :
      PhaseStep i (.giveUp i message) (.writing token uow) (.failing uow.cmd token message)
  | write {cmd : IngestDocumentVersionCmd} {token v : Uuid} {run : IngestRun}
      {written : VersionTables} (hv : env.uuid cmd.documentVersionId = some v)
      (hw : writeRun env.sha256Hex cmd v run (w.tablesOf cmd.company v) = .ok written) :
      PhaseStep i (.write i run) (.claimed cmd token) (.writing token ⟨cmd, run, w.clock,
        (run.chunks cmd.company v (w.tablesOf cmd.company v)).length, written⟩)
  | writeError {cmd : IngestDocumentVersionCmd} {token : Uuid} {run : IngestRun}
      {message : String} : PhaseStep i (.write i run) (.claimed cmd token) (.failing cmd token message)
  | mark {token v : Uuid} {uow : UnitOfWork} {message : String}
      (hv : env.uuid uow.cmd.documentVersionId = some v) (hl : ¬w.Locked env uow.cmd.company v)
      (hm : versionMatches uow.cmd.company v (fun r => r.ingestClaimToken = some token)
        w.versions = true) :
      PhaseStep i (.markIngestDone i .ok message) (.writing token uow) (.marked token uow)
  | markLost {token v : Uuid} {uow : UnitOfWork} {message : String}
      (hv : env.uuid uow.cmd.documentVersionId = some v)
      (hm : ¬versionMatches uow.cmd.company v (fun r => r.ingestClaimToken = some token)
        w.versions = true) :
      PhaseStep i (.markIngestDone i .ok message) (.writing token uow)
        (.returned uow.cmd .ownershipLost)
  | markError {token : Uuid} {uow : UnitOfWork} {reply : DbReply} {message : String} :
      PhaseStep i (.markIngestDone i reply message) (.writing token uow)
        (.failing uow.cmd token message)
  | commit {token v : Uuid} {uow : UnitOfWork} (hv : env.uuid uow.cmd.documentVersionId = some v) :
      PhaseStep i (.commit i .ok) (.marked token uow) (.returned uow.cmd .processed)
  | commitError {token : Uuid} {uow : UnitOfWork} {reply : DbReply} :
      PhaseStep i (.commit i reply) (.marked token uow) (.infraFailed uow.cmd 0)
  | errorSet {cmd : IngestDocumentVersionCmd} {token v : Uuid} {message : String}
      (hv : env.uuid cmd.documentVersionId = some v)
      (hm : versionMatches cmd.company v (fun r => r.ingestClaimToken = some token)
        w.versions = true) :
      PhaseStep i (.setIngestError i .ok) (.failing cmd token message)
        (.returned cmd .terminalError)
  | errorLost {cmd : IngestDocumentVersionCmd} {token v : Uuid} {message : String}
      (hv : env.uuid cmd.documentVersionId = some v)
      (hm : ¬versionMatches cmd.company v (fun r => r.ingestClaimToken = some token)
        w.versions = true) :
      PhaseStep i (.setIngestError i .ok) (.failing cmd token message)
        (.returned cmd .ownershipLost)
  | errorFailed {cmd : IngestDocumentVersionCmd} {token : Uuid} {message : String}
      {reply : DbReply} :
      PhaseStep i (.setIngestError i reply) (.failing cmd token message) (.infraFailed cmd 0)
  | acknowledge {cmd : IngestDocumentVersionCmd} {outcome : IngestDispatchOutcome} {lremOk : Bool} :
      PhaseStep i (.acknowledge i lremOk) (.returned cmd outcome) .idle
  | transferred {cmd : IngestDocumentVersionCmd} {attempts : Nat} {delOk : Bool} :
      PhaseStep i (.transferBack i true delOk) (.infraFailed cmd attempts) .idle
  | retry {cmd : IngestDocumentVersionCmd} {attempts : Nat} {delOk : Bool} :
      PhaseStep i (.transferBack i false delOk) (.infraFailed cmd attempts)
        (.infraFailed cmd (attempts + 1))
  | fatal {cmd : IngestDocumentVersionCmd} {attempts : Nat} {delOk : Bool} :
      PhaseStep i (.transferBack i false delOk) (.infraFailed cmd attempts) .stopped
  | stop {phase : WorkerPhase} : PhaseStep i (.stopWorker i) phase .stopped

/-- The worker `x` at `k` was there before, has just started, or has taken one step. -/
def WorkersStep (a : IngestAction) : Prop :=
  ∀ (k : Nat) (x : Worker), w'.workers[k]? = some x →
    w.workers[k]? = some x ∨ x.phase = .idle ∧ w.workers.length ≤ k ∨
      ∃ phase, w.workers[k]? = some ⟨x.id, phase⟩ ∧ PhaseStep env w w' k a phase x.phase

variable {env w w'}

/-- Where an element of an updated list comes from. -/
theorem getElem?_set_some {α : Type} {l : List α} {i k : Nat} {x y : α}
    (h : (l.set i x)[k]? = some y) : l[k]? = some y ∨ k = i ∧ y = x := by
  rw [List.getElem?_set] at h
  split at h
  next hik =>
    split at h
    next => exact .inr ⟨hik.symm, (Option.some.inj h).symm⟩
    next => cases h
  next => exact .inl h

theorem WorkersStep.of_eq (h : w'.workers = w.workers) : WorkersStep env w w' a := by
  intro k x hk
  rw [h] at hk
  exact .inl hk

theorem WorkersStep.set {i : Nat} {id : String} {phase phase' : WorkerPhase}
    (hw : w'.workers = w.workers.set i ⟨id, phase'⟩) (hi : w.workers[i]? = some ⟨id, phase⟩)
    (hstep : PhaseStep env w w' i a phase phase') : WorkersStep env w w' a := by
  intro k x hk
  rw [hw] at hk
  rcases getElem?_set_some hk with hk | ⟨rfl, rfl⟩
  · exact .inl hk
  · exact .inr (.inr ⟨phase, hi, hstep⟩)

@[simp] theorem workers_setWorker (i : Nat) (x : Worker) :
    (w.setWorker i x).workers = w.workers.set i x := rfl

@[simp] theorem workers_setSweeper (j : Nat) (x : Sweeper) :
    (w.setSweeper j x).workers = w.workers := rfl

@[simp] theorem workers_settle (t : Uuid) (p : String) : (w.settle t p).workers = w.workers := rfl

@[simp] theorem workers_push (t : Uuid) (p : String) : (w.push t p).workers = w.workers := rfl

@[simp] theorem workers_lrem (key : String × Uuid) (p : String) :
    (w.lrem key p).workers = w.workers := by
  unfold lrem
  split <;> rfl

@[simp] theorem workers_transfer (key : String × Uuid) (p : String) :
    (w.transfer key p).workers = w.workers := by
  unfold transfer
  split <;> rfl

theorem workersStep_claim (i : Nat) (token : Uuid) (reply : DbReply) :
    WorkersStep env w (w.claim env i token reply) (.claim i token reply) := by
  unfold claim
  split
  next id cmd hi =>
    split
    next v payload hv hp =>
      split
      next => exact .of_eq rfl
      next hfree =>
        split
        next => exact .set rfl hi (.claim hv hp rfl)
        next hm => exact .set rfl hi (.duplicate hv hm)
    next v payload hv hp =>
      split
      next => exact .of_eq rfl
      next => exact .set rfl hi .claimError
    next => exact .set rfl hi .claimError
  next => exact .of_eq rfl

theorem workersStep_write (i : Nat) (run : IngestRun) :
    WorkersStep env w (w.write env i run) (.write i run) := by
  unfold write
  split
  next id cmd token hi =>
    split
    next => exact .of_eq rfl
    next v hv =>
      dsimp only
      split
      next written hw => exact .set rfl hi (.write hv hw)
      next => exact .set rfl hi .writeError
  next => exact .of_eq rfl

theorem workersStep_markIngestDone (i : Nat) (reply : DbReply) (message : String) :
    WorkersStep env w (w.markIngestDone env i reply message)
      (.markIngestDone i reply message) := by
  unfold markIngestDone
  split
  next id token uow hi =>
    split
    next v hv =>
      split
      next => exact .of_eq rfl
      next hl =>
        split
        next hm => exact .set rfl hi (.mark hv hl hm)
        next hm => exact .set rfl hi (.markLost hv hm)
    next => exact .set rfl hi .markError
  next => exact .of_eq rfl

theorem workersStep_setIngestError (i : Nat) (reply : DbReply) :
    WorkersStep env w (w.setIngestError env i reply) (.setIngestError i reply) := by
  unfold setIngestError
  split
  next id cmd token message hi =>
    split
    next => exact .set rfl hi .errorFailed
    next v hv =>
      split
      next => exact .of_eq rfl
      next =>
        cases reply with
        | ok =>
          by_cases hm : versionMatches cmd.company v (fun r => r.ingestClaimToken = some token)
              w.versions = true
          · exact .set (by simp only [hm, if_true]) hi (.errorSet hv hm)
          · exact .set (by simp only [hm]; rfl) hi (.errorLost hv hm)
        | lost => exact .set rfl hi .errorFailed
        | failed => exact .set rfl hi .errorFailed
  next => exact .of_eq rfl

theorem workersStep_commit (i : Nat) (reply : DbReply) :
    WorkersStep env w (w.commit env i reply) (.commit i reply) := by
  unfold commit
  split
  next id token uow hi =>
    split
    next => exact .of_eq rfl
    next v hv =>
      cases reply with
      | ok => exact .set rfl hi (.commit hv)
      | lost => exact .set rfl hi .commitError
      | failed => exact .set rfl hi .commitError
  next => exact .of_eq rfl

/-- A step changes the workers one by one, each as `PhaseStep` says. -/
theorem workers_step (a : IngestAction) :
    WorkersStep env w (w.step env opts a) a := by
  cases a with
  | startWorker id =>
    intro k x hk
    simp only [step] at hk
    rw [List.getElem?_append] at hk
    split at hk
    next => exact .inl hk
    next hlen =>
      obtain rfl : x = ⟨id, .idle⟩ := by
        have := List.mem_of_getElem? hk
        simpa using this
      exact .inr (.inl ⟨rfl, by omega⟩)
  | lmove i t =>
    simp only [step, lmove]
    split
    next id hi =>
      split
      next p hp => exact .set rfl hi (.lmove hp)
      next => exact .of_eq rfl
    next => exact .of_eq rfl
  | readJob i lremOk =>
    simp only [step, readJob]
    split
    next id t p hi =>
      split
      next job hp => exact .set rfl hi (.read hp)
      next hp =>
        refine .set ?_ hi (.drop hp)
        split <;> simp
    next => exact .of_eq rfl
  | claim i token reply => exact workersStep_claim i token reply
  | giveUp i message =>
    simp only [step, giveUp]
    split
    next id cmd token hi => exact .set rfl hi .giveUp
    next id token uow hi => exact .set rfl hi .rollback
    next => exact .of_eq rfl
  | write i run => exact workersStep_write i run
  | markIngestDone i reply message => exact workersStep_markIngestDone i reply message
  | commit i reply => exact workersStep_commit i reply
  | setIngestError i reply => exact workersStep_setIngestError i reply
  | acknowledge i lremOk =>
    simp only [step, acknowledge]
    split
    next id cmd outcome hi =>
      refine .set ?_ hi .acknowledge
      split <;> simp
    next => exact .of_eq rfl
  | transferBack i ok delOk =>
    simp only [step, transferBack]
    split
    next id cmd attempts hi =>
      split
      next hok =>
        subst hok
        refine .set ?_ hi .transferred
        simp
      next hok =>
        obtain rfl : ok = false := by simpa using hok
        split
        next => exact .set rfl hi .retry
        next => split <;> exact .set rfl hi .fatal
    next => exact .of_eq rfl
  | stopWorker i =>
    simp only [step, stopWorker]
    split
    next x hi => exact .set rfl hi .stop
    next => exact .of_eq rfl
  | tick d => exact .of_eq rfl
  | enqueue t p => exact .of_eq rfl
  | heartbeat id alive => exact .of_eq rfl
  | startSweep keys =>
    simp only [step]
    split <;> exact .of_eq rfl
  | reapKey j existsOk lrangeOk =>
    refine .of_eq ?_
    simp only [step, reapKey]
    (repeat' split) <;> rfl
  | reapEntry j touch lremOk =>
    refine .of_eq ?_
    simp only [step, reapEntry]
    (repeat' split) <;> simp
  | reapTransfer j ok =>
    refine .of_eq ?_
    simp only [step, reapTransfer]
    (repeat' split) <;> simp
  | sweep j now selected reply =>
    refine .of_eq ?_
    simp only [step, sweep]
    (repeat' split) <;> rfl
  | pushItem j ok =>
    refine .of_eq ?_
    simp only [step, pushItem]
    (repeat' split) <;> simp
  | compensate j reply =>
    refine .of_eq ?_
    simp only [step, compensate]
    (repeat' split) <;> rfl
  | stopSweeper j =>
    refine .of_eq ?_
    simp only [step, stopSweeper]
    split <;> rfl

@[simp] theorem tokens_lrem (key : String × Uuid) (p : String) :
    (w.lrem key p).tokens = w.tokens := by
  unfold lrem
  split <;> rfl

@[simp] theorem tokens_transfer (key : String × Uuid) (p : String) :
    (w.transfer key p).tokens = w.tokens := by
  unfold transfer
  split <;> rfl

/-- Tokens stay issued. -/
theorem tokens_step {token : Uuid} (h : token ∈ w.tokens) (a : IngestAction) :
    token ∈ (w.step env opts a).tokens := by
  cases a with
  | claim i token' reply =>
    simp only [step, claim]
    (repeat' split) <;> simp [setWorker, settle, h]
  | _ =>
    simp only [step, enqueue, lmove, readJob, giveUp, write, markIngestDone, commit, setIngestError,
      acknowledge, transferBack, stopWorker, reapKey, reapEntry, reapTransfer, sweep, pushItem,
      compensate, stopSweeper]
    (repeat' split) <;> simpa [setWorker, setSweeper, settle, push] using h

/-! ### Sweeps -/

/-- The versions that the reaper has deferred, while the sweep may still use them. -/
def deferredIn : SweeperPhase → Option (List String)
  | .reaping _ deferred | .reapingList _ _ _ deferred | .transferring _ _ _ _ deferred
  | .sweeping deferred => some deferred
  | .pushing _ _ | .compensating _ _ | .finished => none

/-- The rows that the sweep has reset and whose payload it has still to push. -/
def itemsIn : SweeperPhase → List RequeueItem
  | .pushing items _ => items
  | .compensating item items => item :: items
  | .reaping _ _ | .reapingList _ _ _ _ | .transferring _ _ _ _ _ | .sweeping _ | .finished => []

variable (env w w')

/-- What an action makes of a sweep, when it takes `w` to `w'`. -/
inductive SweepStep : IngestAction → Sweeper → Sweeper → Prop
  | advanced {a : IngestAction} {x : Sweeper} {phase : SweeperPhase}
      (hd : ∀ deferred ∈ deferredIn phase, deferredIn x.phase = some deferred)
      (hi : ∀ item ∈ itemsIn phase, item ∈ itemsIn x.phase ∨ ∃ r ∈ w.versions,
        r.ingestJobPayload.getD "" ≠ "" ∧ item = ⟨r.companyId, r.id, r.ingestJobPayload.getD ""⟩) :
      SweepStep a x { x with phase := phase }
  | deferred {j at_ : Nat} {touch : DbReply} {lremOk : Bool} {examined : List ReapedEntry}
      {key : String × Uuid} {p s : String} {entries : List String} {keys : List (String × Uuid)}
      {ids : List String} :
      SweepStep (.reapEntry j touch lremOk) ⟨at_, examined, .reapingList key (p :: entries) keys ids⟩
        ⟨at_, ⟨key.2, s, false⟩ :: examined, .reapingList key entries keys (ids ++ [s])⟩
  | touched {j at_ : Nat} {lremOk : Bool} {examined : List ReapedEntry} {key : String × Uuid}
      {p s : String} {entries : List String} {keys : List (String × Uuid)} {ids : List String}
      {v : Uuid} (hv : env.uuid s = some v)
      (hrows : w'.versions = updateVersion key.2 v (fun r => r.ingestStatus = .pending)
        (VersionRow.touch w.clock) w.versions) :
      SweepStep (.reapEntry j .ok lremOk) ⟨at_, examined, .reapingList key (p :: entries) keys ids⟩
        ⟨at_, ⟨key.2, s, true⟩ :: examined, .transferring key p entries keys ids⟩

/-- The sweep `x` at `k` was there before, has just started, or has taken one step. -/
def SweepersStep (a : IngestAction) : Prop :=
  ∀ (k : Nat) (x : Sweeper), w'.sweepers[k]? = some x →
    w.sweepers[k]? = some x ∨ (∃ keys, x = ⟨w.clock, [], .reaping keys []⟩) ∨
      ∃ y, w.sweepers[k]? = some y ∧ SweepStep env w w' a y x

variable {env w w'}

theorem SweepersStep.of_eq (h : w'.sweepers = w.sweepers) : SweepersStep env w w' a := by
  intro k x hk
  rw [h] at hk
  exact .inl hk

theorem SweepersStep.set {j : Nat} {x y : Sweeper} (hw : w'.sweepers = w.sweepers.set j x)
    (hj : w.sweepers[j]? = some y) (hstep : SweepStep env w w' a y x) :
    SweepersStep env w w' a := by
  intro k z hk
  rw [hw] at hk
  rcases getElem?_set_some hk with hk | ⟨rfl, rfl⟩
  · exact .inl hk
  · exact .inr (.inr ⟨y, hj, hstep⟩)

@[simp] theorem sweepers_setSweeper (j : Nat) (x : Sweeper) :
    (w.setSweeper j x).sweepers = w.sweepers.set j x := rfl

@[simp] theorem sweepers_settle (t : Uuid) (p : String) : (w.settle t p).sweepers = w.sweepers := rfl

@[simp] theorem sweepers_push (t : Uuid) (p : String) : (w.push t p).sweepers = w.sweepers := rfl

@[simp] theorem sweepers_lrem (key : String × Uuid) (p : String) :
    (w.lrem key p).sweepers = w.sweepers := by
  unfold lrem
  split <;> rfl

@[simp] theorem sweepers_transfer (key : String × Uuid) (p : String) :
    (w.transfer key p).sweepers = w.sweepers := by
  unfold transfer
  split <;> rfl

theorem mem_sweepItems {opts : PollingOptions} {now : Nat} {deferred : List String}
    {rows : List VersionRow} {item : RequeueItem} (h : item ∈ sweepItems opts now deferred rows) :
    ∃ r ∈ rows, r.ingestJobPayload.getD "" ≠ "" ∧
      item = ⟨r.companyId, r.id, r.ingestJobPayload.getD ""⟩ := by
  have hitem : ∀ s, item ∈ (rows.filter fun r => r.ingestStatus = s).filterMap (fun r =>
      r.requeueItem opts now deferred) → ∃ r ∈ rows, r.ingestJobPayload.getD "" ≠ "" ∧
        item = ⟨r.companyId, r.id, r.ingestJobPayload.getD ""⟩ := by
    intro s hmem
    obtain ⟨r, hr, heq⟩ := List.mem_filterMap.mp hmem
    unfold VersionRow.requeueItem at heq
    split at heq
    next hreq => exact ⟨r, (List.mem_filter.mp hr).1, hreq.2.1.1, (Option.some.inj heq).symm⟩
    next => cases heq
  rcases List.mem_append.mp h with h | h
  · exact hitem _ h
  · exact hitem _ h

theorem sweepersStep_reapKey (j : Nat) (existsOk lrangeOk : Bool) :
    SweepersStep env w (w.reapKey j existsOk lrangeOk) (.reapKey j existsOk lrangeOk) := by
  unfold reapKey
  split
  next hj => exact .set rfl hj (.advanced (fun _ h => h) nofun)
  next hj =>
    split
    next => exact .set rfl hj (.advanced (fun _ h => h) nofun)
    next => exact .set rfl hj (.advanced (fun _ h => h) nofun)
  next => exact .of_eq rfl

theorem sweepersStep_reapEntry (j : Nat) (touch : DbReply) (lremOk : Bool) :
    SweepersStep env w (w.reapEntry env j touch lremOk) (.reapEntry j touch lremOk) := by
  unfold reapEntry
  split
  next hj => exact .set rfl hj (.advanced (fun _ h => h) nofun)
  next at_ examined key p entries keys ids hj =>
    split
    next =>
      refine .set (x := ⟨at_, examined, .reapingList key entries keys ids⟩) ?_ hj
        (.advanced (fun _ h => h) nofun)
      dsimp only
      split <;> simp
    next shape hshape =>
      dsimp only
      split
      next v hv => exact .set rfl hj (.touched hv rfl)
      next => exact .set rfl hj .deferred
      next => exact .set rfl hj .deferred
  next => exact .of_eq rfl

/-- A step changes the sweeps one by one, each as `SweepStep` says. -/
theorem sweepers_step (a : IngestAction) : SweepersStep env w (w.step env opts a) a := by
  cases a with
  | startSweep keys =>
    simp only [step]
    split
    next =>
      intro k x hk
      dsimp only at hk
      rw [List.getElem?_append] at hk
      split at hk
      next => exact .inl hk
      next =>
        have hx := List.mem_of_getElem? hk
        exact .inr (.inl ⟨keys, List.mem_singleton.mp hx⟩)
    next => exact .of_eq rfl
  | reapKey j existsOk lrangeOk => exact sweepersStep_reapKey j existsOk lrangeOk
  | reapEntry j touch lremOk => exact sweepersStep_reapEntry j touch lremOk
  | reapTransfer j ok =>
    simp only [step, reapTransfer]
    split
    next at_ examined key p entries keys ids hj =>
      refine .set (x := ⟨at_, examined, .reapingList key entries keys ids⟩) ?_ hj
        (.advanced (fun _ h => h) nofun)
      split <;> simp
    next => exact .of_eq rfl
  | sweep j now selected reply =>
    simp only [step, sweep]
    split
    next hj =>
      split
      next =>
        cases reply with
        | ok =>
          refine .set rfl hj (.advanced nofun fun item hitem => .inr ?_)
          obtain ⟨r, hr, hne, heq⟩ := mem_sweepItems hitem
          exact ⟨r, (List.mem_filter.mp hr).1, hne, heq⟩
        | lost => exact .set rfl hj (.advanced nofun nofun)
        | failed => exact .set rfl hj (.advanced nofun nofun)
      next => exact .of_eq rfl
    next => exact .of_eq rfl
  | pushItem j ok =>
    simp only [step, pushItem]
    split
    next hj => exact .set rfl hj (.advanced nofun nofun)
    next hj =>
      split
      next => exact .set rfl hj (.advanced nofun fun item h => .inl (List.mem_cons_of_mem _ h))
      next => split <;> exact .set rfl hj (.advanced nofun fun item h => .inl h)
    next => exact .of_eq rfl
  | compensate j reply =>
    simp only [step, compensate]
    split
    next hj =>
      split
      next => exact .set rfl hj (.advanced nofun fun item h => .inl (List.mem_cons_of_mem _ h))
      next =>
        split
        next => exact .of_eq rfl
        next => exact .set rfl hj (.advanced nofun fun item h => .inl (List.mem_cons_of_mem _ h))
    next => exact .of_eq rfl
  | stopSweeper j =>
    simp only [step, stopSweeper]
    split
    next hj => exact .set rfl hj (.advanced nofun nofun)
    next => exact .of_eq rfl
  | tick d => exact .of_eq rfl
  | enqueue t p => exact .of_eq rfl
  | heartbeat id alive => exact .of_eq rfl
  | startWorker id => exact .of_eq rfl
  | _ =>
    refine .of_eq ?_
    simp only [step, lmove, readJob, claim, giveUp, write, markIngestDone, commit,
      setIngestError, acknowledge, transferBack, stopWorker]
    (repeat' split) <;> simp [setWorker, settle]

@[simp] theorem clock_lrem (key : String × Uuid) (p : String) :
    (w.lrem key p).clock = w.clock := by
  unfold lrem
  split <;> rfl

@[simp] theorem clock_transfer (key : String × Uuid) (p : String) :
    (w.transfer key p).clock = w.clock := by
  unfold transfer
  split <;> rfl

/-- The clock does not go back. -/
theorem clock_step (a : IngestAction) : w.clock ≤ (w.step env opts a).clock := by
  cases a with
  | tick d => exact Nat.le_add_right _ _
  | _ =>
    simp only [step, enqueue, lmove, readJob, claim, giveUp, write, markIngestDone, commit,
      setIngestError, acknowledge, transferBack, stopWorker, reapKey, reapEntry, reapTransfer, sweep,
      pushItem, compensate, stopSweeper]
    (repeat' split) <;> simp [setWorker, setSweeper, settle, push]

end IngestWorld

end Wikore
