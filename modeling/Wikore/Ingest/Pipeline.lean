import Wikore.Ingest.DocumentRepo
import Wikore.Lib.Transition

/-! The ingest pipeline as one system: the rows of `document_versions`, the Redis queues and
processing lists, any number of `IngestWorker`s inside `try_one_rotation` and `dispatch`, and any
number of `PollingFallback::sweep_once` runs.  A step is one Redis command, one committed statement
or transaction, or a crash. -/

namespace Wikore

structure IngestJob where
  companyId : String
  documentId : String
  documentVersionId : String
  filePath : String
  embedModelId : String
  priority : Int
deriving DecidableEq, Repr

/-- The two fields that the reaper reads from a payload. -/
structure PayloadShape where
  companyId : String
  documentVersionId : String
deriving DecidableEq, Repr

/-- What the pipeline takes from outside: the JSON reader at its two types, the casts of PostgreSQL
to `jsonb` (and back to text) and to `uuid`, which may fail, and the digest. -/
structure IngestExternals where
  parseJob : String → Option IngestJob
  parseShape : String → Option PayloadShape
  jsonb : String → Option String
  uuid : String → Option Uuid
  sha256Hex : String → Option String

structure PollingOptions where
  stuckThreshold : Nat
  maxResumeAttempts : Nat
deriving DecidableEq, Repr

inductive IngestDispatchOutcome
  | processed | terminalError | duplicateSkipped | ownershipLost
deriving DecidableEq, Repr

/-- How a statement or commit ends: done and reported, not done and reported as an error, or done
although an error is reported. -/
inductive DbReply
  | ok | failed | lost
deriving DecidableEq, Repr

/-- Where a worker is between two steps.  `marked` holds the lock on the version's row. -/
inductive WorkerPhase
  | idle
  | moved (tenant : Uuid) (payload : String)
  | claiming (cmd : IngestDocumentVersionCmd)
  | claimed (cmd : IngestDocumentVersionCmd) (token : Uuid)
  | writing (token : Uuid) (uow : UnitOfWork)
  | marked (token : Uuid) (uow : UnitOfWork)
  | failing (cmd : IngestDocumentVersionCmd) (token : Uuid) (message : String)
  | returned (cmd : IngestDocumentVersionCmd) (outcome : IngestDispatchOutcome)
  | infraFailed (cmd : IngestDocumentVersionCmd) (attempts : Nat)
  | stopped

structure Worker where
  id : String
  phase : WorkerPhase

/-- The command whose row the worker keeps locked. -/
def Worker.lockedCmd (x : Worker) : Option IngestDocumentVersionCmd :=
  match x.phase with
  | .marked _ uow => some uow.cmd
  | _ => none

structure RequeueItem where
  company : Uuid
  version : Uuid
  payload : String
deriving DecidableEq, Repr

/-- Where a sweep is.  `deferred` are the texts of `ReapResult::deferred_version_ids`. -/
inductive SweeperPhase
  | reaping (keys : List (String × Uuid)) (deferred : List String)
  | reapingList (key : String × Uuid) (entries : List String) (keys : List (String × Uuid))
      (deferred : List String)
  | transferring (key : String × Uuid) (payload : String) (entries : List String)
      (keys : List (String × Uuid)) (deferred : List String)
  | sweeping (deferred : List String)
  | pushing (items : List RequeueItem) (attempts : Nat)
  | compensating (item : RequeueItem) (items : List RequeueItem)
  | finished
deriving DecidableEq, Repr

/-- An entry of a processing list that the reaper has dealt with: the tenant, the version as the
payload spells it, and whether the touch of the row was reported done. -/
structure ReapedEntry where
  tenant : Uuid
  version : String
  touched : Bool
deriving DecidableEq, Repr

/-- A sweep.  `examined` records what its reaper has met; nothing reads it. -/
structure Sweeper where
  startedAt : Nat
  examined : List ReapedEntry
  phase : SweeperPhase
deriving DecidableEq, Repr

/-- What happened to the lists: a payload was pushed, a dispatch of it ended other than in an error
or the payload did not parse, and `LREM` removed a copy. -/
inductive QueueEvent
  | pushed (tenant : Uuid) (payload : String)
  | settled (tenant : Uuid) (payload : String)
  | removed (tenant : Uuid) (payload : String)
deriving DecidableEq, Repr

/-- `queue t` is the list `lr:ingest:q:<t>`, `proc w t` the list `lr:ingest:proc:<w>:<t>` and
`heartbeat w` says that the key `lr:ingest:hb:<w>` exists.  `tokens` are the values that
`gen_random_uuid` has given to claims. -/
structure IngestWorld where
  versions : List VersionRow
  queue : Uuid → List String
  proc : String → Uuid → List String
  heartbeat : String → Bool
  workers : List Worker
  sweepers : List Sweeper
  clock : Nat
  tokens : List Uuid
  journal : List QueueEvent

/-! ### What a sweep does to a row -/

namespace VersionRow

variable (opts : PollingOptions) (now : Nat) (r : VersionRow)

def Stale : Prop := r.updatedAt + opts.stuckThreshold < now

instance : Decidable (r.Stale opts now) := inferInstanceAs (Decidable (_ < _))

def CanRequeue : Prop :=
  r.ingestJobPayload.getD "" ≠ "" ∧ r.ingestRetryCount < opts.maxResumeAttempts

instance : Decidable (r.CanRequeue opts) := inferInstanceAs (Decidable (_ ∧ _))

/-- The reset of a row whose payload can be pushed again. -/
def requeue : VersionRow :=
  { r with
    ingestStatus := .pending
    errorMsg := none
    ingestRetryCount := r.ingestRetryCount + 1
    ingestClaimToken := none
    updatedAt := now
    history := r.history ++ [.reset] }

def promote (message : String) : VersionRow :=
  { r with
    ingestStatus := .error
    errorMsg := some message
    ingestJobPayload := none
    ingestClaimToken := none
    updatedAt := now
    history := r.history ++ [.promoted] }

def pendingError : String :=
  if r.ingestJobPayload.getD "" = "" then
    "stuck pending; no ingest job materialized (api crash before LPUSH, or worker crashed before " ++
      "persisting payload). Re-trigger the upload."
  else "stuck pending; resume budget exhausted. Inspect for poison input and re-trigger."

def processingError : String :=
  if r.ingestJobPayload.getD "" = "" then
    "stuck processing; no recoverable job payload (worker crashed before persisting payload). " ++
      "Re-trigger the upload."
  else
    "stuck processing; resume budget exhausted (worker repeatedly crashed on this job). " ++
      "Inspect for poison input and re-trigger."

/-- Sweeps 1 and 2 on one row; `deferred` are the versions that the reaper could not touch. -/
def sweep (deferred : List String) : VersionRow :=
  if r.Stale opts now then
    match r.ingestStatus with
    | .pending =>
      if Uuid.text r.id ∈ deferred then r
      else if r.CanRequeue opts then r.requeue now
      else r.promote now r.pendingError
    | .processing =>
      if r.CanRequeue opts then r.requeue now else r.promote now r.processingError
    | .done | .error => r
  else r

/-- The item that sweep 1 or 2 leaves to be pushed for a row. -/
def requeueItem (deferred : List String) : Option RequeueItem :=
  if r.Stale opts now ∧ r.CanRequeue opts ∧
      (r.ingestStatus = .processing ∨ r.ingestStatus = .pending ∧ Uuid.text r.id ∉ deferred) then
    some ⟨r.companyId, r.id, r.ingestJobPayload.getD ""⟩
  else none

/-- The no-op `UPDATE` of the reaper, which the trigger `set_updated_at` makes a touch. -/
def touch : VersionRow := { r with updatedAt := now }

/-- `ingest_retry_count = GREATEST(ingest_retry_count - 1, 0)`. -/
def takeBackRetry : VersionRow :=
  { r with ingestRetryCount := r.ingestRetryCount - 1, updatedAt := now }

end VersionRow

/-- The rows to push after the commit: those of sweep 1, then those of sweep 2. -/
def sweepItems (opts : PollingOptions) (now : Nat) (deferred : List String)
    (rows : List VersionRow) : List RequeueItem :=
  ((rows.filter fun r => r.ingestStatus = .pending).filterMap fun r =>
    r.requeueItem opts now deferred) ++
  (rows.filter fun r => r.ingestStatus = .processing).filterMap fun r =>
    r.requeueItem opts now deferred

namespace IngestWorld

/-! ### Redis commands -/

/-- `LPUSH`. -/
def push (w : IngestWorld) (t : Uuid) (p : String) : IngestWorld :=
  { w with
    queue := Function.update w.queue t (p :: w.queue t)
    journal := w.journal ++ [.pushed t p] }

/-- `LREM key 1 p` on a processing list. -/
def lrem (w : IngestWorld) (key : String × Uuid) (p : String) : IngestWorld :=
  if p ∈ w.proc key.1 key.2 then
    { w with
      proc := Function.update w.proc key.1
        (Function.update (w.proc key.1) key.2 ((w.proc key.1 key.2).erase p))
      journal := w.journal ++ [.removed key.2 p] }
  else w

/-- `transfer_proc_to_source`: the script removes an entry and pushes it only if it was there. -/
def transfer (w : IngestWorld) (key : String × Uuid) (p : String) : IngestWorld :=
  if p ∈ w.proc key.1 key.2 then
    { w with
      proc := Function.update w.proc key.1
        (Function.update (w.proc key.1) key.2 ((w.proc key.1 key.2).erase p))
      queue := Function.update w.queue key.2 (p :: w.queue key.2) }
  else w

def setWorker (w : IngestWorld) (i : Nat) (x : Worker) : IngestWorld :=
  { w with workers := w.workers.set i x }

def setSweeper (w : IngestWorld) (j : Nat) (x : Sweeper) : IngestWorld :=
  { w with sweepers := w.sweepers.set j x }

def settle (w : IngestWorld) (t : Uuid) (p : String) : IngestWorld :=
  { w with journal := w.journal ++ [.settled t p] }

/-- The row of the version is locked by a unit of work that has run `mark_ingest_done`. -/
def Locked (w : IngestWorld) (env : IngestExternals) (c v : Uuid) : Prop :=
  ∃ x ∈ w.workers, ∃ cmd ∈ x.lockedCmd, cmd.company = c ∧ env.uuid cmd.documentVersionId = some v

instance (w : IngestWorld) (env : IngestExternals) (c v : Uuid) : Decidable (w.Locked env c v) :=
  inferInstanceAs (Decidable (∃ x ∈ w.workers, _))

/-- The rows of the version in the tables that an ingest run fills. -/
def tablesOf (w : IngestWorld) (c v : Uuid) : VersionTables :=
  match w.versions.find? fun r => r.companyId = c ∧ r.id = v with
  | some r => r.tables
  | none => VersionTables.empty

section Steps

variable (env : IngestExternals)

/-! ### Workers -/

/-- `lmove_right_left` from the tenant's queue to the worker's processing list. -/
def lmove (w : IngestWorld) (i : Nat) (t : Uuid) : IngestWorld :=
  match w.workers[i]? with
  | some ⟨id, .idle⟩ =>
    match (w.queue t).getLast? with
    | some p =>
      { w with
        queue := Function.update w.queue t (w.queue t).dropLast
        proc := Function.update w.proc id (Function.update (w.proc id) t (p :: w.proc id t))
        workers := w.workers.set i ⟨id, .moved t p⟩ }
    | none => w
  | _ => w

/-- The worker reads the job.  The queue names the tenant, whatever the payload says; a payload that
does not parse is dropped. -/
def readJob (w : IngestWorld) (i : Nat) (lremOk : Bool) : IngestWorld :=
  match w.workers[i]? with
  | some ⟨id, .moved t p⟩ =>
    match env.parseJob p with
    | some job =>
      w.setWorker i ⟨id, .claiming ⟨t, job.documentId, job.documentVersionId, job.filePath,
        job.embedModelId, p⟩⟩
    | none =>
      let w' := w.settle t p
      (if lremOk then w'.lrem (id, t) p else w').setWorker i ⟨id, .idle⟩
  | _ => w

/-- `NULLIF(payload, '')::jsonb`; the outer `none` is a failed cast. -/
def jobPayload (p : String) : Option (Option String) :=
  if p = "" then some none else (env.jsonb p).map some

/-- `claim_for_processing`, with the token that `gen_random_uuid` gives. -/
def claim (w : IngestWorld) (i : Nat) (token : Uuid) (reply : DbReply) : IngestWorld :=
  match w.workers[i]? with
  | some ⟨id, .claiming cmd⟩ =>
    match env.uuid cmd.documentVersionId, jobPayload env cmd.payload, reply with
    | some v, some payload, .ok =>
      if w.Locked env cmd.company v ∨ token ∈ w.tokens then w
      else if versionMatches cmd.company v (fun r => r.Claimable) w.versions then
        { w with
          versions := updateVersion cmd.company v (fun r => r.Claimable)
            (VersionRow.claim payload token w.clock) w.versions
          tokens := token :: w.tokens
          workers := w.workers.set i ⟨id, .claimed cmd token⟩ }
      else
        (w.settle cmd.company cmd.payload).setWorker i ⟨id, .returned cmd .duplicateSkipped⟩
    | some v, some payload, .lost =>
      if w.Locked env cmd.company v ∨ token ∈ w.tokens then w
      else
        { w with
          versions := updateVersion cmd.company v (fun r => r.Claimable)
            (VersionRow.claim payload token w.clock) w.versions
          tokens := token :: w.tokens
          workers := w.workers.set i ⟨id, .infraFailed cmd 0⟩ }
    | _, _, _ => w.setWorker i ⟨id, .infraFailed cmd 0⟩
  | _ => w

/-- The file cannot be read or parsed, a statement of the unit of work fails, and so on: the use case
goes to `fail`. -/
def giveUp (w : IngestWorld) (i : Nat) (message : String) : IngestWorld :=
  match w.workers[i]? with
  | some ⟨id, .claimed cmd token⟩ => w.setWorker i ⟨id, .failing cmd token message⟩
  | some ⟨id, .writing token uow⟩ => w.setWorker i ⟨id, .failing uow.cmd token message⟩
  | _ => w

/-- The statements of the unit of work before `mark_ingest_done`. -/
def write (w : IngestWorld) (i : Nat) (run : IngestRun) : IngestWorld :=
  match w.workers[i]? with
  | some ⟨id, .claimed cmd token⟩ =>
    match env.uuid cmd.documentVersionId with
    | none => w
    | some v =>
      let tables := w.tablesOf cmd.company v
      match writeRun env.sha256Hex cmd v run tables with
      | .ok written =>
        w.setWorker i ⟨id, .writing token
          ⟨cmd, run, w.clock, (run.chunks cmd.company v tables).length, written⟩⟩
      | .error message => w.setWorker i ⟨id, .failing cmd token message⟩
  | _ => w

/-- `mark_ingest_done` inside the unit of work: the row is written at the commit and locked until
then. -/
def markIngestDone (w : IngestWorld) (i : Nat) (reply : DbReply) (message : String) : IngestWorld :=
  match w.workers[i]? with
  | some ⟨id, .writing token uow⟩ =>
    match env.uuid uow.cmd.documentVersionId, reply with
    | some v, .ok =>
      if w.Locked env uow.cmd.company v then w
      else if versionMatches uow.cmd.company v (fun r => r.ingestClaimToken = some token)
          w.versions then
        w.setWorker i ⟨id, .marked token uow⟩
      else
        (w.settle uow.cmd.company uow.cmd.payload).setWorker i ⟨id, .returned uow.cmd .ownershipLost⟩
    | _, _ => w.setWorker i ⟨id, .failing uow.cmd token message⟩
  | _ => w

/-- `COMMIT` of the unit of work. -/
def commit (w : IngestWorld) (i : Nat) (reply : DbReply) : IngestWorld :=
  match w.workers[i]? with
  | some ⟨id, .marked token uow⟩ =>
    match env.uuid uow.cmd.documentVersionId with
    | none => w
    | some v =>
      let committed := updateVersion uow.cmd.company v (fun _ => true)
        (VersionRow.markDone token uow) w.versions
      match reply with
      | .ok =>
        { w with
          versions := committed
          workers := w.workers.set i ⟨id, .returned uow.cmd .processed⟩
          journal := w.journal ++ [.settled uow.cmd.company uow.cmd.payload] }
      | .lost =>
        { w with
          versions := committed
          workers := w.workers.set i ⟨id, .infraFailed uow.cmd 0⟩ }
      | .failed => w.setWorker i ⟨id, .infraFailed uow.cmd 0⟩
  | _ => w

/-- `set_ingest_status` to `error`, with the token. -/
def setIngestError (w : IngestWorld) (i : Nat) (reply : DbReply) : IngestWorld :=
  match w.workers[i]? with
  | some ⟨id, .failing cmd token message⟩ =>
    match env.uuid cmd.documentVersionId with
    | none => w.setWorker i ⟨id, .infraFailed cmd 0⟩
    | some v =>
      if w.Locked env cmd.company v then w
      else
        let owned := fun r : VersionRow => decide (r.ingestClaimToken = some token)
        let failed := updateVersion cmd.company v owned
          (VersionRow.setError token message w.clock) w.versions
        match reply with
        | .ok =>
          { w with
            versions := failed
            workers := w.workers.set i ⟨id, .returned cmd
              (if versionMatches cmd.company v owned w.versions then .terminalError
                else .ownershipLost)⟩
            journal := w.journal ++ [.settled cmd.company cmd.payload] }
        | .lost =>
          { w with
            versions := failed
            workers := w.workers.set i ⟨id, .infraFailed cmd 0⟩ }
        | .failed => w.setWorker i ⟨id, .infraFailed cmd 0⟩
  | _ => w

/-- The `LREM` after an outcome that is not an error. -/
def acknowledge (w : IngestWorld) (i : Nat) (lremOk : Bool) : IngestWorld :=
  match w.workers[i]? with
  | some ⟨id, .returned cmd _⟩ =>
    (if lremOk then w.lrem (id, cmd.company) cmd.payload else w).setWorker i ⟨id, .idle⟩
  | _ => w

/-- An attempt to give the job back after an error; the fourth failure stops the worker, which tries
to delete its heartbeat. -/
def transferBack (w : IngestWorld) (i : Nat) (ok delOk : Bool) : IngestWorld :=
  match w.workers[i]? with
  | some ⟨id, .infraFailed cmd attempts⟩ =>
    if ok then (w.transfer (id, cmd.company) cmd.payload).setWorker i ⟨id, .idle⟩
    else if attempts + 1 < 4 then w.setWorker i ⟨id, .infraFailed cmd (attempts + 1)⟩
    else
      let w' := w.setWorker i ⟨id, .stopped⟩
      if delOk then { w' with heartbeat := Function.update w'.heartbeat id false } else w'
  | _ => w

/-! ### Sweeps -/

/-- The reaper asks for the heartbeat of the next processing list's worker and, when it is known to
be missing, reads the list. -/
def reapKey (w : IngestWorld) (j : Nat) (existsOk lrangeOk : Bool) : IngestWorld :=
  match w.sweepers[j]? with
  | some ⟨at_, examined, .reaping [] deferred⟩ => w.setSweeper j ⟨at_, examined, .sweeping deferred⟩
  | some ⟨at_, examined, .reaping (key :: keys) deferred⟩ =>
    if existsOk = true ∧ w.heartbeat key.1 = false then
      let entries := if lrangeOk then w.proc key.1 key.2 else []
      w.setSweeper j ⟨at_, examined, .reapingList key entries keys deferred⟩
    else w.setSweeper j ⟨at_, examined, .reaping keys deferred⟩
  | _ => w

/-- The reaper touches the version of the next entry, or drops an entry that it cannot read.  A
version that could not be touched is deferred. -/
def reapEntry (w : IngestWorld) (j : Nat) (touch : DbReply) (lremOk : Bool) : IngestWorld :=
  match w.sweepers[j]? with
  | some ⟨at_, examined, .reapingList _ [] keys deferred⟩ =>
    w.setSweeper j ⟨at_, examined, .reaping keys deferred⟩
  | some ⟨at_, examined, .reapingList key (p :: entries) keys deferred⟩ =>
    match env.parseShape p with
    | none =>
      let w' := w.settle key.2 p
      (if lremOk then w'.lrem key p else w').setSweeper j
        ⟨at_, examined, .reapingList key entries keys deferred⟩
    | some shape =>
      let deferring : Sweeper := ⟨at_, ⟨key.2, shape.documentVersionId, false⟩ :: examined,
        .reapingList key entries keys (deferred ++ [shape.documentVersionId])⟩
      match env.uuid shape.documentVersionId, touch with
      | some v, .ok =>
        { w with
          versions := updateVersion key.2 v (fun r => r.ingestStatus = .pending)
            (VersionRow.touch w.clock) w.versions
          sweepers := w.sweepers.set j ⟨at_, ⟨key.2, shape.documentVersionId, true⟩ :: examined,
            .transferring key p entries keys deferred⟩ }
      | some v, .lost =>
        { w with
          versions := updateVersion key.2 v (fun r => r.ingestStatus = .pending)
            (VersionRow.touch w.clock) w.versions
          sweepers := w.sweepers.set j deferring }
      | _, _ => w.setSweeper j deferring
  | _ => w

def reapTransfer (w : IngestWorld) (j : Nat) (ok : Bool) : IngestWorld :=
  match w.sweepers[j]? with
  | some ⟨at_, examined, .transferring key p entries keys deferred⟩ =>
    (if ok then w.transfer key p else w).setSweeper j
      ⟨at_, examined, .reapingList key entries keys deferred⟩
  | _ => w

/-- The transaction of sweeps 1 and 2 on the rows `selected`, which it has found stale at its `now()`
and has locked since. -/
def sweep (opts : PollingOptions) (w : IngestWorld) (j : Nat) (now : Nat) (selected : List Uuid)
    (reply : DbReply) : IngestWorld :=
  match w.sweepers[j]? with
  | some ⟨at_, examined, .sweeping deferred⟩ =>
    if (at_ ≤ now ∧ now ≤ w.clock) ∧
        ∀ r ∈ w.versions, r.id ∈ selected → ¬w.Locked env r.companyId r.id then
      let swept := w.versions.map fun r =>
        if r.id ∈ selected then r.sweep opts now deferred else r
      let items := sweepItems opts now deferred
        (w.versions.filter fun r => r.id ∈ selected)
      match reply with
      | .ok =>
        { w with
          versions := swept
          sweepers := w.sweepers.set j ⟨at_, examined, .pushing items 0⟩ }
      | .lost =>
        { w with
          versions := swept
          sweepers := w.sweepers.set j ⟨at_, examined, .finished⟩ }
      | .failed => w.setSweeper j ⟨at_, examined, .finished⟩
    else w
  | _ => w

/-- An attempt to push the next row's payload; after the third failure the retry is taken back. -/
def pushItem (w : IngestWorld) (j : Nat) (ok : Bool) : IngestWorld :=
  match w.sweepers[j]? with
  | some ⟨at_, examined, .pushing [] _⟩ => w.setSweeper j ⟨at_, examined, .finished⟩
  | some ⟨at_, examined, .pushing (item :: items) attempts⟩ =>
    if ok then
      (w.push item.company item.payload).setSweeper j ⟨at_, examined, .pushing items 0⟩
    else if attempts + 1 < 3 then
      w.setSweeper j ⟨at_, examined, .pushing (item :: items) (attempts + 1)⟩
    else w.setSweeper j ⟨at_, examined, .compensating item items⟩
  | _ => w

def compensate (w : IngestWorld) (j : Nat) (reply : DbReply) : IngestWorld :=
  match w.sweepers[j]? with
  | some ⟨at_, examined, .compensating item items⟩ =>
    match reply with
    | .failed => w.setSweeper j ⟨at_, examined, .pushing items 0⟩
    | _ =>
      if w.Locked env item.company item.version then w
      else
        { w with
          versions := w.versions.map fun r =>
            if r.id = item.version then r.takeBackRetry w.clock else r
          sweepers := w.sweepers.set j ⟨at_, examined, .pushing items 0⟩ }
  | _ => w

/-! ### The system -/

/-- The payload is a well-formed job of the version. -/
def Names (p : String) (v : Uuid) : Prop :=
  ∃ job ∈ env.parseJob p, env.uuid job.documentVersionId = some v

instance (p : String) (v : Uuid) : Decidable (Names env p v) :=
  inferInstanceAs (Decidable (∃ job ∈ env.parseJob p, _))

/-- The API pushes a job. -/
def enqueue (w : IngestWorld) (t : Uuid) (p : String) : IngestWorld :=
  { w.push t p with
    versions := w.versions.map fun r =>
      if r.companyId = t ∧ Names env p r.id then { r with enqueued := true } else r }

def stopWorker (w : IngestWorld) (i : Nat) : IngestWorld :=
  match w.workers[i]? with
  | some x => w.setWorker i ⟨x.id, .stopped⟩
  | none => w

def stopSweeper (w : IngestWorld) (j : Nat) : IngestWorld :=
  match w.sweepers[j]? with
  | some x => w.setSweeper j { x with phase := .finished }
  | none => w

end Steps

end IngestWorld

inductive IngestAction
  | tick (d : Nat)
  | enqueue (t : Uuid) (p : String)
  | heartbeat (id : String) (alive : Bool)
  | startWorker (id : String)
  | lmove (i : Nat) (t : Uuid)
  | readJob (i : Nat) (lremOk : Bool)
  | claim (i : Nat) (token : Uuid) (reply : DbReply)
  | giveUp (i : Nat) (message : String)
  | write (i : Nat) (run : IngestRun)
  | markIngestDone (i : Nat) (reply : DbReply) (message : String)
  | commit (i : Nat) (reply : DbReply)
  | setIngestError (i : Nat) (reply : DbReply)
  | acknowledge (i : Nat) (lremOk : Bool)
  | transferBack (i : Nat) (ok delOk : Bool)
  | stopWorker (i : Nat)
  | startSweep (keys : List (String × Uuid))
  | reapKey (j : Nat) (existsOk lrangeOk : Bool)
  | reapEntry (j : Nat) (touch : DbReply) (lremOk : Bool)
  | reapTransfer (j : Nat) (ok : Bool)
  | sweep (j : Nat) (now : Nat) (selected : List Uuid) (reply : DbReply)
  | pushItem (j : Nat) (ok : Bool)
  | compensate (j : Nat) (reply : DbReply)
  | stopSweeper (j : Nat)

namespace IngestWorld

def step (env : IngestExternals) (opts : PollingOptions) (w : IngestWorld) :
    IngestAction → IngestWorld
  | .tick d => { w with clock := w.clock + d }
  | .enqueue t p => w.enqueue env t p
  | .heartbeat id alive => { w with heartbeat := Function.update w.heartbeat id alive }
  | .startWorker id => { w with workers := w.workers ++ [⟨id, .idle⟩] }
  | .lmove i t => w.lmove i t
  | .readJob i lremOk => w.readJob env i lremOk
  | .claim i token reply => w.claim env i token reply
  | .giveUp i message => w.giveUp i message
  | .write i run => w.write env i run
  | .markIngestDone i reply message => w.markIngestDone env i reply message
  | .commit i reply => w.commit env i reply
  | .setIngestError i reply => w.setIngestError env i reply
  | .acknowledge i lremOk => w.acknowledge i lremOk
  | .transferBack i ok delOk => w.transferBack i ok delOk
  | .stopWorker i => w.stopWorker i
  | .startSweep keys =>
    if keys.length ≤ 256 then
      { w with sweepers := w.sweepers ++ [⟨w.clock, [], .reaping keys []⟩] }
    else w
  | .reapKey j existsOk lrangeOk => w.reapKey j existsOk lrangeOk
  | .reapEntry j touch lremOk => w.reapEntry env j touch lremOk
  | .reapTransfer j ok => w.reapTransfer j ok
  | .sweep j now selected reply => w.sweep env opts j now selected reply
  | .pushItem j ok => w.pushItem j ok
  | .compensate j reply => w.compensate env j reply
  | .stopSweeper j => w.stopSweeper j

end IngestWorld

/-- A version as the upload leaves it. -/
structure Upload where
  id : Uuid
  companyId : Uuid
  lifecycleStatus : LifecycleStatus
  createdAt : Nat
deriving DecidableEq, Repr

def Upload.row (u : Upload) : VersionRow :=
  ⟨u.id, u.companyId, u.lifecycleStatus, .pending, none, none, none, u.createdAt, 0, none, none,
    .empty, [], false⟩

/-- The uploads before any job is queued. -/
def IngestWorld.init (uploads : List Upload) (clock : Nat) : IngestWorld :=
  ⟨uploads.map Upload.row, fun _ => [], fun _ _ => [], fun _ => false, [], [], clock, [], []⟩

/-! ### An instance -/

/-- The payload of one upload, as the API pushes it and as PostgreSQL prints the `jsonb`. -/
def handbookPayload : String :=
  "\x7b\"file_path\":\"/data/handbook.md\",\"document_version_id\":" ++
    "\"00000000-0000-0000-0000-000000000007\",\"embed_model_id\":\"bge-m3\"\x7d"

def handbookJsonb : String :=
  "\x7b\"file_path\": \"/data/handbook.md\", \"embed_model_id\": \"bge-m3\", " ++
    "\"document_version_id\": \"00000000-0000-0000-0000-000000000007\"\x7d"

/-- The JSON reader, the casts and the digest on the inputs of the runs below. -/
def handbookExternals : IngestExternals where
  parseJob p := if p = handbookPayload ∨ p = handbookJsonb then
    some ⟨"", "", "00000000-0000-0000-0000-000000000007", "/data/handbook.md", "bge-m3", 0⟩
    else none
  parseShape p := if p = handbookPayload ∨ p = handbookJsonb then
    some ⟨"", "00000000-0000-0000-0000-000000000007"⟩
    else none
  jsonb p := if p = handbookPayload ∨ p = handbookJsonb then some handbookJsonb else none
  uuid s := if s = "00000000-0000-0000-0000-000000000007" then some 7 else none
  sha256Hex s := if s = "Leave is 25 days." then
    some "ddd0adef8f46bf8a2b0919fbd1a3d2b86715523da3c943a1c47c0c6d3c83c2a4"
    else none

def handbookUpload : Upload := ⟨7, 1, .draft, 0⟩

def handbookOptions : PollingOptions := ⟨15, 3⟩

/-- One section with one chunk. -/
def handbookRun : IngestRun where
  sections := [⟨"Leave", 1, "Leave is 25 days.", [], none⟩]
  chunk sections := sections.map fun s => ⟨0, s.text, s.dbId, some s.heading⟩
  accessScopeIds := [10]
  newSectionId n := ⟨BitVec.ofNat 128 (100 + n)⟩
  newChunkId n := ⟨BitVec.ofNat 128 (200 + n)⟩

end Wikore
