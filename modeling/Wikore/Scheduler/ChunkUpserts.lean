import Wikore.Scheduler.ScopeSync

/-! How the chunks of a document get to Qdrant: the ingest run writes them with the scopes that it
fetched and enqueues an event, and an `OutboxWorker` upserts a point for each of them.  Together
with the resync workers these are the steps on the scopes of a document. -/

namespace Wikore

open Query

inductive SyncAction
  | resync (a : ResyncAction)
  | claimUpsert (i k : Nat)
  | releaseUpsert (k : Nat)
  | readChunks (i : Nat) (reply : StatementReply)
  | lockChunks (i : Nat) (reply : StatementReply)
  | upsertPoints (i : Nat) (reply : StatementReply)
  | registerVectors (i : Nat) (reply : StatementReply)
  | markUpsert (i : Nat) (reply : StatementReply)
  | ingest (i : Nat) (documentVersionId : Uuid) (embedModelId : String)
  | writeChunks (i : Nat) (ids : List Uuid) (reply : StatementReply)
  | promote (documentVersionId : Uuid)
deriving DecidableEq, Repr

namespace SyncWorld

variable (pointKey : Uuid → String → PointKey) (company document : Uuid) (now : Nat)
  (w : SyncWorld) (i : Nat)

/-! ### Ingest and promotion -/

/-- Whether the ingest of a version is done, if there is such a version. -/
def done? (version : Uuid) : Option Bool :=
  (w.versions.find? fun v => v.id = version).map SyncVersion.done

/-- An ingest run gets to its `fetch_access_scopes`. -/
def ingest (version : Uuid) (embedModelId : String) : SyncWorld :=
  match w.workers i with
  | .idle => w.setWorker i (.ingest version embedModelId (w.scopes company document now))
  | _ => w

/-- The version is to be ingested, and the ids of its chunks are new. -/
def CanWrite (version : Uuid) (ids : List Uuid) : Prop :=
  w.done? version = some false ∧ ids.Nodup ∧ ∀ id ∈ ids, id ∉ w.chunks.map SyncChunk.id

instance (version : Uuid) (ids : List Uuid) : Decidable (w.CanWrite version ids) :=
  inferInstanceAs (Decidable (_ ∧ _ ∧ _))

/-- The tables after the unit of work of the ingest run: `write_chunks`, the event under its
idempotency key, and `mark_ingest_done`. -/
def written (version : Uuid) (embedModelId : String) (scopes ids : List Uuid) : SyncWorld :=
  { w with
    versions := w.versions.map fun v => if v.id = version then { v with done := true } else v
    chunks := w.chunks ++ ids.map fun id => ⟨id, version, scopes⟩
    upserts := insertNew (fun e => (e.documentVersionId, e.embedModelId)) w.upserts
      [{ documentVersionId := version, embedModelId }] }

/-- The end of an ingest run.  A run that does not own the version any more rolls back. -/
def writeChunks (ids : List Uuid) (reply : StatementReply) : SyncWorld :=
  match w.workers i with
  | .ingest version embedModelId scopes =>
    let w' := if reply ≠ .failed ∧ w.CanWrite version ids then
        w.written version embedModelId scopes ids
      else w
    w'.setWorker i .idle
  | _ => w

/-- The versions after `promote_document_version`. -/
def promoted (version : Uuid) : SyncWorld :=
  { w with
    versions := w.versions.map fun v =>
      if v.id = version then { v with lifecycleStatus := .active }
      else if v.lifecycleStatus = .active then { v with lifecycleStatus := .deprecated }
      else v }

def promote (version : Uuid) : SyncWorld :=
  match w.versions.find? fun v => v.id = version with
  | some v => if v.done = true ∧ v.lifecycleStatus ≠ .archived then w.promoted version else w
  | none => w

/-! ### `OutboxWorker::process` -/

def setUpsert (k : Nat) (e : SyncUpsert) : SyncWorld := { w with upserts := w.upserts.set k e }

def claimUpsert (k : Nat) : SyncWorld :=
  match w.upserts[k]?, w.workers i with
  | some e, .idle =>
    if e.claimed = false ∧ e.completed = false then
      (w.setUpsert k { e with claimed := true }).setWorker i
        (.upsert k e.documentVersionId e.embedModelId .claimed)
    else w
  | _, _ => w

def releaseUpsert (k : Nat) : SyncWorld :=
  match w.upserts[k]? with
  | some e => if e.completed then w else w.setUpsert k { e with claimed := false }
  | none => w

def endUpsert (k : Nat) (version : Uuid) (embedModelId : String) (completed : Bool) : SyncWorld :=
  (w.unlock i).setWorker i (.upsert k version embedModelId (.ended completed))

/-- The chunks of a version with what their payloads say of the access to them. -/
def versionChunks (version : Uuid) : List (Uuid × AclPayload) :=
  match w.versions.find? (fun v => v.id = version), w.document? company document with
  | some v, some d =>
    (w.chunks.filter fun ch => ch.documentVersionId = version).map fun ch => (ch.id,
      { accessScopeIds := ch.qdrantPrefilterScopeIds
        sensitivityLabel := v.sensitivityLabel
        lifecycleStatus := v.lifecycleStatus
        ownerOrgUnitId := d.ownerOrgUnitId
        aclVersion := d.aclVersion })
  | _, _ => []

/-- Step 1 and step 2. -/
def readChunks (reply : StatementReply) : SyncWorld :=
  match w.workers i with
  | .upsert k version embedModelId .claimed =>
    let chunks := w.versionChunks company document version
    if reply ≠ .ok then w.endUpsert i k version embedModelId false
    else if chunks = [] then w.endUpsert i k version embedModelId true
    else w.setWorker i (.upsert k version embedModelId (.read chunks))
  | _ => w

/-- The chunks with the payloads that were read again; one that has vanished keeps its payload. -/
def refreshPayloads (fresh chunks : List (Uuid × AclPayload)) : List (Uuid × AclPayload) :=
  chunks.map fun row => (row.1, (fresh.lookup row.1).getD row.2)

/-- Step 3 and step 4: the embeddings, then the lock and the read of the payloads under it. -/
def lockChunks (reply : StatementReply) : SyncWorld :=
  match w.workers i with
  | .upsert k version embedModelId (.read chunks) =>
    if reply ≠ .ok then w.endUpsert i k version embedModelId false
    else if w.lock ≠ none then w
    else
      { w with lock := some i }.setWorker i (.upsert k version embedModelId
        (.locked (refreshPayloads (w.versionChunks company document version) chunks)))
  | _ => w

/-- The points after an upsert to Qdrant. -/
def withPoints (embedModelId : String) (chunks : List (Uuid × AclPayload)) : SyncWorld :=
  { w with
    points := chunks.foldl (fun points row =>
      Function.update points (pointKey row.1 embedModelId) (some row.2)) w.points }

/-- Step 5. -/
def upsertPoints (reply : StatementReply) : SyncWorld :=
  match w.workers i with
  | .upsert k version embedModelId (.locked chunks) =>
    let w' := if reply = .failed then w else w.withPoints pointKey embedModelId chunks
    if reply = .ok then w'.setWorker i (.upsert k version embedModelId (.upserted chunks))
    else w'.endUpsert i k version embedModelId false
  | _ => w

/-- `document_chunk_vectors` after the bookkeeping. -/
def withVectors (embedModelId : String) (chunks : List (Uuid × AclPayload)) : SyncWorld :=
  { w with
    vectors := insertNew (fun r => (r.chunkId, r.embedModelId)) w.vectors
      (chunks.map fun row => ⟨row.1, embedModelId, pointKey row.1 embedModelId⟩) }

/-- Step 6 and step 7: the bookkeeping and its commit. -/
def registerVectors (reply : StatementReply) : SyncWorld :=
  match w.workers i with
  | .upsert k version embedModelId (.upserted chunks) =>
    let w' := if reply = .failed then w else w.withVectors pointKey embedModelId chunks
    w'.endUpsert i k version embedModelId (decide (reply = .ok))
  | _ => w

/-- `mark_completed` or `mark_failed`. -/
def markUpsert (reply : StatementReply) : SyncWorld :=
  match w.workers i with
  | .upsert k _ _ (.ended completed) =>
    let w' := w.setWorker i .idle
    match w.upserts[k]? with
    | some e =>
      if reply = .failed then w'
      else w'.setUpsert k { e with claimed := false, completed := e.completed || completed }
    | none => w'
  | _ => w

def step (w : SyncWorld) : SyncAction → SyncWorld
  | .resync a => w.resyncStep company document now a
  | .claimUpsert i k => w.claimUpsert i k
  | .releaseUpsert k => w.releaseUpsert k
  | .readChunks i reply => w.readChunks company document i reply
  | .lockChunks i reply => w.lockChunks company document i reply
  | .upsertPoints i reply => w.upsertPoints pointKey i reply
  | .registerVectors i reply => w.registerVectors pointKey i reply
  | .markUpsert i reply => w.markUpsert i reply
  | .ingest i version embedModelId => w.ingest company document now i version embedModelId
  | .writeChunks i ids reply => w.writeChunks i ids reply
  | .promote version => w.promote version

/-! ### What one step can do -/

/-- What an action makes of the world. -/
inductive SyncStep : SyncAction → SyncWorld → Prop
  | same {a : SyncAction} : SyncStep a w
  | resync {a : ResyncAction} {w' : SyncWorld} (hs : ResyncStep company document now w a w') :
      SyncStep (.resync a) w'
  | claimed {a : SyncAction} {i k : Nat} {e : SyncUpsert} (hk : w.upserts[k]? = some e)
      (hidle : w.workers i = .idle) :
      SyncStep a ((w.setUpsert k { e with claimed := true }).setWorker i
        (.upsert k e.documentVersionId e.embedModelId .claimed))
  | released {a : SyncAction} {k : Nat} {e : SyncUpsert} (hk : w.upserts[k]? = some e) :
      SyncStep a (w.setUpsert k { e with claimed := false })
  | failed {a : SyncAction} {i k : Nat} {version : Uuid} {model : String} {phase : UpsertPhase}
      (hw : w.workers i = .upsert k version model phase) :
      SyncStep a (w.endUpsert i k version model false)
  | empty {a : SyncAction} {i k : Nat} {version : Uuid} {model : String}
      (hw : w.workers i = .upsert k version model .claimed)
      (hempty : w.versionChunks company document version = []) :
      SyncStep a (w.endUpsert i k version model true)
  | read {a : SyncAction} {i k : Nat} {version : Uuid} {model : String}
      (hw : w.workers i = .upsert k version model .claimed) :
      SyncStep a (w.setWorker i (.upsert k version model
        (.read (w.versionChunks company document version))))
  | locked {a : SyncAction} {i k : Nat} {version : Uuid} {model : String}
      {chunks : List (Uuid × AclPayload)}
      (hw : w.workers i = .upsert k version model (.read chunks)) (hfree : w.lock = none) :
      SyncStep a ({ w with lock := some i }.setWorker i (.upsert k version model
        (.locked (refreshPayloads (w.versionChunks company document version) chunks))))
  | upserted {a : SyncAction} {i k : Nat} {version : Uuid} {model : String}
      {chunks : List (Uuid × AclPayload)}
      (hw : w.workers i = .upsert k version model (.locked chunks)) :
      SyncStep a ((w.withPoints pointKey model chunks).setWorker i
        (.upsert k version model (.upserted chunks)))
  | upsertLost {a : SyncAction} {i k : Nat} {version : Uuid} {model : String}
      {chunks : List (Uuid × AclPayload)}
      (hw : w.workers i = .upsert k version model (.locked chunks)) :
      SyncStep a ((w.withPoints pointKey model chunks).endUpsert i k version model false)
  | registered {a : SyncAction} {i k : Nat} {version : Uuid} {model : String}
      {chunks : List (Uuid × AclPayload)} {ok : Bool}
      (hw : w.workers i = .upsert k version model (.upserted chunks)) :
      SyncStep a ((w.withVectors pointKey model chunks).endUpsert i k version model ok)
  | marked {a : SyncAction} {i k : Nat} {version : Uuid} {model : String} {completed : Bool}
      {e : SyncUpsert} (hw : w.workers i = .upsert k version model (.ended completed))
      (hk : w.upserts[k]? = some e) :
      SyncStep a ((w.setWorker i .idle).setUpsert k
        { e with claimed := false, completed := e.completed || completed })
  | unmarked {a : SyncAction} {i k : Nat} {version : Uuid} {model : String} {completed : Bool}
      (hw : w.workers i = .upsert k version model (.ended completed)) :
      SyncStep a (w.setWorker i .idle)
  | fetched {a : SyncAction} {i : Nat} {version : Uuid} {model : String}
      (hidle : w.workers i = .idle) :
      SyncStep a (w.setWorker i (.ingest version model (w.scopes company document now)))
  | unwritten {a : SyncAction} {i : Nat} {version : Uuid} {model : String} {scopes : List Uuid}
      (hw : w.workers i = .ingest version model scopes) : SyncStep a (w.setWorker i .idle)
  | written {i : Nat} {ids : List Uuid} {reply : StatementReply} {version : Uuid} {model : String}
      {scopes : List Uuid} (hw : w.workers i = .ingest version model scopes)
      (hreply : reply ≠ .failed) (hcan : w.CanWrite version ids) :
      SyncStep (.writeChunks i ids reply)
        ((w.written version model scopes ids).setWorker i .idle)
  | promoted {a : SyncAction} {version : Uuid} : SyncStep a (w.promoted version)

variable {pointKey company document now w}

theorem sync_step (a : SyncAction) :
    SyncStep pointKey company document now w a (w.step pointKey company document now a) := by
  cases a with
  | resync a => exact .resync (resync_step a)
  | claimUpsert i k =>
    simp only [step, claimUpsert]
    split
    next e hk hidle =>
      split
      next => exact .claimed hk hidle
      next => exact .same
    next => exact .same
  | releaseUpsert k =>
    simp only [step, releaseUpsert]
    split
    next e hk =>
      split
      next => exact .same
      next => exact .released hk
    next => exact .same
  | readChunks i reply =>
    simp only [step, readChunks]
    split
    next k version model hw =>
      split
      next => exact .failed hw
      next =>
        split
        next hempty => exact .empty hw hempty
        next => exact .read hw
    next => exact .same
  | lockChunks i reply =>
    simp only [step, lockChunks]
    split
    next k version model chunks hw =>
      split
      next => exact .failed hw
      next =>
        split
        next => exact .same
        next hfree => exact .locked hw (not_not.mp hfree)
    next => exact .same
  | upsertPoints i reply =>
    simp only [step, upsertPoints]
    split
    next k version model chunks hw =>
      cases reply with
      | ok => exact .upserted hw
      | failed => exact .failed hw
      | lost => exact .upsertLost hw
    next => exact .same
  | registerVectors i reply =>
    simp only [step, registerVectors]
    split
    next k version model chunks hw =>
      split
      next hr =>
        rw [hr]
        exact .failed hw
      next => exact .registered hw
    next => exact .same
  | markUpsert i reply =>
    simp only [step, markUpsert]
    split
    next k version model completed hw =>
      split
      next e hk =>
        split
        next => exact .unmarked hw
        next => exact .marked hw hk
      next => exact .unmarked hw
    next => exact .same
  | ingest i version model =>
    simp only [step, ingest]
    split
    next hidle => exact .fetched hidle
    next => exact .same
  | writeChunks i ids reply =>
    simp only [step, writeChunks]
    split
    next version model scopes hw =>
      split
      next h => exact .written hw h.1 h.2
      next => exact .unwritten hw
    next => exact .same
  | promote version =>
    simp only [step, promote]
    split
    next =>
      split
      next => exact .promoted
      next => exact .same
    next => exact .same

end SyncWorld

end Wikore
