import Wikore.Access.GrantBumps
import Wikore.Scheduler.Outbox
import Mathlib.Logic.Function.Basic

/-! The scopes of one document on their way to Qdrant: changes of grants and owners with their
triggers, ingest runs, and any number of `OutboxWorker`s and `ResyncWorker`s, each of which takes
the steps of its `process` one by one between the steps of the others. -/

namespace Wikore

open Statement Query

/-- A row of `document_versions`; `done` says that its ingest is done. -/
structure SyncVersion where
  id : Uuid
  lifecycleStatus : LifecycleStatus
  sensitivityLabel : SensitivityLabel
  done : Bool
deriving DecidableEq, Repr

/-- A row of `document_chunks`. -/
structure SyncChunk where
  id : Uuid
  documentVersionId : Uuid
  qdrantPrefilterScopeIds : List Uuid
deriving DecidableEq, Repr

/-- A Qdrant collection and the id of a point in it. -/
abbrev PointKey := String × Uuid

/-- A row of `document_chunk_vectors`, with the collection of its model. -/
structure ChunkVector where
  chunkId : Uuid
  embedModelId : String
  point : PointKey
deriving DecidableEq, Repr

/-- An event of `outbox_events` with the job type `qdrant_upsert_chunk_payload`. -/
structure SyncUpsert where
  documentVersionId : Uuid
  embedModelId : String
  claimed : Bool := false
  completed : Bool := false
deriving DecidableEq, Repr

/-- The keys of a point's payload that change with the access to the document. -/
structure AclPayload where
  accessScopeIds : List Uuid
  sensitivityLabel : SensitivityLabel
  lifecycleStatus : LifecycleStatus
  ownerOrgUnitId : Uuid
  aclVersion : Nat
deriving DecidableEq, Repr

/-- A patch for `set_payload`.  `computedAt` is the `acl_version` of the document when
`fetch_access_scopes` computed the scopes; nothing reads it. -/
structure PayloadPatch extends AclPayload where
  computedAt : Nat
deriving DecidableEq, Repr

/-- How far `ResyncWorker::process` is, from the read of the document under the lock on.  A patching
worker still has the collections `rest` to send its patch to; `collected` are the points that it
found. A refreshed one has updated the rows `touched` of `document_chunks` and not committed. -/
inductive ResyncPhase
  | claimed
  | locked (vCur : Nat) (owner : Uuid)
  | fetched (patch : PayloadPatch)
  | patching (patch : PayloadPatch) (collected : List PointKey) (rest : List (String × List Uuid))
  | refreshed (patch : PayloadPatch) (collected : List PointKey) (touched : List Uuid)
  | ended (completed : Bool)
deriving DecidableEq, Repr

/-- How far `OutboxWorker::process` is, with the chunks and their payloads. -/
inductive UpsertPhase
  | claimed
  | read (chunks : List (Uuid × AclPayload))
  | locked (chunks : List (Uuid × AclPayload))
  | upserted (chunks : List (Uuid × AclPayload))
  | ended (completed : Bool)
deriving DecidableEq, Repr

/-- A call of `process` with the event that it is about, or an ingest run with the scopes that it
has fetched. -/
inductive SyncWorker
  | idle
  | resync (event version : Nat) (phase : ResyncPhase)
  | upsert (event : Nat) (documentVersionId : Uuid) (embedModelId : String) (phase : UpsertPhase)
  | ingest (version : Uuid) (embedModelId : String) (accessScopeIds : List Uuid)
deriving DecidableEq, Repr

/-- `lock` holds the worker whose transaction has the advisory lock on the document.  `patches`
holds the last patch that each point was sent; nothing reads it. -/
structure SyncWorld where
  db : ResyncDb
  versions : List SyncVersion
  chunks : List SyncChunk
  vectors : List ChunkVector
  upserts : List SyncUpsert
  points : PointKey → Option AclPayload
  patches : PointKey → Option PayloadPatch
  lock : Option Nat
  workers : Nat → SyncWorker

/-- What concerns the resync workers: the changes, and the steps of the worker `i`. -/
inductive ResyncAction
  | change (op : AclChange)
  | claim (i k : Nat)
  | release (k : Nat)
  | lockDocument (i : Nat) (reply : StatementReply)
  | fetchAccessScopes (i : Nat) (reply : StatementReply)
  | collectPoints (i : Nat) (reply : StatementReply)
  | setPayload (i : Nat) (reply : StatementReply)
  | refreshColumn (i : Nat) (reply : StatementReply)
  | commit (i : Nat) (reply : StatementReply)
  | mark (i : Nat) (reply : StatementReply)
  | crash (i : Nat)
deriving DecidableEq, Repr

/-- The row `d` after the compare-and-set for the document. -/
def DocumentRow.casSynced (company document : Uuid) (v : Nat) (d : DocumentRow) : DocumentRow :=
  if d.companyId = company ∧ d.id = document ∧ d.aclVersion = v then
    { d with qdrantSyncedVersion := v }
  else d

namespace SyncWorld

variable (company document : Uuid) (now : Nat) (w : SyncWorld) (i : Nat)

def document? : Option DocumentRow := w.db.findDocument company document

/-- What `fetch_access_scopes` returns for the document. -/
def scopes : List Uuid := Wikore.fetchAccessScopes w.db.access now company document

def setWorker (worker : SyncWorker) : SyncWorld :=
  { w with workers := Function.update w.workers i worker }

/-- The end of a transaction releases the lock. -/
def unlock : SyncWorld := { w with lock := if w.lock = some i then none else w.lock }

/-! ### Events -/

def setEvent (k : Nat) (e : ResyncEvent) : SyncWorld :=
  { w with db := { w.db with outbox := w.db.outbox.set k e } }

/-- `claim_batch`, for one event of the batch. -/
def claimResync (k : Nat) : SyncWorld :=
  match w.db.outbox[k]?, w.workers i with
  | some e, .idle =>
    if e.companyId = company ∧ e.aggregateId = document ∧ e.claimed = false ∧ e.completed = false then
      (w.setEvent k { e with claimed := true }).setWorker i
        (.resync k e.payload.aclVersion .claimed)
    else w
  | _, _ => w

/-- `reap_stale_claims` or `release_my_claims`, for one event.  The worker may still be running. -/
def releaseResync (k : Nat) : SyncWorld :=
  match w.db.outbox[k]? with
  | some e => if e.completed then w else w.setEvent k { e with claimed := false }
  | none => w

/-! ### `ResyncWorker::process` -/

/-- The worker has returned: `completed` says whether with an outcome or with an error. -/
def endResync (k v : Nat) (completed : Bool) : SyncWorld :=
  (w.unlock i).setWorker i (.resync k v (.ended completed))

/-- Step 1 and step 2: an event that a newer bump has superseded is dropped. -/
def lockDocument (reply : StatementReply) : SyncWorld :=
  match w.workers i with
  | .resync k v .claimed =>
    if reply ≠ .ok then w.endResync i k v false
    else if w.lock ≠ none then w
    else
      match w.document? company document with
      | none => w.endResync i k v true
      | some d =>
        if v < d.aclVersion then w.endResync i k v true
        else
          { w with lock := some i }.setWorker i
            (.resync k v (.locked d.aclVersion d.ownerOrgUnitId))
  | _ => w

/-- Step 3, on another connection. -/
def fetchScopes (reply : StatementReply) : SyncWorld :=
  match w.workers i with
  | .resync k v (.locked vCur owner) =>
    if reply ≠ .ok then w.endResync i k v false
    else
      w.setWorker i (.resync k v (.fetched
        { accessScopeIds := w.scopes company document now
          sensitivityLabel := .internal
          lifecycleStatus := .active
          ownerOrgUnitId := owner
          aclVersion := vCur
          computedAt := ((w.document? company document).map DocumentRow.aclVersion).getD 0 }))
  | _ => w

/-- The versions of the document that are active, with the registered vectors of their chunks. -/
def activeVectors : List (SyncVersion × ChunkVector) :=
  (w.versions.filter fun v => v.lifecycleStatus = .active).flatMap fun v =>
    (w.chunks.filter fun ch => ch.documentVersionId = v.id).flatMap fun ch =>
      (w.vectors.filter fun r => r.chunkId = ch.id).map fun r => (v, r)

def activePoints : List PointKey := w.activeVectors.map fun r => r.2.point

/-- The points of each collection. -/
def pointsByCollection (points : List PointKey) : List (String × List Uuid) :=
  (points.map Prod.fst).dedup.map fun c => (c, (points.filter fun p => p.1 = c).map Prod.snd)

/-- The patch with the labels of the last row. -/
def labelPatch (patch : PayloadPatch) : PayloadPatch :=
  match w.activeVectors.getLast? with
  | some r => { patch with
      sensitivityLabel := r.1.sensitivityLabel
      lifecycleStatus := r.1.lifecycleStatus }
  | none => patch

/-- Step 4. -/
def collectPoints (reply : StatementReply) : SyncWorld :=
  match w.workers i with
  | .resync k v (.fetched patch) =>
    if reply ≠ .ok then w.endResync i k v false
    else
      w.setWorker i (.resync k v
        (.patching (w.labelPatch patch) w.activePoints (pointsByCollection w.activePoints)))
  | _ => w

/-- `set_payload`: points that do not exist stay so. -/
def applyPatch (patch : PayloadPatch) (collection : String) (ids : List Uuid) : SyncWorld :=
  { w with
    points := fun p =>
      if p.1 = collection ∧ p.2 ∈ ids then (w.points p).map fun _ => patch.toAclPayload
      else w.points p
    patches := fun p => if p.1 = collection ∧ p.2 ∈ ids then some patch else w.patches p }

/-- Step 5, for one collection.  A collection without a vector store is an error too. -/
def setPayload (reply : StatementReply) : SyncWorld :=
  match w.workers i with
  | .resync k v (.patching patch collected ((collection, ids) :: rest)) =>
    let w' := if reply = .failed then w else w.applyPatch patch collection ids
    if reply = .ok then w'.setWorker i (.resync k v (.patching patch collected rest))
    else w'.endResync i k v false
  | _ => w

/-- Step 6.  The rows that the statement sees are updated; the update is not committed. -/
def refreshColumn (reply : StatementReply) : SyncWorld :=
  match w.workers i with
  | .resync k v (.patching patch collected []) =>
    if reply ≠ .ok then w.endResync i k v false
    else
      w.setWorker i (.resync k v (.refreshed patch collected (w.chunks.map SyncChunk.id)))
  | _ => w

/-- Step 7: `UPDATE documents SET qdrant_synced_version = v WHERE ... AND acl_version = v`. -/
def casSyncedVersion (v : Nat) (db : ResyncDb) : ResyncDb :=
  { db with documents := db.documents.map (DocumentRow.casSynced company document v) }

/-- The tables with the compare-and-set and the update of step 6 committed. -/
def refreshed (patch : PayloadPatch) (touched : List Uuid) : SyncWorld :=
  { w with
    db := casSyncedVersion company document patch.aclVersion w.db
    chunks := w.chunks.map fun ch =>
      if ch.id ∈ touched then { ch with qdrantPrefilterScopeIds := patch.accessScopeIds } else ch }

/-- The compare-and-set and the commit.  The row of the document is locked between the two, so they
are one step to the others. -/
def commit (reply : StatementReply) : SyncWorld :=
  match w.workers i with
  | .resync k v (.refreshed patch _ touched) =>
    let w' := if reply = .failed then w else w.refreshed company document patch touched
    w'.endResync i k v (decide (reply = .ok))
  | _ => w

/-- `mark_completed` or `mark_failed`, after which the worker leaves the event. -/
def markResync (reply : StatementReply) : SyncWorld :=
  match w.workers i with
  | .resync k _ (.ended completed) =>
    let w' := w.setWorker i .idle
    match w.db.outbox[k]? with
    | some e =>
      if reply = .failed then w'
      else w'.setEvent k { e with claimed := false, completed := e.completed || completed }
    | none => w'
  | _ => w

def crash : SyncWorld := (w.unlock i).setWorker i .idle

/-- A change of a grant or of an owner commits, or raises and changes nothing. -/
def change (op : AclChange) : SyncWorld := { w with db := (exec op.statement w.db).1 }

def resyncStep (w : SyncWorld) : ResyncAction → SyncWorld
  | .change op => w.change op
  | .claim i k => w.claimResync company document i k
  | .release k => w.releaseResync k
  | .lockDocument i reply => w.lockDocument company document i reply
  | .fetchAccessScopes i reply => w.fetchScopes company document now i reply
  | .collectPoints i reply => w.collectPoints i reply
  | .setPayload i reply => w.setPayload i reply
  | .refreshColumn i reply => w.refreshColumn i reply
  | .commit i reply => w.commit company document i reply
  | .mark i reply => w.markResync i reply
  | .crash i => w.crash i

/-! ### What one step can do -/

/-- What an action makes of the world. -/
inductive ResyncStep : ResyncAction → SyncWorld → Prop
  | same {a : ResyncAction} : ResyncStep a w
  | changed {a : ResyncAction} {op : AclChange} {db : ResyncDb} (hop : op.statement w.db = .ok
      () db) :
      ResyncStep a { w with db := db }
  | claimed {a : ResyncAction} {i k : Nat} {e : ResyncEvent} (hk : w.db.outbox[k]? = some e)
      (hidle : w.workers i = .idle) (hc : e.companyId = company) (hd : e.aggregateId = document) :
      ResyncStep a ((w.setEvent k { e with claimed := true }).setWorker i
        (.resync k e.payload.aclVersion .claimed))
  | released {a : ResyncAction} {k : Nat} {e : ResyncEvent} (hk : w.db.outbox[k]? = some e) :
      ResyncStep a (w.setEvent k { e with claimed := false })
  | failed {a : ResyncAction} {i k v : Nat} {phase : ResyncPhase}
      (hw : w.workers i = .resync k v phase) :
      ResyncStep a (w.endResync i k v false)
  | gone {a : ResyncAction} {i k v : Nat} (hw : w.workers i = .resync k v .claimed)
      (hdoc : w.document? company document = none) : ResyncStep a (w.endResync i k v true)
  | superseded {a : ResyncAction} {i k v : Nat} {d : DocumentRow}
      (hw : w.workers i = .resync k v .claimed)
      (hdoc : w.document? company document = some d) (hlt : v < d.aclVersion) :
      ResyncStep a (w.endResync i k v true)
  | locked {a : ResyncAction} {i k v : Nat} {d : DocumentRow}
      (hw : w.workers i = .resync k v .claimed)
      (hfree : w.lock = none) (hdoc : w.document? company document = some d) :
      ResyncStep a ({ w with lock := some i }.setWorker i
        (.resync k v (.locked d.aclVersion d.ownerOrgUnitId)))
  | fetched {a : ResyncAction} {i k v vCur : Nat} {owner : Uuid} (hw : w.workers i = .resync k v
      (.locked vCur owner)) :
      ResyncStep a (w.setWorker i (.resync k v (.fetched
        { accessScopeIds := w.scopes company document now
          sensitivityLabel := .internal
          lifecycleStatus := .active
          ownerOrgUnitId := owner
          aclVersion := vCur
          computedAt := ((w.document? company document).map DocumentRow.aclVersion).getD 0 })))
  | collected {a : ResyncAction} {i k v : Nat} {patch : PayloadPatch}
      (hw : w.workers i = .resync k v (.fetched patch)) :
      ResyncStep a (w.setWorker i (.resync k v (.patching (w.labelPatch patch) w.activePoints
        (pointsByCollection w.activePoints))))
  | patched {a : ResyncAction} {i k v : Nat} {patch : PayloadPatch} {collected : List PointKey}
      {collection : String}
      {ids : List Uuid} {rest : List (String × List Uuid)}
      (hw : w.workers i = .resync k v (.patching patch collected ((collection, ids) :: rest))) :
      ResyncStep a ((w.applyPatch patch collection ids).setWorker i
        (.resync k v (.patching patch collected rest)))
  | patchLost {a : ResyncAction} {i k v : Nat} {patch : PayloadPatch} {collected : List PointKey}
      {collection : String}
      {ids : List Uuid} {rest : List (String × List Uuid)}
      (hw : w.workers i = .resync k v (.patching patch collected ((collection, ids) :: rest))) :
      ResyncStep a ((w.applyPatch patch collection ids).endResync i k v false)
  | refreshed {a : ResyncAction} {i k v : Nat} {patch : PayloadPatch} {collected : List PointKey}
      (hw : w.workers i = .resync k v (.patching patch collected [])) :
      ResyncStep a (w.setWorker i (.resync k v
        (.refreshed patch collected (w.chunks.map SyncChunk.id))))
  | committed {i k v : Nat} {patch : PayloadPatch} {collected : List PointKey} {touched : List Uuid}
      {reply : StatementReply} {ok : Bool} (hreply : reply ≠ .failed)
      (hw : w.workers i = .resync k v (.refreshed patch collected touched)) :
      ResyncStep (.commit i reply) ((w.refreshed company document patch touched).endResync i k v ok)
  | marked {a : ResyncAction} {i k v : Nat} {completed : Bool} {e : ResyncEvent}
      (hw : w.workers i = .resync k v (.ended completed)) (hk : w.db.outbox[k]? = some e) :
      ResyncStep a ((w.setWorker i .idle).setEvent k
        { e with claimed := false, completed := e.completed || completed })
  | unmarked {a : ResyncAction} {i k v : Nat} {completed : Bool} (hw : w.workers i = .resync k v
      (.ended completed)) :
      ResyncStep a (w.setWorker i .idle)
  | crashed {a : ResyncAction} {i : Nat} : ResyncStep a (w.crash i)

variable {company document now w}

@[simp] theorem labelPatch_aclVersion (patch : PayloadPatch) :
    (w.labelPatch patch).aclVersion = patch.aclVersion := by
  rw [labelPatch]
  split <;> rfl

@[simp] theorem labelPatch_accessScopeIds (patch : PayloadPatch) :
    (w.labelPatch patch).accessScopeIds = patch.accessScopeIds := by
  rw [labelPatch]
  split <;> rfl

/-- The update of the column leaves the other columns. -/
theorem refreshed_row (patch : PayloadPatch) (touched : List Uuid) (ch : SyncChunk) :
    (if ch.id ∈ touched then { ch with qdrantPrefilterScopeIds := patch.accessScopeIds }
      else ch).id = ch.id ∧
    (if ch.id ∈ touched then { ch with qdrantPrefilterScopeIds := patch.accessScopeIds }
      else ch).documentVersionId = ch.documentVersionId := by
  split <;> exact ⟨rfl, rfl⟩

theorem resync_step (a : ResyncAction) :
    ResyncStep company document now w a (w.resyncStep company document now a) := by
  cases a with
  | change op =>
    simp only [resyncStep, change, exec]
    split
    next hop => exact .changed hop
    next => exact .same
  | claim i k =>
    simp only [resyncStep, claimResync]
    split
    next e hk hidle =>
      split
      next h => exact .claimed hk hidle h.1 h.2.1
      next => exact .same
    next => exact .same
  | release k =>
    simp only [resyncStep, releaseResync]
    split
    next e hk =>
      split
      next => exact .same
      next => exact .released hk
    next => exact .same
  | lockDocument i reply =>
    simp only [resyncStep, lockDocument]
    split
    next k v hw =>
      split
      next => exact .failed hw
      next =>
        split
        next => exact .same
        next hfree =>
          split
          next hdoc => exact .gone hw hdoc
          next d hdoc =>
            split
            next hlt => exact .superseded hw hdoc hlt
            next => exact .locked hw (not_not.mp hfree) hdoc
    next => exact .same
  | fetchAccessScopes i reply =>
    simp only [resyncStep, fetchScopes]
    split
    next k v vCur owner hw =>
      split
      next => exact .failed hw
      next => exact .fetched hw
    next => exact .same
  | collectPoints i reply =>
    simp only [resyncStep, collectPoints]
    split
    next k v patch hw =>
      split
      next => exact .failed hw
      next => exact .collected hw
    next => exact .same
  | setPayload i reply =>
    simp only [resyncStep, setPayload]
    split
    next k v patch collected collection ids rest hw =>
      cases reply with
      | ok => exact .patched hw
      | failed => exact .failed hw
      | lost => exact .patchLost hw
    next => exact .same
  | refreshColumn i reply =>
    simp only [resyncStep, refreshColumn]
    split
    next k v patch collected hw =>
      split
      next => exact .failed hw
      next => exact .refreshed hw
    next => exact .same
  | commit i reply =>
    simp only [resyncStep, commit]
    split
    next k v patch collected touched hw =>
      split
      next hr =>
        rw [hr]
        exact .failed hw
      next hr => exact .committed hr hw
    next => exact .same
  | mark i reply =>
    simp only [resyncStep, markResync]
    split
    next k v completed hw =>
      split
      next e hk =>
        split
        next => exact .unmarked hw
        next => exact .marked hw hk
      next => exact .unmarked hw
    next => exact .same
  | crash i => exact .crashed

end SyncWorld

end Wikore
