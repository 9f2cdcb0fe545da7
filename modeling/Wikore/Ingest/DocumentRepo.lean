import Wikore.Schema.Types
import Mathlib.Data.List.Basic

/-! `PostgresDocumentRepo`: the rows that an ingest run writes (`document_versions`,
`document_sections`, `document_chunks`, `outbox_events`) and the statements that write them. -/

namespace Wikore

/-- A section of a parsed document; `dbId` is the id of its row once it is written. -/
structure ParsedSection where
  heading : String
  depth : Nat
  text : String
  children : List ParsedSection
  dbId : Option Uuid

structure Chunk where
  chunkIndex : Nat
  text : String
  sectionId : Option Uuid
  sectionHeading : Option String
deriving DecidableEq, Repr

structure SectionRow where
  id : Uuid
  companyId : Uuid
  documentVersionId : Uuid
  parentSectionId : Option Uuid
  ordinal : Nat
  heading : Option String
  headingPath : List String
  depth : Nat
deriving DecidableEq, Repr

structure ChunkRow where
  id : Uuid
  companyId : Uuid
  documentVersionId : Uuid
  chunkIndex : Nat
  content : String
  contentHash : String
  prefilterScopeIds : List Uuid
  sectionId : Option Uuid
deriving DecidableEq, Repr

/-- A row of `outbox_events` with the job type `qdrant_upsert_chunk_payload`. -/
structure UpsertEvent where
  companyId : Uuid
  aggregateId : Uuid
  documentId : String
  documentVersionId : String
  embedModelId : String
  chunkCount : Nat
  traceId : String
  idempotencyKey : String
deriving DecidableEq, Repr

/-- The rows of one document version in the three tables that an ingest run fills. -/
structure VersionTables where
  sections : List SectionRow
  chunks : List ChunkRow
  events : List UpsertEvent
deriving DecidableEq, Repr

def VersionTables.empty : VersionTables := ⟨[], [], []⟩

/-! ### Sections -/

/-- `INSERT INTO document_sections ... ON CONFLICT (company_id, document_version_id, ordinal) DO
UPDATE ... RETURNING id`, among the rows of one version. -/
def upsertSectionRow (row : SectionRow) (rows : List SectionRow) : List SectionRow × Uuid :=
  match rows.find? fun r => r.ordinal = row.ordinal with
  | some old =>
    (rows.map fun r => if r.ordinal = row.ordinal then { row with id := r.id } else r, old.id)
  | none => (rows ++ [row], row.id)

/-- The running ordinal and the rows, while `write_sections` walks the tree. -/
structure SectionCursor where
  ordinal : Nat
  rows : List SectionRow
deriving DecidableEq, Repr

section WriteSections

variable (c v : Uuid) (newId : Nat → Uuid)

mutual

/-- `upsert_section`; the id of the row that is new at ordinal `n` is `newId n`. -/
def upsertSection (parent : Option Uuid) (parentPath : List String) :
    ParsedSection → SectionCursor → ParsedSection × SectionCursor
  | ⟨heading, depth, text, children, _⟩, cursor =>
    let path := if heading = "" then parentPath else parentPath ++ [heading]
    let headingOpt := if heading = "" then none else some heading
    let upserted := upsertSectionRow
      ⟨newId cursor.ordinal, c, v, parent, cursor.ordinal, headingOpt, path, depth⟩ cursor.rows
    let written := upsertSections (some upserted.2) path children
      ⟨cursor.ordinal + 1, upserted.1⟩
    (⟨heading, depth, text, written.1, some upserted.2⟩, written.2)

def upsertSections (parent : Option Uuid) (parentPath : List String) :
    List ParsedSection → SectionCursor → List ParsedSection × SectionCursor
  | [], cursor => ([], cursor)
  | s :: rest, cursor =>
    let first := upsertSection parent parentPath s cursor
    let others := upsertSections parent parentPath rest first.2
    (first.1 :: others.1, others.2)

end

/-- `ON DELETE CASCADE` of `document_sections_parent_same_version_fk`, after the rows `gone`. -/
def cascadeSections : Nat → List Uuid → List SectionRow → List SectionRow
  | 0, _, rows => rows
  | fuel + 1, gone, rows =>
    let hit := rows.filter fun r => r.parentSectionId ∈ gone.map some
    if hit = [] then rows
    else cascadeSections fuel (hit.map SectionRow.id) (rows.filter fun r => r ∉ hit)

/-- `write_sections`: the tree is upserted in pre-order, and the rows of an earlier, longer layout
are deleted; chunks that referred to them lose the reference. -/
def writeSections (sections : List ParsedSection) (t : VersionTables) :
    List ParsedSection × VersionTables :=
  let written := upsertSections c v newId none [] sections ⟨0, t.sections⟩
  let gone := written.2.rows.filter fun r => written.2.ordinal ≤ r.ordinal
  let kept := cascadeSections written.2.rows.length (gone.map SectionRow.id)
    (written.2.rows.filter fun r => r.ordinal < written.2.ordinal)
  let deleted := (written.2.rows.filter fun r => r ∉ kept).map SectionRow.id
  let unlink (chunk : ChunkRow) : ChunkRow :=
    if chunk.sectionId ∈ deleted.map some then { chunk with sectionId := none } else chunk
  (written.1, { t with sections := kept, chunks := t.chunks.map unlink })

end WriteSections

/-! ### Chunks -/

/-- `INSERT INTO document_chunks ... ON CONFLICT (document_version_id, chunk_index) DO UPDATE`. -/
def upsertChunkRow (row : ChunkRow) (rows : List ChunkRow) : List ChunkRow :=
  if ∃ r ∈ rows, r.chunkIndex = row.chunkIndex then
    rows.map fun r => if r.chunkIndex = row.chunkIndex then { row with id := r.id } else r
  else rows ++ [row]

/-- `write_chunks`; `sha256Hex` is the digest, which may fail, and `newId` gives the ids of new
rows. -/
def writeChunks (c v : Uuid) (sha256Hex : String → Option String) (newId : Nat → Uuid)
    (scopes : List Uuid) (chunks : List Chunk) (t : VersionTables) : Except String VersionTables := do
  let rows ← chunks.foldlM (fun rows chunk =>
    match sha256Hex chunk.text with
    | none => .error "write_chunks: content_hash digest failed"
    | some hash => .ok (upsertChunkRow ⟨newId chunk.chunkIndex, c, v, chunk.chunkIndex, chunk.text,
        hash, scopes, chunk.sectionId⟩ rows)) t.chunks
  .ok { t with chunks := rows.filter fun r => r.chunkIndex < chunks.length }

/-! ### The unit of work -/

/-- The command of a dispatched job.  `company` is the tenant of the queue; the other fields are
those of the payload. -/
structure IngestDocumentVersionCmd where
  company : Uuid
  documentId : String
  documentVersionId : String
  filePath : String
  embedModelId : String
  payload : String
deriving DecidableEq, Repr

/-- What a run computes before and inside its unit of work: the parsed sections, the chunker, the
access scopes and the ids that the database generates. -/
structure IngestRun where
  sections : List ParsedSection
  chunk : List ParsedSection → List Chunk
  accessScopeIds : List Uuid
  newSectionId : Nat → Uuid
  newChunkId : Nat → Uuid

/-- `INSERT INTO outbox_events ... ON CONFLICT (company_id, job_type, idempotency_key) DO
NOTHING`. -/
def insertUpsertEvent (e : UpsertEvent) (events : List UpsertEvent) : List UpsertEvent :=
  if ∃ x ∈ events, x.companyId = e.companyId ∧ x.idempotencyKey = e.idempotencyKey then events
  else events ++ [e]

def upsertEvent (cmd : IngestDocumentVersionCmd) (v : Uuid) (chunkCount : Nat) : UpsertEvent where
  companyId := cmd.company
  aggregateId := v
  documentId := cmd.documentId
  documentVersionId := cmd.documentVersionId
  embedModelId := cmd.embedModelId
  chunkCount := chunkCount
  traceId := "ingest:" ++ cmd.documentVersionId
  idempotencyKey := "qdrant_upsert:" ++ cmd.documentVersionId ++ ":" ++ cmd.embedModelId

/-- The chunks of a run: the chunker reads the sections with the ids of their rows. -/
def IngestRun.chunks (run : IngestRun) (c v : Uuid) (t : VersionTables) : List Chunk :=
  run.chunk (writeSections c v run.newSectionId run.sections t).1

/-- The statements of the unit of work on the three tables before `mark_ingest_done`. -/
def writeRun (sha256Hex : String → Option String) (cmd : IngestDocumentVersionCmd) (v : Uuid)
    (run : IngestRun) (t : VersionTables) : Except String VersionTables := do
  let t1 := (writeSections cmd.company v run.newSectionId run.sections t).2
  let chunks := run.chunks cmd.company v t
  let t2 ← writeChunks cmd.company v sha256Hex run.newChunkId run.accessScopeIds chunks t1
  .ok { t2 with events := insertUpsertEvent (upsertEvent cmd v chunks.length) t2.events }

/-- An open unit of work: what its statements have written is its own until it commits. -/
structure UnitOfWork where
  cmd : IngestDocumentVersionCmd
  run : IngestRun
  startedAt : Nat
  chunkCount : Nat
  tables : VersionTables

/-! ### `document_versions` -/

/-- The events of a version's row that count for the ownership of a claim, in the order of their
commits. -/
inductive RowEvent
  | claimed (token : Uuid)
  | reset
  | done (token : Uuid) (cmd : IngestDocumentVersionCmd) (run : IngestRun)
  | failed (token : Uuid)
  | promoted

/-- A row of `document_versions` with the rows of the version in the other tables.  `history` and
`enqueued` record what happened to the version; no statement reads them. -/
structure VersionRow where
  id : Uuid
  companyId : Uuid
  lifecycleStatus : LifecycleStatus
  ingestStatus : IngestStatus
  errorMsg : Option String
  completedAt : Option Nat
  chunkCount : Option Nat
  updatedAt : Nat
  ingestRetryCount : Nat
  ingestJobPayload : Option String
  ingestClaimToken : Option Uuid
  tables : VersionTables
  history : List RowEvent
  enqueued : Bool

namespace VersionRow

/-- The predicate of `claim_for_processing` after the key. -/
def Claimable (r : VersionRow) : Prop :=
  r.ingestStatus = .pending ∧ (r.lifecycleStatus = .draft ∨ r.lifecycleStatus = .deprecated)

instance (r : VersionRow) : Decidable r.Claimable :=
  inferInstanceAs (Decidable (_ ∧ _))

/-- The row that `claim_for_processing` writes. -/
def claim (payload : Option String) (token : Uuid) (now : Nat) (r : VersionRow) : VersionRow :=
  { r with
    ingestStatus := .processing
    ingestJobPayload := payload
    ingestClaimToken := some token
    updatedAt := now
    history := r.history ++ [.claimed token] }

/-- The row that `mark_ingest_done` writes, with the other rows of the unit of work. -/
def markDone (token : Uuid) (u : UnitOfWork) (r : VersionRow) : VersionRow :=
  { r with
    ingestStatus := .done
    completedAt := some (r.completedAt.getD u.startedAt)
    chunkCount := some u.chunkCount
    ingestClaimToken := none
    ingestJobPayload := none
    updatedAt := u.startedAt
    tables := u.tables
    history := r.history ++ [.done token u.cmd u.run] }

/-- The row that `set_ingest_status` writes for the status `error`. -/
def setError (token : Uuid) (message : String) (now : Nat) (r : VersionRow) : VersionRow :=
  { r with
    ingestStatus := .error
    errorMsg := if message = "" then none else some message
    ingestClaimToken := none
    ingestJobPayload := none
    updatedAt := now
    history := r.history ++ [.failed token] }

end VersionRow

/-- `UPDATE document_versions ... WHERE company_id = c AND id = v AND p`. -/
def updateVersion (c v : Uuid) (p : VersionRow → Bool) (f : VersionRow → VersionRow)
    (rows : List VersionRow) : List VersionRow :=
  rows.map fun r => if r.companyId = c ∧ r.id = v ∧ p r then f r else r

/-- Whether such an `UPDATE` returns a row. -/
def versionMatches (c v : Uuid) (p : VersionRow → Bool) (rows : List VersionRow) : Bool :=
  rows.any fun r => r.companyId = c ∧ r.id = v ∧ p r

end Wikore
