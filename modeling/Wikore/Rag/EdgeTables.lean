import Wikore.Lib.Statement
import Wikore.Lib.Timeline
import Wikore.Rag.EvidenceGate

/-! The tables of V034 for knowledge edges with their history, the statements that change a row of
them, the triggers that fire before, after and at the end of a transaction, and transactions.  A
statement that changes several rows is a sequence of these. -/

namespace Wikore

open Statement Timeline

/-- A row of `knowledge_edges` with all its columns; `provenance` is the text of a `JSONB`. -/
structure EdgeRow extends KnowledgeEdge where
  provenance : String := "\x7b\x7d"
  formulaVersion : Int := 1
  createdBy : Option Uuid := none
  reviewedBy : Option Uuid := none
  createdAt : Nat
  reviewedAt : Option Nat := none
deriving DecidableEq, Repr

/-- The columns of `knowledge_edge_embeddings` that `knowledge_edges` looks at. -/
structure EdgePoint where
  companyId : Uuid
  edgeId : Uuid
  embeddingModelId : Uuid
  qdrantPointId : Uuid
deriving DecidableEq, Repr

/-- An edge with its endpoints. -/
structure EdgeSnapshot where
  edge : EdgeRow
  endpoint0ChunkId : Uuid
  endpoint1ChunkId : Uuid
  endpoint0Role : EndpointRole
  endpoint1Role : EndpointRole
deriving DecidableEq, Repr

/-- The columns of `knowledge_edges_history` beside `live_row_id`, `valid_from` and `valid_until`,
which are the key, the start and the stop of a version. -/
structure EdgeVersion where
  snapshot : EdgeSnapshot
  changeKind : ChangeKind
deriving DecidableEq, Repr

/-- An event `qdrant_delete_edge_points`. -/
structure EdgeDelEvent where
  companyId : Uuid
  aggregateId : Uuid
  qdrantPointIds : List Uuid
  idempotencyKey : String
deriving DecidableEq, Repr

/-- The tables.  Of those that only foreign keys name, the keys are kept. -/
structure EdgeTables where
  companies : List Uuid
  users : List (Uuid × Uuid)
  documentChunks : List (Uuid × Uuid)
  embeddingModels : List Uuid
  edges : List EdgeRow := []
  endpoints : List EdgeEndpoint := []
  embeddings : List EdgePoint := []
  history : List (Version Uuid EdgeVersion) := []
  outboxEvents : List EdgeDelEvent := []
deriving DecidableEq, Repr

/-- An event of a constraint trigger, with the `id` of the new edge or the `edge_id` of the
endpoint. -/
inductive Deferred
  | parent (x : Uuid)
  | endpoint (x : Uuid)
deriving DecidableEq, Repr

/-- The clock, the tables, the trigger events that wait for the commit, and what the tables were
after each statement and each deferred trigger. -/
structure EdgeStore where
  clock : Nat
  db : EdgeTables
  queue : List Deferred := []
  trace : List (Nat × EdgeTables) := []
deriving DecidableEq, Repr

inductive EdgeErrcode
  | checkViolation | uniqueViolation | foreignKeyViolation | insufficientPrivilege | noDataFound
  | invalidParameterValue | invalidTextRepresentation | invalidDatetimeFormat
  | invalidRowCountInLimitClause | invalidRowCountInResultOffsetClause
deriving DecidableEq, Repr

/-- An error with its `ERRCODE` and `CONSTRAINT`, and the text of a `RAISE`. -/
structure EdgeError where
  errcode : EdgeErrcode
  constraint : String := ""
  message : String := ""
deriving DecidableEq, Repr

abbrev EdgeM := EStateM EdgeError EdgeStore

namespace EdgeTables

variable (db : EdgeTables) (x : Uuid)

def findEdge : Option EdgeRow := db.edges.find? fun e => e.id = x

/-- `WHERE edge_id = x AND ordinal = i`. -/
def findEndpoint (i : Fin 2) : Option EdgeEndpoint :=
  db.endpoints.find? fun ep => ep.edgeId = x ∧ ep.ordinal = i

def endpointsOf : List EdgeEndpoint := db.endpoints.filter fun ep => ep.edgeId = x

/-- The rows of the history with `live_row_id = x`. -/
def historyOf : List (Version Uuid EdgeVersion) := rowsOf x db.history

/-- `(company_id, id)` is the key that a foreign key refers to. -/
def HasEdge (c : Uuid) : Prop := ∃ e ∈ db.edges, e.companyId = c ∧ e.id = x

instance (c : Uuid) : Decidable (db.HasEdge x c) := inferInstanceAs (Decidable (∃ e ∈ db.edges, _))

end EdgeTables

def EdgeSnapshot.of (edge : EdgeRow) (ep0 ep1 : EdgeEndpoint) : EdgeSnapshot :=
  ⟨edge, ep0.chunkId, ep1.chunkId, ep0.role, ep1.role⟩

/-! ### The history -/

/-- `UPDATE knowledge_edges_history SET valid_until = ts WHERE live_row_id = x AND valid_until IS
NULL`. -/
def closeHistory (x : Uuid) (ts : Nat) : EdgeM Unit := do
  let s ← get
  raiseIf (∃ r ∈ s.db.historyOf x, r.stop = none ∧ ts < r.start)
    ⟨.checkViolation, "knowledge_edges_history_check", ""⟩
  modify fun s => { s with db := { s.db with history := closeOpen x ts s.db.history } }

/-- `INSERT INTO knowledge_edges_history`. -/
def insertHistory (r : Version Uuid EdgeVersion) : EdgeM Unit := do
  let s ← get
  raiseIf (∃ u ∈ r.stop, u < r.start) ⟨.checkViolation, "knowledge_edges_history_check", ""⟩
  raiseIf (∃ o ∈ s.db.historyOf r.key, o.start = r.start)
    ⟨.uniqueViolation, "knowledge_edges_history_live_row_id_valid_from_key", ""⟩
  raiseIf (r.stop = none ∧ ∃ o ∈ s.db.historyOf r.key, o.stop = none)
    ⟨.uniqueViolation, "knowledge_edges_history_open_uidx", ""⟩
  modify fun s => { s with db := { s.db with history := s.db.history ++ [r] } }

/-- `SELECT ... INTO STRICT`. -/
def strict {α : Type} : Option α → EdgeM α
  | none => throw ⟨.noDataFound, "", "query returned no rows"⟩
  | some a => pure a

/-- `knowledge_edges_snapshot_internal`.  A statement reads `clock_timestamp()` at most once. -/
def snapshotInternal (x : Uuid) (kind : ChangeKind) : EdgeM Unit := do
  raiseIf (kind = .delete)
    ⟨.invalidParameterValue, "",
      "knowledge_edges_snapshot_internal: kind must be insert or update, got delete"⟩
  let s ← get
  let edge ← strict (s.db.findEdge x)
  let ts := s.clock
  let ep0 ← strict (s.db.findEndpoint x 0)
  let ep1 ← strict (s.db.findEndpoint x 1)
  closeHistory x ts
  insertHistory ⟨edge.id, ⟨.of edge ep0 ep1, kind⟩, ts, none⟩

/-! ### The triggers of the edges -/

/-- `knowledge_edges_reject_uuid_reuse_fn`. -/
def rejectUuidReuse (new : EdgeRow) : EdgeM Unit := do
  let s ← get
  raiseIf (s.db.historyOf new.id ≠ [])
    ⟨.uniqueViolation, "knowledge_edges_no_uuid_reuse",
      "knowledge_edges UUID " ++ Uuid.text new.id ++
        " has prior history (deleted edge); UUIDs cannot be reused"⟩

def twoEndpointsError (x : Uuid) (count : Nat) : EdgeError :=
  ⟨.checkViolation, "knowledge_edges_exactly_two_endpoints_chk",
    "knowledge_edges " ++ Uuid.text x ++ " must have exactly two endpoints at COMMIT (got " ++
      Nat.repr count ++ ")"⟩

/-- `knowledge_edges_check_count_and_snapshot_fn`, at the commit; `x` is `NEW.id`. -/
def checkCountAndSnapshot (x : Uuid) : EdgeM Unit := do
  let s ← get
  if s.db.findEdge x = none then pure ()
  else if ∃ r ∈ s.db.historyOf x, r.stop = none then pure ()
  else do
    let count := (s.db.endpointsOf x).length
    raiseIf (count ≠ 2) (twoEndpointsError x count)
    snapshotInternal x .insert

/-- `knowledge_edge_endpoints_check_count_fn`, at the commit. -/
def endpointsCheckCount (x : Uuid) : EdgeM Unit := do
  let s ← get
  if s.db.findEdge x = none then pure ()
  else do
    let count := (s.db.endpointsOf x).length
    raiseIf (count ≠ 2) (twoEndpointsError x count)

def Deferred.fire : Deferred → EdgeM Unit
  | .parent x => checkCountAndSnapshot x
  | .endpoint x => endpointsCheckCount x

/-- `knowledge_edges_history_update_fn`. -/
def historyUpdate (new : EdgeRow) : EdgeM Unit := do
  let s ← get
  if s.db.historyOf new.id = [] then pure ()
  else snapshotInternal new.id .update

/-- The part of `knowledge_edges_history_delete_fn` that tells the vector store. -/
def enqueueDelete (old : EdgeRow) : EdgeM Unit := do
  let s ← get
  let pointIds := (s.db.embeddings.filter fun p => p.edgeId = old.id).map EdgePoint.qdrantPointId
  let key := "edge-del:" ++ Uuid.text old.id ++ ":" ++ Int.repr old.edgeVersion
  if pointIds ≠ [] ∧ old.companyId ∈ s.db.companies then do
    raiseIf (∃ ev ∈ s.db.outboxEvents, ev.companyId = old.companyId ∧ ev.idempotencyKey = key)
      ⟨.uniqueViolation, "outbox_events_company_id_job_type_idempotency_key_key", ""⟩
    modify fun s => { s with db := { s.db with
      outboxEvents := s.db.outboxEvents ++ [⟨old.companyId, old.id, pointIds, key⟩] } }
  else pure ()

/-- `knowledge_edges_history_delete_fn`. -/
def historyDelete (old : EdgeRow) : EdgeM Unit := do
  let s ← get
  if s.db.historyOf old.id = [] then pure ()
  else do
    let ts := s.clock
    let ep0 ← strict (s.db.findEndpoint old.id 0)
    let ep1 ← strict (s.db.findEndpoint old.id 1)
    enqueueDelete old
    closeHistory old.id ts
    insertHistory ⟨old.id, ⟨.of old ep0 ep1, .delete⟩, ts, some ts⟩

/-! ### Statements -/

/-- A `REAL` between 0 and 1, or the negative zero, which equals 0.  NaN is above every number. -/
def unitInterval (c : Real4) : Bool := c.toNat ≤ 0x3F800000 || c = 0x80000000

/-- The checks and foreign keys of a row that is written to `knowledge_edges`. -/
def checkEdge (e : EdgeRow) : EdgeM Unit := do
  let s ← get
  raiseIf (unitInterval e.confidence = false)
    ⟨.checkViolation, "knowledge_edges_confidence_check", ""⟩
  raiseIf (∃ u ∈ e.expiresAt, u ≤ e.createdAt) ⟨.checkViolation, "knowledge_edges_check", ""⟩
  raiseIf (e.companyId ∉ s.db.companies)
    ⟨.foreignKeyViolation, "knowledge_edges_company_id_fkey", ""⟩
  raiseIf (∃ u ∈ e.createdBy, (e.companyId, u) ∉ s.db.users)
    ⟨.foreignKeyViolation, "knowledge_edges_created_by_same_company_fk", ""⟩
  raiseIf (∃ u ∈ e.reviewedBy, (e.companyId, u) ∉ s.db.users)
    ⟨.foreignKeyViolation, "knowledge_edges_reviewed_by_same_company_fk", ""⟩

def insertEdge (e : EdgeRow) : EdgeM Unit := do
  rejectUuidReuse e
  let s ← get
  raiseIf (∃ o ∈ s.db.edges, o.id = e.id) ⟨.uniqueViolation, "knowledge_edges_pkey", ""⟩
  checkEdge e
  modify fun s => { s with
    db := { s.db with edges := s.db.edges ++ [e] }
    queue := s.queue ++ [.parent e.id] }

/-- `UPDATE knowledge_edges SET ... WHERE id = x`; `new` is the row after the assignments.  The key
that endpoints and embeddings refer to may change only while none does. -/
def updateEdge (x : Uuid) (new : EdgeRow) : EdgeM Unit := do
  let s ← get
  match s.db.findEdge x with
  | none => pure ()
  | some old => do
    raiseIf (new.id ≠ x ∧ ∃ o ∈ s.db.edges, o.id = new.id)
      ⟨.uniqueViolation, "knowledge_edges_pkey", ""⟩
    checkEdge new
    raiseIf ((new.companyId ≠ old.companyId ∨ new.id ≠ old.id) ∧
        ∃ ep ∈ s.db.endpoints, ep.companyId = old.companyId ∧ ep.edgeId = old.id)
      ⟨.foreignKeyViolation, "knowledge_edge_endpoints_company_id_edge_id_fkey", ""⟩
    raiseIf ((new.companyId ≠ old.companyId ∨ new.id ≠ old.id) ∧
        ∃ p ∈ s.db.embeddings, p.companyId = old.companyId ∧ p.edgeId = old.id)
      ⟨.foreignKeyViolation, "knowledge_edge_embeddings_company_id_edge_id_fkey", ""⟩
    modify fun s => { s with
      db := { s.db with edges := s.db.edges.map fun e => if e.id = x then new else e } }
    historyUpdate new

/-- `DELETE FROM knowledge_edges WHERE id = x`, with the cascades. -/
def deleteEdge (x : Uuid) : EdgeM Unit := do
  let s ← get
  match s.db.findEdge x with
  | none => pure ()
  | some old => do
    historyDelete old
    modify fun s =>
      { s with
        db := { s.db with
          edges := s.db.edges.filter fun e => e.id ≠ x
          endpoints := s.db.endpoints.filter fun ep =>
            ¬(ep.companyId = old.companyId ∧ ep.edgeId = x)
          embeddings := s.db.embeddings.filter fun p =>
            ¬(p.companyId = old.companyId ∧ p.edgeId = x) }
        queue := s.queue ++ (s.db.endpoints.filter fun ep =>
          ep.companyId = old.companyId ∧ ep.edgeId = x).map fun ep => .endpoint ep.edgeId }

def insertEndpoint (ep : EdgeEndpoint) : EdgeM Unit := do
  let s ← get
  raiseIf (∃ o ∈ s.db.endpoints, o.edgeId = ep.edgeId ∧ o.ordinal = ep.ordinal)
    ⟨.uniqueViolation, "knowledge_edge_endpoints_pkey", ""⟩
  raiseIf (∃ o ∈ s.db.endpoints, o.edgeId = ep.edgeId ∧ o.chunkId = ep.chunkId)
    ⟨.uniqueViolation, "knowledge_edge_endpoints_edge_id_chunk_id_key", ""⟩
  raiseIf (¬s.db.HasEdge ep.edgeId ep.companyId)
    ⟨.foreignKeyViolation, "knowledge_edge_endpoints_company_id_edge_id_fkey", ""⟩
  raiseIf ((ep.companyId, ep.chunkId) ∉ s.db.documentChunks)
    ⟨.foreignKeyViolation, "knowledge_edge_endpoints_company_id_chunk_id_fkey", ""⟩
  modify fun s => { s with
    db := { s.db with endpoints := s.db.endpoints ++ [ep] }
    queue := s.queue ++ [.endpoint ep.edgeId] }

/-- `UPDATE knowledge_edge_endpoints ... WHERE edge_id = x AND ordinal = i`:
`knowledge_edge_endpoints_reject_write_fn` raises. -/
def updateEndpoint (x : Uuid) (i : Fin 2) : EdgeM Unit := do
  let s ← get
  match s.db.findEndpoint x i with
  | none => pure ()
  | some _ =>
    throw ⟨.insufficientPrivilege, "knowledge_edge_endpoints_immutable",
      "knowledge_edge_endpoints is immutable; UPDATE rejected. " ++
        "Delete and recreate the edge instead."⟩

def deleteEndpoint (x : Uuid) (i : Fin 2) : EdgeM Unit := do
  let s ← get
  match s.db.findEndpoint x i with
  | none => pure ()
  | some old => do
    raiseIf (∃ e ∈ s.db.edges, e.id = old.edgeId)
      ⟨.insufficientPrivilege, "knowledge_edge_endpoints_no_orphan_delete",
        "knowledge_edge_endpoints cannot be deleted while parent edge exists; " ++
          "delete the parent edge instead (cascade will remove endpoints)."⟩
    modify fun s => { s with
      db := { s.db with endpoints := s.db.endpoints.filter (· ≠ old) }
      queue := s.queue ++ [.endpoint old.edgeId] }

def insertEmbedding (p : EdgePoint) : EdgeM Unit := do
  let s ← get
  raiseIf (∃ o ∈ s.db.embeddings, o.edgeId = p.edgeId ∧ o.embeddingModelId = p.embeddingModelId)
    ⟨.uniqueViolation, "knowledge_edge_embeddings_pkey", ""⟩
  raiseIf (∃ o ∈ s.db.embeddings,
      o.embeddingModelId = p.embeddingModelId ∧ o.qdrantPointId = p.qdrantPointId)
    ⟨.uniqueViolation, "knowledge_edge_embeddings_point_uniq", ""⟩
  raiseIf (p.embeddingModelId ∉ s.db.embeddingModels)
    ⟨.foreignKeyViolation, "knowledge_edge_embeddings_embedding_model_id_fkey", ""⟩
  raiseIf (¬s.db.HasEdge p.edgeId p.companyId)
    ⟨.foreignKeyViolation, "knowledge_edge_embeddings_company_id_edge_id_fkey", ""⟩
  modify fun s => { s with db := { s.db with embeddings := s.db.embeddings ++ [p] } }

inductive EdgeStmt
  | insertEdge (e : EdgeRow)
  | updateEdge (x : Uuid) (new : EdgeRow)
  | deleteEdge (x : Uuid)
  | insertEndpoint (ep : EdgeEndpoint)
  | updateEndpoint (x : Uuid) (i : Fin 2)
  | deleteEndpoint (x : Uuid) (i : Fin 2)
  | insertEmbedding (p : EdgePoint)
deriving DecidableEq, Repr

def EdgeStmt.run : EdgeStmt → EdgeM Unit
  | .insertEdge e => Wikore.insertEdge e
  | .updateEdge x new => Wikore.updateEdge x new
  | .deleteEdge x => Wikore.deleteEdge x
  | .insertEndpoint ep => Wikore.insertEndpoint ep
  | .updateEndpoint x i => Wikore.updateEndpoint x i
  | .deleteEndpoint x i => Wikore.deleteEndpoint x i
  | .insertEmbedding p => Wikore.insertEmbedding p

/-! ### Transactions -/

/-- The statements of a transaction, each with the time that passes before it, and the times that
pass before the deferred triggers of the commit. -/
structure EdgeTransaction where
  statements : List (Nat × EdgeStmt)
  commitGaps : List Nat := []
deriving DecidableEq, Repr

/-- Runs one statement or trigger at a later instant.  No two readings of the clock are equal. -/
def atNextInstant (gap : Nat) (m : EdgeM Unit) : EdgeM Unit := do
  modify fun s => { s with clock := s.clock + gap + 1 }
  m
  modify fun s => { s with trace := s.trace ++ [(s.clock, s.db)] }

/-- The deferred triggers, in the order in which their events were queued. -/
def fireDeferred : List Nat → List Deferred → EdgeM Unit
  | _, [] => pure ()
  | gaps, event :: events => do
    atNextInstant (gaps.headD 0) event.fire
    fireDeferred gaps.tail events

def EdgeTransaction.body (tx : EdgeTransaction) : EdgeM Unit := do
  forEach (fun st => atNextInstant st.1 st.2.run) tx.statements
  let s ← get
  fireDeferred tx.commitGaps s.queue
  modify fun s => { s with queue := [] }

/-- The time that the statements and the commit take. -/
def EdgeTransaction.elapsed (tx : EdgeTransaction) : Nat :=
  (tx.statements.map fun st => st.1 + 1).sum + (tx.commitGaps.map (· + 1)).sum

/-- A transaction that raises leaves nothing behind, but time has passed. -/
def EdgeTransaction.run (s : EdgeStore) (tx : EdgeTransaction) : EdgeStore :=
  match tx.body s with
  | .ok _ s' => s'
  | .error _ _ => { s with clock := s.clock + tx.elapsed }

end Wikore
