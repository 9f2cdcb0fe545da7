import Wikore.Rag.EdgeReads

/-! What the callers of `KnowledgeEdgeRepo` may rely on: a book of edges, each with its two endpoints,
that gives out no id twice.  It has no endpoint table, no history, no triggers and no second
statement. -/

namespace Wikore

open Fallible (rejectIf)
open KnowledgeEdgeRepo
open Orgs (looksLikeUuid)

/-! ### Calls of the repository -/

/-- A call, or the bookkeeping of the worker that indexes edges. -/
inductive EdgeCall
  | create (call : CreateCall)
  | get (companyId : Uuid) (edgeId : String)
  | list (companyId : Uuid) (filter : ListKnowledgeEdgesFilter)
  | update (edgeId : String) (call : UpdateCall)
  | remove (companyId : Uuid) (edgeId : String) (gap : Nat)
  | embed (p : EdgePoint) (gap : Nat)
deriving DecidableEq, Repr

/-- The value of a call that succeeds. -/
inductive EdgeReply
  | edge (a : Answer)
  | edges (as : List Answer)
  | done
deriving DecidableEq, Repr

/-- The time that passes before the statement of a call. -/
def EdgeCall.gap : EdgeCall → Nat
  | create call => call.gap
  | update _ call => call.gap
  | remove _ _ gap => gap
  | embed _ gap => gap
  | get _ _ => 0
  | list _ _ => 0

/-- The tenant of a call. -/
def EdgeCall.company : EdgeCall → Uuid
  | create call => call.companyId
  | get companyId _ => companyId
  | list companyId _ => companyId
  | update _ call => call.companyId
  | remove companyId _ _ => companyId
  | embed p _ => p.companyId

/-- A call alone: nothing commits between its statements. -/
def EdgeCall.run (casts : PgCasts) (s : EdgeStore) :
    EdgeCall → Except UpdateError EdgeReply × EdgeStore
  | create call => let (reply, s') := KnowledgeEdgeRepo.create casts call s; (reply.map .edge, s')
  | get companyId edgeId => ((KnowledgeEdgeRepo.get companyId edgeId s.db s.db).map .edge, s)
  | list companyId filter => ((KnowledgeEdgeRepo.list companyId filter s.db s.db).map .edges, s)
  | update edgeId call => let (reply, s') := updateById casts edgeId call s; (reply.map .edge, s')
  | remove companyId edgeId gap =>
    let (reply, s') := KnowledgeEdgeRepo.remove companyId edgeId gap s
    (reply.map fun _ => .done, s')
  | embed p gap => (.ok .done, (commit { statements := [(gap, .insertEmbedding p)] } s).2)

/-- What the calls are answered, one after the other. -/
def edgeReplies (casts : PgCasts) : EdgeStore → List EdgeCall → List (Except UpdateError EdgeReply)
  | _, [] => []
  | s, call :: calls => (call.run casts s).1 :: edgeReplies casts (call.run casts s).2 calls

/-- `now()` in each of the calls. -/
def edgeInstants (casts : PgCasts) : EdgeStore → List EdgeCall → List Nat
  | _, [] => []
  | s, call :: calls => (s.clock + call.gap + 1) :: edgeInstants casts (call.run casts s).2 calls

/-! ### The book -/

/-- The rows that foreign keys of the edges refer to. -/
structure EdgeRefs where
  companies : List Uuid
  users : List (Uuid × Uuid)
  documentChunks : List (Uuid × Uuid)
deriving DecidableEq, Repr

/-- A refusal.  That of the database stands for what `map_db_exception` makes of its error. -/
inductive Refusal
  | notFound
  | invalidInput (message : String)
  | database
deriving DecidableEq, Repr

def UpdateError.refusal : UpdateError → Refusal
  | .notFound => .notFound
  | .invalidInput message => .invalidInput message
  | .database _ => .database

/-- The edges in the order in which they were created, and the ids of those that were removed. -/
structure EdgeBook where
  edges : List EdgeSnapshot := []
  retired : List Uuid := []
deriving DecidableEq, Repr

/-- The columns of an edge are admitted. -/
def EdgeRefs.RowOk (refs : EdgeRefs) (e : EdgeRow) : Prop :=
  unitInterval e.confidence = true ∧ (∀ u ∈ e.expiresAt, e.createdAt < u) ∧
    e.companyId ∈ refs.companies ∧ (∀ u ∈ e.createdBy, (e.companyId, u) ∈ refs.users) ∧
    ∀ u ∈ e.reviewedBy, (e.companyId, u) ∈ refs.users

instance (refs : EdgeRefs) (e : EdgeRow) : Decidable (refs.RowOk e) :=
  inferInstanceAs (Decidable (_ ∧ _ ∧ _ ∧ _ ∧ _))

def EdgeSnapshot.answer (snap : EdgeSnapshot) : Answer := ⟨snap.edge, snap.endpoints⟩

namespace EdgeBook

variable (b : EdgeBook)

def find (companyId x : Uuid) : Option EdgeSnapshot :=
  b.edges.find? fun snap => snap.edge.id = x ∧ snap.edge.companyId = companyId

def get (companyId : Uuid) (edgeId : String) : Except Refusal Answer :=
  if looksLikeUuid edgeId = false then .error .notFound
  else
    match b.find companyId (uuidOf edgeId) with
    | none => .error .notFound
    | some snap => .ok snap.answer

def Matches (companyId : Uuid) (filter : ListKnowledgeEdgesFilter) (snap : EdgeSnapshot) : Prop :=
  snap.edge.companyId = companyId ∧ (∀ t ∈ filter.edgeType, snap.edge.edgeType = t) ∧
    (∀ r ∈ filter.reviewState, snap.edge.reviewState = r) ∧
    ∀ c ∈ filter.chunk, snap.endpoint0ChunkId = c ∨ snap.endpoint1ChunkId = c

instance (companyId : Uuid) (filter : ListKnowledgeEdgesFilter) (snap : EdgeSnapshot) :
    Decidable (Matches companyId filter snap) := inferInstanceAs (Decidable (_ ∧ _ ∧ _ ∧ _))

/-- The edges that match, newest first, without the first `offset` and at most `limit`. -/
def list (companyId : Uuid) (filter : ListKnowledgeEdgesFilter) : Except Refusal (List Answer) :=
  let all := (b.edges.filter fun snap => Matches companyId filter snap).insertionSort
    fun a b => NewestFirst a.edge b.edge
  if filter.offset < 0 ∨ filter.limit < 0 then .error .database
  else .ok (((all.drop filter.offset.toNat).take filter.limit.toNat).map EdgeSnapshot.answer)

/-- The edge of a call, with the row that the call gives it. -/
def newSnapshot (cmd : CreateKnowledgeEdgeCmd) (row : EdgeRow) : EdgeSnapshot :=
  ⟨row, uuidOf cmd.endpoint0.chunkId, uuidOf cmd.endpoint1.chunkId, cmd.endpoint0.role,
    cmd.endpoint1.role⟩

/-- A new edge goes in under an id that no edge has or had, between two chunks of its company. -/
def Admits (refs : EdgeRefs) (snap : EdgeSnapshot) : Prop :=
  snap.edge.id ∉ b.retired ∧ (∀ o ∈ b.edges, o.edge.id ≠ snap.edge.id) ∧ refs.RowOk snap.edge ∧
    snap.endpoint0ChunkId ≠ snap.endpoint1ChunkId ∧
    (snap.edge.companyId, snap.endpoint0ChunkId) ∈ refs.documentChunks ∧
    (snap.edge.companyId, snap.endpoint1ChunkId) ∈ refs.documentChunks

instance (refs : EdgeRefs) (snap : EdgeSnapshot) : Decidable (b.Admits refs snap) :=
  inferInstanceAs (Decidable (_ ∧ _ ∧ _ ∧ _ ∧ _ ∧ _))

variable (refs : EdgeRefs) (casts : PgCasts) (now : Nat)

def create (call : CreateCall) : Except Refusal Answer × EdgeBook :=
  match checkCreate call.cmd with
  | .error e => (.error e.refusal, b)
  | .ok () =>
    match createdRow casts call now with
    | .error _ => (.error .database, b)
    | .ok row =>
      let snap := newSnapshot call.cmd row
      if b.Admits refs snap then (.ok snap.answer, { b with edges := b.edges ++ [snap] })
      else (.error .database, b)

/-- The row `new` goes in the place of the edge that has its id. -/
def replace (new : EdgeRow) : EdgeBook :=
  { b with edges := b.edges.map fun o => if o.edge.id = new.id then { o with edge := new } else o }

def update (edgeId : String) (call : UpdateCall) : Except Refusal Answer × EdgeBook :=
  if looksLikeUuid edgeId = false then (.error .notFound, b)
  else if call.cmd = {} then (b.get call.companyId edgeId, b)
  else if ∃ c ∈ call.cmd.confidence, c.outOfRange = true then
    (.error (.invalidInput "knowledge_edge.confidence must be in [0.0, 1.0]"), b)
  else
    match boundProvenance casts call with
    | .error _ => (.error .database, b)
    | .ok provenance =>
      match b.find call.companyId (uuidOf edgeId) with
      | none => (.error .notFound, b)
      | some snap =>
        match assigned casts call provenance now snap.edge with
        | .error _ => (.error .database, b)
        | .ok new =>
          if refs.RowOk new then (.ok { snap with edge := new }.answer, b.replace new)
          else (.error .database, b)

def remove (companyId : Uuid) (edgeId : String) : Except Refusal Unit × EdgeBook :=
  if looksLikeUuid edgeId = false then (.error .notFound, b)
  else if b.find companyId (uuidOf edgeId) = none then (.error .notFound, b)
  else (.ok (), ⟨b.edges.filter fun o => o.edge.id ≠ uuidOf edgeId, b.retired ++ [uuidOf edgeId]⟩)

/-- A call on the book, at the instant `now`. -/
def run : EdgeCall → Except Refusal EdgeReply × EdgeBook
  | .create call => let (reply, b') := b.create refs casts now call; (reply.map .edge, b')
  | .get companyId edgeId => ((b.get companyId edgeId).map .edge, b)
  | .list companyId filter => ((b.list companyId filter).map .edges, b)
  | .update edgeId call => let (reply, b') := b.update refs casts now edgeId call; (reply.map .edge, b')
  | .remove companyId edgeId _ =>
    let (reply, b') := b.remove companyId edgeId
    (reply.map fun _ => .done, b')
  | .embed _ _ => (.ok .done, b)

end EdgeBook

/-- What the book answers calls at their instants. -/
def bookReplies (refs : EdgeRefs) (casts : PgCasts) :
    EdgeBook → List (Nat × EdgeCall) → List (Except Refusal EdgeReply)
  | _, [] => []
  | b, (now, call) :: calls =>
    (b.run refs casts now call).1 :: bookReplies refs casts (b.run refs casts now call).2 calls

end Wikore
