import Mathlib.Data.List.Sort
import Wikore.Api.OrgsTree
import Wikore.Rag.EdgeReview

/-! `KnowledgeEdgeRepo`: the calls that create, read, list, update and remove the edges of a company.
An answer is read by two statements, between which other transactions may commit. -/

namespace Wikore

open Fallible (rejectIf)
open Orgs (looksLikeUuid)

namespace KnowledgeEdgeRepo

/-- The value of a hexadecimal digit in either case. -/
def hexValue (c : Char) : Nat := if c.isDigit then c.toNat - 48 else c.toLower.toNat - 87

/-- `s::uuid`, for a string that looks like a UUID. -/
def uuidOf (s : String) : Uuid :=
  ⟨BitVec.ofNat 128 ((s.toList.filter fun c => c ≠ '-').foldl (fun n c => 16 * n + hexValue c) 0)⟩

theorem hexValue_hexDigit {n : Nat} (hn : n < 16) : hexValue (hexDigit n) = n := by
  have hall : ∀ n < 16, hexValue (hexDigit n) = n := by decide
  exact hall n hn

/-- The `k` last hexadecimal digits of a number, read back. -/
theorem foldl_hexDigits (n k : Nat) :
    ((List.range k).map fun i => hexDigit (n / 16 ^ (k - 1 - i) % 16)).foldl
      (fun m c => 16 * m + hexValue c) 0 = n % 16 ^ k := by
  induction k generalizing n with
  | zero => simp [Nat.mod_one]
  | succ k ih =>
    have hfirst : (List.range k).map (fun i => hexDigit (n / 16 ^ (k + 1 - 1 - i) % 16)) =
        (List.range k).map fun i => hexDigit (n / 16 / 16 ^ (k - 1 - i) % 16) := by
      refine List.map_congr_left fun i hi => ?_
      have hlt := List.mem_range.mp hi
      rw [Nat.div_div_eq_div_mul, ← Nat.pow_succ', show (k - 1 - i).succ = k + 1 - 1 - i by omega]
    rw [List.range_succ, List.map_append, List.foldl_append, hfirst, ih]
    simp only [List.map_cons, List.map_nil, List.foldl_cons, List.foldl_nil]
    rw [show k + 1 - 1 - k = 0 by omega, Nat.pow_zero, Nat.div_one,
      hexValue_hexDigit (Nat.mod_lt _ (by omega)), Nat.pow_succ', Nat.mod_mul, Nat.add_comm]

theorem filter_text (x : Uuid) : (Uuid.text x).toList.filter (fun c => c ≠ '-') = Uuid.digits x := by
  have hdigit : ∀ c ∈ Uuid.digits x, decide (c ≠ '-') = true := by
    intro c hc
    refine decide_eq_true fun hdash => ?_
    have hx := (Orgs.mem_digits hc).1
    rw [hdash] at hx
    exact absurd hx (by decide)
  rw [Uuid.text, String.toList_ofList]
  generalize Uuid.digits x = d at hdigit
  have hdrop : ∀ n, (d.drop n).filter (fun c => c ≠ '-') = d.drop n := fun n =>
    List.filter_eq_self.mpr fun c hc => hdigit c (List.mem_of_mem_drop hc)
  have htake : ∀ n m, ((d.drop n).take m).filter (fun c => c ≠ '-') = (d.drop n).take m :=
    fun n m => List.filter_eq_self.mpr fun c hc =>
      hdigit c (List.mem_of_mem_drop (List.mem_of_mem_take hc))
  have hstep : ∀ n m, (d.drop n).take m ++ d.drop (n + m) = d.drop n := fun n m => by
    rw [← List.drop_drop, List.take_append_drop]
  have hfirst := htake 0 8
  rw [List.drop_zero] at hfirst
  have hdash : ∀ l : List Char, ('-' :: l).filter (fun c => c ≠ '-') =
      l.filter fun c => c ≠ '-' := fun l => List.filter_cons_of_neg (by decide)
  simp only [List.append_assoc, List.cons_append, List.filter_append, hdash, hfirst, htake, hdrop]
  rw [hstep 16 4, hstep 12 4, hstep 8 4, List.take_append_drop]

/-- The text of a UUID is cast to it. -/
theorem uuidOf_text (x : Uuid) : uuidOf (Uuid.text x) = x := by
  have hbits := foldl_hexDigits x.bits.toNat 32
  rw [show 16 ^ 32 = 2 ^ 128 by decide, Nat.mod_eq_of_lt x.bits.isLt] at hbits
  rw [uuidOf, filter_text, Uuid.digits]
  exact congrArg Uuid.mk ((congrArg (BitVec.ofNat 128) hbits).trans (BitVec.ofNat_toNat 128 x.bits))

/-! ### Reading -/

/-- A `KnowledgeEdgeEndpoint`. -/
structure Endpoint where
  ordinal : Fin 2
  chunkId : Uuid
  role : EndpointRole
deriving DecidableEq, Repr

/-- A `domain::KnowledgeEdge`: the columns of an edge, and its endpoints. -/
structure Answer where
  edge : EdgeRow
  endpoints : List Endpoint
deriving DecidableEq, Repr

/-- `load_endpoints`, of the edge `x` among the edges `ids`. -/
def loadEndpoints (db : EdgeTables) (companyId : Uuid) (ids : List Uuid) (x : Uuid) :
    List Endpoint :=
  ((db.endpoints.filter fun ep => ep.companyId = companyId ∧ ep.edgeId ∈ ids ∧ ep.edgeId = x)
    |>.insertionSort fun a b => a.ordinal ≤ b.ordinal).map fun ep =>
      ⟨ep.ordinal, ep.chunkId, ep.role⟩

/-- `WHERE id = x AND company_id = companyId`. -/
def selectEdge (db : EdgeTables) (companyId x : Uuid) : Option EdgeRow :=
  (db.findEdge x).filter fun e => e.companyId = companyId

/-- `KnowledgeEdgeRepo::get`.  Its statements see the tables `db` and `later`. -/
def get (companyId : Uuid) (edgeId : String) (db later : EdgeTables) : Except UpdateError Answer :=
  if looksLikeUuid edgeId = false then .error .notFound
  else
    match selectEdge db companyId (uuidOf edgeId) with
    | none => .error .notFound
    | some edge => .ok ⟨edge, loadEndpoints later companyId [edge.id] edge.id⟩

/-- The filter of `list`.  `edges_list` lets no text through that does not look like a UUID; whether
PostgreSQL casts such a text depends on its plan. -/
structure ListKnowledgeEdgesFilter where
  edgeType : Option EdgeType := none
  reviewState : Option ReviewState := none
  endpointChunkId : Option String := none
  limit : Int := 50
  offset : Int := 0
  chunkUuid : ∀ text ∈ endpointChunkId, text = "" ∨ looksLikeUuid text = true := by simp
deriving DecidableEq, Repr

/-- `$4::uuid`, where `$4::text = ''` does not hold. -/
def ListKnowledgeEdgesFilter.chunk (filter : ListKnowledgeEdgesFilter) : Option Uuid :=
  (filter.endpointChunkId.filter fun text => text ≠ "").map uuidOf

section List

variable (companyId : Uuid) (filter : ListKnowledgeEdgesFilter) (db : EdgeTables)

/-- The `WHERE` of `list`. -/
def Matches (e : EdgeRow) : Prop :=
  e.companyId = companyId ∧ (∀ t ∈ filter.edgeType, e.edgeType = t) ∧
    (∀ r ∈ filter.reviewState, e.reviewState = r) ∧
    ∀ c ∈ filter.chunk,
      ∃ ep ∈ db.endpoints, ep.companyId = companyId ∧ ep.chunkId = c ∧ ep.edgeId = e.id

instance (e : EdgeRow) : Decidable (Matches companyId filter db e) :=
  inferInstanceAs (Decidable (_ ∧ _ ∧ _ ∧ _))

/-- `ORDER BY created_at DESC, id ASC`. -/
def NewestFirst (a b : EdgeRow) : Prop :=
  b.createdAt < a.createdAt ∨ b.createdAt = a.createdAt ∧ a.id.bits.toNat ≤ b.id.bits.toNat

instance (a b : EdgeRow) : Decidable (NewestFirst a b) := inferInstanceAs (Decidable (_ ∨ _))

/-- The rows before `LIMIT` and `OFFSET`. -/
def listed : List EdgeRow :=
  (db.edges.filter fun e => Matches companyId filter db e).insertionSort NewestFirst

/-- `LIMIT $5::int OFFSET $6::int`. -/
def page : Except EdgeError (List EdgeRow) := do
  rejectIf (filter.offset < 0)
    ⟨.invalidRowCountInResultOffsetClause, "", "OFFSET must not be negative"⟩
  rejectIf (filter.limit < 0) ⟨.invalidRowCountInLimitClause, "", "LIMIT must not be negative"⟩
  return ((listed companyId filter db).drop filter.offset.toNat).take filter.limit.toNat

/-- `KnowledgeEdgeRepo::list`.  Its statements see the tables `db` and `later`. -/
def list (later : EdgeTables) : Except UpdateError (List Answer) := do
  let rows ← (page companyId filter db).mapError .database
  return rows.map fun e => ⟨e, loadEndpoints later companyId (rows.map fun e => e.id) e.id⟩

end List

/-! ### Writing -/

/-- A `KnowledgeEdgeEndpoint` of a command. -/
structure EndpointCmd where
  ordinal : Int
  chunkId : String
  role : EndpointRole
deriving DecidableEq, Repr

structure CreateKnowledgeEdgeCmd where
  edgeType : EdgeType
  direction : EdgeDirection
  confidence : Confidence
  origin : EdgeOrigin
  reviewState : Option ReviewState := none
  provenanceJson : String := ""
  expiresAt : Option String := none
  endpoint0 : EndpointCmd
  endpoint1 : EndpointCmd
deriving DecidableEq, Repr

/-- A call of `create`, with the id that `gen_random_uuid` gives and the time that passes before its
statement. -/
structure CreateCall where
  companyId : Uuid
  actorUserId : Uuid
  cmd : CreateKnowledgeEdgeCmd
  newId : Uuid
  gap : Nat := 0
deriving DecidableEq, Repr

/-- The checks of `create` before its statement. -/
def checkCreate (cmd : CreateKnowledgeEdgeCmd) : Except UpdateError Unit := do
  rejectIf (cmd.confidence.outOfRange = true)
    (.invalidInput "knowledge_edge.confidence must be in [0.0, 1.0]")
  rejectIf (cmd.endpoint0.chunkId = cmd.endpoint1.chunkId)
    (.invalidInput "knowledge_edge endpoints must reference different chunks")
  rejectIf (cmd.endpoint0.ordinal ≠ 0 ∨ cmd.endpoint1.ordinal ≠ 1)
    (.invalidInput "knowledge_edge endpoint ordinals must be exactly 0 and 1")
  rejectIf (looksLikeUuid cmd.endpoint0.chunkId = false ∨ looksLikeUuid cmd.endpoint1.chunkId = false)
    (.invalidInput "knowledge_edge endpoint chunk_id is not a valid UUID")

/-- The row that the `INSERT` of `create` writes; `now` is its `now()`. -/
def createdRow (casts : PgCasts) (call : CreateCall) (now : Nat) : Except EdgeError EdgeRow := do
  let cmd := call.cmd
  let review := cmd.reviewState.getD .accepted
  let stamps := reviewStamps { reviewState := some review }
  let provenance ← casts.jsonb
    (textParam (if cmd.provenanceJson = "" then "\x7b\x7d" else cmd.provenanceJson))
  let expiresAt ← expiry casts now (cmd.expiresAt.getD "")
  .ok {
    id := call.newId
    companyId := call.companyId
    edgeType := cmd.edgeType
    direction := cmd.direction
    confidence := cmd.confidence.real
    origin := cmd.origin
    reviewState := review
    edgeVersion := 1
    expiresAt
    supersededAt := if review = .superseded then some now else none
    provenance
    createdBy := some call.actorUserId
    reviewedBy := if stamps then some call.actorUserId else none
    createdAt := now
    reviewedAt := if stamps then some now else none }

/-- The statement of `create`: the edge and its endpoints. -/
def createTransaction (cmd : CreateKnowledgeEdgeCmd) (gap : Nat) (row : EdgeRow) :
    EdgeTransaction where
  statements := [(gap, .insertEdge row),
    (0, .insertEndpoint ⟨row.companyId, row.id, 0, uuidOf cmd.endpoint0.chunkId,
      cmd.endpoint0.role⟩),
    (0, .insertEndpoint ⟨row.companyId, row.id, 1, uuidOf cmd.endpoint1.chunkId,
      cmd.endpoint1.role⟩)]

/-- What a transaction answers, and the store after it. -/
def commit (tx : EdgeTransaction) (s : EdgeStore) : Except UpdateError Unit × EdgeStore :=
  match tx.body s with
  | .ok _ s' => (.ok (), s')
  | .error e _ => (.error (.database e), { s with clock := s.clock + tx.elapsed })

/-- `KnowledgeEdgeRepo::create`. -/
def create (casts : PgCasts) (call : CreateCall) (s : EdgeStore) :
    Except UpdateError Answer × EdgeStore :=
  match checkCreate call.cmd with
  | .error e => (.error e, s)
  | .ok () =>
    match createdRow casts call (s.clock + call.gap + 1) with
    | .error e => (.error (.database e), { s with clock := s.clock + call.gap + 1 })
    | .ok row =>
      let (reply, s') := commit (createTransaction call.cmd call.gap row) s
      (do reply; get call.companyId (Uuid.text row.id) s'.db s'.db, s')

/-- `KnowledgeEdgeRepo::update` by the text of the id. -/
def updateById (casts : PgCasts) (edgeId : String) (call : UpdateCall) (s : EdgeStore) :
    Except UpdateError Answer × EdgeStore :=
  if looksLikeUuid edgeId = false then (.error .notFound, s)
  else
    let (reply, s') := update casts (uuidOf edgeId) call s
    (do reply; get call.companyId edgeId s'.db s'.db, s')

/-- `KnowledgeEdgeRepo::remove`. -/
def remove (companyId : Uuid) (edgeId : String) (gap : Nat) (s : EdgeStore) :
    Except UpdateError Unit × EdgeStore :=
  if looksLikeUuid edgeId = false then (.error .notFound, s)
  else if selectEdge s.db companyId (uuidOf edgeId) = none then
    (.error .notFound, { s with clock := s.clock + gap + 1 })
  else commit { statements := [(gap, .deleteEdge (uuidOf edgeId))] } s

end KnowledgeEdgeRepo

end Wikore
