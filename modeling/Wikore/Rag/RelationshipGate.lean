import Wikore.Rag.EvidenceGate

/-! `RelationshipEvidenceGate::evaluate`: an edge between two chunks is shown when both of its
endpoints may be shown.  The gate is compared with `EvidenceGate` on the endpoints, and both gates
are shown to depend on the rows of the caller's company only. -/

namespace Wikore

open Query

/-- A result of the vector search on the edge collection, with any text or a canonical UUID as its
id. -/
structure EdgeCandidate (Id : Type := Uuid) where
  edgeId : Id
  companyId : String := ""
  edgeType : String := ""
  score : Real4 := 0
  edgeVersion : Int := 0
  formulaVersion : Int := 0
  endpoint0ChunkId : String := ""
  endpoint1ChunkId : String := ""
deriving DecidableEq, Repr

structure AllowedEndpoint where
  ordinal : Fin 2
  role : String
  chunkId : String
  documentVersionId : String
  text : String
  sectionHeading : Option String
deriving DecidableEq, Repr

structure AllowedRelationship where
  companyId : Uuid
  edgeId : String
  edgeType : String
  direction : String
  origin : String
  score : Real4
  confidence : Real4
  reviewState : String
  edgeVersion : Int
  endpoint0 : AllowedEndpoint
  endpoint1 : AllowedEndpoint
deriving DecidableEq, Repr

structure HydratedRow where
  edgeId : String := ""
  edgeType : String := ""
  direction : String := ""
  origin : String := ""
  confidence : Real4 := 0
  reviewState : String := ""
  edgeVersion : Int := 0
  ordinal : Fin 2 := 0
  role : String := ""
  chunkId : String := ""
  documentVersionId : String := ""
  content : String := ""
  sectionHeading : Option String := none
deriving DecidableEq, Repr

/-- A row of the common table expression `cand_docs`. -/
structure EndpointRow where
  docId : Uuid
  edgeId : Uuid
  ordinal : Fin 2
  chunkId : Uuid
  role : EndpointRole
  documentVersionId : Uuid
  sectionId : Option Uuid
  content : String
deriving DecidableEq, Repr

namespace RelationshipEvidenceGate

/-! ### The query `kGateSql` -/

section GateSql

variable (db : EvidenceDb) (q : GateQuery) (states : List ReviewState) (ids : List Uuid)

/-- The edge may be shown, its endpoints apart. -/
def OpenEdge (e : KnowledgeEdge) : Prop :=
  e.companyId = q.company ∧ e.reviewState ∈ states ∧ unexpired q.now e.expiresAt = true ∧
    unexpired q.now e.supersededAt = true

instance (e : KnowledgeEdge) : Decidable (OpenEdge q states e) :=
  inferInstanceAs (Decidable (_ ∧ _))

def edgeRecords : List KnowledgeEdge :=
  db.knowledgeEdges.filter fun e => e.id ∈ ids.dedup ∧ OpenEdge q states e

def requiredEndpoints : List EdgeEndpoint :=
  db.knowledgeEdgeEndpoints.flatMap fun ep =>
    ((edgeRecords db q states ids).filter fun er =>
      er.id = ep.edgeId ∧ ep.companyId = q.company).map fun _ => ep

def endpointRow (ep : EdgeEndpoint) (dc : DocumentChunk) (d : Document) : EndpointRow :=
  ⟨d.id, ep.edgeId, ep.ordinal, ep.chunkId, ep.role, dc.documentVersionId, dc.sectionId, dc.content⟩

def endpointRows : List EndpointRow :=
  ((requiredEndpoints db q states ids).flatMap fun ep =>
    ((chunkJoin db).filter fun (dc, dv, _) => dc.id = ep.chunkId ∧ q.Selects dc dv).map
      fun (dc, _, d) => endpointRow ep dc d).dedup

def authorizedEndpoints : List EndpointRow :=
  let visible := visibleDocIds db.toAccessDb q.now q.company q.scope
    ((endpointRows db q states ids).map EndpointRow.docId).dedup
  (endpointRows db q states ids).filter fun cd => cd.docId ∈ visible

/-- `required_endpoints ep LEFT JOIN authorized_endpoints ae`. -/
def endpointJoin : List (EdgeEndpoint × Option EndpointRow) :=
  (requiredEndpoints db q states ids).flatMap fun ep =>
    (leftJoin (authorizedEndpoints db q states ids) fun ae =>
      ae.edgeId = ep.edgeId ∧ ae.ordinal = ep.ordinal).map fun ae => (ep, ae)

/-- `GROUP BY ep.edge_id HAVING count(*) = 2 AND count(ae.ordinal) = 2`. -/
def admittedEdges : List Uuid :=
  ((endpointJoin db q states ids).map fun r => r.1.edgeId).dedup.filter fun id =>
    ((endpointJoin db q states ids).filter fun r => r.1.edgeId = id).length = 2 ∧
      ((endpointJoin db q states ids).filter fun r => r.1.edgeId = id ∧ r.2.isSome).length = 2

def hydratedRow (er : KnowledgeEdge) (ae : EndpointRow) (ds : Option DocumentSection) :
    HydratedRow where
  edgeId := Uuid.text er.id
  edgeType := er.edgeType.text
  direction := er.direction.text
  origin := er.origin.text
  confidence := er.confidence
  reviewState := er.reviewState.text
  edgeVersion := er.edgeVersion
  ordinal := ae.ordinal
  role := ae.role.text
  chunkId := Uuid.text ae.chunkId
  documentVersionId := Uuid.text ae.documentVersionId
  content := ae.content
  sectionHeading := ds.bind DocumentSection.heading

/-- The rows of the gate query.  `ORDER BY` is left out: the rows are grouped by edge and ordinal,
and no two rows agree on both. -/
def gateRows : List HydratedRow :=
  (admittedEdges db q states ids).flatMap fun id =>
    ((edgeRecords db q states ids).filter fun er => er.id = id).flatMap fun er =>
      ((authorizedEndpoints db q states ids).filter fun ae => ae.edgeId = id).flatMap fun ae =>
        (leftJoin db.documentSections fun ds => some ds.id = ae.sectionId).map (hydratedRow er ae)

end GateSql

/-! ### Grouping and emission -/

/-- The last row of an edge with an ordinal; a slot that no row was assigned to holds a default
row. -/
def slot (rows : List HydratedRow) (edgeId : String) (ordinal : Fin 2) : HydratedRow :=
  (rows.reverse.find? fun r => r.edgeId = edgeId ∧ r.ordinal = ordinal).getD {}

/-- The hash map `grouped`. -/
def grouped (rows : List HydratedRow) (edgeId : String) : Option (HydratedRow × HydratedRow) :=
  if rows.any fun r => r.edgeId = edgeId then some (slot rows edgeId 0, slot rows edgeId 1)
  else none

def allowedEndpoint (ordinal : Fin 2) (r : HydratedRow) : AllowedEndpoint :=
  ⟨ordinal, r.role, r.chunkId, r.documentVersionId, r.content, r.sectionHeading⟩

/-- The row after its endpoint was moved out of it. -/
def endpointMoved (r : HydratedRow) : HydratedRow :=
  { r with
    role := ""
    chunkId := ""
    documentVersionId := ""
    content := ""
    sectionHeading := r.sectionHeading.map fun _ => "" }

/-- The row after the edge's own strings were moved out of it. -/
def edgeMoved (r : HydratedRow) : HydratedRow :=
  { r with edgeId := "", edgeType := "", direction := "", origin := "", reviewState := "" }

def allowedRelationship (company : Uuid) (c : EdgeCandidate) (row0 row1 : HydratedRow) :
    AllowedRelationship :=
  ⟨company, row0.edgeId, row0.edgeType, row0.direction, row0.origin, c.score, row0.confidence,
    row0.reviewState, row0.edgeVersion, allowedEndpoint 0 row0, allowedEndpoint 1 row1⟩

/-- The emission loop.  An edge that came back without one of its endpoints is skipped, and so is
an edge that was emitted before: its chunk ids have been moved out. -/
def emit (company : Uuid) (grouped : String → Option (HydratedRow × HydratedRow)) :
    List EdgeCandidate → List AllowedRelationship
  | [] => []
  | c :: cs =>
    match grouped (Uuid.text c.edgeId) with
    | none => emit company grouped cs
    | some (row0, row1) =>
      if row0.chunkId = "" ∨ row1.chunkId = "" then emit company grouped cs
      else
        allowedRelationship company c row0 row1 ::
          emit company (Function.update grouped (Uuid.text c.edgeId)
            (some (edgeMoved (endpointMoved row0), endpointMoved row1))) cs

/-- `RelationshipEvidenceGate::evaluate`, of candidates with canonical ids. -/
def evaluate {ε : Type} (snapshot : Except ε EvidenceDb) (q : GateQuery)
    (states : List ReviewState) (candidates : List EdgeCandidate) :
    Except ε (List AllowedRelationship) :=
  if q.scope = [] ∨ q.labels = [] ∨ states = [] ∨ candidates = [] then .ok []
  else
    snapshot.map fun db =>
      emit q.company (grouped (gateRows db q states (candidates.map EdgeCandidate.edgeId)))
        candidates

/-- A candidate under the id whose text it has, if it has that of one of the ids. -/
def spelt (ids : List Uuid) (c : EdgeCandidate String) : Option EdgeCandidate :=
  (ids.find? fun id => Uuid.text id = c.edgeId).map fun id =>
    { edgeId := id, companyId := c.companyId, edgeType := c.edgeType, score := c.score,
      edgeVersion := c.edgeVersion, formulaVersion := c.formulaVersion,
      endpoint0ChunkId := c.endpoint0ChunkId, endpoint1ChunkId := c.endpoint1ChunkId }

/-- `RelationshipEvidenceGate::evaluate`, of candidates with any ids. -/
def evaluateTexts {ε : Type} (cast : List String → Except ε (List Uuid))
    (snapshot : Except ε EvidenceDb) (q : GateQuery) (states : List ReviewState)
    (candidates : List (EdgeCandidate String)) : Except ε (List AllowedRelationship) :=
  if q.scope = [] ∨ q.labels = [] ∨ states = [] ∨ candidates = [] then .ok []
  else do
    let ids ← cast (candidates.map EdgeCandidate.edgeId)
    let db ← snapshot
    return emit q.company (grouped (gateRows db q states ids)) (candidates.filterMap (spelt ids))

/-! ### The rows of the query -/

/-- Some live chunk with this id may be shown. -/
def Shown (db : EvidenceDb) (q : GateQuery) (chunkId : Uuid) : Prop :=
  ∃ dc ∈ db.documentChunks, dc.id = chunkId ∧ Admissible db q dc

section Rows

variable {db : EvidenceDb} {q : GateQuery} {states : List ReviewState} {ids : List Uuid}

theorem mem_edgeRecords {e : KnowledgeEdge} :
    e ∈ edgeRecords db q states ids ↔
      e ∈ db.knowledgeEdges ∧ e.id ∈ ids ∧ OpenEdge q states e := by
  simp [edgeRecords]

/-- The join with the edges keeps the endpoints whose edge is among the records, each once. -/
theorem requiredEndpoints_eq (h : db.Keyed) :
    requiredEndpoints db q states ids = db.knowledgeEdgeEndpoints.filter fun ep =>
      ep.companyId = q.company ∧ ∃ er ∈ edgeRecords db q states ids, er.id = ep.edgeId := by
  unfold requiredEndpoints
  induction db.knowledgeEdgeEndpoints with
  | nil => rfl
  | cons ep eps ih =>
    rw [List.flatMap_cons, ih, List.filter_cons]
    split
    next hep =>
      obtain ⟨hc, er, her, hid⟩ := of_decide_eq_true hep
      have huniq : AtMostOne (edgeRecords db q states ids) fun er =>
          er.id = ep.edgeId ∧ ep.companyId = q.company := by
        intro a ha b hb hpa hpb
        simp only [decide_eq_true_eq] at hpa hpb
        exact List.inj_on_of_nodup_map h.edges (mem_edgeRecords.mp ha).1 (mem_edgeRecords.mp hb).1
          (hpa.1.trans hpb.1.symm)
      have hnodup : (edgeRecords db q states ids).Nodup := h.edges.of_map.filter _
      rw [filter_eq_singleton huniq hnodup her (by simp [hid, hc])]
      rfl
    next hep =>
      have hnil : (edgeRecords db q states ids).filter (fun er =>
          er.id = ep.edgeId ∧ ep.companyId = q.company) = [] := by
        rw [List.filter_eq_nil_iff]
        intro er her hp
        obtain ⟨hid, hc⟩ := of_decide_eq_true hp
        exact hep (decide_eq_true ⟨hc, er, her, hid⟩)
      rw [hnil]
      rfl

theorem mem_requiredEndpoints (h : db.Keyed) {ep : EdgeEndpoint} :
    ep ∈ requiredEndpoints db q states ids ↔ ep ∈ db.knowledgeEdgeEndpoints ∧
      ep.companyId = q.company ∧ ∃ er ∈ edgeRecords db q states ids, er.id = ep.edgeId := by
  rw [requiredEndpoints_eq h, List.mem_filter, decide_eq_true_eq]

theorem mem_endpointRows {row : EndpointRow} :
    row ∈ endpointRows db q states ids ↔ ∃ ep ∈ requiredEndpoints db q states ids,
      ∃ dc dv d, (dc, dv, d) ∈ chunkJoin db ∧ dc.id = ep.chunkId ∧ q.Selects dc dv ∧
        row = endpointRow ep dc d := by
  simp only [endpointRows, List.mem_dedup, List.mem_flatMap, List.mem_map, List.mem_filter,
    decide_eq_true_eq, Prod.exists]
  constructor
  · rintro ⟨ep, hep, dc, dv, d, ⟨hj, hid, hs⟩, rfl⟩
    exact ⟨ep, hep, dc, dv, d, hj, hid, hs, rfl⟩
  · rintro ⟨ep, hep, dc, dv, d, hj, hid, hs, rfl⟩
    exact ⟨ep, hep, dc, dv, d, ⟨hj, hid, hs⟩, rfl⟩

theorem mem_authorizedEndpoints {row : EndpointRow} :
    row ∈ authorizedEndpoints db q states ids ↔ ∃ ep ∈ requiredEndpoints db q states ids,
      ∃ dc dv d, (dc, dv, d) ∈ chunkJoin db ∧ dc.id = ep.chunkId ∧ q.Selects dc dv ∧
        d.id ∈ visibleDocIds db.toAccessDb q.now q.company q.scope [d.id] ∧
        row = endpointRow ep dc d := by
  simp only [authorizedEndpoints, List.mem_filter, decide_eq_true_eq]
  constructor
  · rintro ⟨hrow, hvis⟩
    obtain ⟨ep, hep, dc, dv, d, hj, hid, hs, rfl⟩ := mem_endpointRows.mp hrow
    exact ⟨ep, hep, dc, dv, d, hj, hid, hs, (mem_visibleDocIds_candidates.mp hvis).2, rfl⟩
  · rintro ⟨ep, hep, dc, dv, d, hj, hid, hs, hvis, rfl⟩
    have hrow := mem_endpointRows.mpr ⟨ep, hep, dc, dv, d, hj, hid, hs, rfl⟩
    refine ⟨hrow, mem_visibleDocIds_candidates.mpr ⟨?_, hvis⟩⟩
    exact List.mem_dedup.mpr (List.mem_map.mpr ⟨_, hrow, rfl⟩)

/-- A row of `authorized_endpoints` is determined by its edge and its ordinal. -/
theorem authorizedEndpoints_unique (h : db.Keyed) {a b : EndpointRow}
    (ha : a ∈ authorizedEndpoints db q states ids) (hb : b ∈ authorizedEndpoints db q states ids)
    (hedge : a.edgeId = b.edgeId) (hord : a.ordinal = b.ordinal) : a = b := by
  obtain ⟨ep, hep, dc, dv, d, hj, hid, -, -, rfl⟩ := mem_authorizedEndpoints.mp ha
  obtain ⟨ep', hep', dc', dv', d', hj', hid', -, -, rfl⟩ := mem_authorizedEndpoints.mp hb
  obtain ⟨hdc, hdv, hd, hv, hdd⟩ := mem_chunkJoin.mp hj
  obtain ⟨hdc', hdv', hd', hv', hdd'⟩ := mem_chunkJoin.mp hj'
  obtain rfl : ep = ep' := List.inj_on_of_nodup_map h.endpoints
    ((mem_requiredEndpoints h).mp hep).1 ((mem_requiredEndpoints h).mp hep').1
    (Prod.ext hedge hord)
  obtain rfl : dc = dc' := List.inj_on_of_nodup_map h.chunks hdc hdc' (hid.trans hid'.symm)
  obtain rfl : dv = dv' := List.inj_on_of_nodup_map h.versions hdv hdv' (hv.trans hv'.symm)
  obtain rfl : d = d' := List.inj_on_of_nodup_map h.documents hd hd' (hdd.trans hdd'.symm)
  rfl

/-- A required endpoint is authorized when the chunk gate shows its chunk. -/
theorem authorized_iff_shown (h : db.Keyed) {ep : EdgeEndpoint}
    (hep : ep ∈ requiredEndpoints db q states ids) :
    (∃ ae ∈ authorizedEndpoints db q states ids, ae.edgeId = ep.edgeId ∧ ae.ordinal = ep.ordinal) ↔
      Shown db q ep.chunkId := by
  constructor
  · rintro ⟨ae, hae, hedge, hord⟩
    obtain ⟨ep', hep', dc, dv, d, hj, hid, hs, hvis, rfl⟩ := mem_authorizedEndpoints.mp hae
    obtain ⟨hdc, hdv, hd, hv, hdd⟩ := mem_chunkJoin.mp hj
    obtain rfl : ep' = ep := List.inj_on_of_nodup_map h.endpoints
      ((mem_requiredEndpoints h).mp hep').1 ((mem_requiredEndpoints h).mp hep).1
      (Prod.ext hedge hord)
    exact ⟨dc, hdc, hid, dv, hdv, d, hd, hv, hdd, hs, hvis⟩
  · rintro ⟨dc, hdc, hid, dv, hdv, d, hd, hv, hdd, hs, hvis⟩
    have hj := mem_chunkJoin.mpr ⟨hdc, hdv, hd, hv, hdd⟩
    exact ⟨endpointRow ep dc d,
      mem_authorizedEndpoints.mpr ⟨ep, hep, dc, dv, d, hj, hid, hs, hvis, rfl⟩, rfl, rfl⟩

/-- The authorized row of an endpoint. -/
def authorizedRow (db : EvidenceDb) (q : GateQuery) (states : List ReviewState) (ids : List Uuid)
    (ep : EdgeEndpoint) : Option EndpointRow :=
  (authorizedEndpoints db q states ids).find? fun ae =>
    ae.edgeId = ep.edgeId ∧ ae.ordinal = ep.ordinal

theorem authorizedRow_isSome (h : db.Keyed) {ep : EdgeEndpoint}
    (hep : ep ∈ requiredEndpoints db q states ids) :
    (authorizedRow db q states ids ep).isSome ↔ Shown db q ep.chunkId := by
  rw [← authorized_iff_shown h hep, authorizedRow, List.find?_isSome]
  simp

theorem endpointJoin_eq (h : db.Keyed) :
    endpointJoin db q states ids = (requiredEndpoints db q states ids).map fun ep =>
      (ep, authorizedRow db q states ids ep) := by
  have hone : ∀ ep : EdgeEndpoint, (leftJoin (authorizedEndpoints db q states ids) fun ae =>
      ae.edgeId = ep.edgeId ∧ ae.ordinal = ep.ordinal) =
        [authorizedRow db q states ids ep] := by
    intro ep
    refine leftJoin_eq_find? ?_ ((List.nodup_dedup _).filter _)
    intro a ha b hb hpa hpb
    simp only [decide_eq_true_eq] at hpa hpb
    exact authorizedEndpoints_unique h ha hb (hpa.1.trans hpb.1.symm) (hpa.2.trans hpb.2.symm)
  simp only [endpointJoin, hone, List.map_cons, List.map_nil]
  exact List.flatMap_pure_eq_map ..

/-- Endpoints with different ordinals are two exactly when both ordinals occur. -/
theorem length_eq_two_iff {eps : List EdgeEndpoint} (h : (eps.map EdgeEndpoint.ordinal).Nodup) :
    eps.length = 2 ↔ (∃ ep ∈ eps, ep.ordinal = 0) ∧ ∃ ep ∈ eps, ep.ordinal = 1 := by
  match eps, h with
  | [], _ => simp
  | [ep], _ =>
    simp only [List.length_singleton, List.mem_singleton, exists_eq_left]
    grind
  | [ep, ep'], h =>
    simp only [List.length_cons, List.length_nil, List.mem_cons, List.not_mem_nil, or_false]
    simp only [List.map_cons, List.map_nil, List.nodup_cons, List.mem_singleton] at h
    grind
  | ep :: ep' :: ep'' :: rest, h =>
    simp only [List.map_cons, List.nodup_cons, List.mem_cons, not_or] at h
    grind

/-- The required endpoints of one edge have different ordinals. -/
theorem requiredEndpoints_nodup (h : db.Keyed) (id : Uuid) (p : EdgeEndpoint → Bool) :
    (((requiredEndpoints db q states ids).filter fun ep => ep.edgeId = id ∧ p ep).map
      EdgeEndpoint.ordinal).Nodup := by
  rw [requiredEndpoints_eq h, List.filter_filter]
  generalize hl : (db.knowledgeEdgeEndpoints.filter _) = eps
  have hsub : eps.Sublist db.knowledgeEdgeEndpoints := hl ▸ List.filter_sublist
  have hedge : ∀ ep ∈ eps, ep.edgeId = id := by
    intro ep hep
    rw [← hl] at hep
    simp only [List.mem_filter, Bool.and_eq_true, decide_eq_true_eq] at hep
    exact hep.2.1.1
  have hpair : eps.map (fun ep => (ep.edgeId, ep.ordinal)) =
      (eps.map EdgeEndpoint.ordinal).map (Prod.mk id) := by
    rw [List.map_map]
    exact List.map_congr_left fun ep hep => by rw [hedge ep hep]; rfl
  have hnodup := h.endpoints.sublist (hsub.map fun ep => (ep.edgeId, ep.ordinal))
  rw [hpair] at hnodup
  exact hnodup.of_map

/-- An edge is admitted when it has the endpoints 0 and 1 and the chunk gate shows both. -/
theorem mem_admittedEdges (h : db.Keyed) {id : Uuid} :
    id ∈ admittedEdges db q states ids ↔
      ∃ ep0 ∈ requiredEndpoints db q states ids, ∃ ep1 ∈ requiredEndpoints db q states ids,
        ep0.edgeId = id ∧ ep1.edgeId = id ∧ ep0.ordinal = 0 ∧ ep1.ordinal = 1 ∧
          Shown db q ep0.chunkId ∧ Shown db q ep1.chunkId := by
  have hall : ((endpointJoin db q states ids).filter fun r => r.1.edgeId = id).length =
      ((requiredEndpoints db q states ids).filter fun ep => ep.edgeId = id ∧ true).length := by
    rw [endpointJoin_eq h, List.filter_map, List.length_map]
    simp [Function.comp_def]
  have hsome : ((endpointJoin db q states ids).filter fun r =>
        r.1.edgeId = id ∧ r.2.isSome).length =
      ((requiredEndpoints db q states ids).filter fun ep =>
        ep.edgeId = id ∧ (authorizedRow db q states ids ep).isSome).length := by
    rw [endpointJoin_eq h, List.filter_map, List.length_map]
    simp [Function.comp_def]
  have hgroup : id ∈ ((endpointJoin db q states ids).map fun r => r.1.edgeId).dedup ↔
      ∃ ep ∈ requiredEndpoints db q states ids, ep.edgeId = id := by
    rw [endpointJoin_eq h]
    simp
  rw [admittedEdges, List.mem_filter, decide_eq_true_eq, hgroup, hall, hsome,
    length_eq_two_iff (requiredEndpoints_nodup h id fun _ => true),
    length_eq_two_iff (requiredEndpoints_nodup h id fun ep =>
      (authorizedRow db q states ids ep).isSome)]
  simp only [List.mem_filter, decide_eq_true_eq, and_true]
  constructor
  · rintro ⟨-, -, ⟨ep0, ⟨hep0, hid0, hs0⟩, ho0⟩, ep1, ⟨hep1, hid1, hs1⟩, ho1⟩
    exact ⟨ep0, hep0, ep1, hep1, hid0, hid1, ho0, ho1, (authorizedRow_isSome h hep0).mp hs0,
      (authorizedRow_isSome h hep1).mp hs1⟩
  · rintro ⟨ep0, hep0, ep1, hep1, hid0, hid1, ho0, ho1, hs0, hs1⟩
    exact ⟨⟨ep0, hep0, hid0⟩, ⟨⟨ep0, ⟨hep0, hid0⟩, ho0⟩, ep1, ⟨hep1, hid1⟩, ho1⟩,
      ⟨ep0, ⟨hep0, hid0, (authorizedRow_isSome h hep0).mpr hs0⟩, ho0⟩,
      ep1, ⟨hep1, hid1, (authorizedRow_isSome h hep1).mpr hs1⟩, ho1⟩

/-- What the query returns for the endpoint `ep` of the edge `e`, whose chunk is `dc`. -/
def evidenceRow (db : EvidenceDb) (e : KnowledgeEdge) (ep : EdgeEndpoint) (dc : DocumentChunk) :
    HydratedRow where
  edgeId := Uuid.text e.id
  edgeType := e.edgeType.text
  direction := e.direction.text
  origin := e.origin.text
  confidence := e.confidence
  reviewState := e.reviewState.text
  edgeVersion := e.edgeVersion
  ordinal := ep.ordinal
  role := ep.role.text
  chunkId := Uuid.text ep.chunkId
  documentVersionId := (liveEvidence db dc).documentVersionId
  content := (liveEvidence db dc).content
  sectionHeading := (liveEvidence db dc).sectionHeading

/-- Both endpoints of the edge with this id, in the caller's company, may be shown. -/
def BothShown (db : EvidenceDb) (q : GateQuery) (id : Uuid) : Prop :=
  ∃ ep0 ∈ db.knowledgeEdgeEndpoints, ∃ ep1 ∈ db.knowledgeEdgeEndpoints,
    ep0.companyId = q.company ∧ ep1.companyId = q.company ∧ ep0.edgeId = id ∧ ep1.edgeId = id ∧
      ep0.ordinal = 0 ∧ ep1.ordinal = 1 ∧ Shown db q ep0.chunkId ∧ Shown db q ep1.chunkId

/-- A row of the query is an endpoint of an open edge both of whose endpoints are shown. -/
theorem mem_gateRows (h : db.Keyed) {r : HydratedRow} :
    r ∈ gateRows db q states ids ↔ ∃ e ∈ db.knowledgeEdges, e.id ∈ ids ∧ OpenEdge q states e ∧
      BothShown db q e.id ∧ ∃ ep ∈ db.knowledgeEdgeEndpoints, ep.companyId = q.company ∧
        ep.edgeId = e.id ∧ ∃ dc ∈ db.documentChunks, dc.id = ep.chunkId ∧ Admissible db q dc ∧
          r = evidenceRow db e ep dc := by
  simp only [gateRows, List.mem_flatMap, List.mem_filter, List.mem_map, decide_eq_true_eq,
    leftJoin_section h, List.mem_singleton]
  constructor
  · rintro ⟨_, hadm, e, ⟨her, rfl⟩, ae, ⟨hae, hedge⟩, _, rfl, rfl⟩
    obtain ⟨he, hin, hopen⟩ := mem_edgeRecords.mp her
    obtain ⟨ep0, hep0, ep1, hep1, hid0, hid1, ho0, ho1, hs0, hs1⟩ := (mem_admittedEdges h).mp hadm
    obtain ⟨hm0, hc0, -⟩ := (mem_requiredEndpoints h).mp hep0
    obtain ⟨hm1, hc1, -⟩ := (mem_requiredEndpoints h).mp hep1
    obtain ⟨ep, hep, dc, dv, d, hj, hid, hs, hvis, rfl⟩ := mem_authorizedEndpoints.mp hae
    obtain ⟨hdc, hdv, hd, hv, hdd⟩ := mem_chunkJoin.mp hj
    obtain ⟨hm, hc, -⟩ := (mem_requiredEndpoints h).mp hep
    exact ⟨e, he, hin, hopen, ⟨ep0, hm0, ep1, hm1, hc0, hc1, hid0, hid1, ho0, ho1, hs0, hs1⟩, ep,
      hm, hc, hedge, dc, hdc, hid, ⟨dv, hdv, d, hd, hv, hdd, hs, hvis⟩, rfl⟩
  · rintro ⟨e, he, hin, hopen, ⟨ep0, hm0, ep1, hm1, hc0, hc1, hid0, hid1, ho0, ho1, hs0, hs1⟩, ep,
      hm, hc, hedge, dc, hdc, hid, ⟨dv, hdv, d, hd, hv, hdd, hs, hvis⟩, rfl⟩
    have her := mem_edgeRecords.mpr ⟨he, hin, hopen⟩
    have hreq : ∀ x ∈ db.knowledgeEdgeEndpoints, x.companyId = q.company → x.edgeId = e.id →
        x ∈ requiredEndpoints db q states ids :=
      fun x hx hxc hxe => (mem_requiredEndpoints h).mpr ⟨hx, hxc, e, her, hxe.symm⟩
    have hadm : e.id ∈ admittedEdges db q states ids := (mem_admittedEdges h).mpr
      ⟨ep0, hreq ep0 hm0 hc0 hid0, ep1, hreq ep1 hm1 hc1 hid1, hid0, hid1, ho0, ho1, hs0, hs1⟩
    have hj := mem_chunkJoin.mpr ⟨hdc, hdv, hd, hv, hdd⟩
    have hae := mem_authorizedEndpoints.mpr
      ⟨ep, hreq ep hm hc hedge, dc, dv, d, hj, hid, hs, hvis, rfl⟩
    exact ⟨e.id, hadm, e, ⟨her, rfl⟩, _, ⟨hae, hedge⟩, _, rfl, rfl⟩

/-- No two rows agree on edge and ordinal. -/
theorem gateRows_unique (h : db.Keyed) (key : String) (ordinal : Fin 2) :
    AtMostOne (gateRows db q states ids) fun r => r.edgeId = key ∧ r.ordinal = ordinal := by
  intro a ha b hb hpa hpb
  obtain ⟨rfl, rfl⟩ := of_decide_eq_true hpa
  obtain ⟨hkey, hord⟩ := of_decide_eq_true hpb
  obtain ⟨e, he, -, -, -, ep, hep, -, hid, dc, hdc, hdid, -, rfl⟩ := (mem_gateRows h).mp ha
  obtain ⟨e', he', -, -, -, ep', hep', -, hid', dc', hdc', hdid', -, rfl⟩ := (mem_gateRows h).mp hb
  obtain rfl : e' = e := List.inj_on_of_nodup_map h.edges he' he (Uuid.text_injective hkey)
  obtain rfl : ep' = ep := List.inj_on_of_nodup_map h.endpoints hep' hep
    (Prod.ext (hid'.trans hid.symm) hord)
  obtain rfl : dc' = dc := List.inj_on_of_nodup_map h.chunks hdc' hdc (hdid'.trans hdid.symm)
  rfl

end Rows

/-! ### The grouped rows -/

/-- Queries with the same rows are grouped alike. -/
theorem grouped_congr {rows rows' : List HydratedRow}
    (huniq : ∀ key ordinal, AtMostOne rows fun r => r.edgeId = key ∧ r.ordinal = ordinal)
    (hmem : ∀ r, r ∈ rows ↔ r ∈ rows') : grouped rows = grouped rows' := by
  funext key
  have hany : rows.any (fun r => r.edgeId = key) = rows'.any fun r => r.edgeId = key := by
    rw [Bool.eq_iff_iff, List.any_eq_true, List.any_eq_true]
    simp only [hmem]
  have hslot : ∀ ordinal, slot rows key ordinal = slot rows' key ordinal := by
    intro ordinal
    have hrev : AtMostOne rows.reverse fun r => r.edgeId = key ∧ r.ordinal = ordinal :=
      fun a ha b hb => huniq key ordinal a (List.mem_reverse.mp ha) b (List.mem_reverse.mp hb)
    have hfind := find?_congr hrev rows'.reverse (by simp [hmem])
    rw [slot, slot, hfind]
  rw [grouped, grouped, hany, hslot, hslot]

theorem slot_of_mem {rows : List HydratedRow} {r : HydratedRow}
    (huniq : AtMostOne rows fun x => x.edgeId = r.edgeId ∧ x.ordinal = r.ordinal) (hr : r ∈ rows) :
    slot rows r.edgeId r.ordinal = r := by
  have hrev : AtMostOne rows.reverse fun x => x.edgeId = r.edgeId ∧ x.ordinal = r.ordinal :=
    fun a ha b hb => huniq a (List.mem_reverse.mp ha) b (List.mem_reverse.mp hb)
  have hfind := (find?_eq_some_iff hrev).mpr ⟨List.mem_reverse.mpr hr, by simp⟩
  rw [slot, hfind, Option.getD_some]

/-- Both rows of the edge have come back and neither has been emitted. -/
def Ready (grouped : String → Option (HydratedRow × HydratedRow)) (key : String) : Prop :=
  ∃ row0 row1, grouped key = some (row0, row1) ∧ row0.chunkId ≠ "" ∧ row1.chunkId ≠ ""

/-- A first row that has not been emitted names the edge it is filed under. -/
def FiledByEdge (grouped : String → Option (HydratedRow × HydratedRow)) : Prop :=
  ∀ key row0 row1, grouped key = some (row0, row1) → row0.chunkId ≠ "" → row0.edgeId = key

theorem grouped_filedByEdge (rows : List HydratedRow) : FiledByEdge (grouped rows) := by
  intro key row0 row1 hg hne
  unfold grouped at hg
  split at hg
  · obtain ⟨rfl, -⟩ : slot rows key 0 = row0 ∧ slot rows key 1 = row1 := by simpa using hg
    unfold slot at hne ⊢
    cases hf : rows.reverse.find? fun r => r.edgeId = key ∧ r.ordinal = 0 with
    | none =>
      rw [hf] at hne
      exact absurd rfl hne
    | some r =>
      have hr : r.edgeId = key ∧ r.ordinal = 0 := by simpa using List.find?_some hf
      exact hr.1
  · cases hg

/-- An edge is emitted when it is among the candidates and both of its rows have come back. -/
theorem emit_mem_iff {company id : Uuid} {cs : List EdgeCandidate}
    {grouped : String → Option (HydratedRow × HydratedRow)} (hfiled : FiledByEdge grouped) :
    (∃ r ∈ emit company grouped cs, r.edgeId = Uuid.text id) ↔
      (∃ c ∈ cs, c.edgeId = id) ∧ Ready grouped (Uuid.text id) := by
  induction cs generalizing grouped with
  | nil => simp [emit]
  | cons c cs ih =>
    -- a candidate that is skipped is not ready, so it cannot be the one asked for
    have hskip : ¬Ready grouped (Uuid.text c.edgeId) →
        ((∃ c' ∈ cs, c'.edgeId = id) ∧ Ready grouped (Uuid.text id) ↔
          (∃ c' ∈ c :: cs, c'.edgeId = id) ∧ Ready grouped (Uuid.text id)) := by
      intro hnot
      refine and_congr_left fun hready => ?_
      have hne : c.edgeId ≠ id := by
        rintro rfl
        exact hnot hready
      simp [hne]
    cases hg : grouped (Uuid.text c.edgeId) with
    | none =>
      simp only [emit, hg]
      rw [ih hfiled, hskip (by simp [Ready, hg])]
    | some rows =>
      obtain ⟨row0, row1⟩ := rows
      by_cases hempty : row0.chunkId = "" ∨ row1.chunkId = ""
      · simp only [emit, hg, if_pos hempty]
        rw [ih hfiled, hskip]
        rintro ⟨r0, r1, he, h0, h1⟩
        obtain ⟨rfl, rfl⟩ : row0 = r0 ∧ row1 = r1 := by simpa [hg] using he
        exact hempty.elim h0 h1
      · simp only [emit, hg, if_neg hempty]
        have h0 : row0.chunkId ≠ "" := fun he => hempty (.inl he)
        have h1 : row1.chunkId ≠ "" := fun he => hempty (.inr he)
        have hkey : row0.edgeId = Uuid.text c.edgeId := hfiled _ _ _ hg h0
        have hfiled' : FiledByEdge (Function.update grouped (Uuid.text c.edgeId)
            (some (edgeMoved (endpointMoved row0), endpointMoved row1))) := by
          intro key r0 r1 hget hne
          by_cases hk : key = Uuid.text c.edgeId
          · subst hk
            obtain ⟨rfl, -⟩ : edgeMoved (endpointMoved row0) = r0 ∧ endpointMoved row1 = r1 := by
              simpa using hget
            exact absurd rfl hne
          · rw [Function.update_of_ne hk] at hget
            exact hfiled key r0 r1 hget hne
        by_cases hid : c.edgeId = id
        · subst hid
          constructor
          · exact fun _ => ⟨⟨c, by simp, rfl⟩, row0, row1, hg, h0, h1⟩
          · exact fun _ => ⟨_, List.mem_cons_self, hkey⟩
        · have hne : Uuid.text id ≠ Uuid.text c.edgeId := fun he => hid (Uuid.text_injective he).symm
          have hhead : (allowedRelationship company c row0 row1).edgeId ≠ Uuid.text id := by
            rw [show (allowedRelationship company c row0 row1).edgeId = row0.edgeId from rfl, hkey]
            exact hne.symm
          have hready : Ready (Function.update grouped (Uuid.text c.edgeId)
              (some (edgeMoved (endpointMoved row0), endpointMoved row1))) (Uuid.text id) ↔
              Ready grouped (Uuid.text id) := by
            rw [Ready, Function.update_of_ne hne, Ready]
          have htail := ih hfiled'
          simp only [List.exists_mem_cons_iff, hhead, hid, false_or]
          rw [htail, hready]

theorem ready_grouped_iff {db : EvidenceDb} {q : GateQuery} {states : List ReviewState}
    {ids : List Uuid} (h : db.Keyed) {id : Uuid} :
    Ready (grouped (gateRows db q states ids)) (Uuid.text id) ↔
      id ∈ ids ∧ (∃ e ∈ db.knowledgeEdges, e.id = id ∧ OpenEdge q states e) ∧
        BothShown db q id := by
  constructor
  · rintro ⟨row0, row1, hg, -, -⟩
    unfold grouped at hg
    split at hg
    · rename_i hany
      obtain ⟨r, hr, hkey⟩ := List.any_eq_true.mp hany
      obtain ⟨e, he, hin, hopen, hboth, ep, -, -, -, dc, -, -, -, rfl⟩ := (mem_gateRows h).mp hr
      obtain rfl : e.id = id := Uuid.text_injective (of_decide_eq_true hkey)
      exact ⟨hin, ⟨e, he, rfl, hopen⟩, hboth⟩
    · cases hg
  · rintro ⟨hin, ⟨e, he, rfl, hopen⟩, hboth⟩
    have hrow : ∀ ep ∈ db.knowledgeEdgeEndpoints, ep.companyId = q.company → ep.edgeId = e.id →
        Shown db q ep.chunkId → ∃ r ∈ gateRows db q states ids,
          r.edgeId = Uuid.text e.id ∧ r.ordinal = ep.ordinal ∧ r.chunkId ≠ "" := by
      rintro ep hep hc hid ⟨dc, hdc, hdid, hadm⟩
      exact ⟨_, (mem_gateRows h).mpr
        ⟨e, he, hin, hopen, hboth, ep, hep, hc, hid, dc, hdc, hdid, hadm, rfl⟩, rfl, rfl,
        Uuid.text_ne_empty _⟩
    obtain ⟨ep0, hep0, ep1, hep1, hc0, hc1, hid0, hid1, ho0, ho1, hs0, hs1⟩ := hboth
    obtain ⟨r0, hr0, hk0, hord0, hne0⟩ := hrow ep0 hep0 hc0 hid0 hs0
    obtain ⟨r1, hr1, hk1, hord1, hne1⟩ := hrow ep1 hep1 hc1 hid1 hs1
    have hslot0 := slot_of_mem (gateRows_unique h r0.edgeId r0.ordinal) hr0
    have hslot1 := slot_of_mem (gateRows_unique h r1.edgeId r1.ordinal) hr1
    rw [hk0, hord0, ho0] at hslot0
    rw [hk1, hord1, ho1] at hslot1
    refine ⟨r0, r1, ?_, hne0, hne1⟩
    have hany : (gateRows db q states ids).any fun r => r.edgeId = Uuid.text e.id :=
      List.any_eq_true.mpr ⟨r0, hr0, by simp [hk0]⟩
    rw [grouped, if_pos hany, hslot0, hslot1]

end RelationshipEvidenceGate

/-! ### The schema -/

/-- The primary and foreign keys.  `document_chunks.section_id` refers to a section by its id alone;
the other references carry the company. -/
structure EvidenceDb.Valid (db : EvidenceDb) : Prop extends EvidenceDb.Keyed db where
  documentOwner : ∀ d ∈ db.documents, db.org.HasUnit d.companyId d.ownerOrgUnitId
  versionDocument : ∀ dv ∈ db.documentVersions, ∃ d ∈ db.documents,
    d.companyId = dv.companyId ∧ d.id = dv.documentId
  chunkVersion : ∀ dc ∈ db.documentChunks, ∃ dv ∈ db.documentVersions,
    dv.companyId = dc.companyId ∧ dv.id = dc.documentVersionId
  sectionVersion : ∀ ds ∈ db.documentSections, ∃ dv ∈ db.documentVersions,
    dv.companyId = ds.companyId ∧ dv.id = ds.documentVersionId
  chunkSection : ∀ dc ∈ db.documentChunks, ∀ s, dc.sectionId = some s →
    ∃ ds ∈ db.documentSections, ds.id = s
  endpointEdge : ∀ ep ∈ db.knowledgeEdgeEndpoints, ∃ e ∈ db.knowledgeEdges,
    e.companyId = ep.companyId ∧ e.id = ep.edgeId
  endpointChunk : ∀ ep ∈ db.knowledgeEdgeEndpoints, ∃ dc ∈ db.documentChunks,
    dc.companyId = ep.companyId ∧ dc.id = ep.chunkId

/-! ### The relationship gate and the chunk gate -/

/-- `EvidenceGate::evaluate` on these chunk ids returns the chunk. -/
def GateAdmits (db : EvidenceDb) (q : GateQuery) (ids : List Uuid) (id : Uuid) : Prop :=
  ∃ out, EvidenceGate.evaluate (.ok db : Except Unit EvidenceDb) q
    (ids.map fun id => { chunkId := id }) = .ok out ∧ ∃ chunk ∈ out, chunk.chunkId = id

theorem EvidenceGate.emit_mem_iff {company id : Uuid} {allowed : Uuid → Option Hydrated}
    {cs : List ChunkCandidate} :
    (∃ chunk ∈ EvidenceGate.emit company allowed cs, chunk.chunkId = id) ↔
      (∃ c ∈ cs, c.chunkId = id) ∧ (allowed id).isSome := by
  induction cs generalizing allowed with
  | nil => simp [EvidenceGate.emit]
  | cons c cs ih =>
    cases hc : allowed c.chunkId with
    | none =>
      simp only [EvidenceGate.emit, hc, ih, List.exists_mem_cons_iff]
      refine and_congr_left fun hs => ?_
      have hne : c.chunkId ≠ id := by
        rintro rfl
        simp [hc] at hs
      simp [hne]
    | some h =>
      simp only [EvidenceGate.emit, hc, List.exists_mem_cons_iff, ih]
      by_cases hid : c.chunkId = id
      · subst hid
        simp [EvidenceGate.allowedChunk, hc]
      · simp [EvidenceGate.allowedChunk, hid, Function.update_of_ne (Ne.symm hid)]

/-- The chunk gate returns the chunks that may be shown. -/
theorem gateAdmits_iff {db : EvidenceDb} (h : db.Keyed) {q : GateQuery} {ids : List Uuid} {id : Uuid}
    (hid : id ∈ ids) : GateAdmits db q ids id ↔ RelationshipEvidenceGate.Shown db q id := by
  have hshown : RelationshipEvidenceGate.Shown db q id ↔ (admittedChunk db q id).isSome := by
    rw [RelationshipEvidenceGate.Shown, admittedChunk, List.find?_isSome]
    simp
  unfold GateAdmits EvidenceGate.evaluate
  split
  next hclosed =>
    have hq : q.scope = [] ∨ q.labels = [] := by
      rcases hclosed with hq | hq | hq
      · exact .inl hq
      · exact .inr hq
      · rw [List.map_eq_nil_iff.mp hq] at hid
        cases hid
    simp [hshown, admittedChunk_of_closed id hq]
  next hopen =>
    have hids : (ids.map fun id => ({ chunkId := id } : ChunkCandidate)).map
        ChunkCandidate.chunkId = ids := by
      rw [List.map_map]
      exact List.map_id' ids
    rw [hids]
    simp only [Except.map, Except.ok.injEq, exists_eq_left', EvidenceGate.emit_mem_iff,
      allowedMap_gateRows h hid, Option.isSome_map, hshown]
    simp [hid]

/-- The edge has exactly the endpoints 0 and 1, and the chunk gate, run on their two chunks, returns
both. -/
def EndpointsAdmitted (db : EvidenceDb) (q : GateQuery) (id : Uuid) : Prop :=
  ∃ ep0 ep1, ep0.ordinal = 0 ∧ ep1.ordinal = 1 ∧
    (∀ ep, ep ∈ db.knowledgeEdgeEndpoints ∧ ep.edgeId = id ↔ ep = ep0 ∨ ep = ep1) ∧
    GateAdmits db q [ep0.chunkId, ep1.chunkId] ep0.chunkId ∧
    GateAdmits db q [ep0.chunkId, ep1.chunkId] ep1.chunkId

/-- The tables as if the edge had never been recorded. -/
def EvidenceDb.withoutEdge (db : EvidenceDb) (id : Uuid) : EvidenceDb :=
  { db with
    knowledgeEdges := db.knowledgeEdges.filter fun e => e.id ≠ id
    knowledgeEdgeEndpoints := db.knowledgeEdgeEndpoints.filter fun ep => ep.edgeId ≠ id }

namespace RelationshipEvidenceGate

section Edges

variable {db : EvidenceDb} {q : GateQuery} {states : List ReviewState}

/-- For an edge of the caller's company the composite foreign key puts its endpoints there too. -/
theorem endpointsAdmitted_iff (h : db.Valid) {e : KnowledgeEdge} (he : e ∈ db.knowledgeEdges)
    (hc : e.companyId = q.company) : EndpointsAdmitted db q e.id ↔ BothShown db q e.id := by
  have hcompany : ∀ ep ∈ db.knowledgeEdgeEndpoints, ep.edgeId = e.id →
      ep.companyId = q.company := by
    intro ep hep hid
    obtain ⟨e', he', hc', hid'⟩ := h.endpointEdge ep hep
    obtain rfl : e' = e := List.inj_on_of_nodup_map h.edges he' he (hid'.trans hid)
    exact hc'.symm.trans hc
  constructor
  · rintro ⟨ep0, ep1, ho0, ho1, hexact, hg0, hg1⟩
    obtain ⟨hm0, hid0⟩ := (hexact ep0).mpr (.inl rfl)
    obtain ⟨hm1, hid1⟩ := (hexact ep1).mpr (.inr rfl)
    exact ⟨ep0, hm0, ep1, hm1, hcompany ep0 hm0 hid0, hcompany ep1 hm1 hid1, hid0, hid1, ho0, ho1,
      (gateAdmits_iff h.toKeyed (by simp)).mp hg0, (gateAdmits_iff h.toKeyed (by simp)).mp hg1⟩
  · rintro ⟨ep0, hm0, ep1, hm1, -, -, hid0, hid1, ho0, ho1, hs0, hs1⟩
    refine ⟨ep0, ep1, ho0, ho1, fun ep => ?_, (gateAdmits_iff h.toKeyed (by simp)).mpr hs0,
      (gateAdmits_iff h.toKeyed (by simp)).mpr hs1⟩
    constructor
    · rintro ⟨hep, hid⟩
      have hord : ep.ordinal = 0 ∨ ep.ordinal = 1 := by omega
      rcases hord with ho | ho
      · exact .inl (List.inj_on_of_nodup_map h.endpoints hep hm0
          (Prod.ext (hid.trans hid0.symm) (ho.trans ho0.symm)))
      · exact .inr (List.inj_on_of_nodup_map h.endpoints hep hm1
          (Prod.ext (hid.trans hid1.symm) (ho.trans ho1.symm)))
    · rintro (rfl | rfl)
      · exact ⟨hm0, hid0⟩
      · exact ⟨hm1, hid1⟩

theorem mem_evaluate_iff {ε : Type} (h : db.Keyed) {candidates : List EdgeCandidate} {id : Uuid} :
    (∃ out, evaluate (.ok db : Except ε EvidenceDb) q states candidates = .ok out ∧
        ∃ r ∈ out, r.edgeId = Uuid.text id) ↔
      (∃ c ∈ candidates, c.edgeId = id) ∧
        (∃ e ∈ db.knowledgeEdges, e.id = id ∧ OpenEdge q states e) ∧ BothShown db q id := by
  unfold evaluate
  split
  next hclosed =>
    constructor
    · rintro ⟨out, he, r, hr, -⟩
      obtain rfl : [] = out := Except.ok.inj he
      cases hr
    · rintro ⟨⟨c, hc, -⟩, ⟨e, -, -, -, hstate, -⟩, ⟨ep0, -, ep1, -, -, -, -, -, -, -, hs0, -⟩⟩
      obtain ⟨dc, -, -, hadm⟩ := hs0
      rcases hclosed with hq | hq | hq | hq
      · exact absurd hadm (not_admissible_of_closed (.inl hq))
      · exact absurd hadm (not_admissible_of_closed (.inr hq))
      · simp [hq] at hstate
      · simp [hq] at hc
  next hopen =>
    simp only [Except.map, Except.ok.injEq, exists_eq_left',
      emit_mem_iff (grouped_filedByEdge _), ready_grouped_iff h, List.mem_map]
    constructor
    · rintro ⟨hin, -, he, hboth⟩
      exact ⟨hin, he, hboth⟩
    · rintro ⟨hin, he, hboth⟩
      exact ⟨hin, hin, he, hboth⟩

theorem withoutEdge_keyed (h : db.Keyed) (id : Uuid) : (db.withoutEdge id).Keyed where
  documents := h.documents
  versions := h.versions
  chunks := h.chunks
  sections := h.sections
  edges := h.edges.sublist (List.filter_sublist.map _)
  endpoints := h.endpoints.sublist (List.filter_sublist.map _)

theorem withoutEdge_bothShown {id id' : Uuid} (hne : id' ≠ id) :
    BothShown (db.withoutEdge id) q id' ↔ BothShown db q id' := by
  have hkeep : ∀ ep : EdgeEndpoint, ep.edgeId = id' →
      (ep ∈ (db.withoutEdge id).knowledgeEdgeEndpoints ↔ ep ∈ db.knowledgeEdgeEndpoints) := by
    rintro ep rfl
    simp [EvidenceDb.withoutEdge, hne]
  constructor
  · rintro ⟨ep0, hm0, ep1, hm1, hc0, hc1, hid0, hid1, hrest⟩
    exact ⟨ep0, (hkeep ep0 hid0).mp hm0, ep1, (hkeep ep1 hid1).mp hm1, hc0, hc1, hid0, hid1, hrest⟩
  · rintro ⟨ep0, hm0, ep1, hm1, hc0, hc1, hid0, hid1, hrest⟩
    exact ⟨ep0, (hkeep ep0 hid0).mpr hm0, ep1, (hkeep ep1 hid1).mpr hm1, hc0, hc1, hid0, hid1, hrest⟩

/-- An edge that is not shown leaves no trace in the rows of the query. -/
theorem withoutEdge_gateRows (h : db.Valid) {ids : List Uuid} {id : Uuid}
    (hnot : ¬EndpointsAdmitted db q id) (r : HydratedRow) :
    r ∈ gateRows db q states ids ↔ r ∈ gateRows (db.withoutEdge id) q states ids := by
  rw [mem_gateRows h.toKeyed, mem_gateRows (withoutEdge_keyed h.toKeyed id)]
  constructor
  · rintro ⟨e, he, hin, hopen, hboth, ep, hep, hc, hid, dc, hdc, hdid, hadm, rfl⟩
    have hne : e.id ≠ id := by
      rintro rfl
      exact hnot ((endpointsAdmitted_iff h he hopen.1).mpr hboth)
    exact ⟨e, by simp [EvidenceDb.withoutEdge, he, hne], hin, hopen,
      (withoutEdge_bothShown hne).mpr hboth, ep, by simp [EvidenceDb.withoutEdge, hep, hid, hne], hc,
      hid, dc, hdc, hdid, hadm, rfl⟩
  · rintro ⟨e, he, hin, hopen, hboth, ep, hep, hc, hid, dc, hdc, hdid, hadm, rfl⟩
    obtain ⟨he, hne⟩ : e ∈ db.knowledgeEdges ∧ e.id ≠ id := by
      simpa [EvidenceDb.withoutEdge] using he
    obtain ⟨hep, -⟩ : ep ∈ db.knowledgeEdgeEndpoints ∧ ep.edgeId ≠ id := by
      simpa [EvidenceDb.withoutEdge] using hep
    exact ⟨e, he, hin, hopen, (withoutEdge_bothShown hne).mp hboth, ep, hep, hc, hid, dc, hdc, hdid,
      hadm, rfl⟩

end Edges

end RelationshipEvidenceGate

/-- An edge id occurs in the output of the relationship gate exactly when it is a candidate, its row
is in the caller's company with an allowed review state and is neither expired nor superseded, it has
exactly the endpoints 0 and 1, and the chunk gate admits both.  An edge whose endpoints are not both
admitted gives the output of an edge that does not exist. -/
theorem relationshipGate_eq_chunkGate {ε : Type} (db : EvidenceDb) (h : db.Valid) (q : GateQuery)
    (states : List ReviewState) (candidates : List EdgeCandidate) (id : Uuid) :
    ((∃ out, RelationshipEvidenceGate.evaluate (.ok db : Except ε EvidenceDb) q states candidates =
          .ok out ∧ ∃ r ∈ out, r.edgeId = Uuid.text id) ↔
      (∃ c ∈ candidates, c.edgeId = id) ∧
        (∃ e ∈ db.knowledgeEdges, e.id = id ∧ e.companyId = q.company ∧ e.reviewState ∈ states ∧
          unexpired q.now e.expiresAt = true ∧ unexpired q.now e.supersededAt = true) ∧
        EndpointsAdmitted db q id) ∧
    (¬EndpointsAdmitted db q id →
      RelationshipEvidenceGate.evaluate (.ok db : Except ε EvidenceDb) q states candidates =
        RelationshipEvidenceGate.evaluate (.ok (db.withoutEdge id)) q states candidates) := by
  constructor
  · rw [RelationshipEvidenceGate.mem_evaluate_iff h.toKeyed]
    refine and_congr_right fun _ => ?_
    constructor
    · rintro ⟨⟨e, he, rfl, hopen⟩, hboth⟩
      exact ⟨⟨e, he, rfl, hopen⟩,
        (RelationshipEvidenceGate.endpointsAdmitted_iff h he hopen.1).mpr hboth⟩
    · rintro ⟨⟨e, he, rfl, hopen⟩, hadm⟩
      exact ⟨⟨e, he, rfl, hopen⟩,
        (RelationshipEvidenceGate.endpointsAdmitted_iff h he hopen.1).mp hadm⟩
  · intro hnot
    have hrows : RelationshipEvidenceGate.grouped (RelationshipEvidenceGate.gateRows db q states
          (candidates.map EdgeCandidate.edgeId)) =
        RelationshipEvidenceGate.grouped (RelationshipEvidenceGate.gateRows (db.withoutEdge id) q
          states (candidates.map EdgeCandidate.edgeId)) :=
      RelationshipEvidenceGate.grouped_congr (RelationshipEvidenceGate.gateRows_unique h.toKeyed)
        (RelationshipEvidenceGate.withoutEdge_gateRows h hnot)
    simp only [RelationshipEvidenceGate.evaluate, Except.map, hrows]

/-- The handbook with a recorded relationship between its two chunks. -/
def relatedDb : EvidenceDb :=
  { handbookDb with
    knowledgeEdges := [⟨300, 1, .dependsOn, .directed, 0, .parser, .accepted, 1, some 9, none⟩]
    knowledgeEdgeEndpoints := [⟨1, 300, 0, 120, .source⟩, ⟨1, 300, 1, 121, .target⟩] }

theorem relatedDb_valid : relatedDb.Valid where
  documents := by decide
  versions := by decide
  chunks := by decide
  sections := by decide
  edges := by decide
  endpoints := by decide
  documentOwner := by decide
  versionDocument := by decide
  chunkVersion := by decide
  sectionVersion := by decide
  chunkSection := by simp [relatedDb, handbookDb]
  endpointEdge := by decide
  endpointChunk := by decide

/-- The edge occurs in the output, so the chunk gate admits both of its endpoints. -/
theorem related_endpoints_admitted :
    relatedDb.Valid ∧ EndpointsAdmitted relatedDb handbookQuery 300 := by
  refine ⟨relatedDb_valid, ?_⟩
  have hiff := (relationshipGate_eq_chunkGate (ε := Unit) relatedDb relatedDb_valid handbookQuery
    [.accepted] [{ edgeId := 300, score := 1 }] 300).1
  refine (hiff.mp ⟨_, rfl, ?_⟩).2.2
  decide

end Wikore
