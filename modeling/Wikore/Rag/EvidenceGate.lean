import Mathlib.Algebra.GroupWithZero.Nat
import Wikore.Access.Visibility
import Wikore.Lib.Query

/-! `EvidenceGate::evaluate`: the query that re-reads the candidates of a vector search from the
live tables, and the loop that joins its rows back to the ranked candidates through a hash map whose
values are moved out as they are emitted. -/

namespace Wikore

open Query

/-- The columns of `document_versions` that the gates read. -/
structure DocumentVersion where
  id : Uuid
  companyId : Uuid
  documentId : Uuid
  lifecycleStatus : LifecycleStatus
  sensitivityLabel : SensitivityLabel
deriving DecidableEq, Repr

structure DocumentChunk where
  id : Uuid
  companyId : Uuid
  documentVersionId : Uuid
  content : String
  sectionId : Option Uuid
deriving DecidableEq, Repr

structure DocumentSection where
  id : Uuid
  companyId : Uuid
  documentVersionId : Uuid
  heading : Option String
deriving DecidableEq, Repr

/-- The bits of a `REAL`, or of a C++ `float`.  The gates copy scores and confidences and compute
nothing from them; the widening of a confidence to `float8` is exact. -/
abbrev Real4 := BitVec 32

structure KnowledgeEdge where
  id : Uuid
  companyId : Uuid
  edgeType : EdgeType
  direction : EdgeDirection
  confidence : Real4
  origin : EdgeOrigin
  reviewState : ReviewState
  edgeVersion : Int
  expiresAt : Option Nat
  supersededAt : Option Nat
deriving DecidableEq, Repr

-- for the ordinals 0 and 1
instance ordinalNeZero : NeZero 2 := Nat.instNeZeroSucc

/-- A row of `knowledge_edge_endpoints`; its ordinal is 0 or 1. -/
structure EdgeEndpoint where
  companyId : Uuid
  edgeId : Uuid
  ordinal : Fin 2
  chunkId : Uuid
  role : EndpointRole
deriving DecidableEq, Repr

/-- The tables that the two evidence gates read. -/
structure EvidenceDb extends AccessDb where
  documentVersions : List DocumentVersion
  documentChunks : List DocumentChunk
  documentSections : List DocumentSection
  knowledgeEdges : List KnowledgeEdge
  knowledgeEdgeEndpoints : List EdgeEndpoint
deriving DecidableEq, Repr

/-- The primary keys. -/
structure EvidenceDb.Keyed (db : EvidenceDb) : Prop where
  documents : (db.documents.map Document.id).Nodup
  versions : (db.documentVersions.map DocumentVersion.id).Nodup
  chunks : (db.documentChunks.map DocumentChunk.id).Nodup
  sections : (db.documentSections.map DocumentSection.id).Nodup
  edges : (db.knowledgeEdges.map KnowledgeEdge.id).Nodup
  endpoints : (db.knowledgeEdgeEndpoints.map fun ep => (ep.edgeId, ep.ordinal)).Nodup

/-- The arguments that both gates share: `$1`, `$4`, `$3` and `$2` of their queries, and the
`now()` of the statement. -/
structure GateQuery where
  company : Uuid
  scope : List Uuid
  labels : List SensitivityLabel
  lifecycle : List LifecycleStatus
  now : Nat
deriving DecidableEq, Repr

/-- The payload attributes of a point of the vector store. -/
structure ChunkPayload where
  companyId : String := ""
  documentId : String := ""
  documentVersionId : String := ""
  ownerOrgUnitId : Option String := none
  chunkId : String := ""
  chunkIndex : Int := 0
  authorityLevel : Int := 50
  accessScopeIds : List String := []
  sensitivityLabel : String := "internal"
  lifecycleStatus : String := "draft"
  aclVersion : Int := 0
  activatedAt : Option String := none
  supersededAt : Option String := none
  sectionId : Option String := none
  sectionHeading : Option String := none
  payloadSchemaVersion : Int := 3
deriving DecidableEq, Repr

/-- A result of the vector search.  The store gives the chunk id as a text that nothing has checked;
with a UUID as its id a candidate is one whose text is the canonical one. -/
structure ChunkCandidate (Id : Type := Uuid) where
  chunkId : Id
  documentVersionId : String := ""
  score : Real4 := 0
  payload : ChunkPayload := {}
deriving DecidableEq, Repr

structure AllowedChunk where
  companyId : Uuid
  chunkId : Uuid
  documentVersionId : String
  score : Real4
  text : String
  sectionHeading : Option String
deriving DecidableEq, Repr

structure Hydrated where
  documentVersionId : String
  content : String
  sectionHeading : Option String
deriving DecidableEq, Repr

/-- What `std::move` leaves behind: empty strings, and an optional that still holds one. -/
def Hydrated.movedFrom (h : Hydrated) : Hydrated := ⟨"", "", h.sectionHeading.map fun _ => ""⟩

/-! ### The query `kGateSql` -/

section GateSql

variable (db : EvidenceDb) (q : GateQuery) (ids : List Uuid)

/-- `document_chunks dc JOIN document_versions dv ... JOIN documents d ...`. -/
def chunkJoin : List (DocumentChunk × DocumentVersion × Document) :=
  db.documentChunks.flatMap fun dc =>
    (db.documentVersions.filter fun dv => dv.id = dc.documentVersionId).flatMap fun dv =>
      (db.documents.filter fun d => d.id = dv.documentId).map fun d => (dc, dv, d)

/-- The predicates on the chunk and its version; they stand in both parts of the query. -/
def GateQuery.Selects (dc : DocumentChunk) (dv : DocumentVersion) : Prop :=
  dc.companyId = q.company ∧ dv.lifecycleStatus ∈ q.lifecycle ∧ dv.sensitivityLabel ∈ q.labels

instance (dc : DocumentChunk) (dv : DocumentVersion) : Decidable (q.Selects dc dv) :=
  inferInstanceAs (Decidable (_ ∧ _))

def candDocs : List Uuid :=
  (((chunkJoin db).filter fun (dc, dv, _) => q.Selects dc dv ∧ dc.id ∈ ids).map
    fun (_, _, d) => d.id).dedup

/-- The rows of the gate query: a chunk id and what the gate hydrates for it. -/
def gateRows : List (Uuid × Hydrated) :=
  let visible := visibleDocIds db.toAccessDb q.now q.company q.scope (candDocs db q ids)
  ((chunkJoin db).filter fun (dc, dv, d) => q.Selects dc dv ∧ dc.id ∈ ids ∧ d.id ∈ visible).flatMap
    fun (dc, _, _) =>
      (leftJoin db.documentSections fun ds => some ds.id = dc.sectionId).map fun ds =>
        (dc.id, ⟨Uuid.text dc.documentVersionId, dc.content, ds.bind DocumentSection.heading⟩)

end GateSql

namespace EvidenceGate

/-- The hash map `allowed`: `emplace` keeps the first row of a key. -/
def allowedMap (rows : List (Uuid × Hydrated)) (chunkId : Uuid) : Option Hydrated :=
  (rows.find? fun r => r.1 = chunkId).map Prod.snd

def allowedChunk (company : Uuid) (c : ChunkCandidate) (h : Hydrated) : AllowedChunk :=
  ⟨company, c.chunkId, h.documentVersionId, c.score, h.content, h.sectionHeading⟩

/-- The emission loop.  Emitting a candidate moves its strings out of the map. -/
def emit (company : Uuid) (allowed : Uuid → Option Hydrated) :
    List ChunkCandidate → List AllowedChunk
  | [] => []
  | c :: cs =>
    match allowed c.chunkId with
    | none => emit company allowed cs
    | some h => allowedChunk company c h ::
        emit company (Function.update allowed c.chunkId (some h.movedFrom)) cs

/-- `EvidenceGate::evaluate`, of candidates with canonical ids.  The snapshot is what the statement
reads, or the error that its failure is mapped to; it is not consulted when nothing can be
allowed. -/
def evaluate {ε : Type} (snapshot : Except ε EvidenceDb) (q : GateQuery)
    (candidates : List ChunkCandidate) : Except ε (List AllowedChunk) :=
  if q.scope = [] ∨ q.labels = [] ∨ candidates = [] then .ok []
  else
    snapshot.map fun db =>
      emit q.company (allowedMap (gateRows db q (candidates.map ChunkCandidate.chunkId))) candidates

/-- A candidate as the emission loop looks for it: under the id whose text it has, if it has that of
one of the ids. -/
def spelt (ids : List Uuid) (c : ChunkCandidate String) : Option ChunkCandidate :=
  (ids.find? fun id => Uuid.text id = c.chunkId).map fun id =>
    ⟨id, c.documentVersionId, c.score, c.payload⟩

/-- `EvidenceGate::evaluate`, of candidates with any ids.  The cast is what `$5::uuid[]` makes of
their texts, or the error that its failure is mapped to. -/
def evaluateTexts {ε : Type} (cast : List String → Except ε (List Uuid))
    (snapshot : Except ε EvidenceDb) (q : GateQuery) (candidates : List (ChunkCandidate String)) :
    Except ε (List AllowedChunk) :=
  if q.scope = [] ∨ q.labels = [] ∨ candidates = [] then .ok []
  else do
    let ids ← cast (candidates.map ChunkCandidate.chunkId)
    let db ← snapshot
    return emit q.company (allowedMap (gateRows db q ids)) (candidates.filterMap (spelt ids))

end EvidenceGate

/-! ### What the gate is for -/

section Spec

variable (db : EvidenceDb) (q : GateQuery)

/-- The chunk may be shown: it is in the caller's company, its version has an allowed status and
label, and `wikore_visible_doc_ids` returns its document. -/
def Admissible (dc : DocumentChunk) : Prop :=
  ∃ dv ∈ db.documentVersions, ∃ d ∈ db.documents, dv.id = dc.documentVersionId ∧
    d.id = dv.documentId ∧ q.Selects dc dv ∧
    d.id ∈ visibleDocIds db.toAccessDb q.now q.company q.scope [d.id]

instance (dc : DocumentChunk) : Decidable (Admissible db q dc) :=
  inferInstanceAs (Decidable (∃ dv ∈ db.documentVersions, ∃ d ∈ db.documents, _))

/-- The live row of an admissible chunk. -/
def admittedChunk (id : Uuid) : Option DocumentChunk :=
  db.documentChunks.find? fun dc => dc.id = id ∧ Admissible db q dc

/-- The live version id, text and section heading of a chunk. -/
def liveEvidence (dc : DocumentChunk) : Hydrated :=
  ⟨Uuid.text dc.documentVersionId, dc.content,
    (db.documentSections.find? fun ds => some ds.id = dc.sectionId).bind DocumentSection.heading⟩

/-- What the gate should return: the admissible candidates, in their order and as often as they
occur, each with the live evidence of its chunk and its own score. -/
def gateSpec (candidates : List ChunkCandidate) : List AllowedChunk :=
  candidates.filterMap fun c => (admittedChunk db q c.chunkId).map fun dc =>
    EvidenceGate.allowedChunk q.company c (liveEvidence db dc)

end Spec

/-! ### The rows of the query -/

section Rows

variable {db : EvidenceDb} {q : GateQuery} {ids : List Uuid}

theorem mem_chunkJoin {dc : DocumentChunk} {dv : DocumentVersion} {d : Document} :
    (dc, dv, d) ∈ chunkJoin db ↔ dc ∈ db.documentChunks ∧ dv ∈ db.documentVersions ∧
      d ∈ db.documents ∧ dv.id = dc.documentVersionId ∧ d.id = dv.documentId := by
  simp only [chunkJoin, List.mem_flatMap, List.mem_filter, List.mem_map, decide_eq_true_eq,
    Prod.mk.injEq]
  constructor
  · rintro ⟨_, hdc, _, ⟨hdv, hv⟩, _, ⟨hd, hdd⟩, rfl, rfl, rfl⟩
    exact ⟨hdc, hdv, hd, hv, hdd⟩
  · rintro ⟨hdc, hdv, hd, hv, hdd⟩
    exact ⟨dc, hdc, dv, ⟨hdv, hv⟩, d, ⟨hd, hdd⟩, rfl, rfl, rfl⟩

theorem mem_candDocs {x : Uuid} :
    x ∈ candDocs db q ids ↔ ∃ dc dv d, (dc, dv, d) ∈ chunkJoin db ∧ q.Selects dc dv ∧
      dc.id ∈ ids ∧ d.id = x := by
  simp only [candDocs, List.mem_dedup, List.mem_map, List.mem_filter, decide_eq_true_eq,
    Prod.exists]
  constructor
  · rintro ⟨dc, dv, d, ⟨hj, hs, hid⟩, rfl⟩
    exact ⟨dc, dv, d, hj, hs, hid, rfl⟩
  · rintro ⟨dc, dv, d, hj, hs, hid, rfl⟩
    exact ⟨dc, dv, d, ⟨hj, hs, hid⟩, rfl⟩

/-- The section of a chunk is found by its key. -/
theorem leftJoin_section (h : db.Keyed) (sectionId : Option Uuid) :
    leftJoin db.documentSections (fun ds => some ds.id = sectionId) =
      [db.documentSections.find? fun ds => some ds.id = sectionId] := by
  refine leftJoin_eq_find? ?_ h.sections.of_map
  intro a ha b hb hpa hpb
  simp only [decide_eq_true_eq] at hpa hpb
  exact List.inj_on_of_nodup_map h.sections ha hb (Option.some.inj (hpa.trans hpb.symm))

/-- A row of the query is an admissible chunk among the candidates, with its live evidence. -/
theorem mem_gateRows (h : db.Keyed) {id : Uuid} {hy : Hydrated} :
    (id, hy) ∈ gateRows db q ids ↔ id ∈ ids ∧ ∃ dc ∈ db.documentChunks, dc.id = id ∧
      Admissible db q dc ∧ hy = liveEvidence db dc := by
  simp only [gateRows, List.mem_flatMap, List.mem_filter, List.mem_map, decide_eq_true_eq,
    Prod.exists, leftJoin_section h, List.mem_singleton, Prod.mk.injEq]
  constructor
  · rintro ⟨dc, dv, d, ⟨hj, hs, hid, hvis⟩, _, rfl, rfl, rfl⟩
    obtain ⟨hdc, hdv, hd, hv, hdd⟩ := mem_chunkJoin.mp hj
    have hvis' := (mem_visibleDocIds_candidates.mp hvis).2
    exact ⟨hid, dc, hdc, rfl, ⟨dv, hdv, d, hd, hv, hdd, hs, hvis'⟩, rfl⟩
  · rintro ⟨hid, dc, hdc, rfl, ⟨dv, hdv, d, hd, hv, hdd, hs, hvis⟩, rfl⟩
    have hj := mem_chunkJoin.mpr ⟨hdc, hdv, hd, hv, hdd⟩
    have hcand : d.id ∈ candDocs db q ids := mem_candDocs.mpr ⟨dc, dv, d, hj, hs, hid, rfl⟩
    exact ⟨dc, dv, d, ⟨hj, hs, hid, mem_visibleDocIds_candidates.mpr ⟨hcand, hvis⟩⟩, _, rfl, rfl,
      rfl⟩

theorem admittedChunk_eq_some (h : db.Keyed) {id : Uuid} {dc : DocumentChunk} :
    admittedChunk db q id = some dc ↔ dc ∈ db.documentChunks ∧ dc.id = id ∧ Admissible db q dc := by
  have huniq : AtMostOne db.documentChunks fun dc => dc.id = id ∧ Admissible db q dc := by
    intro a ha b hb hpa hpb
    simp only [decide_eq_true_eq] at hpa hpb
    exact List.inj_on_of_nodup_map h.chunks ha hb (hpa.1.trans hpb.1.symm)
  rw [admittedChunk, find?_eq_some_iff huniq, decide_eq_true_eq]

/-- No two rows have the same chunk id. -/
theorem gateRows_unique (h : db.Keyed) (id : Uuid) :
    AtMostOne (gateRows db q ids) fun r => r.1 = id := by
  rintro ⟨_, _⟩ ha ⟨_, _⟩ hb hpa hpb
  simp only [decide_eq_true_eq] at hpa hpb
  subst hpa hpb
  obtain ⟨-, dc, hdc, hid, -, rfl⟩ := (mem_gateRows h).mp ha
  obtain ⟨-, dc', hdc', hid', -, rfl⟩ := (mem_gateRows h).mp hb
  rw [List.inj_on_of_nodup_map h.chunks hdc hdc' (hid.trans hid'.symm)]

/-- The hash map holds the live evidence of the admissible candidates. -/
theorem allowedMap_gateRows (h : db.Keyed) {id : Uuid} (hid : id ∈ ids) :
    EvidenceGate.allowedMap (gateRows db q ids) id =
      (admittedChunk db q id).map (liveEvidence db) := by
  apply Option.ext
  intro hy
  simp only [EvidenceGate.allowedMap, Option.map_eq_some_iff, find?_eq_some_iff (gateRows_unique h id),
    admittedChunk_eq_some h, decide_eq_true_eq, Prod.exists]
  constructor
  · rintro ⟨_, _, ⟨hmem, rfl⟩, rfl⟩
    obtain ⟨-, dc, hdc, he, hadm, rfl⟩ := (mem_gateRows h).mp hmem
    exact ⟨dc, ⟨hdc, he, hadm⟩, rfl⟩
  · rintro ⟨dc, ⟨hdc, he, hadm⟩, rfl⟩
    exact ⟨id, _, ⟨(mem_gateRows h).mpr ⟨hid, dc, hdc, he, hadm, rfl⟩, rfl⟩, rfl⟩

end Rows

/-! ### The emission loop -/

namespace EvidenceGate

section Emit

variable {company : Uuid} {allowed : Uuid → Option Hydrated}

/-- The hash map after the chunks `gone` have been emitted. -/
def movedOut (allowed : Uuid → Option Hydrated) (gone : List Uuid) (id : Uuid) : Option Hydrated :=
  if id ∈ gone then (allowed id).map Hydrated.movedFrom else allowed id

theorem movedOut_update {gone : List Uuid} {id : Uuid} {h : Hydrated} (hid : allowed id = some h) :
    Function.update (movedOut allowed gone) id (some h.movedFrom) = movedOut allowed (id :: gone) := by
  funext k
  by_cases hk : k = id
  · subst hk
    simp [movedOut, hid]
  · simp [movedOut, hk]

/-- Emitting from a map that `gone` was moved out of gives every candidate its full evidence
exactly when no allowed candidate is in `gone` and none occurs twice. -/
theorem emit_movedOut_eq_iff (company : Uuid)
    (hid : ∀ id h, allowed id = some h → h.documentVersionId ≠ "")
    (gone : List Uuid) (cs : List ChunkCandidate) :
    emit company (movedOut allowed gone) cs =
        cs.filterMap (fun c => (allowed c.chunkId).map (allowedChunk company c)) ↔
      (∀ c ∈ cs, (allowed c.chunkId).isSome → c.chunkId ∉ gone) ∧
        ((cs.map ChunkCandidate.chunkId).filter fun id => (allowed id).isSome).Nodup := by
  induction cs generalizing gone with
  | nil => simp [emit]
  | cons c cs ih =>
    cases hc : allowed c.chunkId with
    | none =>
      have hout : movedOut allowed gone c.chunkId = none := by simp [movedOut, hc]
      simp only [emit, hout, List.filterMap_cons, hc, Option.map_none, List.map_cons,
        List.filter_cons, Option.isSome_none, List.forall_mem_cons]
      rw [ih gone]
      simp
    | some h =>
      by_cases hgone : c.chunkId ∈ gone
      · have hout : movedOut allowed gone c.chunkId = some h.movedFrom := by
          simp [movedOut, hgone, hc]
        have hne := hid c.chunkId h hc
        constructor
        · intro he
          simp only [emit, hout, List.filterMap_cons, hc, Option.map_some, List.cons.injEq,
            allowedChunk, AllowedChunk.mk.injEq, Hydrated.movedFrom] at he
          exact absurd he.1.2.2.1.symm hne
        · rintro ⟨hfresh, -⟩
          exact absurd hgone (hfresh c (by simp) (by simp [hc]))
      · have hout : movedOut allowed gone c.chunkId = some h := by simp [movedOut, hgone, hc]
        have htail := ih (c.chunkId :: gone)
        simp only [emit, hout, List.filterMap_cons, hc, Option.map_some, List.cons.injEq, true_and,
          movedOut_update hc, htail, List.map_cons, List.filter_cons, Option.isSome_some, if_true,
          List.nodup_cons]
        constructor
        · rintro ⟨hfresh, hnodup⟩
          refine ⟨fun x hx hs => ?_, fun hmem => ?_, hnodup⟩
          · rcases List.mem_cons.mp hx with rfl | hx
            · exact hgone
            · exact fun hin => hfresh x hx hs (List.mem_cons_of_mem _ hin)
          · obtain ⟨hmem, hs⟩ := List.mem_filter.mp hmem
            obtain ⟨x, hx, he⟩ := List.mem_map.mp hmem
            exact hfresh x hx (he ▸ hs) (he ▸ List.mem_cons_self)
        · rintro ⟨hfresh, hnew, hnodup⟩
          refine ⟨fun x hx hs hin => ?_, hnodup⟩
          rcases List.mem_cons.mp hin with he | hin
          · exact hnew (List.mem_filter.mpr ⟨List.mem_map.mpr ⟨x, hx, he⟩, he ▸ hs⟩)
          · exact hfresh x (List.mem_cons_of_mem _ hx) hs hin

theorem emit_eq_iff (hid : ∀ id h, allowed id = some h → h.documentVersionId ≠ "")
    (cs : List ChunkCandidate) :
    emit company allowed cs =
        cs.filterMap (fun c => (allowed c.chunkId).map (allowedChunk company c)) ↔
      ((cs.map ChunkCandidate.chunkId).filter fun id => (allowed id).isSome).Nodup := by
  have hall := emit_movedOut_eq_iff company hid [] cs
  have hnil : movedOut allowed [] = allowed := by
    funext k
    simp [movedOut]
  rw [hnil] at hall
  simpa using hall

end Emit

end EvidenceGate

/-- Without a scope no document is visible. -/
theorem visibleDocIds_nil_scope {db : AccessDb} {now : Nat} {c : Uuid}
    {candidates : List Uuid} : visibleDocIds db now c [] candidates = [] := by
  simp [visibleDocIds, PrincipalMatches, readerGrantKeys]

theorem not_admissible_of_closed {db : EvidenceDb} {q : GateQuery} {dc : DocumentChunk}
    (hq : q.scope = [] ∨ q.labels = []) : ¬Admissible db q dc := by
  rintro ⟨dv, -, d, -, -, -, ⟨-, -, hl⟩, hvis⟩
  rcases hq with hq | hq
  · simp [hq, visibleDocIds_nil_scope] at hvis
  · simp [hq] at hl

theorem admittedChunk_of_closed {db : EvidenceDb} {q : GateQuery} (id : Uuid)
    (hq : q.scope = [] ∨ q.labels = []) : admittedChunk db q id = none := by
  simp [admittedChunk, not_admissible_of_closed hq]

/-- `EvidenceGate::evaluate` returns what it should exactly when no chunk that it admits occurs
twice among the candidates: a second occurrence is emitted with the strings that the first one left
behind. -/
theorem evaluate_eq_gateSpec_iff {ε : Type} (db : EvidenceDb) (h : db.Keyed) (q : GateQuery)
    (candidates : List ChunkCandidate) :
    EvidenceGate.evaluate (.ok db : Except ε EvidenceDb) q candidates =
        .ok (gateSpec db q candidates) ↔
      ((candidates.map ChunkCandidate.chunkId).filter fun id =>
        ∃ dc ∈ db.documentChunks, dc.id = id ∧ Admissible db q dc).Nodup := by
  have hsome : ∀ id, (admittedChunk db q id).isSome =
      decide (∃ dc ∈ db.documentChunks, dc.id = id ∧ Admissible db q dc) := by
    intro id
    rw [Bool.eq_iff_iff, admittedChunk, List.find?_isSome]
    simp
  simp only [← hsome, EvidenceGate.evaluate]
  split
  next hclosed =>
    -- nothing can be allowed, and the specification allows nothing
    have hnone : ∀ c ∈ candidates, admittedChunk db q c.chunkId = none := by
      intro c hc
      rcases hclosed with hq | hq | hq
      · exact admittedChunk_of_closed c.chunkId (.inl hq)
      · exact admittedChunk_of_closed c.chunkId (.inr hq)
      · simp [hq] at hc
    have hspec : gateSpec db q candidates = [] := by
      rw [gateSpec, List.filterMap_eq_nil_iff]
      intro c hc
      rw [hnone c hc, Option.map_none]
    have hids : ((candidates.map ChunkCandidate.chunkId).filter fun id =>
        (admittedChunk db q id).isSome) = [] := by
      rw [List.filter_eq_nil_iff]
      intro id hid
      obtain ⟨c, hc, rfl⟩ := List.mem_map.mp hid
      simp [hnone c hc]
    simp [hspec, hids]
  next hopen =>
    have hmap : ∀ c ∈ candidates, EvidenceGate.allowedMap
        (gateRows db q (candidates.map ChunkCandidate.chunkId)) c.chunkId =
          (admittedChunk db q c.chunkId).map (liveEvidence db) :=
      fun c hc => allowedMap_gateRows h (List.mem_map.mpr ⟨c, hc, rfl⟩)
    have hne : ∀ id hy, EvidenceGate.allowedMap
        (gateRows db q (candidates.map ChunkCandidate.chunkId)) id = some hy →
          hy.documentVersionId ≠ "" := by
      intro id hy hget
      obtain ⟨⟨id', hy'⟩, hf, rfl⟩ := Option.map_eq_some_iff.mp hget
      obtain ⟨-, dc, -, -, -, rfl⟩ := (mem_gateRows h).mp (List.mem_of_find?_eq_some hf)
      exact Uuid.text_ne_empty dc.documentVersionId
    have hspec : gateSpec db q candidates = candidates.filterMap fun c =>
        (EvidenceGate.allowedMap (gateRows db q (candidates.map ChunkCandidate.chunkId))
          c.chunkId).map (EvidenceGate.allowedChunk q.company c) := by
      refine List.filterMap_congr fun c hc => ?_
      rw [hmap c hc, Option.map_map]
      rfl
    have hids : ((candidates.map ChunkCandidate.chunkId).filter fun id =>
          (admittedChunk db q id).isSome) =
        (candidates.map ChunkCandidate.chunkId).filter fun id => (EvidenceGate.allowedMap
          (gateRows db q (candidates.map ChunkCandidate.chunkId)) id).isSome := by
      refine List.filter_congr fun id hid => ?_
      obtain ⟨c, hc, rfl⟩ := List.mem_map.mp hid
      rw [hmap c hc, Option.isSome_map]
    rw [hids, hspec]
    simpa [Except.map] using EvidenceGate.emit_eq_iff hne candidates

/-- One document of the unit 10, with one chunk in a section. -/
def handbookDb : EvidenceDb where
  org := OrgDb.empty.run [.createCompany 1 "Acme" "acme" 10]
  documents := [⟨100, 1, 10⟩]
  resourceGrants := []
  documentVersions := [⟨110, 1, 100, .active, .internal⟩]
  documentChunks := [⟨120, 1, 110, "Leave is 25 days.", some 130⟩, ⟨121, 1, 110, "Ask HR.", none⟩]
  documentSections := [⟨130, 1, 110, some "Leave"⟩]
  knowledgeEdges := []
  knowledgeEdgeEndpoints := []

/-- A reader in the unit 10. -/
def handbookQuery : GateQuery := ⟨1, [10], [.internal], [.active], 0⟩

theorem handbookDb_keyed : handbookDb.Keyed where
  documents := by decide
  versions := by decide
  chunks := by decide
  sections := by decide
  edges := by decide
  endpoints := by decide

/-- The second occurrence of a chunk has no version id, no text and an empty heading. -/
theorem evaluate_repeated_chunk :
    handbookDb.Keyed ∧
      EvidenceGate.evaluate (.ok handbookDb : Except Unit EvidenceDb) handbookQuery
          [{ chunkId := 120, score := 2 }, { chunkId := 120, score := 1 }] =
        .ok [⟨1, 120, Uuid.text 110, 2, "Leave is 25 days.", some "Leave"⟩,
          ⟨1, 120, "", 1, "", some ""⟩] ∧
      EvidenceGate.evaluate (.ok handbookDb : Except Unit EvidenceDb) handbookQuery
          [{ chunkId := 120, score := 2 }, { chunkId := 120, score := 1 }] ≠
        .ok (gateSpec handbookDb handbookQuery
          [{ chunkId := 120, score := 2 }, { chunkId := 120, score := 1 }]) := by
  refine ⟨handbookDb_keyed, ?_, ?_⟩
  · decide
  · decide

theorem evaluate_distinct_chunks :
    EvidenceGate.evaluate (.ok handbookDb : Except Unit EvidenceDb) handbookQuery
        [{ chunkId := 121, score := 3 }, { chunkId := 120, score := 2 }] =
      .ok (gateSpec handbookDb handbookQuery
        [{ chunkId := 121, score := 3 }, { chunkId := 120, score := 2 }]) := by
  refine (evaluate_eq_gateSpec_iff handbookDb handbookDb_keyed handbookQuery _).mpr ?_
  decide

end Wikore
