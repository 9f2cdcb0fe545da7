import Wikore.Rag.RelationshipGate

/-! What the evidence gates return to a caller depends on the rows of the caller's company and, of
the vector search, on the ids and scores of the candidates. -/

namespace Wikore

open Query

/-- The two databases have the same rows of company `c`. -/
structure AgreeOn (c : Uuid) (db db' : EvidenceDb) : Prop where
  companies : ∀ x : Company, x.id = c → (x ∈ db.org.companies ↔ x ∈ db'.org.companies)
  orgUnits : ∀ x : OrgUnit, x.companyId = c → (x ∈ db.org.orgUnits ↔ x ∈ db'.org.orgUnits)
  closure : ∀ x : ClosureRow, x.companyId = c → (x ∈ db.org.closure ↔ x ∈ db'.org.closure)
  documents : ∀ x : Document, x.companyId = c → (x ∈ db.documents ↔ x ∈ db'.documents)
  grants : ∀ x : ResourceGrant, x.companyId = c → (x ∈ db.resourceGrants ↔ x ∈ db'.resourceGrants)
  versions : ∀ x : DocumentVersion, x.companyId = c →
    (x ∈ db.documentVersions ↔ x ∈ db'.documentVersions)
  chunks : ∀ x : DocumentChunk, x.companyId = c → (x ∈ db.documentChunks ↔ x ∈ db'.documentChunks)
  sections : ∀ x : DocumentSection, x.companyId = c →
    (x ∈ db.documentSections ↔ x ∈ db'.documentSections)
  edges : ∀ x : KnowledgeEdge, x.companyId = c → (x ∈ db.knowledgeEdges ↔ x ∈ db'.knowledgeEdges)
  endpoints : ∀ x : EdgeEndpoint, x.companyId = c →
    (x ∈ db.knowledgeEdgeEndpoints ↔ x ∈ db'.knowledgeEdgeEndpoints)

theorem AgreeOn.symm {c : Uuid} {db db' : EvidenceDb} (h : AgreeOn c db db') : AgreeOn c db' db where
  companies := fun x hx => (h.companies x hx).symm
  orgUnits := fun x hx => (h.orgUnits x hx).symm
  closure := fun x hx => (h.closure x hx).symm
  documents := fun x hx => (h.documents x hx).symm
  grants := fun x hx => (h.grants x hx).symm
  versions := fun x hx => (h.versions x hx).symm
  chunks := fun x hx => (h.chunks x hx).symm
  sections := fun x hx => (h.sections x hx).symm
  edges := fun x hx => (h.edges x hx).symm
  endpoints := fun x hx => (h.endpoints x hx).symm

/-- The chunks of company `c` that have a section have one of that company.  No foreign key says
so: the ingest pipeline, the only writer of the link, keeps it. -/
def SectionsInCompany (c : Uuid) (db : EvidenceDb) : Prop :=
  ∀ dc ∈ db.documentChunks, dc.companyId = c → ∀ ds ∈ db.documentSections,
    some ds.id = dc.sectionId → ds.companyId = c

section Agree

variable {db db' : EvidenceDb} {q : GateQuery}

theorem AgreeOn.principalMatches (ha : AgreeOn q.company db db') {g : ResourceGrant}
    (hm : PrincipalMatches db.toAccessDb q.company q.scope g) :
    PrincipalMatches db'.toAccessDb q.company q.scope g := by
  rcases hm with hself | ⟨happ, hkey⟩
  · exact .inl hself
  · refine .inr ⟨happ, ?_⟩
    simp only [readerGrantKeys, List.mem_dedup, List.mem_append, List.mem_map, List.mem_filter,
      decide_eq_true_eq] at hkey ⊢
    rcases hkey with hin | ⟨rc, ⟨hrc, hc, hd⟩, he⟩
    · exact .inl hin
    · exact .inr ⟨rc, ⟨(ha.closure rc hc).mp hrc, hc, hd⟩, he⟩

theorem AgreeOn.visible (ha : AgreeOn q.company db db') {candidates : List Uuid} {x : Uuid}
    (hx : x ∈ visibleDocIds db.toAccessDb q.now q.company q.scope candidates) :
    x ∈ visibleDocIds db'.toAccessDb q.now q.company q.scope candidates := by
  simp only [visibleDocIds, candidateDocs, List.mem_dedup, List.mem_append, List.mem_map,
    List.mem_flatMap, List.mem_filter, decide_eq_true_eq] at hx ⊢
  rcases hx with (⟨d, ⟨⟨hd, hc, hin⟩, ho⟩, he⟩ |
    ⟨d, ⟨hd, hc, hin⟩, g, ⟨hg, hgc, ht, hr, hl, hm⟩, he⟩) |
    ⟨d, ⟨hd, hc, hin⟩, rc, ⟨hrc, hrcc, hrcd⟩, g, ⟨hg, hgc, ht, hr, hl, hcov, hm⟩, he⟩
  · exact .inl (.inl ⟨d, ⟨⟨(ha.documents d hc).mp hd, hc, hin⟩, ho⟩, he⟩)
  · exact .inl (.inr ⟨d, ⟨(ha.documents d hc).mp hd, hc, hin⟩, g,
      ⟨(ha.grants g hgc).mp hg, hgc, ht, hr, hl, ha.principalMatches hm⟩, he⟩)
  · exact .inr ⟨d, ⟨(ha.documents d hc).mp hd, hc, hin⟩, rc,
      ⟨(ha.closure rc hrcc).mp hrc, hrcc, hrcd⟩, g,
      ⟨(ha.grants g hgc).mp hg, hgc, ht, hr, hl, hcov, ha.principalMatches hm⟩, he⟩

/-- The joins on the version and on the document carry no company, but the composite foreign keys
keep them inside the company of the chunk. -/
theorem AgreeOn.admissible (ha : AgreeOn q.company db db') (h : db.Valid) {dc : DocumentChunk}
    (hdc : dc ∈ db.documentChunks) (hadm : Admissible db q dc) : Admissible db' q dc := by
  obtain ⟨dv, hdv, d, hd, hv, hdd, hs, hvis⟩ := hadm
  have hdvc : dv.companyId = q.company := by
    obtain ⟨dv', hdv', hc', hv'⟩ := h.chunkVersion dc hdc
    obtain rfl : dv' = dv := List.inj_on_of_nodup_map h.versions hdv' hdv (hv'.trans hv.symm)
    exact hc'.trans hs.1
  have hdc : d.companyId = q.company := by
    obtain ⟨d', hd', hc', hdd'⟩ := h.versionDocument dv hdv
    obtain rfl : d' = d := List.inj_on_of_nodup_map h.documents hd' hd (hdd'.trans hdd.symm)
    exact hc'.trans hdvc
  exact ⟨dv, (ha.versions dv hdvc).mp hdv, d, (ha.documents d hdc).mp hd, hv, hdd, hs,
    ha.visible hvis⟩

theorem Admissible.company {dc : DocumentChunk} (h : Admissible db q dc) :
    dc.companyId = q.company := by
  obtain ⟨dv, -, d, -, -, -, hs, -⟩ := h
  exact hs.1

theorem AgreeOn.liveEvidence (ha : AgreeOn q.company db db') (h : db.Keyed)
    (hs : SectionsInCompany q.company db) (hs' : SectionsInCompany q.company db')
    {dc : DocumentChunk} (hdc : dc ∈ db.documentChunks) (hc : dc.companyId = q.company) :
    liveEvidence db dc = liveEvidence db' dc := by
  have hdc' := (ha.chunks dc hc).mp hdc
  have huniq : AtMostOne db.documentSections fun ds => some ds.id = dc.sectionId := by
    intro a ha b hb hpa hpb
    simp only [decide_eq_true_eq] at hpa hpb
    exact List.inj_on_of_nodup_map h.sections ha hb (Option.some.inj (hpa.trans hpb.symm))
  have hfind := find?_congr huniq db'.documentSections fun ds hp => by
    have hid := of_decide_eq_true hp
    constructor
    · exact fun hds => (ha.sections ds (hs dc hdc hc ds hds hid)).mp hds
    · exact fun hds => (ha.sections ds (hs' dc hdc' hc ds hds hid)).mpr hds
  rw [Wikore.liveEvidence, Wikore.liveEvidence, hfind]

/-- The databases show the same chunks, with the same evidence. -/
theorem AgreeOn.gateRows (ha : AgreeOn q.company db db') (h : db.Valid) (h' : db'.Valid)
    (hs : SectionsInCompany q.company db) (hs' : SectionsInCompany q.company db')
    {ids : List Uuid} {row : Uuid × Hydrated} (hrow : row ∈ Wikore.gateRows db q ids) :
    row ∈ Wikore.gateRows db' q ids := by
  obtain ⟨id, hy⟩ := row
  obtain ⟨hid, dc, hdc, he, hadm, rfl⟩ := (mem_gateRows h.toKeyed).mp hrow
  have hc := hadm.company
  exact (mem_gateRows h'.toKeyed).mpr ⟨hid, dc, (ha.chunks dc hc).mp hdc, he,
    ha.admissible h hdc hadm, ha.liveEvidence h.toKeyed hs hs' hdc hc⟩

theorem AgreeOn.shown (ha : AgreeOn q.company db db') (h : db.Valid) {id : Uuid}
    (hshown : RelationshipEvidenceGate.Shown db q id) :
    RelationshipEvidenceGate.Shown db' q id := by
  obtain ⟨dc, hdc, hid, hadm⟩ := hshown
  exact ⟨dc, (ha.chunks dc hadm.company).mp hdc, hid, ha.admissible h hdc hadm⟩

theorem AgreeOn.bothShown (ha : AgreeOn q.company db db') (h : db.Valid) {id : Uuid}
    (hboth : RelationshipEvidenceGate.BothShown db q id) :
    RelationshipEvidenceGate.BothShown db' q id := by
  obtain ⟨ep0, hm0, ep1, hm1, hc0, hc1, hid0, hid1, ho0, ho1, hs0, hs1⟩ := hboth
  exact ⟨ep0, (ha.endpoints ep0 hc0).mp hm0, ep1, (ha.endpoints ep1 hc1).mp hm1, hc0, hc1, hid0,
    hid1, ho0, ho1, ha.shown h hs0, ha.shown h hs1⟩

/-- The databases show the same edges, with the same evidence. -/
theorem AgreeOn.edgeRows (ha : AgreeOn q.company db db') (h : db.Valid) (h' : db'.Valid)
    (hs : SectionsInCompany q.company db) (hs' : SectionsInCompany q.company db')
    {states : List ReviewState} {ids : List Uuid} {r : HydratedRow}
    (hr : r ∈ RelationshipEvidenceGate.gateRows db q states ids) :
    r ∈ RelationshipEvidenceGate.gateRows db' q states ids := by
  obtain ⟨e, he, hin, hopen, hboth, ep, hep, hc, hid, dc, hdc, hdid, hadm, rfl⟩ :=
    (RelationshipEvidenceGate.mem_gateRows h.toKeyed).mp hr
  have hdcc := hadm.company
  have hlive := ha.liveEvidence h.toKeyed hs hs' hdc hdcc
  refine (RelationshipEvidenceGate.mem_gateRows h'.toKeyed).mpr
    ⟨e, (ha.edges e hopen.1).mp he, hin, hopen, ha.bothShown h hboth, ep,
      (ha.endpoints ep hc).mp hep, hc, hid, dc, (ha.chunks dc hdcc).mp hdc, hdid,
      ha.admissible h hdc hadm, ?_⟩
  rw [RelationshipEvidenceGate.evidenceRow, RelationshipEvidenceGate.evidenceRow, hlive]

end Agree

/-! ### The emission loops read the ids and the scores -/

theorem EvidenceGate.emit_congr {company : Uuid} {allowed : Uuid → Option Hydrated}
    {cs cs' : List ChunkCandidate}
    (h : cs.map (fun c => (c.chunkId, c.score)) = cs'.map fun c => (c.chunkId, c.score)) :
    EvidenceGate.emit company allowed cs = EvidenceGate.emit company allowed cs' := by
  induction cs generalizing cs' allowed with
  | nil =>
    obtain rfl : cs' = [] := by simpa using h.symm
    rfl
  | cons c cs ih =>
    cases cs' with
    | nil => simp at h
    | cons c' cs' =>
      simp only [List.map_cons, List.cons.injEq, Prod.mk.injEq] at h
      obtain ⟨⟨hid, hscore⟩, htail⟩ := h
      simp only [EvidenceGate.emit, hid]
      cases allowed c'.chunkId with
      | none => exact ih htail
      | some hy => simp only [EvidenceGate.allowedChunk, hid, hscore, ih htail]

theorem RelationshipEvidenceGate.emit_congr {company : Uuid}
    {grouped : String → Option (HydratedRow × HydratedRow)} {cs cs' : List EdgeCandidate}
    (h : cs.map (fun c => (c.edgeId, c.score)) = cs'.map fun c => (c.edgeId, c.score)) :
    RelationshipEvidenceGate.emit company grouped cs =
      RelationshipEvidenceGate.emit company grouped cs' := by
  induction cs generalizing cs' grouped with
  | nil =>
    obtain rfl : cs' = [] := by simpa using h.symm
    rfl
  | cons c cs ih =>
    cases cs' with
    | nil => simp at h
    | cons c' cs' =>
      simp only [List.map_cons, List.cons.injEq, Prod.mk.injEq] at h
      obtain ⟨⟨hid, hscore⟩, htail⟩ := h
      simp only [RelationshipEvidenceGate.emit, hid]
      cases grouped (Uuid.text c'.edgeId) with
      | none => exact ih htail
      | some rows =>
        obtain ⟨row0, row1⟩ := rows
        simp only [RelationshipEvidenceGate.allowedRelationship, hscore, ih htail]

/-- Two runs of a gate on databases that agree on the caller's company, with candidates that agree
on ids and scores, return the same, provided that the chunks of the company have sections of the
company. -/
theorem gates_noninterference {ε : Type} (q : GateQuery) (states : List ReviewState)
    (db db' : EvidenceDb) (h : db.Valid) (h' : db'.Valid) (ha : AgreeOn q.company db db')
    (hs : SectionsInCompany q.company db) (hs' : SectionsInCompany q.company db') :
    (∀ cs cs' : List ChunkCandidate,
      cs.map (fun c => (c.chunkId, c.score)) = cs'.map (fun c => (c.chunkId, c.score)) →
        EvidenceGate.evaluate (.ok db : Except ε EvidenceDb) q cs =
          EvidenceGate.evaluate (.ok db') q cs') ∧
    ∀ cs cs' : List EdgeCandidate,
      cs.map (fun c => (c.edgeId, c.score)) = cs'.map (fun c => (c.edgeId, c.score)) →
        RelationshipEvidenceGate.evaluate (.ok db : Except ε EvidenceDb) q states cs =
          RelationshipEvidenceGate.evaluate (.ok db') q states cs' := by
  constructor
  · intro cs cs' hcs
    have hids : cs.map ChunkCandidate.chunkId = cs'.map ChunkCandidate.chunkId := by
      simpa [Function.comp_def] using congrArg (List.map Prod.fst) hcs
    have hnil : cs = [] ↔ cs' = [] := by
      rw [← List.map_eq_nil_iff (f := ChunkCandidate.chunkId), hids, List.map_eq_nil_iff]
    have hallowed : EvidenceGate.allowedMap (gateRows db q (cs.map ChunkCandidate.chunkId)) =
        EvidenceGate.allowedMap (gateRows db' q (cs'.map ChunkCandidate.chunkId)) := by
      funext id
      rw [EvidenceGate.allowedMap, EvidenceGate.allowedMap, hids]
      congr 1
      refine find?_congr (gateRows_unique h.toKeyed id) _ fun row _ => ?_
      exact ⟨ha.gateRows h h' hs hs', ha.symm.gateRows h' h hs' hs⟩
    simp only [EvidenceGate.evaluate, hnil, Except.map, hallowed, EvidenceGate.emit_congr hcs]
  · intro cs cs' hcs
    have hids : cs.map EdgeCandidate.edgeId = cs'.map EdgeCandidate.edgeId := by
      simpa [Function.comp_def] using congrArg (List.map Prod.fst) hcs
    have hnil : cs = [] ↔ cs' = [] := by
      rw [← List.map_eq_nil_iff (f := EdgeCandidate.edgeId), hids, List.map_eq_nil_iff]
    have hgrouped : RelationshipEvidenceGate.grouped
          (RelationshipEvidenceGate.gateRows db q states (cs.map EdgeCandidate.edgeId)) =
        RelationshipEvidenceGate.grouped
          (RelationshipEvidenceGate.gateRows db' q states (cs.map EdgeCandidate.edgeId)) :=
      RelationshipEvidenceGate.grouped_congr (RelationshipEvidenceGate.gateRows_unique h.toKeyed)
        fun r => ⟨ha.edgeRows h h' hs hs', ha.symm.edgeRows h' h hs' hs⟩
    rw [hids] at hgrouped
    simp only [RelationshipEvidenceGate.evaluate, hnil, Except.map, hgrouped, hids,
      RelationshipEvidenceGate.emit_congr hcs]

/-- Company 1 has one chunk; its section, with the heading `heading`, is in company `owner`. -/
def sectionOf (owner : Uuid) (heading : String) : EvidenceDb where
  org := OrgDb.empty.run [.createCompany 1 "Acme" "acme" 10, .createCompany 2 "Bolt" "bolt" 20]
  documents := [⟨100, 1, 10⟩, ⟨200, 2, 20⟩]
  resourceGrants := []
  documentVersions := [⟨110, 1, 100, .active, .internal⟩, ⟨210, 2, 200, .active, .internal⟩]
  documentChunks := [⟨120, 1, 110, "Leave is 25 days.", some 130⟩]
  documentSections := [⟨130, owner, if owner = 1 then 110 else 210, some heading⟩]
  knowledgeEdges := []
  knowledgeEdgeEndpoints := []

theorem sectionOf_keyed (owner : Uuid) (heading : String) : (sectionOf owner heading).Keyed where
  documents := by simp only [sectionOf]; decide
  versions := by simp only [sectionOf]; decide
  chunks := by simp [sectionOf]
  sections := by simp [sectionOf]
  edges := by simp [sectionOf]
  endpoints := by simp [sectionOf]

theorem sectionOf_valid (owner : Uuid) (heading : String) (h : owner = 1 ∨ owner = 2) :
    (sectionOf owner heading).Valid where
  toKeyed := sectionOf_keyed owner heading
  documentOwner := by simp only [sectionOf]; decide
  versionDocument := by simp only [sectionOf]; decide
  chunkVersion := by simp only [sectionOf]; decide
  sectionVersion := by
    intro ds hds
    obtain rfl := List.mem_singleton.mp hds
    rcases h with rfl | rfl
    · exact ⟨⟨110, 1, 100, .active, .internal⟩, by simp [sectionOf], rfl, rfl⟩
    · exact ⟨⟨210, 2, 200, .active, .internal⟩, by simp [sectionOf], rfl, rfl⟩
  chunkSection := by simp [sectionOf]
  endpointEdge := by simp [sectionOf]
  endpointChunk := by simp [sectionOf]

theorem sectionOf_agree (heading heading' : String) :
    AgreeOn 1 (sectionOf 2 heading) (sectionOf 2 heading') where
  companies := fun _ _ => Iff.rfl
  orgUnits := fun _ _ => Iff.rfl
  closure := fun _ _ => Iff.rfl
  documents := fun _ _ => Iff.rfl
  grants := fun _ _ => Iff.rfl
  versions := fun _ _ => Iff.rfl
  chunks := fun _ _ => Iff.rfl
  sections := by
    intro x hx
    constructor
    · intro hmem
      obtain rfl := List.mem_singleton.mp hmem
      exact absurd hx (by decide : (2 : Uuid) ≠ 1)
    · intro hmem
      obtain rfl := List.mem_singleton.mp hmem
      exact absurd hx (by decide : (2 : Uuid) ≠ 1)
  edges := fun _ _ => Iff.rfl
  endpoints := fun _ _ => Iff.rfl

/-- A chunk of company 1 that points to a section of company 2 shows the caller its heading. -/
theorem foreign_heading_shown :
    (sectionOf 2 "Mergers").Valid ∧ (sectionOf 2 "Layoffs").Valid ∧
      AgreeOn 1 (sectionOf 2 "Mergers") (sectionOf 2 "Layoffs") ∧
      EvidenceGate.evaluate (.ok (sectionOf 2 "Mergers") : Except Unit EvidenceDb) handbookQuery
          [{ chunkId := 120 }] ≠
        EvidenceGate.evaluate (.ok (sectionOf 2 "Layoffs")) handbookQuery [{ chunkId := 120 }] := by
  refine ⟨sectionOf_valid 2 _ (.inr rfl), sectionOf_valid 2 _ (.inr rfl), sectionOf_agree _ _, ?_⟩
  decide

/-- The same tables after company 2 stored another document. -/
def otherCompanyGrew : EvidenceDb :=
  { sectionOf 1 "Leave" with documents := (sectionOf 1 "Leave").documents ++ [⟨201, 2, 20⟩] }

theorem otherCompanyGrew_valid : otherCompanyGrew.Valid :=
  { sectionOf_valid 1 "Leave" (.inl rfl) with
    documents := by decide
    documentOwner := by decide
    versionDocument := by decide }

theorem otherCompanyGrew_agree : AgreeOn 1 (sectionOf 1 "Leave") otherCompanyGrew := by
  refine ⟨fun _ _ => Iff.rfl, fun _ _ => Iff.rfl, fun _ _ => Iff.rfl, fun x hx => ?_,
    fun _ _ => Iff.rfl, fun _ _ => Iff.rfl, fun _ _ => Iff.rfl, fun _ _ => Iff.rfl,
    fun _ _ => Iff.rfl, fun _ _ => Iff.rfl⟩
  have hne : x ≠ ⟨201, 2, 20⟩ := by
    rintro rfl
    exact absurd hx (by decide)
  rw [otherCompanyGrew, List.mem_append, List.mem_singleton]
  exact (or_iff_left hne).symm

/-- Neither the other company nor a forged payload changes what the caller is shown. -/
theorem evaluate_ignores_other_company :
    EvidenceGate.evaluate (.ok (sectionOf 1 "Leave") : Except Unit EvidenceDb) handbookQuery
        [{ chunkId := 120, payload := { sectionHeading := some "Mergers" } }] =
      EvidenceGate.evaluate (.ok otherCompanyGrew) handbookQuery [{ chunkId := 120 }] :=
  (gates_noninterference handbookQuery [] (sectionOf 1 "Leave") otherCompanyGrew
    (sectionOf_valid 1 "Leave" (.inl rfl)) otherCompanyGrew_valid otherCompanyGrew_agree
    (by simp [SectionsInCompany, sectionOf, handbookQuery])
    (by simp [SectionsInCompany, otherCompanyGrew, sectionOf, handbookQuery])).1 _ _ rfl

end Wikore
