import Wikore.Lib.Fallible
import Wikore.Rag.RelationshipGate

/-! What the two gates show to a reader, as sets that speak of the tables only.  A gate that reads the
tables answers with the candidates that are in the set, whatever else was proposed to it and whatever
else the tables hold. -/

namespace Wikore

open Query

/-- The chunks that the reader of the query may see, each with its live evidence. -/
def shownChunks (db : EvidenceDb) (q : GateQuery) : Set (Uuid × Hydrated) :=
  {row | ∃ dc ∈ db.documentChunks, dc.id = row.1 ∧ Admissible db q dc ∧ row.2 = liveEvidence db dc}

theorem shownChunks_eq (db : EvidenceDb) (q : GateQuery) : shownChunks db q =
    {row | row ∈ (db.documentChunks.filter fun dc => Admissible db q dc).map
      fun dc => (dc.id, liveEvidence db dc)} := by
  ext ⟨id, hy⟩
  simp only [shownChunks, Set.mem_ofPred_eq, List.mem_map, List.mem_filter, decide_eq_true_eq,
    Prod.mk.injEq]
  constructor
  · rintro ⟨dc, hdc, rfl, hadm, rfl⟩
    exact ⟨dc, ⟨hdc, hadm⟩, rfl, rfl⟩
  · rintro ⟨dc, ⟨hdc, hadm⟩, rfl, rfl⟩
    exact ⟨dc, hdc, rfl, hadm, rfl⟩

/-- The endpoints of the edges that the reader of the query may see. -/
def shownEndpoints (db : EvidenceDb) (q : GateQuery) (states : List ReviewState) :
    Set HydratedRow :=
  {r | ∃ e ∈ db.knowledgeEdges, RelationshipEvidenceGate.OpenEdge q states e ∧
    RelationshipEvidenceGate.BothShown db q e.id ∧
    ∃ ep ∈ db.knowledgeEdgeEndpoints, ep.companyId = q.company ∧ ep.edgeId = e.id ∧
      ∃ dc ∈ db.documentChunks, dc.id = ep.chunkId ∧ Admissible db q dc ∧
        r = RelationshipEvidenceGate.evidenceRow db e ep dc}

/-! ### The chunk gate -/

/-- What the chunk gate shows under an id. -/
def chunkView (db : EvidenceDb) (q : GateQuery) (id : Uuid) : Option Hydrated :=
  (admittedChunk db q id).map (liveEvidence db)

namespace EvidenceGate

variable {company : Uuid} {allowed allowed' : Uuid → Option Hydrated} {db db' : EvidenceDb}
  {q q' : GateQuery}

theorem emit_congr_map {cs : List ChunkCandidate}
    (h : ∀ c ∈ cs, allowed c.chunkId = allowed' c.chunkId) :
    emit company allowed cs = emit company allowed' cs := by
  induction cs generalizing allowed allowed' with
  | nil => rfl
  | cons c cs ih =>
    rw [List.forall_mem_cons] at h
    obtain ⟨hc, hcs⟩ := h
    rw [emit, emit, hc]
    cases allowed' c.chunkId with
    | none => exact ih hcs
    | some hy =>
      refine congrArg _ (ih fun d hd => ?_)
      by_cases hid : d.chunkId = c.chunkId
      · rw [hid, Function.update_self, Function.update_self]
      · rw [Function.update_of_ne hid, Function.update_of_ne hid, hcs d hd]

/-- A candidate that is not allowed leaves no trace. -/
theorem emit_filter (cs : List ChunkCandidate) :
    emit company allowed cs =
      emit company allowed (cs.filter fun c => (allowed c.chunkId).isSome) := by
  induction cs generalizing allowed with
  | nil => rfl
  | cons c cs ih =>
    cases hc : allowed c.chunkId with
    | none =>
      rw [List.filter_cons_of_neg (by simp [hc]), emit, hc]
      exact ih
    | some hy =>
      rw [List.filter_cons_of_pos (by simp [hc]), emit, emit, hc]
      dsimp only
      rw [ih]
      refine congrArg _ (congrArg _ (List.filter_congr fun d _ => ?_))
      by_cases hid : d.chunkId = c.chunkId
      · rw [hid, Function.update_self, hc]
        rfl
      · rw [Function.update_of_ne hid]

/-- Where the statement reads the tables, the gate emits what they show. -/
theorem evaluate_eq {ε : Type} (h : db.Keyed) (cs : List ChunkCandidate) :
    evaluate (.ok db : Except ε EvidenceDb) q cs = .ok (emit q.company (chunkView db q) cs) := by
  rw [evaluate]
  split
  next hclosed =>
    have hnone : ∀ c ∈ cs, chunkView db q c.chunkId = none := by
      intro c hc
      rcases hclosed with hq | hq | hq
      · rw [chunkView, admittedChunk_of_closed _ (.inl hq), Option.map_none]
      · rw [chunkView, admittedChunk_of_closed _ (.inr hq), Option.map_none]
      · rw [hq] at hc
        cases hc
    rw [emit_filter, List.filter_eq_nil_iff.mpr fun c hc => by simp [hnone c hc]]
    rfl
  next =>
    refine congrArg Except.ok (emit_congr_map fun c hc => ?_)
    exact allowedMap_gateRows h (List.mem_map_of_mem hc)

theorem spelt_eq_some {ids : List Uuid} {c : ChunkCandidate String} {c' : ChunkCandidate}
    (h : spelt ids c = some c') :
    c'.chunkId ∈ ids ∧ Uuid.text c'.chunkId = c.chunkId ∧ c'.score = c.score := by
  obtain ⟨id, hid, rfl⟩ := Option.map_eq_some_iff.mp h
  have htext := List.find?_some hid
  exact ⟨List.mem_of_find?_eq_some hid, of_decide_eq_true htext, rfl⟩

/-- Where the cast gives these ids, the gate does with the texts what it does with the candidates that
are spelt like one of the ids. -/
theorem evaluateTexts_eq {ε : Type} {cast : List String → Except ε (List Uuid)} {ids : List Uuid}
    {cs : List (ChunkCandidate String)} (hcast : cast (cs.map ChunkCandidate.chunkId) = .ok ids)
    (h : db.Keyed) : evaluateTexts cast (.ok db) q cs =
      .ok (emit q.company (chunkView db q) (cs.filterMap (spelt ids))) := by
  rw [evaluateTexts]
  split
  next hclosed =>
    have hsome : evaluate (.ok db : Except ε EvidenceDb) q (cs.filterMap (spelt ids)) =
        .ok (emit q.company (chunkView db q) (cs.filterMap (spelt ids))) := evaluate_eq h _
    rw [evaluate, if_pos (hclosed.imp_right (Or.imp_right fun hnil => by rw [hnil]; rfl))] at hsome
    exact hsome
  next =>
    rw [hcast]
    refine congrArg Except.ok (emit_congr_map fun c' hc' => ?_)
    obtain ⟨c, -, hspelt⟩ := List.mem_filterMap.mp hc'
    exact allowedMap_gateRows h (spelt_eq_some hspelt).1

/-- What the statement reads, when the gate allows something. -/
theorem evaluateTexts_ok {ε : Type} {cast : List String → Except ε (List Uuid)}
    {snapshot : Except ε EvidenceDb} {cs : List (ChunkCandidate String)} {out : List AllowedChunk}
    (h : evaluateTexts cast snapshot q cs = .ok out) (hne : out ≠ []) :
    ∃ ids db, cast (cs.map ChunkCandidate.chunkId) = .ok ids ∧ snapshot = .ok db := by
  rw [evaluateTexts] at h
  split at h
  · cases h
    exact absurd rfl hne
  · obtain ⟨ids, hids, h⟩ := Fallible.bind_ok.mp h
    obtain ⟨db, hdb, -⟩ := Fallible.bind_ok.mp h
    exact ⟨ids, db, hids, hdb⟩

/-- What is emitted was proposed and is allowed; its strings are those of the map, or the empty ones
that an earlier copy of the candidate left. -/
theorem mem_emit {cs : List ChunkCandidate} {chunk : AllowedChunk}
    (h : chunk ∈ emit company allowed cs) : ∃ c ∈ cs, ∃ hy, allowed c.chunkId = some hy ∧
      (chunk = allowedChunk company c hy ∨
        chunk = allowedChunk company c hy.movedFrom ∧ ¬(cs.map ChunkCandidate.chunkId).Nodup) := by
  -- of a map from which `gone` was moved out
  suffices hmoved : ∀ gone, chunk ∈ emit company (movedOut allowed gone) cs →
      ∃ c ∈ cs, ∃ hy, allowed c.chunkId = some hy ∧ (chunk = allowedChunk company c hy ∨
        chunk = allowedChunk company c hy.movedFrom ∧
          (c.chunkId ∈ gone ∨ ¬(cs.map ChunkCandidate.chunkId).Nodup)) by
    have hnil : movedOut allowed [] = allowed := by
      funext k
      simp [movedOut]
    obtain ⟨c, hc, hy, ha, hcase⟩ := hmoved [] (by rwa [hnil])
    simp only [List.not_mem_nil, false_or] at hcase
    exact ⟨c, hc, hy, ha, hcase⟩
  clear h
  induction cs with
  | nil => exact fun gone h => absurd h List.not_mem_nil
  | cons c cs ih =>
    intro gone h
    have hlift : ∀ {d : ChunkCandidate}, d ∈ cs → d.chunkId ∈ c.chunkId :: gone ∨
        ¬(cs.map ChunkCandidate.chunkId).Nodup →
        d.chunkId ∈ gone ∨ ¬((c :: cs).map ChunkCandidate.chunkId).Nodup := by
      intro d hd hcase
      rw [List.map_cons, List.nodup_cons, not_and_or, not_not]
      rcases hcase with hin | hdup
      · rcases List.mem_cons.mp hin with he | hin
        · exact .inr (.inl (he ▸ List.mem_map_of_mem hd))
        · exact .inl hin
      · exact .inr (.inr hdup)
    cases hc : allowed c.chunkId with
    | none =>
      have hout : movedOut allowed gone c.chunkId = none := by simp [movedOut, hc]
      rw [emit, hout] at h
      obtain ⟨d, hd, hy, ha, hcase⟩ := ih gone h
      refine ⟨d, List.mem_cons_of_mem _ hd, hy, ha, hcase.imp_right (And.imp_right fun hg => ?_)⟩
      exact hlift hd (hg.imp_left (List.mem_cons_of_mem _))
    | some hy =>
      by_cases hgone : c.chunkId ∈ gone
      · have hout : movedOut allowed gone c.chunkId = some hy.movedFrom := by
          simp [movedOut, hgone, hc]
        rw [emit, hout] at h
        have hsame : Function.update (movedOut allowed gone) c.chunkId
            (some hy.movedFrom.movedFrom) = movedOut allowed gone := by
          have htwice : hy.movedFrom.movedFrom = hy.movedFrom := by
            simp [Hydrated.movedFrom, Function.comp_def]
          rw [htwice, ← hout, Function.update_eq_self]
        rcases List.mem_cons.mp h with rfl | h
        · exact ⟨c, List.mem_cons_self, hy, hc, .inr ⟨rfl, .inl hgone⟩⟩
        · rw [hsame] at h
          obtain ⟨d, hd, hy', ha, hcase⟩ := ih gone h
          refine ⟨d, List.mem_cons_of_mem _ hd, hy', ha, hcase.imp_right (And.imp_right fun hg => ?_)⟩
          exact hlift hd (hg.imp_left (List.mem_cons_of_mem _))
      · have hout : movedOut allowed gone c.chunkId = some hy := by simp [movedOut, hgone, hc]
        rw [emit, hout] at h
        dsimp only at h
        rw [movedOut_update hc] at h
        rcases List.mem_cons.mp h with rfl | h
        · exact ⟨c, List.mem_cons_self, hy, hc, .inl rfl⟩
        · obtain ⟨d, hd, hy', ha, hcase⟩ := ih (c.chunkId :: gone) h
          refine ⟨d, List.mem_cons_of_mem _ hd, hy', ha, hcase.imp_right (And.imp_right fun hg => ?_)⟩
          exact hlift hd hg

end EvidenceGate

theorem chunkView_eq_some {db : EvidenceDb} (h : db.Keyed) {q : GateQuery} {id : Uuid}
    {hy : Hydrated} : chunkView db q id = some hy ↔ (id, hy) ∈ shownChunks db q := by
  simp only [chunkView, Option.map_eq_some_iff, admittedChunk_eq_some h, shownChunks,
    Set.mem_ofPred_eq]
  constructor
  · rintro ⟨dc, ⟨hdc, hid, hadm⟩, rfl⟩
    exact ⟨dc, hdc, hid, hadm, rfl⟩
  · rintro ⟨dc, hdc, hid, hadm, rfl⟩
    exact ⟨dc, ⟨hdc, hid, hadm⟩, rfl⟩

theorem chunkView_congr {db db' : EvidenceDb} (h : db.Keyed) (h' : db'.Keyed) {q q' : GateQuery}
    (hshown : shownChunks db q = shownChunks db' q') : chunkView db q = chunkView db' q' := by
  funext id
  apply Option.ext
  intro hy
  rw [chunkView_eq_some h, chunkView_eq_some h', hshown]

/-- The chunk gate shows something to a candidate with this text as its id. -/
def chunkShown (db : EvidenceDb) (q : GateQuery) (text : String) : Bool :=
  db.documentChunks.any fun dc => Uuid.text dc.id = text && (chunkView db q dc.id).isSome

theorem chunkShown_iff {db : EvidenceDb} (h : db.Keyed) {q : GateQuery} {text : String} :
    chunkShown db q text = true ↔ ∃ id, Uuid.text id = text ∧ (chunkView db q id).isSome := by
  rw [chunkShown, List.any_eq_true]
  constructor
  · rintro ⟨dc, -, hdc⟩
    rw [Bool.and_eq_true, decide_eq_true_eq] at hdc
    exact ⟨dc.id, hdc⟩
  · rintro ⟨id, htext, hsome⟩
    obtain ⟨hy, hview⟩ := Option.isSome_iff_exists.mp hsome
    obtain ⟨dc, hdc, rfl, -⟩ := (chunkView_eq_some h).mp hview
    exact ⟨dc, hdc, by rw [Bool.and_eq_true, decide_eq_true_eq]; exact ⟨htext, hsome⟩⟩

/-- Of the candidates that the gate shows, none is lost when the ids are read. -/
theorem EvidenceGate.shown_spelt {db : EvidenceDb} (h : db.Keyed) {q : GateQuery} {ids : List Uuid}
    (cs : List (ChunkCandidate String))
    (hread : ∀ id, Uuid.text id ∈ cs.map ChunkCandidate.chunkId → id ∈ ids) :
    ((cs.filterMap (spelt ids)).filter fun c => (chunkView db q c.chunkId).isSome).map
        (fun c => (Uuid.text c.chunkId, c.score)) =
      (cs.filter fun c => chunkShown db q c.chunkId).map fun c => (c.chunkId, c.score) := by
  induction cs with
  | nil => rfl
  | cons c cs ih =>
    have ih := ih fun id hid => hread id (List.mem_cons_of_mem _ hid)
    cases hspelt : spelt ids c with
    | none =>
      have hhidden : ¬chunkShown db q c.chunkId = true := by
        rw [chunkShown_iff h]
        rintro ⟨id, htext, -⟩
        have hin := hread id (htext ▸ List.mem_cons_self)
        have hnone := List.find?_eq_none.mp (Option.map_eq_none_iff.mp hspelt) id hin
        exact hnone (decide_eq_true htext)
      rw [List.filterMap_cons_none hspelt, ih, List.filter_cons, if_neg hhidden]
    | some c' =>
      obtain ⟨-, htext, hscore⟩ := spelt_eq_some hspelt
      have hsame : (chunkView db q c'.chunkId).isSome = chunkShown db q c.chunkId := by
        rw [Bool.eq_iff_iff, chunkShown_iff h]
        constructor
        · exact fun hsome => ⟨c'.chunkId, htext, hsome⟩
        · rintro ⟨id, hid, hsome⟩
          rwa [Uuid.text_injective (htext.trans hid.symm)]
      rw [List.filterMap_cons_some hspelt, List.filter_cons, List.filter_cons, hsame]
      split
      · rw [List.map_cons, List.map_cons, ih, htext, hscore]
      · exact ih

/-- The ids under which candidates are read have the texts of candidates, in their order. -/
theorem EvidenceGate.spelt_sublist (ids : List Uuid) (cs : List (ChunkCandidate String)) :
    ((cs.filterMap (spelt ids)).map fun c => Uuid.text c.chunkId).Sublist
      (cs.map ChunkCandidate.chunkId) := by
  induction cs with
  | nil => exact .slnil
  | cons c cs ih =>
    cases hspelt : spelt ids c with
    | none =>
      rw [List.filterMap_cons_none hspelt]
      exact ih.cons _
    | some c' =>
      rw [List.filterMap_cons_some hspelt, List.map_cons, (spelt_eq_some hspelt).2.1]
      exact ih.cons_cons _

/-! ### The relationship gate -/

namespace RelationshipEvidenceGate

variable {company : Uuid} {db db' : EvidenceDb} {q q' : GateQuery} {states : List ReviewState}
  {grouped' grouped'' : String → Option (HydratedRow × HydratedRow)}

theorem emit_congr_map {cs : List EdgeCandidate}
    (h : ∀ c ∈ cs, grouped' (Uuid.text c.edgeId) = grouped'' (Uuid.text c.edgeId)) :
    emit company grouped' cs = emit company grouped'' cs := by
  induction cs generalizing grouped' grouped'' with
  | nil => rfl
  | cons c cs ih =>
    rw [List.forall_mem_cons] at h
    obtain ⟨hc, hcs⟩ := h
    rw [emit, emit, hc]
    cases grouped'' (Uuid.text c.edgeId) with
    | none => exact ih hcs
    | some rows =>
      obtain ⟨row0, row1⟩ := rows
      dsimp only
      split
      next => exact ih hcs
      next =>
        refine congrArg _ (ih fun d hd => ?_)
        by_cases hid : Uuid.text d.edgeId = Uuid.text c.edgeId
        · rw [hid, Function.update_self, Function.update_self]
        · rw [Function.update_of_ne hid, Function.update_of_ne hid, hcs d hd]

/-- A candidate of which no row came back leaves no trace. -/
theorem emit_filter (cs : List EdgeCandidate) :
    emit company grouped' cs =
      emit company grouped' (cs.filter fun c => (grouped' (Uuid.text c.edgeId)).isSome) := by
  induction cs generalizing grouped' with
  | nil => rfl
  | cons c cs ih =>
    cases hc : grouped' (Uuid.text c.edgeId) with
    | none =>
      rw [List.filter_cons_of_neg (by simp [hc]), emit, hc]
      exact ih
    | some rows =>
      obtain ⟨row0, row1⟩ := rows
      rw [List.filter_cons_of_pos (by simp [hc]), emit, emit, hc]
      dsimp only
      split
      next => exact ih
      next =>
        rw [ih]
        refine congrArg _ (congrArg _ (List.filter_congr fun d _ => ?_))
        by_cases hid : Uuid.text d.edgeId = Uuid.text c.edgeId
        · rw [hid, Function.update_self, hc]
          rfl
        · rw [Function.update_of_ne hid]

theorem grouped_congr_key {rows rows' : List HydratedRow} {key : String}
    (huniq : ∀ ordinal, AtMostOne rows fun r => r.edgeId = key ∧ r.ordinal = ordinal)
    (hmem : ∀ r, r.edgeId = key → (r ∈ rows ↔ r ∈ rows')) : grouped rows key = grouped rows' key := by
  have hany : rows.any (fun r => r.edgeId = key) = rows'.any fun r => r.edgeId = key := by
    rw [Bool.eq_iff_iff, List.any_eq_true, List.any_eq_true]
    refine exists_congr fun r => and_congr_left fun hr => hmem r (of_decide_eq_true hr)
  have hslot : ∀ ordinal, slot rows key ordinal = slot rows' key ordinal := by
    intro ordinal
    have hrev : AtMostOne rows.reverse fun r => r.edgeId = key ∧ r.ordinal = ordinal :=
      fun a ha b hb => huniq ordinal a (List.mem_reverse.mp ha) b (List.mem_reverse.mp hb)
    have hfind := find?_congr hrev rows'.reverse fun r hr => by
      rw [List.mem_reverse, List.mem_reverse]
      exact hmem r (of_decide_eq_true hr).1
    rw [slot, slot, hfind]
  rw [grouped, grouped, hany, hslot, hslot]

/-- What the relationship gate shows under the text of an id. -/
def edgeView (db : EvidenceDb) (q : GateQuery) (states : List ReviewState) :
    String → Option (HydratedRow × HydratedRow) :=
  grouped (gateRows db q states (db.knowledgeEdges.map KnowledgeEdge.id))

theorem mem_allRows (h : db.Keyed) {r : HydratedRow} :
    r ∈ gateRows db q states (db.knowledgeEdges.map KnowledgeEdge.id) ↔
      r ∈ shownEndpoints db q states := by
  rw [mem_gateRows h, shownEndpoints, Set.mem_ofPred_eq]
  constructor
  · rintro ⟨e, he, -, hrest⟩
    exact ⟨e, he, hrest⟩
  · rintro ⟨e, he, hrest⟩
    exact ⟨e, he, List.mem_map_of_mem he, hrest⟩

theorem edgeView_congr (h : db.Keyed) (h' : db'.Keyed) {states' : List ReviewState}
    (hshown : shownEndpoints db q states = shownEndpoints db' q' states') :
    edgeView db q states = edgeView db' q' states' :=
  grouped_congr (gateRows_unique h) fun r => by rw [mem_allRows h, mem_allRows h', hshown]

/-- Without a scope, labels or states no edge is shown. -/
theorem edgeView_of_closed (h : db.Keyed) (hclosed : q.scope = [] ∨ q.labels = [] ∨ states = [])
    (key : String) : edgeView db q states key = none := by
  have hnil : gateRows db q states (db.knowledgeEdges.map KnowledgeEdge.id) = [] := by
    rw [List.eq_nil_iff_forall_not_mem]
    intro r hr
    obtain ⟨e, -, hopen, -, ep, -, -, -, dc, -, -, hadm, -⟩ := (mem_allRows h).mp hr
    rcases hclosed with hq | hq | hq
    · exact not_admissible_of_closed (.inl hq) hadm
    · exact not_admissible_of_closed (.inr hq) hadm
    · have hstate := hopen.2.1
      rw [hq] at hstate
      cases hstate
  rw [edgeView, hnil]
  rfl

theorem spelt_eq_some {ids : List Uuid} {c : EdgeCandidate String} {c' : EdgeCandidate}
    (h : spelt ids c = some c') :
    c'.edgeId ∈ ids ∧ Uuid.text c'.edgeId = c.edgeId ∧ c'.score = c.score := by
  obtain ⟨id, hid, rfl⟩ := Option.map_eq_some_iff.mp h
  have htext := List.find?_some hid
  exact ⟨List.mem_of_find?_eq_some hid, of_decide_eq_true htext, rfl⟩

/-- The rows that come back for some ids show what the tables show under each of them. -/
theorem grouped_gateRows (h : db.Keyed) {ids : List Uuid} {id : Uuid} (hid : id ∈ ids) :
    grouped (gateRows db q states ids) (Uuid.text id) = edgeView db q states (Uuid.text id) := by
  refine grouped_congr_key (gateRows_unique h _) fun r hr => ?_
  rw [mem_allRows h, mem_gateRows h]
  constructor
  · rintro ⟨e, he, -, hrest⟩
    exact ⟨e, he, hrest⟩
  · rintro ⟨e, he, hopen, hboth, ep, hep, hc', hedge, dc, hdc, hdid, hadm, rfl⟩
    have hcand : id = e.id := (Uuid.text_injective hr).symm
    exact ⟨e, he, hcand ▸ hid, hopen, hboth, ep, hep, hc', hedge, dc, hdc, hdid, hadm, rfl⟩

theorem evaluate_eq {ε : Type} (h : db.Keyed) (cs : List EdgeCandidate) :
    evaluate (.ok db : Except ε EvidenceDb) q states cs =
      .ok (emit q.company (edgeView db q states) cs) := by
  rw [evaluate]
  split
  next hclosed =>
    have hnone : ∀ c ∈ cs, edgeView db q states (Uuid.text c.edgeId) = none := by
      intro c hc
      rcases hclosed with hq | hq | hq | hq
      · exact edgeView_of_closed h (.inl hq) _
      · exact edgeView_of_closed h (.inr (.inl hq)) _
      · exact edgeView_of_closed h (.inr (.inr hq)) _
      · rw [hq] at hc
        cases hc
    rw [emit_filter, List.filter_eq_nil_iff.mpr fun c hc => by simp [hnone c hc]]
    rfl
  next =>
    refine congrArg Except.ok (emit_congr_map fun c hc => ?_)
    exact grouped_gateRows h (List.mem_map_of_mem hc)

theorem evaluateTexts_eq {ε : Type} {cast : List String → Except ε (List Uuid)} {ids : List Uuid}
    {cs : List (EdgeCandidate String)} (hcast : cast (cs.map EdgeCandidate.edgeId) = .ok ids)
    (h : db.Keyed) : evaluateTexts cast (.ok db) q states cs =
      .ok (emit q.company (edgeView db q states) (cs.filterMap (spelt ids))) := by
  rw [evaluateTexts]
  split
  next hclosed =>
    have hsome : evaluate (.ok db : Except ε EvidenceDb) q states (cs.filterMap (spelt ids)) =
        .ok (emit q.company (edgeView db q states) (cs.filterMap (spelt ids))) := evaluate_eq h _
    rw [evaluate, if_pos (hclosed.imp_right (Or.imp_right
      (Or.imp_right fun hnil => by rw [hnil]; rfl)))] at hsome
    exact hsome
  next =>
    rw [hcast]
    refine congrArg Except.ok (emit_congr_map fun c' hc' => ?_)
    obtain ⟨c, -, hspelt⟩ := List.mem_filterMap.mp hc'
    exact grouped_gateRows h (spelt_eq_some hspelt).1

theorem evaluateTexts_ok {ε : Type} {cast : List String → Except ε (List Uuid)}
    {snapshot : Except ε EvidenceDb} {cs : List (EdgeCandidate String)}
    {out : List AllowedRelationship} (h : evaluateTexts cast snapshot q states cs = .ok out)
    (hne : out ≠ []) :
    ∃ ids db, cast (cs.map EdgeCandidate.edgeId) = .ok ids ∧ snapshot = .ok db := by
  rw [evaluateTexts] at h
  split at h
  · cases h
    exact absurd rfl hne
  · obtain ⟨ids, hids, h⟩ := Fallible.bind_ok.mp h
    obtain ⟨db, hdb, -⟩ := Fallible.bind_ok.mp h
    exact ⟨ids, db, hids, hdb⟩

/-- What is emitted was proposed, and its rows are in the map, with their chunk ids. -/
theorem mem_emit {cs : List EdgeCandidate} {r : AllowedRelationship}
    (h : r ∈ emit company grouped' cs) : ∃ c ∈ cs, ∃ row0 row1,
      grouped' (Uuid.text c.edgeId) = some (row0, row1) ∧ row0.chunkId ≠ "" ∧ row1.chunkId ≠ "" ∧
        r = allowedRelationship company c row0 row1 := by
  induction cs generalizing grouped' with
  | nil => cases h
  | cons c cs ih =>
    have hlater : (∃ c ∈ cs, ∃ row0 row1, grouped' (Uuid.text c.edgeId) = some (row0, row1) ∧
        row0.chunkId ≠ "" ∧ row1.chunkId ≠ "" ∧ r = allowedRelationship company c row0 row1) →
        ∃ d ∈ c :: cs, ∃ row0 row1, grouped' (Uuid.text d.edgeId) = some (row0, row1) ∧
          row0.chunkId ≠ "" ∧ row1.chunkId ≠ "" ∧ r = allowedRelationship company d row0 row1 :=
      fun ⟨d, hd, hrest⟩ => ⟨d, List.mem_cons_of_mem _ hd, hrest⟩
    cases hc : grouped' (Uuid.text c.edgeId) with
    | none =>
      rw [emit, hc] at h
      exact hlater (ih h)
    | some rows =>
      obtain ⟨row0, row1⟩ := rows
      rw [emit, hc] at h
      dsimp only at h
      split at h
      next => exact hlater (ih h)
      next hfull =>
        rw [not_or] at hfull
        rcases List.mem_cons.mp h with rfl | h
        · exact ⟨c, List.mem_cons_self, row0, row1, hc, hfull.1, hfull.2, rfl⟩
        · obtain ⟨d, hd, row0', row1', hg, h0, h1, rfl⟩ := ih h
          by_cases hid : Uuid.text d.edgeId = Uuid.text c.edgeId
          · -- the rows of an edge that was emitted have no chunk id
            rw [hid, Function.update_self] at hg
            cases hg
            exact absurd rfl h1
          · rw [Function.update_of_ne hid] at hg
            exact hlater ⟨d, hd, row0', row1', hg, h0, h1, rfl⟩

/-- What is shown is shown under the text of an id. -/
theorem text_of_edgeView (h : db.Keyed) {key : String}
    (hsome : (edgeView db q states key).isSome = true) : ∃ id, Uuid.text id = key := by
  rw [edgeView, grouped] at hsome
  split at hsome
  next hany =>
    obtain ⟨r, hr, hkey⟩ := List.any_eq_true.mp hany
    obtain ⟨e, -, -, -, ep, -, -, -, dc, -, -, -, rfl⟩ := (mem_allRows h).mp hr
    exact ⟨e.id, of_decide_eq_true hkey⟩
  next => cases hsome

theorem shown_spelt (h : db.Keyed) {ids : List Uuid} (cs : List (EdgeCandidate String))
    (hread : ∀ id, Uuid.text id ∈ cs.map EdgeCandidate.edgeId → id ∈ ids) :
    ((cs.filterMap (spelt ids)).filter fun c =>
        (edgeView db q states (Uuid.text c.edgeId)).isSome).map
        (fun c => (Uuid.text c.edgeId, c.score)) =
      (cs.filter fun c => (edgeView db q states c.edgeId).isSome).map
        fun c => (c.edgeId, c.score) := by
  induction cs with
  | nil => rfl
  | cons c cs ih =>
    have ih := ih fun id hid => hread id (List.mem_cons_of_mem _ hid)
    cases hspelt : spelt ids c with
    | none =>
      have hhidden : ¬(edgeView db q states c.edgeId).isSome = true := by
        intro hsome
        obtain ⟨id, htext⟩ := text_of_edgeView h hsome
        have hin := hread id (htext ▸ List.mem_cons_self)
        have hnone := List.find?_eq_none.mp (Option.map_eq_none_iff.mp hspelt) id hin
        exact hnone (decide_eq_true htext)
      rw [List.filterMap_cons_none hspelt, ih, List.filter_cons, if_neg hhidden]
    | some c' =>
      obtain ⟨-, htext, hscore⟩ := spelt_eq_some hspelt
      rw [List.filterMap_cons_some hspelt, List.filter_cons, List.filter_cons, htext]
      split
      · rw [List.map_cons, List.map_cons, ih, htext, hscore]
      · exact ih

/-- The two rows of an edge that is shown are its endpoints 0 and 1. -/
theorem edgeView_eq_some (h : db.Keyed) {id : Uuid} {row0 row1 : HydratedRow}
    (hview : edgeView db q states (Uuid.text id) = some (row0, row1)) (h0 : row0.chunkId ≠ "")
    (h1 : row1.chunkId ≠ "") :
    (row0 ∈ shownEndpoints db q states ∧ row0.edgeId = Uuid.text id ∧ row0.ordinal = 0) ∧
      row1 ∈ shownEndpoints db q states ∧ row1.edgeId = Uuid.text id ∧ row1.ordinal = 1 := by
  have hslot : ∀ (rows : List HydratedRow) ordinal,
      (slot rows (Uuid.text id) ordinal).chunkId ≠ "" →
      slot rows (Uuid.text id) ordinal ∈ rows ∧
        (slot rows (Uuid.text id) ordinal).edgeId = Uuid.text id ∧
        (slot rows (Uuid.text id) ordinal).ordinal = ordinal := by
    intro rows ordinal hne
    unfold slot at hne ⊢
    cases hf : rows.reverse.find? fun r => r.edgeId = Uuid.text id ∧ r.ordinal = ordinal with
    | none =>
      rw [hf] at hne
      exact absurd rfl hne
    | some r =>
      have hp : r.edgeId = Uuid.text id ∧ r.ordinal = ordinal := by simpa using List.find?_some hf
      exact ⟨List.mem_reverse.mp (List.mem_of_find?_eq_some hf), hp.1, hp.2⟩
  rw [edgeView, grouped] at hview
  split at hview
  next =>
    cases hview
    obtain ⟨hm0, hk0, ho0⟩ := hslot _ 0 h0
    obtain ⟨hm1, hk1, ho1⟩ := hslot _ 1 h1
    exact ⟨⟨(mem_allRows h).mp hm0, hk0, ho0⟩, (mem_allRows h).mp hm1, hk1, ho1⟩
  next => cases hview

end RelationshipEvidenceGate

end Wikore
