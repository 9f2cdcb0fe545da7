import Wikore.Rag.AnswerUseCase
import Wikore.Rag.Noninterference

/-! What a run of `AnswerUseCase` sends to the model and cites is made of chunks and edges that the
caller may see, and what the caller may not see changes neither the requests of a run nor what it
returns. -/

namespace Wikore

open ContextBuilder (Bytes utf8 Error PromptContext Block queryBlock Denotes)
open Fallible Traced Interleave Query

section Grounding

variable {F D : Type} (svc : Services F D) (ctx : RequestContext) (scope : List Uuid)

/-- The query of the chunk gate for a scope. -/
def Services.chunkQuery : GateQuery :=
  .active ctx scope (allowedLabelsFor ctx.principal) svc.chunkNow

def Services.edgeQuery : GateQuery :=
  .active ctx scope (allowedLabelsFor ctx.principal) svc.edgeNow

/-- The chunk store has an answer with a chunk that occurs twice in it. -/
def Services.ProposesTwice : Prop :=
  ∃ query filter limit timeout cs, svc.searchChunks query filter limit timeout = .ok cs ∧
    ¬(cs.map ChunkCandidate.chunkId).Nodup

/-- One of the two gates may show the chunk to the caller. -/
def ShownToCaller (dc : DocumentChunk) : Prop :=
  (∃ db, svc.chunkDb = .ok db ∧ dc ∈ db.documentChunks ∧
    Admissible db (svc.chunkQuery ctx scope) dc) ∨
  ∃ db, svc.edgeDb = .ok db ∧ dc ∈ db.documentChunks ∧ Admissible db (svc.edgeQuery ctx scope) dc

/-- The live endpoint of an edge with an ordinal, whose chunk may be shown. -/
def LiveEndpoint (db : EvidenceDb) (q : GateQuery) (e : KnowledgeEdge) (ordinal : Fin 2)
    (ep : AllowedEndpoint) : Prop :=
  ∃ row ∈ db.knowledgeEdgeEndpoints, row.edgeId = e.id ∧ row.ordinal = ordinal ∧
    ∃ dc ∈ db.documentChunks, dc.id = row.chunkId ∧ Admissible db q dc ∧
      ep = ⟨ordinal, row.role.text, Uuid.text dc.id, (liveEvidence db dc).documentVersionId,
        dc.content, (liveEvidence db dc).sectionHeading⟩

/-- The relationship is an edge of the tables that may be shown, with both its endpoints. -/
def LiveRelationship (db : EvidenceDb) (q : GateQuery) (states : List ReviewState)
    (r : AllowedRelationship) : Prop :=
  ∃ e ∈ db.knowledgeEdges, RelationshipEvidenceGate.OpenEdge q states e ∧
    r.companyId = q.company ∧ r.edgeId = Uuid.text e.id ∧ r.edgeType = e.edgeType.text ∧
    r.direction = e.direction.text ∧ r.origin = e.origin.text ∧ r.confidence = e.confidence ∧
    r.reviewState = e.reviewState.text ∧ LiveEndpoint db q e 0 r.endpoint0 ∧
    LiveEndpoint db q e 1 r.endpoint1

/-- The item stands for a row of the tables that the caller may see, as the gate read it. -/
def Grounded (states : List ReviewState) : AllowedEvidence → Prop
  | .chunk c => ∃ db, svc.chunkDb = .ok db ∧ ∃ dc ∈ db.documentChunks,
      Admissible db (svc.chunkQuery ctx scope) dc ∧ c.companyId = ctx.companyId ∧
        c.chunkId = dc.id ∧ (c.text = dc.content ∨ c.text = "" ∧ svc.ProposesTwice)
  | .relationship r => ∃ db, svc.edgeDb = .ok db ∧
      LiveRelationship db (svc.edgeQuery ctx scope) states r

end Grounding

/-! ### The gates -/

theorem EvidenceGate.evaluateTexts_mem {ε : Type} {cast : List String → Except ε (List Uuid)}
    {snapshot : Except ε EvidenceDb} {q : GateQuery} {cs : List (ChunkCandidate String)}
    {out : List AllowedChunk} (h : evaluateTexts cast snapshot q cs = .ok out)
    (hkeyed : ∀ db, snapshot = .ok db → db.Keyed) {c : AllowedChunk} (hc : c ∈ out) :
    ∃ db, snapshot = .ok db ∧ ∃ dc ∈ db.documentChunks, Admissible db q dc ∧
      c.companyId = q.company ∧ c.chunkId = dc.id ∧
      (c.text = dc.content ∨ c.text = "" ∧ ¬(cs.map ChunkCandidate.chunkId).Nodup) := by
  obtain ⟨ids, db, hcast, hdb⟩ := evaluateTexts_ok h (List.ne_nil_of_mem hc)
  have hk := hkeyed db hdb
  rw [hdb, evaluateTexts_eq hcast hk] at h
  cases h
  obtain ⟨d, -, hy, hview, hcase⟩ := mem_emit hc
  obtain ⟨dc, hdc, hid, hadm, hlive⟩ := (chunkView_eq_some hk).mp hview
  obtain rfl : hy = liveEvidence db dc := hlive
  refine ⟨db, hdb, dc, hdc, hadm, ?_⟩
  rcases hcase with rfl | ⟨rfl, hdup⟩
  · exact ⟨rfl, hid.symm, .inl rfl⟩
  · refine ⟨rfl, hid.symm, .inr ⟨rfl, fun hnodup => hdup ?_⟩⟩
    have htexts := hnodup.sublist (spelt_sublist ids cs)
    exact List.Nodup.of_map Uuid.text (by rwa [List.map_map])

theorem RelationshipEvidenceGate.evaluateTexts_mem {ε : Type}
    {cast : List String → Except ε (List Uuid)} {snapshot : Except ε EvidenceDb}
    {q : GateQuery} {states : List ReviewState} {cs : List (EdgeCandidate String)}
    {out : List AllowedRelationship} (h : evaluateTexts cast snapshot q states cs = .ok out)
    (hkeyed : ∀ db, snapshot = .ok db → db.Keyed) {r : AllowedRelationship} (hr : r ∈ out) :
    ∃ db, snapshot = .ok db ∧ LiveRelationship db q states r := by
  obtain ⟨ids, db, hcast, hdb⟩ := evaluateTexts_ok h (List.ne_nil_of_mem hr)
  have hk := hkeyed db hdb
  rw [hdb, evaluateTexts_eq hcast hk] at h
  cases h
  obtain ⟨c, -, row0, row1, hview, h0, h1, rfl⟩ := mem_emit hr
  obtain ⟨⟨hm0, hk0, ho0⟩, hm1, hk1, ho1⟩ := edgeView_eq_some hk hview h0 h1
  obtain ⟨e, he, hopen, -, ep0, hep0, -, hid0, dc0, hdc0, hdid0, hadm0, rfl⟩ := hm0
  obtain ⟨e', he', -, -, ep1, hep1, -, hid1, dc1, hdc1, hdid1, hadm1, rfl⟩ := hm1
  obtain rfl : e' = e := List.inj_on_of_nodup_map hk.edges he' he
    (Uuid.text_injective (hk1.trans hk0.symm))
  refine ⟨db, hdb, e', he, hopen, rfl, rfl, rfl, rfl, rfl, rfl, rfl, ?_, ?_⟩
  · exact ⟨ep0, hep0, hid0, ho0, dc0, hdc0, hdid0, hadm0, by rw [hdid0]; rfl⟩
  · exact ⟨ep1, hep1, hid1, ho1, dc1, hdc1, hdid1, hadm1, by rw [hdid1]; rfl⟩

/-! ### Retrieval -/

section Retrieval

variable {F D : Type} {svc : Services F D} {ctx : RequestContext} {vec : List F}
  {scope : List Uuid} {limit overFetch : Int} {bridgeOpts : BridgeIntentOptions D}
  {orch : RetrievalOrchestrator} {query : Bytes} {scopeOrgUnitId : String}

/-- The two parts of an automatic answer. -/
theorem gather_automatic {evidence : List AllowedEvidence}
    (h : (orch.gather svc ctx vec scope limit bridgeOpts .automatic).result = .ok evidence) :
    ∃ chunks, (retrieveChunks svc ctx vec scope (allowedLabelsFor ctx.principal) limit
        orch.overFetch).result = .ok chunks ∧
      ∃ edges, ((retrieveEdges svc ctx vec scope (allowedLabelsFor ctx.principal) limit
        orch.overFetch bridgeOpts).result = .ok edges ∨ edges = []) ∧
        mergeEvidence limit chunks edges = evidence := by
  rw [RetrievalOrchestrator.gather, result_bind, bind_ok] at h
  obtain ⟨chunks, hchunks, h⟩ := h
  refine ⟨chunks, hchunks, ?_⟩
  split at h
  next =>
    rw [result_bind, bind_ok] at h
    obtain ⟨edges, hedges, h⟩ := h
    exact ⟨edges, .inl hedges, Except.ok.inj h⟩
  next => exact ⟨[], .inr rfl, Except.ok.inj h⟩

/-- The primary keys hold in what the gates read. -/
structure Services.Keyed (svc : Services F D) : Prop where
  chunks : ∀ db, svc.chunkDb = .ok db → db.Keyed
  edges : ∀ db, svc.edgeDb = .ok db → db.Keyed

variable (hkeyed : svc.Keyed)

include hkeyed

theorem retrieveChunks_grounded {chunks : List AllowedChunk}
    (h : (retrieveChunks svc ctx vec scope (allowedLabelsFor ctx.principal) limit overFetch).result =
      .ok chunks) (states : List ReviewState) :
    ∀ c ∈ chunks, Grounded svc ctx scope states (.chunk c) := by
  simp only [retrieveChunks, searchChunks, result_bind, result_plain, result_call, result_pure,
    bind_ok, Except.ok.injEq] at h
  obtain ⟨_, -, cs, hcs, _, -, allowed, hallowed, rfl⟩ := h
  intro c hc
  rw [truncate_eq_take] at hc
  obtain ⟨db, hdb, dc, hdc, hadm, hcompany, hid, htext⟩ :=
    EvidenceGate.evaluateTexts_mem hallowed hkeyed.chunks (List.mem_of_mem_take hc)
  refine ⟨db, hdb, dc, hdc, hadm, hcompany, hid, htext.imp_right (And.imp_right fun hdup => ?_)⟩
  exact ⟨_, _, _, _, cs, hcs, hdup⟩

theorem retrieveEdges_grounded {edges : List AllowedRelationship}
    (h : (retrieveEdges svc ctx vec scope (allowedLabelsFor ctx.principal) limit overFetch
      bridgeOpts).result = .ok edges) :
    ∀ r ∈ edges, Grounded svc ctx scope bridgeOpts.allowedReviewStates (.relationship r) := by
  simp only [retrieveEdges, result_bind, result_plain, result_pure, bind_ok, Except.ok.injEq] at h
  obtain ⟨_, -, cs, -, _, -, allowed, hallowed, rfl⟩ := h
  intro r hr
  rw [truncate_eq_take] at hr
  exact RelationshipEvidenceGate.evaluateTexts_mem hallowed hkeyed.edges (List.mem_of_mem_take hr)

theorem gather_grounded {intent : RetrievalIntent} {evidence : List AllowedEvidence}
    (h : (orch.gather svc ctx vec scope limit bridgeOpts intent).result = .ok evidence) :
    ∀ ev ∈ evidence, Grounded svc ctx scope bridgeOpts.allowedReviewStates ev := by
  cases intent with
  | fact =>
    simp only [RetrievalOrchestrator.gather, result_bind, result_pure, bind_ok,
      Except.ok.injEq] at h
    obtain ⟨chunks, hchunks, rfl⟩ := h
    rw [List.forall_mem_map]
    exact retrieveChunks_grounded hkeyed hchunks _
  | bridge =>
    simp only [RetrievalOrchestrator.gather, result_bind, result_pure, bind_ok,
      Except.ok.injEq] at h
    obtain ⟨edges, hedges, rfl⟩ := h
    rw [List.forall_mem_map]
    exact retrieveEdges_grounded hkeyed hedges
  | automatic =>
    obtain ⟨chunks, hchunks, edges, hedges, rfl⟩ := gather_automatic h
    intro ev hev
    rw [mergeEvidence_eq] at hev
    rcases mem_interleave.mp (List.mem_of_mem_take hev) with hev | hev
    · obtain ⟨c, hc, rfl⟩ := List.mem_map.mp hev
      exact retrieveChunks_grounded hkeyed hchunks _ c hc
    · obtain ⟨r, hr, rfl⟩ := List.mem_map.mp hev
      rcases hedges with hedges | rfl
      · exact retrieveEdges_grounded hkeyed hedges r hr
      · cases hr

/-- Every item of evidence stands for a row that the caller may see, in the scope that the resolver
gave. -/
theorem retrieveEvidence_grounded {intent : RetrievalIntent} {evidence : List AllowedEvidence}
    (h : (orch.retrieveEvidence svc ctx limit bridgeOpts query scopeOrgUnitId intent).result =
      .ok evidence) :
    ∃ scope, svc.resolve ctx.companyId ctx.principal.userId scopeOrgUnitId = .ok scope ∧
      ∀ ev ∈ evidence, Grounded svc ctx scope bridgeOpts.allowedReviewStates ev := by
  simp only [RetrievalOrchestrator.retrieveEvidence, RetrievalOrchestrator.embedAndResolve,
    result_bind, result_plain, result_pure, bind_ok] at h
  obtain ⟨_, -, _, -, ⟨vec, scope⟩, ⟨_, -, _, -, scope', hscope, hpair⟩, hgather⟩ := h
  cases hpair
  exact ⟨scope, hscope, gather_grounded hkeyed hgather⟩

end Retrieval

/-! ### The prompt -/

section Prompt

variable {F D : Type} {svc : Services F D} {ctx : RequestContext} {scope : List Uuid}
  {states : List ReviewState}

/-- The text of a source is the live text of a chunk that may be shown, or nothing. -/
def SourceOf (svc : Services F D) (ctx : RequestContext) (scope : List Uuid) (id text : Bytes) :
    Prop :=
  ∃ dc, ShownToCaller svc ctx scope dc ∧ id = utf8 (Uuid.text dc.id) ∧
    (text = utf8 dc.content ∨ text = [] ∧ svc.ProposesTwice)

theorem Grounded.mention {ev : AllowedEvidence} (h : Grounded svc ctx scope states ev)
    {m : Bytes × Bytes} (hm : m ∈ ev.bytes.mentions) : SourceOf svc ctx scope m.1 m.2 := by
  cases ev with
  | chunk c =>
    obtain ⟨db, hdb, dc, hdc, hadm, -, hid, htext⟩ := h
    obtain rfl := List.mem_singleton.mp hm
    refine ⟨dc, .inl ⟨db, hdb, hdc, hadm⟩, by rw [← hid]; rfl, ?_⟩
    rcases htext with he | ⟨he, htwice⟩
    · exact .inl (congrArg utf8 he)
    · exact .inr ⟨congrArg utf8 he, htwice⟩
  | relationship r =>
    obtain ⟨db, hdb, e, -, -, -, -, -, -, -, -, -, h0, h1⟩ := h
    have hep : ∀ {ordinal ep}, LiveEndpoint db (svc.edgeQuery ctx scope) e ordinal ep →
        SourceOf svc ctx scope (utf8 ep.chunkId) (utf8 ep.text) := by
      rintro _ _ ⟨row, -, -, -, dc, hdc, -, hadm, rfl⟩
      exact ⟨dc, .inr ⟨db, hdb, hdc, hadm⟩, rfl, .inl rfl⟩
    rcases List.mem_pair.mp hm with rfl | rfl
    · exact hep h0
    · exact hep h1

/-- The evidence in the message and the ids that are cited stand for rows that the caller may see;
a label is that of the row whose text or relation it marks. -/
structure GroundedPrompt (svc : Services F D) (ctx : RequestContext) (scope : List Uuid)
    (states : List ReviewState) (query : Bytes) (prompt : PromptContext) : Prop where
  message : ∃ blocks : List Block,
    prompt.userMessage = blocks.flatMap Block.render ++ queryBlock query ∧
    (∀ n text, .source n text ∈ blocks →
      ∃ id, Denotes prompt.sourceChunkIds n id ∧ SourceOf svc ctx scope id text) ∧
    ∀ n r a b, .relationship n r a b ∈ blocks →
      ∃ live : AllowedRelationship, Grounded svc ctx scope states (.relationship live) ∧
        live.bytes = r ∧ Denotes prompt.sourceEdgeIds n r.edgeId ∧
        Denotes prompt.sourceChunkIds a r.endpoint0.chunkId ∧
        Denotes prompt.sourceChunkIds b r.endpoint1.chunkId
  chunkIds : ∀ id ∈ prompt.sourceChunkIds, ∃ text, SourceOf svc ctx scope id text
  edgeIds : ∀ id ∈ prompt.sourceEdgeIds, ∃ live : AllowedRelationship,
    Grounded svc ctx scope states (.relationship live) ∧ id = utf8 live.edgeId

open ContextBuilder (emitted sourcesOf edgesOf blocksOf rendered_of_build find?_mentions)

theorem buildPrompt_grounded {uc : AnswerUseCase} {query : Bytes} {opts : AnswerOptions D}
    {evidence : List AllowedEvidence} {prompt : PromptContext}
    (h : uc.buildPrompt ctx query opts evidence = .ok prompt)
    (hev : ∀ ev ∈ evidence, Grounded svc ctx scope states ev) :
    GroundedPrompt svc ctx scope states query prompt := by
  obtain ⟨s, hr, hl, -, hmessage, hids, hedges, -⟩ := rendered_of_build h
  generalize hem : emitted uc.counter query (evidence.map AllowedEvidence.bytes)
    opts.builderOpts = em at hr hl
  -- every accepted item is an item of the evidence
  have hitem : ∀ e ∈ em, ∃ ev, Grounded svc ctx scope states ev ∧ ev.bytes = e.1 := by
    intro e he
    have hsub : (em.map Prod.fst).Sublist (evidence.map AllowedEvidence.bytes) :=
      hem ▸ taken_sublist Prod.fst fun _ _ => rfl
    obtain ⟨ev, hmem, hbytes⟩ := List.mem_map.mp (hsub.subset (List.mem_map_of_mem he))
    exact ⟨ev, hev ev hmem, hbytes⟩
  have hsource : ∀ {n : Nat} {id text : Bytes}, (sourcesOf em)[n]? = some (id, text) →
      SourceOf svc ctx scope id text := by
    intro n id text hget
    obtain ⟨e, he, hm⟩ := List.mem_flatMap.mp (List.mem_of_find?_eq_some (find?_mentions hget))
    obtain ⟨ev, hg, hbytes⟩ := hitem e he
    exact hg.mention (hbytes ▸ hm)
  have hrelationship : ∀ {e r}, e ∈ em → e.1 = .relationship r →
      ∃ live : AllowedRelationship, Grounded svc ctx scope states (.relationship live) ∧
        live.bytes = r := by
    intro e r he hr
    obtain ⟨ev, hg, hbytes⟩ := hitem e he
    cases ev with
    | chunk c =>
      rw [← hbytes, AllowedEvidence.bytes] at hr
      cases hr
    | relationship live =>
      exact ⟨live, hg, ContextBuilder.AllowedEvidence.relationship.inj (hbytes.trans hr)⟩
  constructor
  case message =>
    refine ⟨blocksOf em, by rw [hmessage, hr.blocks], fun n text hb => ?_, fun n r a b hb => ?_⟩
    · obtain ⟨hpos, id, hget⟩ := hl.text n text hb
      refine ⟨id, ⟨hpos, ?_⟩, hsource hget⟩
      rw [hids, hr.ids, List.getElem?_map, hget, Option.map_some]
    · obtain ⟨e, he, hb'⟩ := List.mem_flatMap.mp hb
      obtain ⟨live, hg, hlive⟩ := hrelationship he (hl.belongs e he _ hb')
      obtain ⟨hn, ha, hb⟩ := hl.edge n r a b hb
      rw [hids, hr.ids, hedges, hr.edges]
      exact ⟨live, hg, hlive, hn, ha, hb⟩
  case chunkIds =>
    intro id hid
    rw [hids, hr.ids] at hid
    obtain ⟨⟨_, text⟩, hm, rfl⟩ := List.mem_map.mp hid
    obtain ⟨n, hget⟩ := List.mem_iff_getElem?.mp hm
    exact ⟨text, hsource hget⟩
  case edgeIds =>
    intro id hid
    rw [hedges, hr.edges] at hid
    obtain ⟨e, he, hid⟩ := List.mem_flatMap.mp hid
    cases hcase : e.1 with
    | chunk c =>
      rw [hcase] at hid
      cases hid
    | relationship r =>
      rw [hcase] at hid
      obtain ⟨live, hg, rfl⟩ := hrelationship he hcase
      exact ⟨live, hg, List.mem_singleton.mp hid⟩

end Prompt

namespace AnswerUseCase

/-- For every run, whatever the model and the vector stores answer: what is sent to the model is the
system prompt that was asked for, or the one of the program where none was, and a message whose
sources are the live texts of chunks that a gate showed to this caller, within the scope that the
resolver gave, and whose relationships are edges that were shown with both endpoints; and what an
answer cites are these chunks and edges. -/
theorem run_grounded {F D : Type} (uc : AnswerUseCase) (svc : Services F D) (ctx : RequestContext)
    (query : Bytes) (scopeOrgUnitId : String) (opts : AnswerOptions D) (hkeyed : svc.Keyed)
    (request : ChatRequest) (timeout : Nat)
    (h : .chat request timeout ∈ (uc.run svc ctx query scopeOrgUnitId opts).calls) :
    ∃ scope prompt, svc.resolve ctx.companyId ctx.principal.userId scopeOrgUnitId = .ok scope ∧
      request.messages = [⟨utf8 "system", opts.systemPromptOverride.getD (utf8 kAnswerSystemPrompt)⟩,
        ⟨utf8 "user", prompt.userMessage⟩] ∧
      GroundedPrompt svc ctx scope opts.bridgeOpts.allowedReviewStates query prompt ∧
      ∀ out, (uc.run svc ctx query scopeOrgUnitId opts).result = .ok out →
        out.sourceChunkIds = prompt.sourceChunkIds ∧ out.sourceEdgeIds = prompt.sourceEdgeIds := by
  obtain ⟨evidence, prompt, hevidence, hprompt, rfl, hresult⟩ := run_of_chat opts h
  obtain ⟨scope, hscope, hgrounded⟩ := retrieveEvidence_grounded hkeyed hevidence
  have hsystem : prompt.systemMessage = opts.builderOpts.systemPrompt := by
    obtain ⟨-, -, -, s, -, tokens, -, rfl⟩ := ContextBuilder.build_ok hprompt
    rfl
  refine ⟨scope, prompt, hscope, ?_, buildPrompt_grounded hprompt hgrounded, fun out hout => ?_⟩
  · rw [chatRequest, hsystem]
    rfl
  · rw [hout] at hresult
    cases hllm : uc.llm (chatRequest prompt opts.model) timeout with
    | error e =>
      rw [hllm] at hresult
      exact absurd hresult (ok_ne_error _ _)
    | ok llm =>
      rw [hllm] at hresult
      cases hresult
      exact ⟨rfl, rfl⟩

theorem handbookServices_keyed : handbookServices.Keyed where
  chunks := by
    rintro db hdb
    cases hdb
    exact relatedDb_valid.toKeyed
  edges := by
    rintro db hdb
    cases hdb
    exact relatedDb_valid.toKeyed

set_option maxRecDepth 8000 in
theorem handbook_answered :
    ((handbookUseCase.run handbookServices ⟨1, ⟨100, false⟩, 100⟩ (utf8 "How long?") "10"
      (handbookAnswer .fact)).result).isOk = true := by
  decide

/-- The model is asked with the two chunks of the handbook. -/
theorem handbook_grounded : ∃ (request : ChatRequest) (scope : List Uuid) (prompt : PromptContext),
    request.messages = [⟨utf8 "system", utf8 "Cite."⟩, ⟨utf8 "user", prompt.userMessage⟩] ∧
      GroundedPrompt handbookServices ⟨1, ⟨100, false⟩, 100⟩ scope [.accepted] (utf8 "How long?")
        prompt := by
  obtain ⟨out, hout⟩ : ∃ out, (handbookUseCase.run handbookServices ⟨1, ⟨100, false⟩, 100⟩
      (utf8 "How long?") "10" (handbookAnswer .fact)).result = .ok out := by
    have hok := handbook_answered
    cases h : (handbookUseCase.run handbookServices ⟨1, ⟨100, false⟩, 100⟩ (utf8 "How long?") "10"
        (handbookAnswer .fact)).result with
    | ok out => exact ⟨out, rfl⟩
    | error e =>
      rw [h] at hok
      cases hok
  obtain ⟨request, timeout, hchat⟩ := chat_of_ok hout
  obtain ⟨scope, prompt, -, hmessages, hprompt, -⟩ := run_grounded handbookUseCase handbookServices
    ⟨1, ⟨100, false⟩, 100⟩ (utf8 "How long?") "10" (handbookAnswer .fact) handbookServices_keyed
    request timeout hchat
  exact ⟨request, scope, prompt, hmessages, hprompt⟩

end AnswerUseCase

/-! ### What the caller may not see -/

/-- Two answers of a store are the same to a reader: they fail alike, or the candidates that the
reader may see have the same keys. -/
def AlikeAnswers {ε α κ : Type} (shown : α → Bool) (key : α → κ) :
    Except ε (List α) → Except ε (List α) → Prop
  | .error e, .error e' => e = e'
  | .ok xs, .ok ys => (xs.filter shown).map key = (ys.filter shown).map key
  | .error _, .ok _ => False
  | .ok _, .error _ => False

theorem AlikeAnswers.error_iff {ε α κ : Type} {shown : α → Bool} {key : α → κ}
    {x y : Except ε (List α)} (h : AlikeAnswers shown key x y) (e : ε) :
    x = .error e ↔ y = .error e := by
  cases x with
  | error e' =>
    cases y with
    | error e'' =>
      cases (h : e' = e'')
      exact Iff.rfl
    | ok ys => exact False.elim h
  | ok xs =>
    cases y with
    | error e'' => exact False.elim h
    | ok ys => exact iff_of_false (ok_ne_error _ _) (ok_ne_error _ _)

section Alike

variable {F D : Type} (svc svc' : Services F D) (ctx : RequestContext) (scope : List Uuid)
  (states : List ReviewState)

/-- The statements of the gates accept these ids, and read the text of a UUID as that UUID. -/
def Services.ReadsIds (texts : List String) : Prop :=
  ∃ ids, svc.castIds texts = .ok ids ∧ ∀ id, Uuid.text id ∈ texts → id ∈ ids

/-- The chunk gates read tables that show the caller the same chunks, and the chunk stores propose
the same of these, with ids that the gates accept. -/
def SameChunks : Prop :=
  ∃ db db', svc.chunkDb = .ok db ∧ svc'.chunkDb = .ok db' ∧ db.Keyed ∧ db'.Keyed ∧
    shownChunks db (svc.chunkQuery ctx scope) = shownChunks db' (svc'.chunkQuery ctx scope) ∧
    ∀ vec filter limit timeout,
      AlikeAnswers (fun c => chunkShown db (svc.chunkQuery ctx scope) c.chunkId)
        (fun c : ChunkCandidate String => (c.chunkId, c.score))
        (svc.searchChunks vec filter limit timeout) (svc'.searchChunks vec filter limit timeout) ∧
      (∀ cs, svc.searchChunks vec filter limit timeout = .ok cs →
        svc.ReadsIds (cs.map ChunkCandidate.chunkId)) ∧
      ∀ cs, svc'.searchChunks vec filter limit timeout = .ok cs →
        svc'.ReadsIds (cs.map ChunkCandidate.chunkId)

/-- The same of the relationship gates and the edge stores. -/
def SameEdges : Prop :=
  ∃ db db', svc.edgeDb = .ok db ∧ svc'.edgeDb = .ok db' ∧ db.Keyed ∧ db'.Keyed ∧
    shownEndpoints db (svc.edgeQuery ctx scope) states =
      shownEndpoints db' (svc'.edgeQuery ctx scope) states ∧
    ∀ company vec states' minConfidence limit timeout,
      AlikeAnswers (fun c => (RelationshipEvidenceGate.edgeView db (svc.edgeQuery ctx scope) states
          c.edgeId).isSome)
        (fun c : EdgeCandidate String => (c.edgeId, c.score))
        (svc.searchEdges company vec states' minConfidence limit timeout)
        (svc'.searchEdges company vec states' minConfidence limit timeout) ∧
      (∀ cs, svc.searchEdges company vec states' minConfidence limit timeout = .ok cs →
        svc.ReadsIds (cs.map EdgeCandidate.edgeId)) ∧
      ∀ cs, svc'.searchEdges company vec states' minConfidence limit timeout = .ok cs →
        svc'.ReadsIds (cs.map EdgeCandidate.edgeId)

/-- Two runs that differ in what the caller may not see. -/
structure SameForReader (orch : RetrievalOrchestrator) (scopeOrgUnitId : String)
    (intent : RetrievalIntent) : Prop where
  clock : svc.clock = svc'.clock
  embed : svc.embed = svc'.embed
  resolve : svc.resolve = svc'.resolve
  chunks : intent ≠ .bridge → ∀ scope,
    svc.resolve ctx.companyId ctx.principal.userId scopeOrgUnitId = .ok scope →
      SameChunks svc svc' ctx scope
  edges : orch.willRunEdges intent = true → ∀ scope,
    svc.resolve ctx.companyId ctx.principal.userId scopeOrgUnitId = .ok scope →
      SameEdges svc svc' ctx scope states

variable {svc svc' ctx scope states}

/-- A UUID is known by its text. -/
theorem keys_of_texts {α : Type} {id : α → Uuid} {score : α → Real4} {xs ys : List α}
    (h : xs.map (fun x => (Uuid.text (id x), score x)) = ys.map fun x => (Uuid.text (id x), score x)) :
    xs.map (fun x => (id x, score x)) = ys.map fun x => (id x, score x) := by
  have hinj : Function.Injective fun p : Uuid × Real4 => (Uuid.text p.1, p.2) := by
    intro p p' hp
    rw [Prod.mk.injEq] at hp
    exact Prod.ext (Uuid.text_injective hp.1) hp.2
  refine List.map_injective_iff.mpr hinj ?_
  rw [List.map_map, List.map_map]
  exact h

theorem SameChunks.evaluate (h : SameChunks svc svc' ctx scope) {vec : List F}
    {filter : QdrantFilter} {limit : Int} {timeout : Nat} {cs cs' : List (ChunkCandidate String)}
    (hcs : svc.searchChunks vec filter limit timeout = .ok cs)
    (hcs' : svc'.searchChunks vec filter limit timeout = .ok cs') :
    EvidenceGate.evaluateTexts svc.castIds svc.chunkDb (svc.chunkQuery ctx scope) cs =
      EvidenceGate.evaluateTexts svc'.castIds svc'.chunkDb (svc'.chunkQuery ctx scope) cs' := by
  obtain ⟨db, db', hdb, hdb', hk, hk', hshown, halike⟩ := h
  have hview := chunkView_congr hk hk' hshown
  obtain ⟨hkeys, hreads, hreads'⟩ := halike vec filter limit timeout
  obtain ⟨ids, hcast, hids⟩ := hreads cs hcs
  obtain ⟨ids', hcast', hids'⟩ := hreads' cs' hcs'
  rw [hcs, hcs'] at hkeys
  have hchunkShown : chunkShown db (svc.chunkQuery ctx scope) =
      chunkShown db' (svc'.chunkQuery ctx scope) := by
    funext text
    rw [Bool.eq_iff_iff, chunkShown_iff hk, chunkShown_iff hk', hview]
  have hsame : (cs.filter fun c => chunkShown db (svc.chunkQuery ctx scope) c.chunkId).map
        (fun c => (c.chunkId, c.score)) =
      (cs'.filter fun c => chunkShown db (svc.chunkQuery ctx scope) c.chunkId).map
        fun c => (c.chunkId, c.score) := hkeys
  rw [← EvidenceGate.shown_spelt hk cs hids, hview, hchunkShown,
    ← EvidenceGate.shown_spelt hk' cs' hids'] at hsame
  rw [hdb, hdb', EvidenceGate.evaluateTexts_eq hcast hk, EvidenceGate.evaluateTexts_eq hcast' hk',
    EvidenceGate.emit_filter, EvidenceGate.emit_filter (cs'.filterMap _), hview]
  exact congrArg Except.ok (EvidenceGate.emit_congr (keys_of_texts hsame))

theorem SameEdges.evaluate (h : SameEdges svc svc' ctx scope states) {company : Bytes}
    {vec : List F} {states' : List Bytes} {minConfidence : D} {limit : Int} {timeout : Nat}
    {cs cs' : List (EdgeCandidate String)}
    (hcs : svc.searchEdges company vec states' minConfidence limit timeout = .ok cs)
    (hcs' : svc'.searchEdges company vec states' minConfidence limit timeout = .ok cs') :
    RelationshipEvidenceGate.evaluateTexts svc.castIds svc.edgeDb (svc.edgeQuery ctx scope) states
        cs =
      RelationshipEvidenceGate.evaluateTexts svc'.castIds svc'.edgeDb (svc'.edgeQuery ctx scope)
        states cs' := by
  obtain ⟨db, db', hdb, hdb', hk, hk', hshown, halike⟩ := h
  have hview := RelationshipEvidenceGate.edgeView_congr hk hk' hshown
  obtain ⟨hkeys, hreads, hreads'⟩ := halike company vec states' minConfidence limit timeout
  obtain ⟨ids, hcast, hids⟩ := hreads cs hcs
  obtain ⟨ids', hcast', hids'⟩ := hreads' cs' hcs'
  rw [hcs, hcs'] at hkeys
  have hsame : (cs.filter fun c => (RelationshipEvidenceGate.edgeView db (svc.edgeQuery ctx scope)
        states c.edgeId).isSome).map (fun c => (c.edgeId, c.score)) =
      (cs'.filter fun c => (RelationshipEvidenceGate.edgeView db (svc.edgeQuery ctx scope) states
        c.edgeId).isSome).map fun c => (c.edgeId, c.score) := hkeys
  rw [← RelationshipEvidenceGate.shown_spelt hk cs hids, hview,
    ← RelationshipEvidenceGate.shown_spelt hk' cs' hids'] at hsame
  rw [hdb, hdb', RelationshipEvidenceGate.evaluateTexts_eq hcast hk,
    RelationshipEvidenceGate.evaluateTexts_eq hcast' hk',
    RelationshipEvidenceGate.emit_filter, RelationshipEvidenceGate.emit_filter (cs'.filterMap _),
    hview]
  exact congrArg Except.ok (RelationshipEvidenceGate.emit_congr (keys_of_texts hsame))

variable {vec : List F} {limit overFetch : Int} {bridgeOpts : BridgeIntentOptions D}

theorem checkDeadline_congr (hclock : svc.clock = svc'.clock) (m : Moment) (message : String) :
    checkDeadline svc ctx m message = checkDeadline svc' ctx m message := by
  rw [checkDeadline, checkDeadline, hclock]

theorem remaining_congr (hclock : svc.clock = svc'.clock) (m : Moment) :
    svc.remaining ctx m = svc'.remaining ctx m := by
  rw [Services.remaining, Services.remaining, hclock]

theorem SameChunks.retrieveChunks (h : SameChunks svc svc' ctx scope)
    (hclock : svc.clock = svc'.clock) :
    Wikore.retrieveChunks svc ctx vec scope (allowedLabelsFor ctx.principal) limit overFetch =
      Wikore.retrieveChunks svc' ctx vec scope (allowedLabelsFor ctx.principal) limit overFetch := by
  rw [Wikore.retrieveChunks, Wikore.retrieveChunks, checkDeadline_congr hclock]
  refine bind_congr fun _ _ => bind_related ?_ (fun e => ?_) fun cs cs' hcs hcs' => ?_
  · rw [searchChunks, searchChunks, remaining_congr hclock]
    rfl
  · rw [searchChunks, searchChunks, remaining_congr hclock]
    obtain ⟨_, _, -, -, -, -, -, halike⟩ := h
    exact (halike _ _ _ _).1.error_iff e
  · rw [searchChunks, remaining_congr hclock] at hcs
    rw [checkDeadline_congr hclock]
    have hgate := h.evaluate hcs hcs'
    rw [Services.chunkQuery, Services.chunkQuery] at hgate
    rw [hgate]

theorem SameEdges.retrieveEdges
    (h : SameEdges svc svc' ctx scope bridgeOpts.allowedReviewStates)
    (hclock : svc.clock = svc'.clock) :
    Wikore.retrieveEdges svc ctx vec scope (allowedLabelsFor ctx.principal) limit overFetch
        bridgeOpts =
      Wikore.retrieveEdges svc' ctx vec scope (allowedLabelsFor ctx.principal) limit overFetch
        bridgeOpts := by
  rw [Wikore.retrieveEdges, Wikore.retrieveEdges, checkDeadline_congr hclock]
  refine bind_congr fun _ _ => bind_related ?_ (fun e => ?_) fun cs cs' hcs hcs' => ?_
  · rw [searchEdges, searchEdges, remaining_congr hclock]
    rfl
  · rw [searchEdges, searchEdges, remaining_congr hclock]
    obtain ⟨_, _, -, -, -, -, -, halike⟩ := h
    exact (halike _ _ _ _ _ _).1.error_iff e
  · rw [searchEdges, remaining_congr hclock] at hcs
    rw [checkDeadline_congr hclock]
    have hgate := h.evaluate hcs hcs'
    rw [Services.edgeQuery, Services.edgeQuery] at hgate
    rw [hgate]

variable {orch : RetrievalOrchestrator} {scopeOrgUnitId : String} {intent : RetrievalIntent}

theorem SameForReader.gather
    (h : SameForReader svc svc' ctx bridgeOpts.allowedReviewStates orch scopeOrgUnitId intent)
    (hscope : svc.resolve ctx.companyId ctx.principal.userId scopeOrgUnitId = .ok scope) :
    orch.gather svc ctx vec scope limit bridgeOpts intent =
      orch.gather svc' ctx vec scope limit bridgeOpts intent := by
  cases intent with
  | fact =>
    have hchunks := h.chunks (by decide) scope hscope
    rw [RetrievalOrchestrator.gather, RetrievalOrchestrator.gather, hchunks.retrieveChunks h.clock]
  | bridge =>
    have hedges := h.edges rfl scope hscope
    rw [RetrievalOrchestrator.gather, RetrievalOrchestrator.gather, hedges.retrieveEdges h.clock]
  | automatic =>
    have hchunks := h.chunks (by decide) scope hscope
    rw [RetrievalOrchestrator.gather, RetrievalOrchestrator.gather, hchunks.retrieveChunks h.clock]
    refine bind_congr fun chunks _ => ?_
    split
    next hhave =>
      have hedges := h.edges (by simp [RetrievalOrchestrator.willRunEdges, hhave]) scope hscope
      rw [hedges.retrieveEdges h.clock]
    next => rfl

theorem SameForReader.retrieveEvidence {query : Bytes}
    (h : SameForReader svc svc' ctx bridgeOpts.allowedReviewStates orch scopeOrgUnitId intent) :
    orch.retrieveEvidence svc ctx limit bridgeOpts query scopeOrgUnitId intent =
      orch.retrieveEvidence svc' ctx limit bridgeOpts query scopeOrgUnitId intent := by
  have hpair : RetrievalOrchestrator.embedAndResolve svc ctx query scopeOrgUnitId =
      RetrievalOrchestrator.embedAndResolve svc' ctx query scopeOrgUnitId := by
    rw [RetrievalOrchestrator.embedAndResolve, RetrievalOrchestrator.embedAndResolve,
      RetrievalOrchestrator.embedQuery, RetrievalOrchestrator.embedQuery, remaining_congr h.clock,
      checkDeadline_congr h.clock, h.embed, h.resolve]
  rw [RetrievalOrchestrator.retrieveEvidence, RetrievalOrchestrator.retrieveEvidence,
    checkDeadline_congr h.clock, ← hpair]
  refine bind_congr fun _ _ => bind_congr fun _ _ => bind_congr fun r hr => ?_
  simp only [RetrievalOrchestrator.embedAndResolve, result_bind, result_plain, result_pure,
    bind_ok] at hr
  obtain ⟨vec, -, _, -, scope, hscope, hr⟩ := hr
  cases hr
  exact h.gather hscope

end Alike

namespace AnswerUseCase

/-- For every pair of runs of one request in which the caller may see the same: the same live chunks
and the same edges with both endpoints, and of these the stores propose the same, in the same order
and with the same scores.  Whatever else the tables hold, and whatever else the stores propose, under
any ids that the statements of the gates accept, the runs make the same requests, to the model too,
and return the same answer or the same error. -/
theorem run_noninterference {F D : Type} (uc : AnswerUseCase) (svc svc' : Services F D)
    (ctx : RequestContext) (query : Bytes) (scopeOrgUnitId : String) (opts : AnswerOptions D)
    (h : SameForReader svc svc' ctx opts.bridgeOpts.allowedReviewStates uc.orch scopeOrgUnitId
      opts.intent) :
    uc.run svc ctx query scopeOrgUnitId opts = uc.run svc' ctx query scopeOrgUnitId opts := by
  have hchat : ∀ prompt, uc.chat svc ctx opts prompt = uc.chat svc' ctx opts prompt := by
    intro prompt
    rw [chat, chat, chatTimeout, chatTimeout, remaining_congr h.clock]
  rw [run, run]
  simp only [checkDeadline_congr h.clock, h.retrieveEvidence, hchat]

/-- The handbook has a restricted version as well. -/
def restrictedDb : EvidenceDb :=
  { relatedDb with
    documentVersions := ⟨140, 1, 100, .active, .restricted⟩ :: relatedDb.documentVersions
    documentChunks := ⟨141, 1, 140, "Leave is 40 days.", none⟩ :: relatedDb.documentChunks }

theorem restrictedDb_keyed : restrictedDb.Keyed where
  documents := by decide
  versions := by decide
  chunks := by decide
  sections := by decide
  edges := by decide
  endpoints := by decide

/-- The store proposes the restricted chunk before the others. -/
def restrictedServices : Services Nat Nat :=
  { handbookServices with
    searchChunks := fun _ _ _ _ => .ok [{ chunkId := Uuid.text 141, score := 3 },
      { chunkId := Uuid.text 121, score := 2 }, { chunkId := Uuid.text 120, score := 1 }]
    chunkDb := .ok restrictedDb
    edgeDb := .ok restrictedDb }

/-- The statements accept the ids of the handbook. -/
theorem handbook_readsIds {texts : List String}
    (h : ∀ text ∈ texts, ∃ id ∈ ([120, 121, 141, 300] : List Uuid), Uuid.text id = text) :
    handbookServices.ReadsIds texts := by
  refine ⟨_, rfl, fun id hid => ?_⟩
  obtain ⟨id', hmem, htext⟩ := h _ hid
  obtain rfl := Uuid.text_injective htext
  exact List.mem_filter.mpr ⟨hmem, decide_eq_true hid⟩

theorem restricted_sameForReader : SameForReader handbookServices restrictedServices
    ⟨1, ⟨100, false⟩, 100⟩ [.accepted] handbookUseCase.orch "10" .automatic where
  clock := rfl
  embed := rfl
  resolve := rfl
  chunks := by
    rintro - scope hscope
    cases hscope
    refine ⟨relatedDb, restrictedDb, rfl, rfl, relatedDb_valid.toKeyed, restrictedDb_keyed, ?_,
      fun _ _ _ _ => ?_⟩
    · rw [shownChunks_eq, shownChunks_eq]
      have hlist : (relatedDb.documentChunks.filter fun dc => Admissible relatedDb
            (handbookServices.chunkQuery ⟨1, ⟨100, false⟩, 100⟩ [10]) dc).map
            (fun dc => (dc.id, liveEvidence relatedDb dc)) =
          (restrictedDb.documentChunks.filter fun dc => Admissible restrictedDb
            (restrictedServices.chunkQuery ⟨1, ⟨100, false⟩, 100⟩ [10]) dc).map
            fun dc => (dc.id, liveEvidence restrictedDb dc) := by
        decide
      rw [hlist]
    · refine ⟨?_, fun cs hcs => handbook_readsIds ?_, fun cs hcs => handbook_readsIds ?_⟩
      · change List.map _ _ = List.map _ _
        decide
      · cases hcs
        simp
      · cases hcs
        simp
  edges := by
    rintro - scope hscope
    cases hscope
    refine ⟨relatedDb, restrictedDb, rfl, rfl, relatedDb_valid.toKeyed, restrictedDb_keyed, ?_,
      fun _ _ _ _ _ _ => ⟨rfl, fun cs hcs => handbook_readsIds ?_,
        fun cs hcs => handbook_readsIds ?_⟩⟩
    · ext r
      rw [← RelationshipEvidenceGate.mem_allRows relatedDb_valid.toKeyed,
        ← RelationshipEvidenceGate.mem_allRows restrictedDb_keyed]
      have hrows : RelationshipEvidenceGate.gateRows relatedDb
            (handbookServices.edgeQuery ⟨1, ⟨100, false⟩, 100⟩ [10]) [.accepted]
            (relatedDb.knowledgeEdges.map KnowledgeEdge.id) =
          RelationshipEvidenceGate.gateRows restrictedDb
            (restrictedServices.edgeQuery ⟨1, ⟨100, false⟩, 100⟩ [10]) [.accepted]
            (restrictedDb.knowledgeEdges.map KnowledgeEdge.id) := by
        decide
      rw [hrows]
    · cases hcs
      simp
    · cases hcs
      simp

/-- The restricted version makes no difference. -/
theorem restricted_noninterference :
    handbookUseCase.run handbookServices ⟨1, ⟨100, false⟩, 100⟩ (utf8 "How long?") "10"
        (handbookAnswer .automatic) =
      handbookUseCase.run restrictedServices ⟨1, ⟨100, false⟩, 100⟩ (utf8 "How long?") "10"
        (handbookAnswer .automatic) :=
  run_noninterference handbookUseCase handbookServices restrictedServices ⟨1, ⟨100, false⟩, 100⟩
    (utf8 "How long?") "10" (handbookAnswer .automatic) restricted_sameForReader

end AnswerUseCase

end Wikore
