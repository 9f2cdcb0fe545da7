import Wikore.Lib.Interleave
import Wikore.Lib.Traced
import Wikore.Rag.Embedder
import Wikore.Rag.QdrantFilters
import Wikore.Rag.RelationshipGate

/-! `RetrievalOrchestrator`: the vector stores propose candidates for a question, the gates decide
which of them the caller sees, and an automatic request takes both kinds in turns.  The requests to
the stores are recorded, and the deadline is read at the places where the source reads it. -/

namespace Wikore

open ContextBuilder (Bytes utf8 Error)
open Fallible Traced Interleave

/-! ### Clearance -/

def SensitivityLabel.text : SensitivityLabel → String
  | pub => "public"
  | internal => "internal"
  | confidential => "confidential"
  | restricted => "restricted"

/-- The values of the enumeration `SensitivityLevel`. -/
def SensitivityLabel.level : SensitivityLabel → Nat
  | pub => 0
  | internal => 1
  | confidential => 2
  | restricted => 3

def sensitivityLabelsUpTo (maxLevel : SensitivityLabel) : List SensitivityLabel :=
  [.pub] ++
    (if maxLevel.level ≥ SensitivityLabel.internal.level then [.internal] else []) ++
    (if maxLevel.level ≥ SensitivityLabel.confidential.level then [.confidential] else []) ++
    (if maxLevel.level ≥ SensitivityLabel.restricted.level then [.restricted] else [])

structure Principal where
  userId : Uuid
  isAdmin : Bool := false
deriving DecidableEq, Repr

def clearanceFor (_ : Principal) : SensitivityLabel := .confidential

def allowedLabelsFor (p : Principal) : List SensitivityLabel :=
  sensitivityLabelsUpTo (clearanceFor p)

/-! ### Requests and services -/

/-- The parts of the `RequestContext` that the pipeline reads; the deadline is in ticks of the
steady clock. -/
structure RequestContext where
  companyId : Uuid
  principal : Principal
  deadline : Nat
deriving DecidableEq, Repr

inductive RetrievalIntent
  | fact | bridge | automatic
deriving DecidableEq, Repr

structure BridgeIntentOptions (D : Type) where
  minConfidence : D
  allowedReviewStates : List ReviewState := [.accepted]

inductive AllowedEvidence
  | chunk (c : AllowedChunk)
  | relationship (r : AllowedRelationship)
deriving DecidableEq, Repr

structure ChatMessage where
  role : Bytes
  content : Bytes
deriving DecidableEq, Repr

/-- A request to the model; the provider's own values stand for the number of tokens 0 and the
temperature -1. -/
structure ChatRequest where
  messages : List ChatMessage
  model : Bytes
  maxTokens : Int := 0
  temperature : Int := -1
deriving DecidableEq, Repr

/-- The places where a request reads the steady clock, in their order. -/
inductive Moment
  | answerStart | retrieveStart | embedTimeout | afterEmbed | beforeSearch | searchTimeout
  | beforeGate | beforeEdgeSearch | edgeSearchTimeout | beforeEdgeGate | afterRetrieval | beforeLlm
  | llmTimeout
deriving DecidableEq, Repr

/-- The requests to the embedder, the vector stores and the model, each with its time limit. -/
inductive Call (F D : Type)
  | embed (text : Bytes) (timeout : Nat)
  | searchChunks (query : List F) (filter : QdrantFilter) (limit : Int) (timeout : Nat)
  | searchEdges (company : Bytes) (query : List F) (states : List Bytes) (minConfidence : D)
      (limit : Int) (timeout : Nat)
  | chat (request : ChatRequest) (timeout : Nat)

/-- What a request meets: the clock, the answers of the ports, what the statements of the gates make
of the candidates' ids, and for each gate the state of the tables, or the error, that its statement
meets with the `now()` that it reads. -/
structure Services (F D : Type) where
  clock : Moment → Nat
  embed : Bytes → Nat → Except Error (List F)
  resolve : Uuid → Uuid → String → Except Error (List Uuid)
  searchChunks : List F → QdrantFilter → Int → Nat → Except Error (List (ChunkCandidate String))
  searchEdges : Bytes → List F → List Bytes → D → Int → Nat →
    Except Error (List (EdgeCandidate String))
  castIds : List String → Except Error (List Uuid)
  chunkDb : Except Error EvidenceDb
  chunkNow : Nat
  edgeDb : Except Error EvidenceDb
  edgeNow : Nat

namespace QdrantFilterBuilder

def build (companyId : Uuid) (scope : List Uuid) (labels : List SensitivityLabel) : QdrantFilter :=
  .ofStrings (Uuid.text companyId) (scope.map Uuid.text) (labels.map SensitivityLabel.text) "active"

end QdrantFilterBuilder

def GateQuery.active (ctx : RequestContext) (scope : List Uuid) (labels : List SensitivityLabel)
    (now : Nat) : GateQuery :=
  ⟨ctx.companyId, scope, labels, [.active], now⟩

def computeFetch (limit overFetch : Int) : Int := min (limit * max 1 overFetch) 10000

/-- `erase` from `limit` on. -/
def truncate {α : Type} (limit : Int) (xs : List α) : List α :=
  if (xs.length : Int) > limit then xs.take limit.toNat else xs

section Pipeline

variable {F D : Type} (svc : Services F D) (ctx : RequestContext)

def Services.remaining (m : Moment) : Nat := ctx.deadline - svc.clock m

/-- `if (ctx.deadline_exceeded())`. -/
def checkDeadline (m : Moment) (message : String) : Traced (Call F D) Error Unit :=
  plain (rejectIf (svc.clock m ≥ ctx.deadline) (.unavailable message))

variable (vec : List F) (scope : List Uuid) (labels : List SensitivityLabel) (limit overFetch : Int)

def searchChunks : Traced (Call F D) Error (List (ChunkCandidate String)) :=
  let filter := QdrantFilterBuilder.build ctx.companyId scope labels
  let fetch := computeFetch limit overFetch
  let timeout := svc.remaining ctx .searchTimeout
  call (.searchChunks vec filter fetch timeout) (svc.searchChunks vec filter fetch timeout)

def retrieveChunks : Traced (Call F D) Error (List AllowedChunk) := do
  checkDeadline svc ctx .beforeSearch "retrieve: deadline exceeded before search"
  let candidates ← searchChunks svc ctx vec scope labels limit overFetch
  checkDeadline svc ctx .beforeGate "retrieve: deadline exceeded before gate"
  let allowed ← plain
    (EvidenceGate.evaluateTexts svc.castIds svc.chunkDb (.active ctx scope labels svc.chunkNow)
      candidates)
  return truncate limit allowed

variable (bridgeOpts : BridgeIntentOptions D)

def searchEdges : Traced (Call F D) Error (List (EdgeCandidate String)) :=
  let company := utf8 (Uuid.text ctx.companyId)
  let states := bridgeOpts.allowedReviewStates.map fun s => utf8 s.text
  let fetch := computeFetch limit overFetch
  let timeout := svc.remaining ctx .edgeSearchTimeout
  call (.searchEdges company vec states bridgeOpts.minConfidence fetch timeout)
    (svc.searchEdges company vec states bridgeOpts.minConfidence fetch timeout)

def retrieveEdges : Traced (Call F D) Error (List AllowedRelationship) := do
  checkDeadline svc ctx .beforeEdgeSearch "retrieve: deadline exceeded before edge search"
  let candidates ← searchEdges svc ctx vec limit overFetch bridgeOpts
  checkDeadline svc ctx .beforeEdgeGate "retrieve: deadline exceeded before edge gate"
  let allowed ← plain (RelationshipEvidenceGate.evaluateTexts svc.castIds svc.edgeDb
    (.active ctx scope labels svc.edgeNow) bridgeOpts.allowedReviewStates candidates)
  return truncate limit allowed

/-- The loop that takes chunks and edges in turns; its passes are no more than the longer list has
elements. -/
def mergeLoop {α : Type} (limit : Int) : Nat → List α → List α → List α → List α
  | 0, out, _, _ => out
  | n + 1, out, chunks, edges =>
    if (out.length : Int) < limit ∧ (chunks ≠ [] ∨ edges ≠ []) then
      if ((out ++ chunks.take 1).length : Int) ≥ limit then out ++ chunks.take 1
      else mergeLoop limit n (out ++ chunks.take 1 ++ edges.take 1) (chunks.drop 1) (edges.drop 1)
    else out

def mergeEvidence (chunks : List AllowedChunk) (edges : List AllowedRelationship) :
    List AllowedEvidence :=
  mergeLoop limit (max chunks.length edges.length) [] (chunks.map .chunk)
    (edges.map .relationship)

/-- What the orchestrator was built with: whether there are an edge store and an edge gate, and how
many candidates it asks for. -/
structure RetrievalOrchestrator where
  hasEdgeStore : Bool := false
  hasEdgeGate : Bool := false
  overFetch : Int := 4
deriving DecidableEq, Repr

namespace RetrievalOrchestrator

variable (orch : RetrievalOrchestrator) (query : Bytes) (scopeOrgUnitId : String)

def haveEdges : Bool := orch.hasEdgeStore && orch.hasEdgeGate

def embedQuery : Traced (Call F D) Error (List F) :=
  let timeout := svc.remaining ctx .embedTimeout
  call (.embed query timeout) (svc.embed query timeout)

/-- Both `embed` and `resolve`, with the check between them. -/
def embedAndResolve : Traced (Call F D) Error (List F × List Uuid) := do
  let vec ← embedQuery svc ctx query
  checkDeadline svc ctx .afterEmbed "retrieve: deadline exceeded after embed"
  let scope ← plain (svc.resolve ctx.companyId ctx.principal.userId scopeOrgUnitId)
  return (vec, scope)

def retrieve : Traced (Call F D) Error (List AllowedChunk) := do
  checkDeadline svc ctx .retrieveStart "retrieve: deadline exceeded"
  plain (rejectIf (limit ≤ 0) (.invalidInput "retrieve: limit must be positive"))
  let (vec, scope) ← embedAndResolve svc ctx query scopeOrgUnitId
  retrieveChunks svc ctx vec scope (allowedLabelsFor ctx.principal) limit orch.overFetch

/-- Whether the search for edges will run. -/
def willRunEdges (intent : RetrievalIntent) : Bool :=
  intent = .bridge ∨ (intent = .automatic ∧ orch.haveEdges = true)

/-- The checks before anything is asked for. -/
def checkRequest (intent : RetrievalIntent) : Except Error Unit := do
  rejectIf (limit ≤ 0) (.invalidInput "retrieve: limit must be positive")
  rejectIf (intent = .bridge ∧ orch.haveEdges = false) (.unavailable
    "retrieve: bridge intent requested but no edge vector store / gate configured")
  rejectIf (orch.willRunEdges intent = true ∧ bridgeOpts.allowedReviewStates = []) (.invalidInput
    "retrieve: bridge/automatic intent requires at least one allowed review_state")

/-- The `switch` over the intent. -/
def gather (intent : RetrievalIntent) : Traced (Call F D) Error (List AllowedEvidence) :=
  let labels := allowedLabelsFor ctx.principal
  match intent with
  | .fact => do
    let chunks ← retrieveChunks svc ctx vec scope labels limit orch.overFetch
    return chunks.map .chunk
  | .bridge => do
    let edges ← retrieveEdges svc ctx vec scope labels limit orch.overFetch bridgeOpts
    return edges.map .relationship
  | .automatic => do
    let chunks ← retrieveChunks svc ctx vec scope labels limit orch.overFetch
    let edges ←
      if orch.haveEdges then
        retrieveEdges svc ctx vec scope labels limit orch.overFetch bridgeOpts
      else pure []
    return mergeEvidence limit chunks edges

def retrieveEvidence (intent : RetrievalIntent) : Traced (Call F D) Error (List AllowedEvidence) := do
  checkDeadline svc ctx .retrieveStart "retrieve: deadline exceeded"
  plain (orch.checkRequest limit bridgeOpts intent)
  let (vec, scope) ← embedAndResolve svc ctx query scopeOrgUnitId
  orch.gather svc ctx vec scope limit bridgeOpts intent

end RetrievalOrchestrator

end Pipeline

/-! ### Truncating and merging -/

section Merge

variable {α : Type}

theorem truncate_eq_take (limit : Int) (xs : List α) : truncate limit xs = xs.take limit.toNat := by
  rw [truncate]
  split
  next => rfl
  next hle => rw [List.take_of_length_le (by omega)]

theorem mergeLoop_eq (limit : Int) (n : Nat) (out chunks edges : List α) (hc : chunks.length ≤ n)
    (he : edges.length ≤ n) : mergeLoop limit n out chunks edges =
      out ++ (interleave chunks edges).take (limit.toNat - out.length) := by
  induction n generalizing out chunks edges with
  | zero =>
    obtain rfl := List.length_eq_zero_iff.mp (Nat.le_zero.mp hc)
    obtain rfl := List.length_eq_zero_iff.mp (Nat.le_zero.mp he)
    simp [mergeLoop]
  | succ n ih =>
    rw [mergeLoop]
    split
    next hgo =>
      obtain ⟨hlt, hne⟩ := hgo
      cases chunks with
      | nil =>
        -- only edges are left
        obtain ⟨e, edges, rfl⟩ : ∃ e es, edges = e :: es :=
          List.exists_cons_of_ne_nil (by simpa using hne)
        have hroom : limit.toNat - out.length = limit.toNat - (out ++ [e]).length + 1 := by
          rw [List.length_append, List.length_singleton]
          omega
        have hopen : ¬((out ++ List.take 1 ([] : List α)).length : Int) ≥ limit := by simpa using hlt
        rw [if_neg hopen, ih _ _ _ (by simp) (by simpa using he)]
        simp only [List.take_nil, List.append_nil, List.drop_nil, interleave_nil_left,
          List.take_succ_cons, List.take_zero, List.drop_succ_cons, List.drop_zero, hroom,
          List.append_assoc, List.singleton_append]
      | cons c chunks =>
        have hroom : limit.toNat - out.length = limit.toNat - (out ++ [c]).length + 1 := by
          rw [List.length_append, List.length_singleton]
          omega
        simp only [List.take_succ_cons, List.take_zero, List.drop_succ_cons, List.drop_zero]
        split
        next hfull =>
          have hnone : limit.toNat - (out ++ [c]).length = 0 := by omega
          rw [hroom, hnone]
          cases edges with
          | nil => simp
          | cons e edges => simp
        next hopen =>
          have hlen : (out ++ [c]).length < limit.toNat := by omega
          have htail : chunks.length ≤ n := by simpa using hc
          cases edges with
          | nil =>
            rw [ih _ _ _ htail (by simp), hroom]
            simp
          | cons e edges =>
            have hroom' : limit.toNat - (out ++ [c]).length =
                limit.toNat - (out ++ [c] ++ [e]).length + 1 := by
              simp only [List.length_append, List.length_singleton] at hlen ⊢
              omega
            rw [List.take_succ_cons, List.take_zero, List.drop_succ_cons, List.drop_zero,
              ih _ _ _ htail (by simpa using he), hroom, hroom', interleave_cons_cons,
              List.take_succ_cons, List.take_succ_cons]
            simp only [List.append_assoc, List.cons_append, List.nil_append]
    next hstop =>
      rw [not_and_or, not_or, not_not, not_not] at hstop
      rcases hstop with hfull | ⟨rfl, rfl⟩
      · have hnone : limit.toNat - out.length = 0 := by omega
        rw [hnone, List.take_zero, List.append_nil]
      · simp

theorem mergeEvidence_eq (limit : Int) (chunks : List AllowedChunk)
    (edges : List AllowedRelationship) : mergeEvidence limit chunks edges =
      (interleave (chunks.map .chunk) (edges.map .relationship)).take limit.toNat := by
  rw [mergeEvidence, mergeLoop_eq _ _ _ _ _ (by simp) (by simp)]
  simp

end Merge

/-! ### The three intents -/

namespace RetrievalOrchestrator

section Intents

variable {F D : Type} {svc : Services F D} {ctx : RequestContext} {limit : Int}
  {bridgeOpts : BridgeIntentOptions D} {orch : RetrievalOrchestrator} {query : Bytes}
  {scopeOrgUnitId : String}

/-- Without edges an automatic request is checked as one for facts. -/
theorem checkRequest_automatic_of_facts (h : orch.haveEdges = false) :
    orch.checkRequest limit bridgeOpts .automatic = orch.checkRequest limit bridgeOpts .fact := by
  simp [checkRequest, willRunEdges, h]

/-- With edges it is checked as one for edges. -/
theorem checkRequest_automatic_of_edges (h : orch.haveEdges = true) :
    orch.checkRequest limit bridgeOpts .automatic = orch.checkRequest limit bridgeOpts .bridge := by
  simp [checkRequest, willRunEdges, h]

/-- With edges and a review state, so is a request for facts. -/
theorem checkRequest_bridge (h : orch.haveEdges = true) (hs : bridgeOpts.allowedReviewStates ≠ []) :
    orch.checkRequest limit bridgeOpts .bridge = orch.checkRequest limit bridgeOpts .fact := by
  unfold checkRequest
  by_cases hl : limit ≤ 0 <;> simp [rejectIf, hl, h, hs]

variable (limit) in
theorem checkRequest_no_states (h : orch.haveEdges = true)
    (hs : bridgeOpts.allowedReviewStates = []) :
    ∃ e, orch.checkRequest limit bridgeOpts .bridge = .error e := by
  unfold checkRequest
  by_cases hl : limit ≤ 0
  · exact ⟨_, by simp [rejectIf, hl]; rfl⟩
  · exact ⟨_, by simp [rejectIf, hl, h, hs, willRunEdges]; rfl⟩

theorem length_retrieveChunks {vec : List F} {scope : List Uuid} {labels : List SensitivityLabel}
    {overFetch : Int} {chunks : List AllowedChunk}
    (h : (retrieveChunks svc ctx vec scope labels limit overFetch).result = .ok chunks) :
    chunks.length ≤ limit.toNat := by
  simp only [retrieveChunks, result_bind, bind_ok, result_pure, Except.ok.injEq] at h
  obtain ⟨_, -, _, -, _, -, allowed, -, rfl⟩ := h
  rw [truncate_eq_take, List.length_take]
  exact Nat.min_le_left _ _

/-- What precedes the searches. -/
def prepared (svc : Services F D) (ctx : RequestContext) (limit : Int)
    (bridgeOpts : BridgeIntentOptions D) (orch : RetrievalOrchestrator) (query : Bytes)
    (scopeOrgUnitId : String) (intent : RetrievalIntent) : Except Error (List F × List Uuid) := do
  (checkDeadline svc ctx .retrieveStart "retrieve: deadline exceeded").result
  orch.checkRequest limit bridgeOpts intent
  (embedAndResolve svc ctx query scopeOrgUnitId).result

theorem result_retrieveEvidence (intent : RetrievalIntent) :
    (orch.retrieveEvidence svc ctx limit bridgeOpts query scopeOrgUnitId intent).result =
      prepared svc ctx limit bridgeOpts orch query scopeOrgUnitId intent >>= fun r =>
        (orch.gather svc ctx r.1 r.2 limit bridgeOpts intent).result := by
  rw [retrieveEvidence, prepared]
  simp only [result_bind, result_plain, bind_assoc]

/-- For every request: without edges, what an automatic request returns is what a request for facts
returns.  With edges it fails where that request or the one for edges fails, in this order, and else
takes from both answers in turns, as many as the limit allows: the first of each, in their order. -/
theorem automatic_combines (svc : Services F D) (ctx : RequestContext) (limit : Int)
    (bridgeOpts : BridgeIntentOptions D) (orch : RetrievalOrchestrator) (query : Bytes)
    (scopeOrgUnitId : String) :
    let run := fun intent =>
      (orch.retrieveEvidence svc ctx limit bridgeOpts query scopeOrgUnitId intent).result
    (orch.haveEdges = false → run .automatic = run .fact) ∧
    (orch.haveEdges = true → bridgeOpts.allowedReviewStates = [] →
      run .automatic = run .bridge ∧ ∃ e, run .bridge = .error e) ∧
    (orch.haveEdges = true → bridgeOpts.allowedReviewStates ≠ [] →
      (∀ e, run .fact = .error e → run .automatic = .error e) ∧
      (∀ chunks e, run .fact = .ok chunks → run .bridge = .error e → run .automatic = .error e) ∧
      ∀ chunks edges, run .fact = .ok chunks → run .bridge = .ok edges →
        ∃ i j, Fair chunks edges limit.toNat i j ∧
          run .automatic = .ok (interleave (chunks.take i) (edges.take j))) := by
  intro run
  have hrun : ∀ intent, run intent = prepared svc ctx limit bridgeOpts orch query scopeOrgUnitId
      intent >>= fun r => (orch.gather svc ctx r.1 r.2 limit bridgeOpts intent).result :=
    fun intent => result_retrieveEvidence intent
  refine ⟨fun hedges => ?_, fun hedges hstates => ?_, fun hedges hstates => ?_⟩
  · rw [hrun, hrun, prepared, prepared, checkRequest_automatic_of_facts hedges]
    refine congrArg _ (funext fun r => ?_)
    rw [gather, gather]
    simp only [result_bind, hedges, Bool.false_eq_true, if_false, result_pure]
    cases hc : (retrieveChunks svc ctx r.1 r.2 (allowedLabelsFor ctx.principal) limit
        orch.overFetch).result with
    | error e => rfl
    | ok chunks =>
      -- the loop takes chunks only, and these are no more than the limit
      have hlen := length_retrieveChunks hc
      have hmerge : mergeEvidence limit chunks [] = chunks.map .chunk := by
        rw [mergeEvidence_eq, List.map_nil, interleave_nil_right, List.take_of_length_le]
        simpa using hlen
      simp only [Except.bind, bind, hmerge]
  · obtain ⟨e, he⟩ : ∃ e, prepared svc ctx limit bridgeOpts orch query scopeOrgUnitId .bridge =
        .error e := by
      obtain ⟨e, he⟩ := checkRequest_no_states limit hedges hstates
      rw [prepared, he]
      cases (checkDeadline svc ctx .retrieveStart "retrieve: deadline exceeded").result with
      | error e' => exact ⟨e', rfl⟩
      | ok _ => exact ⟨e, rfl⟩
    have hauto : prepared svc ctx limit bridgeOpts orch query scopeOrgUnitId .automatic =
        .error e := by
      rw [← he, prepared, prepared, checkRequest_automatic_of_edges hedges]
    rw [hrun, hrun, he, hauto]
    exact ⟨rfl, e, rfl⟩
  · have hbridge : prepared svc ctx limit bridgeOpts orch query scopeOrgUnitId .bridge =
        prepared svc ctx limit bridgeOpts orch query scopeOrgUnitId .fact := by
      rw [prepared, prepared, checkRequest_bridge hedges hstates]
    have hauto : prepared svc ctx limit bridgeOpts orch query scopeOrgUnitId .automatic =
        prepared svc ctx limit bridgeOpts orch query scopeOrgUnitId .fact := by
      rw [← hbridge, prepared, prepared, checkRequest_automatic_of_edges hedges]
    rw [hrun, hrun, hrun, hbridge, hauto]
    cases prepared svc ctx limit bridgeOpts orch query scopeOrgUnitId .fact with
    | error e =>
      exact ⟨fun _ h => h, fun _ _ h _ => absurd h.symm (ok_ne_error _ _),
        fun _ _ h _ => absurd h.symm (ok_ne_error _ _)⟩
    | ok r =>
      simp only [bind, Except.bind]
      rw [gather, gather, gather]
      simp only [result_bind, hedges, if_true, result_pure]
      cases (retrieveChunks svc ctx r.1 r.2 (allowedLabelsFor ctx.principal) limit
          orch.overFetch).result with
      | error e =>
        exact ⟨fun _ h => h, fun _ _ h _ => absurd h.symm (ok_ne_error _ _),
          fun _ _ h _ => absurd h.symm (ok_ne_error _ _)⟩
      | ok chunks =>
        refine ⟨fun _ h => absurd h (ok_ne_error _ _), ?_, ?_⟩
        · rintro _ e - h
          cases he : (retrieveEdges svc ctx r.1 r.2 (allowedLabelsFor ctx.principal) limit
              orch.overFetch bridgeOpts).result with
          | error e' => rw [he] at h; exact h
          | ok edges => rw [he] at h; exact absurd h (ok_ne_error _ _)
        · rintro _ es hcs h
          cases he : (retrieveEdges svc ctx r.1 r.2 (allowedLabelsFor ctx.principal) limit
              orch.overFetch bridgeOpts).result with
          | error e' => rw [he] at h; exact absurd h.symm (ok_ne_error _ _)
          | ok edges =>
            rw [he] at h
            cases hcs
            cases h
            obtain ⟨i, j, hfair, htake⟩ := take_interleave
              (chunks.map AllowedEvidence.chunk) (edges.map AllowedEvidence.relationship) limit.toNat
            refine ⟨i, j, hfair, ?_⟩
            rw [← htake, ← mergeEvidence_eq]
            rfl

end Intents

end RetrievalOrchestrator

end Wikore
