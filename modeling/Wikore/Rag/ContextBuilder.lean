import Wikore.Lib.Query
import Wikore.Rag.PromptBlocks

/-! `ContextBuilder::build`: the evidence goes into the prompt item by item while it fits, and the
prompt that comes out keeps both budgets whatever the token counter is. -/

namespace Wikore.ContextBuilder

open Fallible Query

inductive ErrorKind
  | notFound
  | conflict
  | forbidden
  | invalidInput
  | invalidState
  | databaseError
  | serviceUnavailable
deriving DecidableEq, Repr

structure Error where
  kind : ErrorKind
  message : String
deriving DecidableEq, Repr

def Error.invalidInput (message : String) : Error := ⟨.invalidInput, message⟩

def Error.invalidState (message : String) : Error := ⟨.invalidState, message⟩

/-- `PromptTokenCounterPort::count`, of the system message and the user message. -/
abbrev TokenCounter := Bytes → Bytes → Except Error Nat

structure ContextBuilderOptions where
  maxContextTokens : Nat := 8192
  reservedOutputTokens : Nat := 2048
  maxPromptBytes : Nat := 64 * 1024
  maxEvidenceItems : Int := 20
  systemPrompt : Bytes
deriving DecidableEq, Repr

structure PromptContext where
  systemMessage : Bytes
  userMessage : Bytes
  sourceChunkIds : List Bytes
  sourceEdgeIds : List Bytes
  evidenceIncluded : Nat
  promptTokens : Nat
  promptBytes : Nat
deriving DecidableEq, Repr

def kContextBuilderMaxBytes : Nat := 4 * 1024 * 1024

def kContextBuilderMaxTokens : Nat := 131072

/-! ### Sizes -/

/-- The largest `std::size_t`. -/
def sizeMax : Nat := 2 ^ 64 - 1

def addOverflows (a b : Nat) : Prop := b > sizeMax - a

instance (a b : Nat) : Decidable (addOverflows a b) := inferInstanceAs (Decidable (_ > _))

def promptBytes (systemMessage userMessage : Bytes) : Nat :=
  if addOverflows systemMessage.length userMessage.length then sizeMax
  else systemMessage.length + userMessage.length

def kChatTemplateAllowance : Nat := 32

/-- `ByteUpperBoundTokenCounter::count`. -/
def byteUpperBoundTokenCounter : TokenCounter := fun systemMessage userMessage =>
  let bytes := promptBytes systemMessage userMessage
  if bytes = sizeMax ∨ addOverflows bytes kChatTemplateAllowance then
    .error (.invalidInput "context_builder: prompt size overflow")
  else .ok (bytes + kChatTemplateAllowance)

/-! ### Checks -/

def checkOptions (opts : ContextBuilderOptions) : Except Error Unit := do
  rejectIf (opts.maxContextTokens = 0 ∨ opts.maxContextTokens > kContextBuilderMaxTokens)
    (.invalidInput ("context_builder: max_context_tokens must be in [1, " ++
      toString kContextBuilderMaxTokens ++ "]"))
  rejectIf (opts.reservedOutputTokens ≥ opts.maxContextTokens)
    (.invalidInput
      "context_builder: reserved_output_tokens must be smaller than max_context_tokens")
  rejectIf (opts.maxPromptBytes = 0 ∨ opts.maxPromptBytes > kContextBuilderMaxBytes)
    (.invalidInput ("context_builder: max_prompt_bytes must be in [1, " ++
      toString kContextBuilderMaxBytes ++ "]"))
  rejectIf (opts.maxEvidenceItems < 0)
    (.invalidInput "context_builder: max_evidence_items must be >= 0")

def AllowedEvidence.MissesChunkId : AllowedEvidence → Prop
  | .chunk _ => False
  | .relationship r => r.endpoint0.chunkId = [] ∨ r.endpoint1.chunkId = []

instance : ∀ ev : AllowedEvidence, Decidable ev.MissesChunkId
  | .chunk _ => inferInstanceAs (Decidable False)
  | .relationship _ => inferInstanceAs (Decidable (_ ∨ _))

/-- The loop over all the evidence before any of it is selected. -/
def checkEvidence (companyId : Bytes) : List AllowedEvidence → Except Error Unit
  | [] => .ok ()
  | ev :: evidence => do
    rejectIf (ev.companyId ≠ companyId)
      (.invalidState "context_builder: evidence company_id does not match request tenant")
    rejectIf ev.MissesChunkId
      (.invalidState "context_builder: AllowedRelationship endpoint missing chunk_id")
    checkEvidence companyId evidence

/-! ### The rendering loop -/

/-- The variables of the loop.  The labels are an `int` in the source; they stay below the number of
bytes of the prompt. -/
structure Rendering where
  evidenceBlocks : Bytes := []
  chunkSrcIndex : List (Bytes × Nat) := []
  nextSrc : Nat := 1
  nextRel : Nat := 1
  included : Nat := 0
  sourceChunkIds : List Bytes := []
  sourceEdgeIds : List Bytes := []
deriving DecidableEq, Repr

structure Pending where
  srcN : Nat
  chunkId : Bytes
  text : Bytes
deriving DecidableEq, Repr

/-- `chunk_src_index.find`. -/
def Rendering.srcOf (s : Rendering) (chunkId : Bytes) : Option Nat :=
  (s.chunkSrcIndex.find? fun e => e.1 = chunkId).map Prod.snd

/-- The label of an endpoint; a new one is only pending. -/
def Rendering.assign (s : Rendering) (pending : List Pending) (chunkId text : Bytes) :
    Nat × List Pending :=
  match s.srcOf chunkId with
  | some n => (n, pending)
  | none =>
    match pending.find? fun p => p.chunkId = chunkId with
    | some p => (p.srcN, pending)
    | none => (s.nextSrc + pending.length, pending ++ [⟨s.nextSrc + pending.length, chunkId, text⟩])

/-- The labels of the ordinals 0 and 1, with what is then pending. -/
def Rendering.assignBoth (s : Rendering) (r : AllowedRelationship) : Nat × Nat × List Pending :=
  let (srcA, pending) := s.assign [] r.endpoint0.chunkId r.endpoint0.text
  let (srcB, pending) := s.assign pending r.endpoint1.chunkId r.endpoint1.text
  (srcA, srcB, pending)

/-- `chunk_src_index.emplace`, which keeps an entry that is there, and `source_chunk_ids.push_back`. -/
def Rendering.emplace (s : Rendering) (p : Pending) : Rendering :=
  { s with
    chunkSrcIndex := insertNew Prod.fst s.chunkSrcIndex [(p.chunkId, p.srcN)]
    sourceChunkIds := s.sourceChunkIds ++ [p.chunkId] }

section Build

variable (counter : TokenCounter) (opts : ContextBuilderOptions) (queryBlock : Bytes)

def inputTokenBudget : Nat := opts.maxContextTokens - opts.reservedOutputTokens

/-- Whether `additions` may be appended to the blocks; a failure of the counter is an error. -/
def fits (evidenceBlocks additions : Bytes) : Except Error Bool :=
  let candidateUser := evidenceBlocks ++ additions ++ queryBlock
  if promptBytes opts.systemPrompt candidateUser > opts.maxPromptBytes then .ok false
  else do
    let tokens ← counter opts.systemPrompt candidateUser
    return tokens ≤ inputTokenBudget opts

/-- The state when a chunk is accepted, before it is counted. -/
def visitChunk (s : Rendering) (c : AllowedChunk) : Except Error (Option Rendering) :=
  match s.srcOf c.chunkId with
  | some _ => .ok (some s)
  | none => do
    let block := formatChunkBlock s.nextSrc c.text
    if ← fits counter opts queryBlock s.evidenceBlocks block then
      return some { s.emplace ⟨s.nextSrc, c.chunkId, c.text⟩ with
        evidenceBlocks := s.evidenceBlocks ++ block
        nextSrc := s.nextSrc + 1 }
    else return none

/-- The state when a relationship is accepted, before it is counted. -/
def visitRelationship (s : Rendering) (r : AllowedRelationship) : Except Error (Option Rendering) := do
  let (srcA, srcB, pending) := s.assignBoth r
  let allBlocks := (pending.flatMap fun p => formatChunkBlock p.srcN p.text) ++
    formatRelationshipBlock s.nextRel r srcA srcB
  if ← fits counter opts queryBlock s.evidenceBlocks allBlocks then
    return some { pending.foldl Rendering.emplace s with
      evidenceBlocks := s.evidenceBlocks ++ allBlocks
      nextSrc := s.nextSrc + pending.length
      sourceEdgeIds := s.sourceEdgeIds ++ [r.edgeId]
      nextRel := s.nextRel + 1 }
  else return none

def visit (s : Rendering) : AllowedEvidence → Except Error (Option Rendering)
  | .chunk c => visitChunk counter opts queryBlock s c
  | .relationship r => visitRelationship counter opts queryBlock s r

/-- One pass of the loop; `none` is an item that is excluded. -/
def visitItem (s : Rendering) (ev : AllowedEvidence) : Except Error (Option Rendering) :=
  if (s.included : Int) ≥ opts.maxEvidenceItems then .ok none
  else do
    let accepted ← visit counter opts queryBlock s ev
    return accepted.map fun s' => { s' with included := s.included + 1 }

end Build

/-- `std::format("Question: ...\n\nAnswer:", query)`. -/
def queryBlock (query : Bytes) : Bytes := utf8 "Question: " ++ query ++ utf8 "\n\nAnswer:"

/-- `ContextBuilder::build`; `companyId` is the tenant of the request. -/
def build (counter : TokenCounter) (companyId query : Bytes) (evidence : List AllowedEvidence)
    (opts : ContextBuilderOptions) : Except Error PromptContext := do
  checkOptions opts
  checkEvidence companyId evidence
  let mandatoryTokens ← counter opts.systemPrompt (queryBlock query)
  rejectIf (mandatoryTokens > inputTokenBudget opts)
    (.invalidInput "context_builder: system prompt and query exceed input token budget")
  rejectIf (promptBytes opts.systemPrompt (queryBlock query) > opts.maxPromptBytes)
    (.invalidInput "context_builder: system prompt and query exceed byte budget")
  let s ← select (visitItem counter opts (queryBlock query)) {} evidence
  let userMessage := s.evidenceBlocks ++ queryBlock query
  let finalTokens ← counter opts.systemPrompt userMessage
  return {
    systemMessage := opts.systemPrompt
    userMessage
    sourceChunkIds := s.sourceChunkIds
    sourceEdgeIds := s.sourceEdgeIds
    evidenceIncluded := s.included
    promptTokens := finalTokens
    promptBytes := promptBytes opts.systemPrompt userMessage }

/-! ### What a pass that accepts an item does -/

section Steps

variable {counter : TokenCounter} {opts : ContextBuilderOptions} {q : Bytes} {s s' : Rendering}

/-- The prompt keeps both budgets. -/
def Within (counter : TokenCounter) (opts : ContextBuilderOptions) (userMessage : Bytes) : Prop :=
  promptBytes opts.systemPrompt userMessage ≤ opts.maxPromptBytes ∧
    ∃ tokens ≤ inputTokenBudget opts, counter opts.systemPrompt userMessage = .ok tokens

theorem fits_ok {blocks additions : Bytes} (h : fits counter opts q blocks additions = .ok true) :
    Within counter opts (blocks ++ additions ++ q) := by
  rw [fits] at h
  split at h
  next => cases h
  next hbytes =>
    obtain ⟨tokens, hcount, hle⟩ := bind_ok.mp h
    injection hle with hle
    exact ⟨Nat.le_of_not_lt hbytes, tokens, of_decide_eq_true hle, hcount⟩

/-- An accepted chunk is known, or its block fits. -/
theorem visitChunk_ok {c : AllowedChunk} (h : visitChunk counter opts q s c = .ok (some s')) :
    ((∃ n, s.srcOf c.chunkId = some n) ∧ s = s') ∨
      (s.srcOf c.chunkId = none ∧
        fits counter opts q s.evidenceBlocks (formatChunkBlock s.nextSrc c.text) = .ok true ∧
        { s.emplace ⟨s.nextSrc, c.chunkId, c.text⟩ with
          evidenceBlocks := s.evidenceBlocks ++ formatChunkBlock s.nextSrc c.text
          nextSrc := s.nextSrc + 1 } = s') := by
  rw [visitChunk] at h
  split at h
  next n hn =>
    cases h
    exact .inl ⟨⟨n, hn⟩, rfl⟩
  next hnone =>
    obtain ⟨fit, hfit, h⟩ := bind_ok.mp h
    cases fit with
    | true =>
      cases h
      exact .inr ⟨hnone, hfit, rfl⟩
    | false => cases h

theorem visitRelationship_ok {r : AllowedRelationship}
    (h : visitRelationship counter opts q s r = .ok (some s')) :
    let pending := (s.assignBoth r).2.2
    let allBlocks := (pending.flatMap fun p => formatChunkBlock p.srcN p.text) ++
      formatRelationshipBlock s.nextRel r (s.assignBoth r).1 (s.assignBoth r).2.1
    fits counter opts q s.evidenceBlocks allBlocks = .ok true ∧
      { pending.foldl Rendering.emplace s with
        evidenceBlocks := s.evidenceBlocks ++ allBlocks
        nextSrc := s.nextSrc + pending.length
        sourceEdgeIds := s.sourceEdgeIds ++ [r.edgeId]
        nextRel := s.nextRel + 1 } = s' := by
  obtain ⟨fit, hfit, h⟩ := bind_ok.mp h
  cases fit with
  | true =>
    cases h
    exact ⟨hfit, rfl⟩
  | false => cases h

theorem visitItem_ok {ev : AllowedEvidence} (h : visitItem counter opts q s ev = .ok (some s')) :
    (s.included : Int) < opts.maxEvidenceItems ∧
      ∃ s1, visit counter opts q s ev = .ok (some s1) ∧
        { s1 with included := s.included + 1 } = s' := by
  rw [visitItem] at h
  split at h
  next => cases h
  next hcap =>
    obtain ⟨accepted, hvisit, h⟩ := bind_ok.mp h
    cases accepted with
    | none => cases h
    | some s1 =>
      cases h
      exact ⟨Int.lt_of_not_ge hcap, s1, hvisit, rfl⟩

/-- The prompt of the blocks so far keeps both budgets. -/
theorem visitItem_within {ev : AllowedEvidence} (h : Within counter opts (s.evidenceBlocks ++ q))
    (hstep : visitItem counter opts q s ev = .ok (some s')) :
    Within counter opts (s'.evidenceBlocks ++ q) := by
  obtain ⟨-, s1, hvisit, rfl⟩ := visitItem_ok hstep
  cases ev with
  | chunk c =>
    obtain ⟨-, rfl⟩ | ⟨-, hfit, rfl⟩ := visitChunk_ok hvisit
    · exact h
    · exact fits_ok hfit
  | relationship r =>
    obtain ⟨hfit, rfl⟩ := visitRelationship_ok hvisit
    exact fits_ok hfit

/-- Below its largest value the saturated sum is the sum. -/
theorem promptBytes_eq {systemMessage userMessage : Bytes}
    (h : promptBytes systemMessage userMessage ≤ kContextBuilderMaxBytes) :
    promptBytes systemMessage userMessage = systemMessage.length + userMessage.length := by
  rw [promptBytes] at h ⊢
  split at h
  next =>
    have hlt : kContextBuilderMaxBytes < sizeMax := by decide
    omega
  next hno => rw [if_neg hno]

theorem checkEvidence_ok {companyId : Bytes} {evidence : List AllowedEvidence}
    (h : checkEvidence companyId evidence = .ok ()) :
    ∀ ev ∈ evidence, ev.companyId = companyId := by
  induction evidence with
  | nil => simp
  | cons ev evidence ih =>
    simp only [checkEvidence, rejectIf_bind_ok] at h
    obtain ⟨hcompany, -, h⟩ := h
    rw [List.forall_mem_cons]
    exact ⟨not_not.mp hcompany, ih h⟩

theorem checkOptions_ok (h : checkOptions opts = .ok ()) :
    opts.reservedOutputTokens < opts.maxContextTokens ∧
      opts.maxContextTokens ≤ kContextBuilderMaxTokens ∧
      opts.maxPromptBytes ≤ kContextBuilderMaxBytes ∧ 0 ≤ opts.maxEvidenceItems := by
  simp only [checkOptions, rejectIf_bind_ok, rejectIf_ok] at h
  omega

/-- What a build that succeeds has checked and computed. -/
theorem build_ok {companyId query : Bytes} {evidence : List AllowedEvidence} {out : PromptContext}
    (h : build counter companyId query evidence opts = .ok out) :
    checkOptions opts = .ok () ∧ checkEvidence companyId evidence = .ok () ∧
      Within counter opts (queryBlock query) ∧
      ∃ s, select (visitItem counter opts (queryBlock query)) {} evidence = .ok s ∧
        ∃ tokens, counter opts.systemPrompt (s.evidenceBlocks ++ queryBlock query) = .ok tokens ∧
          ⟨opts.systemPrompt, s.evidenceBlocks ++ queryBlock query, s.sourceChunkIds,
            s.sourceEdgeIds, s.included, tokens,
            promptBytes opts.systemPrompt (s.evidenceBlocks ++ queryBlock query)⟩ = out := by
  rw [build] at h
  obtain ⟨_, hopts, h⟩ := bind_ok.mp h
  obtain ⟨_, hevidence, h⟩ := bind_ok.mp h
  obtain ⟨mandatory, hmandatory, h⟩ := bind_ok.mp h
  simp only [rejectIf_bind_ok] at h
  obtain ⟨htokens, hbytes, h⟩ := h
  obtain ⟨s, hselect, h⟩ := bind_ok.mp h
  obtain ⟨tokens, hcount, h⟩ := bind_ok.mp h
  injection h with h
  exact ⟨hopts, hevidence, ⟨Nat.le_of_not_lt hbytes, mandatory, Nat.le_of_not_lt htokens,
    hmandatory⟩, s, hselect, tokens, hcount, h⟩

/-- The prompt that is built is the last one that was found to fit. -/
theorem within_of_build {companyId query : Bytes} {evidence : List AllowedEvidence}
    {out : PromptContext} (h : build counter companyId query evidence opts = .ok out) :
    Within counter opts out.userMessage := by
  obtain ⟨-, -, hquery, s, hselect, tokens, -, rfl⟩ := build_ok h
  exact select_preserves (P := fun s => Within counter opts (s.evidenceBlocks ++ queryBlock query))
    hquery (fun _ _ _ => visitItem_within) hselect

theorem promptBytes_of_build {companyId query : Bytes} {evidence : List AllowedEvidence}
    {out : PromptContext} (h : build counter companyId query evidence opts = .ok out) :
    out.promptBytes = out.systemMessage.length + out.userMessage.length ∧
      out.promptBytes ≤ opts.maxPromptBytes ∧ out.promptBytes ≤ kContextBuilderMaxBytes := by
  obtain ⟨hbytes, -⟩ := within_of_build h
  obtain ⟨hopts, -, -, s, -, tokens, -, rfl⟩ := build_ok h
  have hsmall := Nat.le_trans hbytes (checkOptions_ok hopts).2.2.1
  exact ⟨promptBytes_eq hsmall, hbytes, hsmall⟩

end Steps

/-- For every token counter, tenant, query, evidence and options: a prompt that is built keeps the
token budget and the byte budget, its byte count is the true sum of the two lengths, and all the
evidence is of the tenant; evidence of another tenant anywhere in the list is an error. -/
theorem build_within_budgets (counter : TokenCounter) (companyId query : Bytes)
    (evidence : List AllowedEvidence) (opts : ContextBuilderOptions) :
    (∀ out, build counter companyId query evidence opts = .ok out →
      opts.reservedOutputTokens ≤ opts.maxContextTokens ∧
      out.promptTokens ≤ opts.maxContextTokens - opts.reservedOutputTokens ∧
      out.promptBytes = out.systemMessage.length + out.userMessage.length ∧
      out.promptBytes ≤ opts.maxPromptBytes ∧ out.promptBytes ≤ sizeMax ∧
      ∀ ev ∈ evidence, ev.companyId = companyId) ∧
    ((∃ ev ∈ evidence, ev.companyId ≠ companyId) →
      ∃ e, build counter companyId query evidence opts = .error e) := by
  constructor
  · intro out h
    obtain ⟨hsum, hmax, hsmall⟩ := promptBytes_of_build h
    obtain ⟨-, tokens', hle, hcount'⟩ := within_of_build h
    obtain ⟨hopts, hevidence, -, s, -, tokens, hcount, rfl⟩ := build_ok h
    -- The counter is a function: it counts the prompt as it did when the last item was accepted.
    obtain rfl : tokens = tokens' := Except.ok.inj (hcount.symm.trans hcount')
    have hfit : kContextBuilderMaxBytes ≤ sizeMax := by decide
    exact ⟨Nat.le_of_lt (checkOptions_ok hopts).1, hle, hsum, hmax, Nat.le_trans hsmall hfit,
      checkEvidence_ok hevidence⟩
  · rintro ⟨ev, hev, hne⟩
    cases h : build counter companyId query evidence opts with
    | error e => exact ⟨e, rfl⟩
    | ok out =>
      obtain ⟨-, hevidence, -⟩ := build_ok h
      exact absurd (checkEvidence_ok hevidence ev hev) hne

/-- The chunk 1, an edge from the chunk 2 to it that has another text for it, an edge to a chunk 3
that is too long for the options below, and the chunk 2. -/
def handbookEvidence : List AllowedEvidence :=
  let edge := fun (id : String) (target : AllowedEndpoint) => AllowedEvidence.relationship
    { companyId := utf8 "acme"
      edgeId := utf8 id
      edgeType := utf8 "implements"
      direction := utf8 "directed"
      origin := utf8 "parser"
      confidence := 0x3FF0000000000000
      reviewState := utf8 "approved"
      endpoint0 := target
      endpoint1 := { role := utf8 "source", chunkId := utf8 "c2", text := utf8 "Ask HR." } }
  [.chunk ⟨utf8 "acme", utf8 "c1", utf8 "Leave is 25 days."⟩,
    edge "e1" { role := utf8 "target", chunkId := utf8 "c1", text := utf8 "Leave was 24 days." },
    edge "e2" { role := utf8 "target", chunkId := utf8 "c3", text := List.replicate 200 97 },
    .chunk ⟨utf8 "acme", utf8 "c2", utf8 "Ask."⟩]

def handbookOptions : ContextBuilderOptions :=
  { maxPromptBytes := 400, systemPrompt := utf8 "Cite." }

/-- The prompt of `handbookEvidence`. -/
def handbookPrompt : PromptContext where
  systemMessage := utf8 "Cite."
  userMessage := utf8 (
    "[SRC 1]\n<source>\nLeave is 25 days.\n</source>\n\n" ++
    "[SRC 2]\n<source>\nAsk HR.\n</source>\n\n" ++
    "[REL 1: implements, origin=parser, review_state=approved, confidence=1.00]\n" ++
    "Endpoint A [SRC 2]\nEndpoint B [SRC 1]\nDirection: [SRC 2] implements [SRC 1]\n\n" ++
    "Question: How long?\n\nAnswer:")
  sourceChunkIds := [utf8 "c1", utf8 "c2"]
  sourceEdgeIds := [utf8 "e1"]
  evidenceIncluded := 3
  promptTokens := 299
  promptBytes := 267

theorem build_handbookEvidence :
    build byteUpperBoundTokenCounter (utf8 "acme") (utf8 "How long?") handbookEvidence
      handbookOptions = .ok handbookPrompt := by
  decide +kernel

theorem handbook_prompt_within_budgets :
    handbookPrompt.promptTokens ≤ 8192 - 2048 ∧ handbookPrompt.promptBytes ≤ 400 ∧
      ∃ e, build byteUpperBoundTokenCounter (utf8 "other") (utf8 "How long?") handbookEvidence
        { handbookOptions with maxEvidenceItems := 0 } = .error e := by
  obtain ⟨-, htokens, -, hbytes, -⟩ := (build_within_budgets byteUpperBoundTokenCounter
    (utf8 "acme") (utf8 "How long?") handbookEvidence handbookOptions).1 handbookPrompt
    build_handbookEvidence
  refine ⟨htokens, hbytes, (build_within_budgets byteUpperBoundTokenCounter (utf8 "other")
    (utf8 "How long?") handbookEvidence { handbookOptions with maxEvidenceItems := 0 }).2 ?_⟩
  decide

end Wikore.ContextBuilder
