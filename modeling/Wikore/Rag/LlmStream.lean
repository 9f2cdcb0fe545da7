import Wikore.Lib.Json
import Wikore.Lib.Lines
import Wikore.Lib.Transition
import Wikore.Rag.Embedder

/-! `chat_stream` of the three LLM adapters: the loops over the lines of a server-sent event stream.
A stream that is cut off is never taken for a complete answer, and the chunks that were handed on
are the answer. -/

namespace Wikore

open ContextBuilder (Bytes utf8 Error)
open Lines

/-- What is handed to `on_chunk`. -/
structure ChatChunk where
  content : Bytes := []
  done : Bool := false
deriving DecidableEq, Repr

structure ChatResponse where
  content : Bytes
  inputTokens : Int
  outputTokens : Int
  model : Bytes
  providerId : Bytes
deriving DecidableEq, Repr

/-- The fields of `LlmProviderConfig` that end up in a response. -/
structure LlmProviderConfig where
  id : Bytes
  model : Bytes
deriving DecidableEq, Repr

structure HttpResponse where
  statusCode : Nat
  body : Bytes
deriving DecidableEq, Repr

structure OaiErrorDetail where
  message : Bytes := []
  type : Bytes := []
  code : Bytes := []
deriving DecidableEq, Repr

structure OaiStreamUsage where
  promptTokens : Int := 0
  completionTokens : Int := 0
deriving DecidableEq, Repr

/-- A chunk; of each choice only the content of the delta is read. -/
structure OaiStreamChunk where
  choices : List Bytes := []
  usage : Option OaiStreamUsage := none
  model : Bytes := []
  error : Option OaiErrorDetail := none
deriving DecidableEq, Repr

structure AnthropicDelta where
  type : Bytes := []
  text : Bytes := []
deriving DecidableEq, Repr

/-- An event; `messageInputTokens` is `message.usage.input_tokens`, and `outputTokens` is
`usage.output_tokens`. -/
structure AnthropicStreamEvent where
  delta : AnthropicDelta := {}
  messageInputTokens : Int := 0
  outputTokens : Int := 0
deriving DecidableEq, Repr

/-- `glz::read` into a chunk and into an event. -/
structure Glaze where
  chunk : Bytes → Option OaiStreamChunk
  event : Bytes → Option AnthropicStreamEvent

def malformedChunk : Error := .unavailable "llm: malformed SSE chunk in stream"

def upstreamError : Error := .unavailable "llm: upstream returned error in stream"

/-- The lines of a body: `\n` ends a line, and a `\r` before it is no part of the line. -/
def sseLines (raw : Bytes) : List Bytes := lines 13 10 raw

/-- The payload after `data:`, without one leading space. -/
def trimPayload (payload : Bytes) : Bytes :=
  match payload with
  | 32 :: rest => rest
  | _ => payload

/-- `parse_sse_line`: none for `[DONE]`, and otherwise what it leaves in `json_out`. -/
def parseSseLine (line : Bytes) : Option Bytes :=
  if utf8 "data:" <+: line then
    let payload := trimPayload (line.drop 5)
    if payload = utf8 "[DONE]" then none else some payload
  else some []

/-- The local variables of a loop, and the chunks handed on so far. -/
structure OaiStream where
  accumulated : Bytes := []
  inputTokens : Int := 0
  outputTokens : Int := 0
  modelEcho : Bytes := []
  streamCompleted : Bool := false
  chunks : List ChatChunk := []
deriving DecidableEq, Repr

def OaiStream.emit (s : OaiStream) (content : Bytes) : OaiStream :=
  { s with accumulated := s.accumulated ++ content, chunks := s.chunks ++ [{ content := content }] }

def OaiStream.count (s : OaiStream) (usage : Option OaiStreamUsage) : OaiStream :=
  match usage with
  | none => s
  | some u => { s with
      inputTokens := if u.promptTokens > 0 then u.promptTokens else s.inputTokens
      outputTokens := if u.completionTokens > 0 then u.completionTokens else s.outputTokens }

/-- What a chunk does that was read. -/
def OaiStream.delta (s : OaiStream) (chunk : OaiStreamChunk) : OaiStream :=
  match chunk.choices with
  | content :: _ => if content ≠ [] then s.emit content else s
  | [] => s

/-- What the three adapters do alike: they ask, they run their loop over the lines of the body, and
they hand on the last chunk when the loop has completed the stream. -/
structure StreamParser (σ : Type) where
  step : σ → Bytes → Outcome σ Error
  start : σ
  chunks : σ → List ChatChunk
  completed : σ → Bool
  response : σ → ChatResponse
  upstream : String
  missing : String

/-- What the client answers, before the body is read: `built` is the request's body or why it has
none, and an error of `send` is an exception. -/
def received (built : Except String Bytes) (send : Bytes → Except String HttpResponse)
    (upstream : String) : Except Error Bytes :=
  match built with
  | .error err => .error (.invalidInput err)
  | .ok body =>
    match send body with
    | .error what => .error (.unavailable (upstream ++ what))
    | .ok resp =>
      if resp.statusCode ≠ 200 then .error (.unavailable ("llm: HTTP " ++ toString resp.statusCode))
      else .ok resp.body

/-- The chunks that are handed on, and the result. -/
def StreamParser.chatStream {σ : Type} (p : StreamParser σ) (built : Except String Bytes)
    (send : Bytes → Except String HttpResponse) : List ChatChunk × Except Error ChatResponse :=
  match received built send p.upstream with
  | .error e => ([], .error e)
  | .ok raw =>
    match loop p.step p.start (sseLines raw) with
    | (.error e, s) => (p.chunks s, .error e)
    | (.ok _, s) =>
      if p.completed s = false then (p.chunks s, .error (.unavailable p.missing))
      else (p.chunks s ++ [{ done := true }], .ok (p.response s))

section Adapters

variable (glaze : Glaze) (cfg : LlmProviderConfig)

namespace OpenAiCompatibleAdapter

def step (s : OaiStream) (line : Bytes) : Outcome OaiStream Error :=
  if line = [] then .next s
  else
    match parseSseLine line with
    | none => .done { s with streamCompleted := true }
    | some [] => .next s
    | some (c :: jsonPayload) =>
      match glaze.chunk (c :: jsonPayload) with
      | none => .fail malformedChunk s
      | some chunk =>
        if chunk.error ≠ none then .fail upstreamError s
        else
          let s := (s.delta chunk).count chunk.usage
          .next (if chunk.model ≠ [] ∧ s.modelEcho = [] then { s with modelEcho := chunk.model }
            else s)

/-- `chat_stream` after its request is built. -/
def parser : StreamParser OaiStream where
  step := step glaze
  start := {}
  chunks := OaiStream.chunks
  completed := OaiStream.streamCompleted
  response s := {
    content := s.accumulated
    inputTokens := s.inputTokens
    outputTokens := s.outputTokens
    model := if s.modelEcho = [] then cfg.model else s.modelEcho
    providerId := cfg.id }
  upstream := "llm: upstream error: "
  missing := "llm: incomplete stream (no [DONE] received)"

end OpenAiCompatibleAdapter

namespace AzureOpenAiAdapter

def step (s : OaiStream) (line : Bytes) : Outcome OaiStream Error :=
  if line = [] then .next s
  else
    match parseSseLine line with
    | none => .done { s with streamCompleted := true }
    | some [] => .next s
    | some (c :: jsonPayload) =>
      match glaze.chunk (c :: jsonPayload) with
      | none => .fail malformedChunk s
      | some chunk =>
        if chunk.error ≠ none then .fail upstreamError s
        else .next ((s.delta chunk).count chunk.usage)

def parser : StreamParser OaiStream where
  step := step glaze
  start := {}
  chunks := OaiStream.chunks
  completed := OaiStream.streamCompleted
  response s := {
    content := s.accumulated
    inputTokens := s.inputTokens
    outputTokens := s.outputTokens
    model := cfg.model
    providerId := cfg.id }
  upstream := "llm: azure upstream error: "
  missing := "llm: incomplete stream (no [DONE] received)"

end AzureOpenAiAdapter

namespace AnthropicAdapter

structure Stream where
  accumulated : Bytes := []
  inputTokens : Int := 0
  outputTokens : Int := 0
  messageStopReceived : Bool := false
  currentEvent : Bytes := []
  chunks : List ChatChunk := []
deriving DecidableEq, Repr

def Stream.emit (s : Stream) (content : Bytes) : Stream :=
  { s with accumulated := s.accumulated ++ content, chunks := s.chunks ++ [{ content := content }] }

/-- What an event does that was read. -/
def Stream.handle (s : Stream) (ev : AnthropicStreamEvent) : Stream :=
  if s.currentEvent = utf8 "message_stop" then { s with messageStopReceived := true }
  else if s.currentEvent = utf8 "content_block_delta" ∧ ev.delta.type = utf8 "text_delta" ∧
      ev.delta.text ≠ [] then s.emit ev.delta.text
  else if s.currentEvent = utf8 "message_start" then
    { s with inputTokens := ev.messageInputTokens }
  else if s.currentEvent = utf8 "message_delta" then { s with outputTokens := ev.outputTokens }
  else s

def step (s : Stream) (line : Bytes) : Outcome Stream Error :=
  if utf8 "event:" <+: line then .next { s with currentEvent := trimPayload (line.drop 6) }
  else if utf8 "data:" <+: line then
    let payload := trimPayload (line.drop 5)
    if payload = utf8 "[DONE]" then .done s
    else if s.currentEvent = utf8 "error" then .fail upstreamError s
    else
      match glaze.event payload with
      | none => .fail malformedChunk s
      | some ev => .next (s.handle ev)
  else if line = [] then .next { s with currentEvent := [] }
  else .next s

def parser : StreamParser Stream where
  step := step glaze
  start := {}
  chunks := Stream.chunks
  completed := Stream.messageStopReceived
  response s := {
    content := s.accumulated
    inputTokens := s.inputTokens
    outputTokens := s.outputTokens
    model := cfg.model
    providerId := cfg.id }
  upstream := "llm: upstream error: "
  missing := "llm: incomplete stream (no message_stop received)"

end AnthropicAdapter

end Adapters

/-! ### What is handed on -/

/-- The chunks make up the content, and the last one and no other says that it is the last. -/
def Delivered (chunks : List ChatChunk) (content : Bytes) : Prop :=
  chunks.flatMap ChatChunk.content = content ∧
    ∃ before, chunks = before ++ [{ done := true }] ∧ ∀ c ∈ before, c.done = false

/-- The chunks so far make up the text so far, and none says that it is the last. -/
def Delivering (chunks : List ChatChunk) (accumulated : Bytes) : Prop :=
  chunks.flatMap ChatChunk.content = accumulated ∧ ∀ c ∈ chunks, c.done = false

theorem Delivering.emit {chunks : List ChatChunk} {accumulated : Bytes}
    (h : Delivering chunks accumulated) (content : Bytes) :
    Delivering (chunks ++ [{ content := content }]) (accumulated ++ content) := by
  refine ⟨by simp [h.1], fun c hc => ?_⟩
  rcases List.mem_append.mp hc with hc | hc
  · exact h.2 c hc
  · rw [List.mem_singleton.mp hc]

theorem Delivering.finish {chunks : List ChatChunk} {accumulated : Bytes}
    (h : Delivering chunks accumulated) :
    Delivered (chunks ++ [{ done := true }]) accumulated :=
  ⟨by simp [h.1], chunks, rfl, h.2⟩

section OaiSteps

variable {s : OaiStream}

theorem OaiStream.count_eq (s : OaiStream) (usage : Option OaiStreamUsage) :
    (s.count usage).accumulated = s.accumulated ∧ (s.count usage).chunks = s.chunks ∧
      (s.count usage).streamCompleted = s.streamCompleted := by
  cases usage <;> exact ⟨rfl, rfl, rfl⟩

theorem OaiStream.delta_eq (s : OaiStream) (chunk : OaiStreamChunk) :
    s.delta chunk = s ∨ ∃ content, s.delta chunk = s.emit content := by
  unfold OaiStream.delta
  split
  · split
    · exact .inr ⟨_, rfl⟩
    · exact .inl rfl
  · exact .inl rfl

theorem OaiStream.delivering_chunk (h : Delivering s.chunks s.accumulated)
    (chunk : OaiStreamChunk) (usage : Option OaiStreamUsage) :
    Delivering ((s.delta chunk).count usage).chunks ((s.delta chunk).count usage).accumulated := by
  obtain ⟨hacc, hchunks, -⟩ := (s.delta chunk).count_eq usage
  rw [hacc, hchunks]
  rcases s.delta_eq chunk with he | ⟨content, he⟩
  · rw [he]
    exact h
  · rw [he]
    exact Delivering.emit h content

theorem OaiStream.completed_chunk (s : OaiStream) (chunk : OaiStreamChunk)
    (usage : Option OaiStreamUsage) :
    ((s.delta chunk).count usage).streamCompleted = s.streamCompleted := by
  rw [((s.delta chunk).count_eq usage).2.2]
  rcases s.delta_eq chunk with he | ⟨content, he⟩
  · rw [he]
  · rw [he]
    rfl

/-- What a line may do to a stream: it hands on parts of the answer, and ends the loop at `[DONE]`
only. -/
structure OaiStep (s : OaiStream) (line : Bytes) (outcome : Outcome OaiStream Error) : Prop where
  next : ∀ s', outcome = .next s' → (Delivering s.chunks s.accumulated →
    Delivering s'.chunks s'.accumulated) ∧ s'.streamCompleted = s.streamCompleted
  done : ∀ s', outcome = .done s' →
    parseSseLine line = none ∧ s' = { s with streamCompleted := true }
  fail : ∀ e s', outcome = .fail e s' → s' = s

theorem OaiStep.skip (s : OaiStream) (line : Bytes) : OaiStep s line (.next s) where
  next := by
    rintro s' ⟨⟩
    exact ⟨id, rfl⟩
  done := by rintro s' ⟨⟩
  fail := by rintro e s' ⟨⟩

theorem OaiStep.failed (s : OaiStream) (line : Bytes) (e : Error) : OaiStep s line (.fail e s) where
  next := by rintro s' ⟨⟩
  done := by rintro s' ⟨⟩
  fail := by
    rintro e s' ⟨⟩
    rfl

theorem OaiStep.completed (s : OaiStream) {line : Bytes} (h : parseSseLine line = none) :
    OaiStep s line (.done { s with streamCompleted := true }) where
  next := by rintro s' ⟨⟩
  done := by
    rintro s' ⟨⟩
    exact ⟨h, rfl⟩
  fail := by rintro e s' ⟨⟩

theorem OaiStep.read {s s' : OaiStream} {line : Bytes}
    (h : Delivering s.chunks s.accumulated → Delivering s'.chunks s'.accumulated)
    (hcompleted : s'.streamCompleted = s.streamCompleted) : OaiStep s line (.next s') where
  next := by
    rintro t ⟨⟩
    exact ⟨h, hcompleted⟩
  done := by rintro t ⟨⟩
  fail := by rintro e t ⟨⟩

theorem OpenAiCompatibleAdapter.step_spec (glaze : Glaze) (s : OaiStream) (line : Bytes) :
    OaiStep s line (step glaze s line) := by
  unfold step
  split
  · exact OaiStep.skip s line
  split
  next hparse => exact OaiStep.completed s hparse
  next => exact OaiStep.skip s line
  split
  · exact OaiStep.failed s line _
  next chunk _ =>
    split
    · exact OaiStep.failed s line _
    · refine OaiStep.read (fun h => ?_) ?_
      · have hnext := OaiStream.delivering_chunk h chunk chunk.usage
        split
        · exact hnext
        · exact hnext
      · have hnext := s.completed_chunk chunk chunk.usage
        split
        · exact hnext
        · exact hnext

theorem AzureOpenAiAdapter.step_spec (glaze : Glaze) (s : OaiStream) (line : Bytes) :
    OaiStep s line (step glaze s line) := by
  unfold step
  split
  · exact OaiStep.skip s line
  split
  next hparse => exact OaiStep.completed s hparse
  next => exact OaiStep.skip s line
  split
  · exact OaiStep.failed s line _
  next chunk _ =>
    split
    · exact OaiStep.failed s line _
    · exact OaiStep.read (fun h => OaiStream.delivering_chunk h chunk chunk.usage)
        (s.completed_chunk chunk chunk.usage)

/-- A loop hands on the parts of the text that it accumulates. -/
theorem OaiStep.loop_delivering {step : OaiStream → Bytes → Outcome OaiStream Error}
    (hstep : ∀ s line, OaiStep s line (step s line)) (ls : List Bytes) :
    Delivering (loop step {} ls).2.chunks (loop step {} ls).2.accumulated := by
  refine loop_invariant (P := fun s : OaiStream => Delivering s.chunks s.accumulated) ⟨rfl, by simp⟩ ?_ ?_ ?_
  · intro s line _ s' h he
    exact ((hstep s line).next s' he).1 h
  · intro s line _ s' h he
    rw [((hstep s line).done s' he).2]
    exact h
  · intro s line _ e s' h he
    rw [(hstep s line).fail e s' he]
    exact h

/-- Without a line for `[DONE]` the stream is not completed. -/
theorem OaiStep.loop_incomplete {step : OaiStream → Bytes → Outcome OaiStream Error}
    (hstep : ∀ s line, OaiStep s line (step s line)) {ls : List Bytes}
    (hls : ∀ line ∈ ls, parseSseLine line ≠ none) :
    (loop step {} ls).2.streamCompleted = false := by
  refine loop_invariant (P := fun s : OaiStream => s.streamCompleted = false) rfl ?_ ?_ ?_
  · intro s line _ s' h he
    exact ((hstep s line).next s' he).2.trans h
  · intro s line hline s' _ he
    exact absurd ((hstep s line).done s' he).1 (hls line hline)
  · intro s line _ e s' h he
    rw [(hstep s line).fail e s' he]
    exact h

end OaiSteps

namespace AnthropicAdapter

/-- `current_event` after a line. -/
def eventAfter (currentEvent : Bytes) (line : Bytes) : Bytes :=
  if utf8 "event:" <+: line then trimPayload (line.drop 6)
  else if utf8 "data:" <+: line then currentEvent
  else if line = [] then [] else currentEvent

/-- The line does not complete a `message_stop` event. -/
def Incomplete (glaze : Glaze) (currentEvent : Bytes) (line : Bytes) : Prop :=
  utf8 "data:" <+: line → currentEvent = utf8 "message_stop" →
    glaze.event (trimPayload (line.drop 5)) = none

section Steps

variable {glaze : Glaze} {s s' : Stream} {line : Bytes}

theorem Stream.handle_eq (s : Stream) (ev : AnthropicStreamEvent) :
    (s.handle ev).currentEvent = s.currentEvent ∧
      (s.currentEvent ≠ utf8 "message_stop" →
        (s.handle ev).messageStopReceived = s.messageStopReceived) ∧
      (Delivering s.chunks s.accumulated →
        Delivering (s.handle ev).chunks (s.handle ev).accumulated) := by
  unfold Stream.handle
  split
  next hstop => exact ⟨rfl, fun hne => absurd hstop hne, id⟩
  split
  · exact ⟨rfl, fun _ => rfl, fun h => h.emit ev.delta.text⟩
  split
  · exact ⟨rfl, fun _ => rfl, id⟩
  split
  · exact ⟨rfl, fun _ => rfl, id⟩
  · exact ⟨rfl, fun _ => rfl, id⟩

theorem step_next (h : step glaze s line = .next s') :
    s'.currentEvent = eventAfter s.currentEvent line ∧
      (Incomplete glaze s.currentEvent line → s'.messageStopReceived = s.messageStopReceived) ∧
      (Delivering s.chunks s.accumulated → Delivering s'.chunks s'.accumulated) := by
  unfold step at h
  unfold eventAfter
  split at h
  next hevent =>
    obtain rfl := Outcome.next.inj h
    rw [if_pos hevent]
    exact ⟨rfl, fun _ => rfl, id⟩
  next hevent =>
  rw [if_neg hevent]
  split at h
  next hdata =>
    rw [if_pos hdata]
    dsimp only at h
    split at h
    · cases h
    split at h
    · cases h
    split at h
    · cases h
    next ev hread =>
      obtain rfl := Outcome.next.inj h
      obtain ⟨hcurrent, hstop, hdelivering⟩ := s.handle_eq ev
      refine ⟨hcurrent, fun hincomplete => hstop fun hcur => ?_, hdelivering⟩
      rw [hincomplete hdata hcur] at hread
      cases hread
  next hdata =>
  rw [if_neg hdata]
  split at h
  next hempty =>
    obtain rfl := Outcome.next.inj h
    rw [if_pos hempty]
    exact ⟨rfl, fun _ => rfl, id⟩
  next hempty =>
    obtain rfl := Outcome.next.inj h
    rw [if_neg hempty]
    exact ⟨rfl, fun _ => rfl, id⟩

/-- A line that ends the loop leaves the stream as it is. -/
theorem step_end {e : Error} (h : step glaze s line = .done s' ∨ step glaze s line = .fail e s') :
    s' = s := by
  unfold step at h
  split at h
  · rcases h with h | h <;> cases h
  split at h
  · dsimp only at h
    split at h
    · rcases h with h | h
      · exact (Outcome.done.inj h).symm
      · cases h
    split at h
    · rcases h with h | h
      · cases h
      · exact (Outcome.fail.inj h).2.symm
    split at h
    · rcases h with h | h
      · cases h
      · exact (Outcome.fail.inj h).2.symm
    · rcases h with h | h <;> cases h
  split at h
  · rcases h with h | h <;> cases h
  · rcases h with h | h <;> cases h

theorem loop_delivering (glaze : Glaze) (ls : List Bytes) :
    Delivering (loop (step glaze) {} ls).2.chunks (loop (step glaze) {} ls).2.accumulated := by
  refine loop_invariant (P := fun s : Stream => Delivering s.chunks s.accumulated)
    ⟨rfl, by simp⟩ ?_ ?_ ?_
  · intro s line _ s' h he
    exact (step_next he).2.2 h
  · intro s line _ s' h he
    rw [step_end (e := upstreamError) (.inl he)]
    exact h
  · intro s line _ e s' h he
    rw [step_end (.inr he)]
    exact h

/-- Where no line completes a `message_stop` event, none was received. -/
theorem loop_incomplete {ls : List Bytes} (hs : s.messageStopReceived = false)
    (hls : Transition.Along eventAfter (Incomplete glaze) s.currentEvent ls) :
    (loop (step glaze) s ls).2.messageStopReceived = false := by
  induction ls generalizing s with
  | nil => exact hs
  | cons line ls ih =>
    unfold loop
    cases h : step glaze s line with
    | next s' =>
      obtain ⟨hevent, hstop, -⟩ := step_next h
      exact ih ((hstop hls.1).trans hs) (hevent ▸ hls.2)
    | done s' =>
      rw [step_end (e := upstreamError) (.inl h)]
      exact hs
    | fail e s' =>
      rw [step_end (.inr h)]
      exact hs

end Steps

end AnthropicAdapter

/-! ### The three adapters -/

inductive LlmAdapter
  | openAiCompatible
  | azureOpenAi
  | anthropic
deriving DecidableEq, Repr

/-- `chat_stream`. -/
def LlmAdapter.chatStream (adapter : LlmAdapter) (glaze : Glaze) (cfg : LlmProviderConfig)
    (built : Except String Bytes) (send : Bytes → Except String HttpResponse) :
    List ChatChunk × Except Error ChatResponse :=
  match adapter with
  | .openAiCompatible => (OpenAiCompatibleAdapter.parser glaze cfg).chatStream built send
  | .azureOpenAi => (AzureOpenAiAdapter.parser glaze cfg).chatStream built send
  | .anthropic => (AnthropicAdapter.parser glaze cfg).chatStream built send

section Results

variable {σ : Type} {p : StreamParser σ} {built : Except String Bytes}
  {send : Bytes → Except String HttpResponse} {r : ChatResponse}

/-- A result comes from a stream that the loop has completed. -/
theorem StreamParser.chatStream_ok (h : (p.chatStream built send).2 = .ok r) :
    ∃ raw, received built send p.upstream = .ok raw ∧
      p.completed (loop p.step p.start (sseLines raw)).2 = true ∧
      r = p.response (loop p.step p.start (sseLines raw)).2 ∧
      (p.chatStream built send).1 =
        p.chunks (loop p.step p.start (sseLines raw)).2 ++ [{ done := true }] := by
  unfold chatStream at h ⊢
  split at h
  · cases h
  next raw hraw =>
    refine ⟨raw, hraw, ?_⟩
    split at h
    · cases h
    next s hloop =>
      rw [hloop]
      split at h
      · cases h
      next hcompleted =>
        obtain rfl := Except.ok.inj h
        exact ⟨by simpa using hcompleted, rfl, by simp [hcompleted]⟩

/-- The answer of the client to a request that could be built. -/
theorem received_ok {req raw raw' : Bytes} {status : Nat} {upstream : String}
    (h : received (.ok req) (fun _ => .ok ⟨status, raw⟩) upstream = .ok raw') : raw' = raw := by
  unfold received at h
  dsimp only at h
  split at h
  · cases h
  · exact (Except.ok.inj h).symm

/-- A stream that the loop does not complete has no result. -/
theorem StreamParser.chatStream_incomplete {req raw : Bytes} {status : Nat}
    (h : p.completed (loop p.step p.start (sseLines raw)).2 = false) :
    ∃ e, (p.chatStream (.ok req) fun _ => .ok ⟨status, raw⟩).2 = .error e := by
  cases hresult : (p.chatStream (.ok req) fun _ => .ok ⟨status, raw⟩).2 with
  | error e => exact ⟨e, rfl⟩
  | ok r =>
    obtain ⟨raw', hraw, hcompleted, -⟩ := chatStream_ok hresult
    obtain rfl := received_ok hraw
    rw [h] at hcompleted
    cases hcompleted

/-- Bodies with the same lines have the same result. -/
theorem StreamParser.chatStream_congr {req raw raw' : Bytes} {status : Nat}
    (h : sseLines raw = sseLines raw') :
    p.chatStream (.ok req) (fun _ => .ok ⟨status, raw⟩) =
      p.chatStream (.ok req) fun _ => .ok ⟨status, raw'⟩ := by
  unfold chatStream received
  by_cases hstatus : status = 200
  · simp [hstatus, h]
  · simp [hstatus]

theorem LlmAdapter.delivered {adapter : LlmAdapter} {glaze : Glaze} {cfg : LlmProviderConfig}
    (h : (adapter.chatStream glaze cfg built send).2 = .ok r) :
    Delivered (adapter.chatStream glaze cfg built send).1 r.content := by
  cases adapter with
  | openAiCompatible =>
    obtain ⟨raw, -, -, rfl, hchunks⟩ := StreamParser.chatStream_ok h
    have hstream := OaiStep.loop_delivering (OpenAiCompatibleAdapter.step_spec glaze) (sseLines raw)
    exact hchunks.symm ▸ hstream.finish
  | azureOpenAi =>
    obtain ⟨raw, -, -, rfl, hchunks⟩ := StreamParser.chatStream_ok h
    have hstream := OaiStep.loop_delivering (AzureOpenAiAdapter.step_spec glaze) (sseLines raw)
    exact hchunks.symm ▸ hstream.finish
  | anthropic =>
    obtain ⟨raw, -, -, rfl, hchunks⟩ := StreamParser.chatStream_ok h
    have hstream := AnthropicAdapter.loop_delivering glaze (sseLines raw)
    exact hchunks.symm ▸ hstream.finish

end Results

/-! ### Well-formed bodies -/

/-- The text of a JSON object, without space around it. -/
structure IsObject (text : Bytes) : Prop where
  value : ∃ ms, Json.ofBytes text = some (.object ms)
  begins : text.head? = some 123
  ends : text.getLast? = some 125

/-- What is assumed of `glz::read`: it rejects the empty text and every object that is cut off. -/
structure Glaze.RejectsCut (glaze : Glaze) : Prop where
  chunk_nil : glaze.chunk [] = none
  event_nil : glaze.event [] = none
  chunk_cut : ∀ obj, IsObject obj → ∀ p, p <+: obj → p.length < obj.length → glaze.chunk p = none
  event_cut : ∀ obj, IsObject obj → ∀ p, p <+: obj → p.length < obj.length → glaze.event p = none

/-- A field of an event, with or without a space before its value. -/
def field (key : String) (space : Bool) (value : Bytes) : Bytes :=
  utf8 key ++ ((if space then [32] else []) ++ value)

/-- A body: the lines before the one that completes the stream, that line, and those after it. -/
structure SseBody where
  before : List Bytes
  final : Bytes
  after : List Bytes := []
deriving DecidableEq, Repr

def SseBody.text (body : SseBody) (eol : Bytes) : Bytes :=
  joined eol (body.before ++ body.final :: body.after)

/-- The body up to the end of the payload that completes it. -/
def SseBody.upToFinal (body : SseBody) (eol : Bytes) : Bytes := joined eol body.before ++ body.final

/-- A line of a chunk, or a line that is no data. -/
def IsChunkLine (line : Bytes) : Prop :=
  ¬utf8 "data:" <+: line ∨ ∃ space obj, IsObject obj ∧ line = field "data:" space obj

/-- An event of Anthropic, with the comments and empty lines before it. -/
structure SseEvent where
  others : List Bytes := []
  nameSpace : Bool := true
  name : Bytes
  payloadSpace : Bool := true
  payload : Bytes
deriving DecidableEq, Repr

namespace SseEvent

variable (e : SseEvent)

def eventLine : Bytes := field "event:" e.nameSpace e.name

def dataLine : Bytes := field "data:" e.payloadSpace e.payload

def lines : List Bytes := e.others ++ [e.eventLine, e.dataLine, []]

structure WellFormed : Prop where
  others : ∀ line ∈ e.others, ¬utf8 "event:" <+: line ∧ ¬utf8 "data:" <+: line
  name : e.name.head? ≠ some 32
  payload : IsObject e.payload

end SseEvent

/-- The lines of a body as the provider of the adapter sends them. -/
def LlmAdapter.Sends (adapter : LlmAdapter) (body : SseBody) : Prop :=
  match adapter with
  | .anthropic => ∃ (events : List SseEvent) (stop : SseEvent),
      (∀ e ∈ events, e.WellFormed ∧ e.name ≠ utf8 "message_stop") ∧ stop.WellFormed ∧
        stop.name = utf8 "message_stop" ∧
        body.before = events.flatMap SseEvent.lines ++ (stop.others ++ [stop.eventLine]) ∧
        body.final = stop.dataLine
  | _ => (∀ line ∈ body.before, IsChunkLine line) ∧
      ∃ space, body.final = field "data:" space (utf8 "[DONE]")

/-- A well-formed body: no line has a part of a line end in it. -/
def LlmAdapter.WellFormed (adapter : LlmAdapter) (body : SseBody) : Prop :=
  adapter.Sends body ∧ ∀ line ∈ body.before ++ body.final :: body.after, Clean 13 10 line

/-! ### Streams that are cut off -/

theorem prefix_field (key : String) (space : Bool) (value : Bytes) :
    utf8 key <+: field key space value := List.prefix_append _ _

theorem drop_field (key : String) (space : Bool) (value : Bytes) :
    (field key space value).drop (utf8 key).length = (if space then [32] else []) ++ value :=
  List.drop_left

theorem trimPayload_of_head {value : Bytes} (h : value.head? ≠ some 32) :
    trimPayload value = value := by
  unfold trimPayload
  split
  · exact absurd rfl h
  · rfl

theorem trimPayload_field {value : Bytes} (h : value.head? ≠ some 32) (key : String)
    (space : Bool) : trimPayload ((field key space value).drop (utf8 key).length) = value := by
  rw [drop_field]
  cases space with
  | true => rfl
  | false => exact trimPayload_of_head h

/-- The payload of a data line that is cut off is a beginning of the payload. -/
theorem payload_of_cut {l value : Bytes} {space : Bool} (h : value.head? ≠ some 32)
    (hl : l <+: field "data:" space value) :
    trimPayload (l.drop 5) <+: value ∧ (l.length < (field "data:" space value).length →
      utf8 "data:" <+: l → trimPayload (l.drop 5) = [] ∨
        (trimPayload (l.drop 5)).length < value.length) := by
  have hdrop : l.drop 5 <+: (if space then [32] else []) ++ value := by
    have hdrop := hl.drop 5
    rwa [show 5 = (utf8 "data:").length from rfl, drop_field] at hdrop
  have hlength : utf8 "data:" <+: l → l.length = 5 + (l.drop 5).length := by
    intro hdata
    have hle : 5 ≤ l.length := hdata.length_le
    rw [List.length_drop]
    omega
  have hfield : (field "data:" space value).length =
      5 + ((if space then [32] else []) ++ value).length := by
    rw [field, List.length_append]
    rfl
  rw [hfield]
  generalize l.drop 5 = x at hdrop hlength
  cases space with
  | true =>
    cases x with
    | nil => exact ⟨List.nil_prefix, fun _ _ => .inl rfl⟩
    | cons c y =>
      obtain ⟨rfl, hy⟩ : c = 32 ∧ y <+: value := List.cons_prefix_cons.mp hdrop
      refine ⟨hy, fun hlt hdata => .inr ?_⟩
      have hlen := hlength hdata
      simp only [if_true, List.length_append, List.length_cons, List.length_nil] at hlt hlen
      show y.length < value.length
      omega
  | false =>
    have hx : x <+: value := hdrop
    have hhead : x.head? ≠ some 32 := by
      intro hsome
      cases x with
      | nil => cases hsome
      | cons c y =>
        obtain ⟨t, rfl⟩ := hx
        exact h hsome
    rw [trimPayload_of_head hhead]
    refine ⟨hx, fun hlt hdata => .inr ?_⟩
    have hlen := hlength hdata
    simp only [Bool.false_eq_true, if_false, List.nil_append] at hlt
    omega

theorem IsObject.head_ne {obj : Bytes} (h : IsObject obj) : obj.head? ≠ some 32 := by
  rw [h.begins]
  decide

/-- No beginning of an object is `[DONE]`. -/
theorem IsObject.not_done {obj : Bytes} (h : IsObject obj) : ¬utf8 "[DONE]" <+: obj := by
  rintro ⟨t, rfl⟩
  have hfirst : (91 : UInt8) = 123 := Option.some.inj h.begins
  exact absurd hfirst (by decide)

theorem parseSseLine_eq_none {line : Bytes} (h : parseSseLine line = none) :
    utf8 "data:" <+: line ∧ trimPayload (line.drop 5) = utf8 "[DONE]" := by
  unfold parseSseLine at h
  split at h
  next hdata =>
    dsimp only at h
    split at h
    next hdone => exact ⟨hdata, hdone⟩
    · cases h
  · cases h

/-- A beginning of a chunk's line is no `[DONE]`. -/
theorem parseSseLine_of_chunk {l line : Bytes} (hline : IsChunkLine line) (hl : l <+: line) :
    parseSseLine l ≠ none := by
  intro hnone
  obtain ⟨hdata, hdone⟩ := parseSseLine_eq_none hnone
  rcases hline with hother | ⟨space, obj, hobj, rfl⟩
  · exact hother (hdata.trans hl)
  · have hpre := (payload_of_cut hobj.head_ne hl).1
    rw [hdone] at hpre
    exact hobj.not_done hpre

/-- `[DONE]` that is cut off is no `[DONE]`. -/
theorem parseSseLine_of_cut {l : Bytes} {space : Bool}
    (hl : l <+: field "data:" space (utf8 "[DONE]"))
    (hlt : l.length < (field "data:" space (utf8 "[DONE]")).length) : parseSseLine l ≠ none := by
  intro hnone
  obtain ⟨hdata, hdone⟩ := parseSseLine_eq_none hnone
  have hhead : (utf8 "[DONE]").head? ≠ some 32 := by decide
  rcases (payload_of_cut hhead hl).2 hlt hdata with hnil | hshort
  · rw [hdone] at hnil
    cases hnil
  · rw [hdone] at hshort
    omega

/-- A chat completions stream that is cut off has no line for `[DONE]`. -/
theorem no_done_of_cut {body : SseBody} {eol p : Bytes} (heol : IsEol 13 10 eol)
    (hchunks : ∀ line ∈ body.before, IsChunkLine line)
    (hfinal : ∃ space, body.final = field "data:" space (utf8 "[DONE]"))
    (hclean : ∀ line ∈ body.before ++ body.final :: body.after, Clean 13 10 line)
    (hp : p <+: body.upToFinal eol) (hlt : p.length < (body.upToFinal eol).length) :
    ∀ line ∈ sseLines p, parseSseLine line ≠ none := by
  obtain ⟨space, hfinal⟩ := hfinal
  obtain ⟨whole, others, tail, hsplit, hlines, htail⟩ := lines_of_cut (by decide) heol
    (fun l hl => hclean l (List.mem_append_left _ hl)) (hclean body.final (by simp)) hp hlt
  intro line hline
  rw [sseLines, hlines] at hline
  rcases List.mem_append.mp hline with hmem | hmem
  · have hmem : line ∈ body.before := hsplit ▸ List.mem_append_left _ hmem
    exact parseSseLine_of_chunk (hchunks line hmem) (List.prefix_refl line)
  · rcases htail with rfl | ⟨l, rfl, ⟨next, after, rfl, hl⟩ | ⟨-, hl, hshort⟩⟩
    · cases hmem
    · rw [List.mem_singleton.mp hmem]
      refine parseSseLine_of_chunk (hchunks next ?_) hl
      rw [hsplit]
      simp
    · rw [List.mem_singleton.mp hmem]
      rw [hfinal] at hl hshort
      exact parseSseLine_of_cut hl hshort

namespace AnthropicAdapter

open Transition (Along along_append run)

/-- No data line stands under `message_stop`. -/
abbrev NoStop (currentEvent : Bytes) (line : Bytes) : Prop :=
  utf8 "data:" <+: line → currentEvent ≠ utf8 "message_stop"

theorem not_data_of_event {line : Bytes} (h : utf8 "event:" <+: line) : ¬utf8 "data:" <+: line := by
  rintro ⟨t, rfl⟩
  have hfirst : (101 : UInt8) = 100 := (List.cons_prefix_cons.mp h).1
  exact absurd hfirst (by decide)

theorem along_noStop_of_not_data {ls : List Bytes} (h : ∀ line ∈ ls, ¬utf8 "data:" <+: line)
    (currentEvent : Bytes) : Along eventAfter NoStop currentEvent ls := by
  induction ls generalizing currentEvent with
  | nil => exact trivial
  | cons line ls ih =>
    exact ⟨fun hdata => absurd hdata (h line List.mem_cons_self),
      ih (fun l hl => h l (List.mem_cons_of_mem line hl)) _⟩

/-- The lines of an event of another kind. -/
theorem along_noStop_event {e : SseEvent} (h : e.WellFormed) (hname : e.name ≠ utf8 "message_stop")
    (currentEvent : Bytes) : Along eventAfter NoStop currentEvent e.lines := by
  refine (along_append _).mpr ⟨along_noStop_of_not_data (fun l hl => (h.others l hl).2) _, ?_⟩
  have hevent : utf8 "event:" <+: e.eventLine := prefix_field "event:" e.nameSpace e.name
  refine ⟨fun hdata => absurd hdata (not_data_of_event hevent), fun _ => ?_, fun hdata => ?_,
    trivial⟩
  · rw [eventAfter, if_pos hevent]
    rw [show trimPayload (e.eventLine.drop 6) = e.name from
      trimPayload_field h.name "event:" e.nameSpace]
    exact hname
  · exact absurd hdata (by decide)

theorem along_noStop_events {events : List SseEvent}
    (h : ∀ e ∈ events, e.WellFormed ∧ e.name ≠ utf8 "message_stop") (currentEvent : Bytes) :
    Along eventAfter NoStop currentEvent (events.flatMap SseEvent.lines) := by
  induction events generalizing currentEvent with
  | nil => exact trivial
  | cons e events ih =>
    rw [List.flatMap_cons]
    obtain ⟨he, hname⟩ := h e List.mem_cons_self
    exact (along_append _).mpr ⟨along_noStop_event he hname _,
      ih (fun e' he' => h e' (List.mem_cons_of_mem e he')) _⟩

/-- A stream that is cut off completes no `message_stop` event. -/
theorem along_incomplete_of_cut {glaze : Glaze} (hglaze : glaze.RejectsCut) {body : SseBody}
    {eol p : Bytes} (heol : IsEol 13 10 eol) (hsends : LlmAdapter.anthropic.Sends body)
    (hclean : ∀ line ∈ body.before ++ body.final :: body.after, Clean 13 10 line)
    (hp : p <+: body.upToFinal eol) (hlt : p.length < (body.upToFinal eol).length) :
    Along eventAfter (Incomplete glaze) [] (sseLines p) := by
  obtain ⟨events, stop, hevents, hstop, -, hbefore, hfinal⟩ := hsends
  have hquiet : Along eventAfter NoStop [] body.before := by
    rw [hbefore]
    refine (along_append _).mpr ⟨along_noStop_events hevents [], along_noStop_of_not_data ?_ _⟩
    intro line hline
    rcases List.mem_append.mp hline with hline | hline
    · exact (hstop.others line hline).2
    · rw [List.mem_singleton.mp hline]
      exact not_data_of_event (prefix_field "event:" stop.nameSpace stop.name)
  have hweaken : ∀ (ev line : Bytes), NoStop ev line → Incomplete glaze ev line :=
    fun ev line h hdata hev => absurd hev (h hdata)
  obtain ⟨whole, others, tail, hsplit, hlines, htail⟩ := lines_of_cut (by decide) heol
    (fun l hl => hclean l (List.mem_append_left _ hl)) (hclean body.final (by simp)) hp hlt
  rw [hsplit] at hquiet
  obtain ⟨hwhole, hothers⟩ := (along_append _).mp hquiet
  rw [sseLines, hlines]
  refine (along_append _).mpr ⟨Transition.along_of_invariant (P := fun _ => True) trivial hwhole
    (fun _ _ _ _ => trivial) fun ev line _ => hweaken ev line, ?_⟩
  rcases htail with rfl | ⟨l, rfl, ⟨line, after, rfl, hl⟩ | ⟨-, hl, hshort⟩⟩
  · exact trivial
  · exact ⟨fun hdata hev => absurd hev (hothers.1 (hdata.trans hl)), trivial⟩
  · refine ⟨fun hdata _ => ?_, trivial⟩
    rw [hfinal] at hl hshort
    have hpayload := payload_of_cut hstop.payload.head_ne hl
    rcases hpayload.2 hshort hdata with hnil | hless
    · rw [hnil]
      exact hglaze.event_nil
    · exact hglaze.event_cut stop.payload hstop.payload _ hpayload.1 hless

end AnthropicAdapter

/-! ### The claim on streams -/

theorem sseLines_text {body : SseBody} {eol : Bytes} (heol : IsEol 13 10 eol)
    (hclean : ∀ line ∈ body.before ++ body.final :: body.after, Clean 13 10 line) :
    sseLines (body.text eol) = body.before ++ body.final :: body.after := by
  have hlines := lines_joined (by decide) hclean heol []
  rw [List.append_nil] at hlines
  exact hlines.trans (List.append_nil _)

/-- A stream that is cut off before the payload that completes it has no result. -/
theorem LlmAdapter.cut_fails {adapter : LlmAdapter} {glaze : Glaze} {cfg : LlmProviderConfig}
    (hglaze : glaze.RejectsCut) {body : SseBody} (hbody : adapter.WellFormed body) {eol p : Bytes}
    (heol : IsEol 13 10 eol) (hp : p <+: body.upToFinal eol)
    (hlt : p.length < (body.upToFinal eol).length) (req : Bytes) (status : Nat) :
    ∃ e, (adapter.chatStream glaze cfg (.ok req) fun _ => .ok ⟨status, p⟩).2 = .error e := by
  obtain ⟨hsends, hclean⟩ := hbody
  cases adapter with
  | openAiCompatible =>
    have hlines := no_done_of_cut heol hsends.1 hsends.2 hclean hp hlt
    exact StreamParser.chatStream_incomplete
      (OaiStep.loop_incomplete (OpenAiCompatibleAdapter.step_spec glaze) hlines)
  | azureOpenAi =>
    have hlines := no_done_of_cut heol hsends.1 hsends.2 hclean hp hlt
    exact StreamParser.chatStream_incomplete
      (OaiStep.loop_incomplete (AzureOpenAiAdapter.step_spec glaze) hlines)
  | anthropic =>
    exact StreamParser.chatStream_incomplete (AnthropicAdapter.loop_incomplete rfl
      (AnthropicAdapter.along_incomplete_of_cut hglaze heol hsends hclean hp hlt))

theorem LlmAdapter.chatStream_congr {adapter : LlmAdapter} {glaze : Glaze}
    {cfg : LlmProviderConfig} {req raw raw' : Bytes} {status : Nat}
    (h : sseLines raw = sseLines raw') :
    adapter.chatStream glaze cfg (.ok req) (fun _ => .ok ⟨status, raw⟩) =
      adapter.chatStream glaze cfg (.ok req) fun _ => .ok ⟨status, raw'⟩ := by
  cases adapter with
  | openAiCompatible => exact StreamParser.chatStream_congr h
  | azureOpenAi => exact StreamParser.chatStream_congr h
  | anthropic => exact StreamParser.chatStream_congr h

/-- A well-formed stream that is cut off before the end of the payload that completes it has no
result, the line ends do not change the result, and of every result the chunks that were handed on
make up the content, with one last chunk that says so. -/
theorem truncated_streams_fail (adapter : LlmAdapter) (glaze : Glaze) (hglaze : glaze.RejectsCut)
    (cfg : LlmProviderConfig) (req : Bytes) (status : Nat) (body : SseBody)
    (hbody : adapter.WellFormed body) :
    (∀ eol, IsEol 13 10 eol → ∀ p, p <+: body.text eol →
      p.length < (body.upToFinal eol).length →
        ∃ e, (adapter.chatStream glaze cfg (.ok req) fun _ => .ok ⟨status, p⟩).2 = .error e) ∧
    adapter.chatStream glaze cfg (.ok req) (fun _ => .ok ⟨status, body.text [10]⟩) =
      adapter.chatStream glaze cfg (.ok req) (fun _ => .ok ⟨status, body.text [13, 10]⟩) ∧
    ∀ built send r, (adapter.chatStream glaze cfg built send).2 = .ok r →
      Delivered (adapter.chatStream glaze cfg built send).1 r.content := by
  refine ⟨fun eol heol p hp hlt => ?_, ?_, fun built send r h => LlmAdapter.delivered h⟩
  · have hhead : body.upToFinal eol <+: body.text eol := by
      rw [SseBody.upToFinal, SseBody.text, joined, joined, List.flatMap_append,
        List.flatMap_cons, List.append_assoc body.final, ← List.append_assoc]
      exact List.prefix_append _ _
    have hp := List.prefix_of_prefix_length_le hp hhead (Nat.le_of_lt hlt)
    exact LlmAdapter.cut_fails hglaze hbody heol hp hlt req status
  · apply LlmAdapter.chatStream_congr
    rw [sseLines_text (.inl rfl) hbody.2, sseLines_text (.inr rfl) hbody.2]

/-- No text that was written for an object is an object that is cut off. -/
theorem IsObject.not_cut {obj : Bytes} (h : IsObject obj) {esc : Char → List Char}
    {ms : List (String × Json)}
    (hreadable : Json.Readable esc (Json.strings (.object ms)) (Json.numbers (.object ms)))
    {t : Bytes} (hobj : obj = Utf8.encodeChars (Json.render esc (.object ms)) ++ t) : t = [] := by
  obtain ⟨members, hread⟩ := h.value
  obtain ⟨s, hdecode, hparse⟩ := Option.bind_eq_some_iff.mp hread
  have hencode := Utf8.encode_of_decode hdecode
  obtain ⟨rest, hrest⟩ := Utf8.prefix_of_encode (hencode.trans hobj)
  have hspace : Json.skipSpace rest = [] := by
    refine Json.parse_render_append hreadable (v := .object members) ?_
    rw [hrest, String.ofList_toList]
    exact hparse
  have hbytes : t = Utf8.encodeChars rest := by
    rw [Utf8.encode_eq, ← hrest, Utf8.encodeChars_append, hobj] at hencode
    exact (List.append_cancel_left hencode).symm
  rcases List.eq_nil_or_concat rest with rfl | ⟨before, c, rfl⟩
  · exact hbytes
  · -- the last character is a space, and the object ends in a brace
    have hc : Json.isSpace c = true := List.dropWhile_eq_nil_iff.mp hspace c (by simp)
    obtain ⟨b, hb, hne⟩ : ∃ b, String.utf8EncodeChar c = [b] ∧ b ≠ 125 := by
      simp only [Json.isSpace, Bool.or_eq_true, decide_eq_true_eq] at hc
      rcases hc with ((rfl | rfl) | rfl) | rfl
      · exact ⟨32, by decide, by decide⟩
      · exact ⟨9, by decide, by decide⟩
      · exact ⟨10, by decide, by decide⟩
      · exact ⟨13, by decide, by decide⟩
    have hlast : obj.getLast? = some b := by
      rw [hobj, hbytes, List.concat_eq_append, Utf8.encodeChars_append, ← List.append_assoc,
        Utf8.encodeChars_cons, hb]
      exact List.getLast?_concat
    exact absurd (Option.some.inj (hlast.symm.trans h.ends)) hne

/-- The objects of the stream below. -/
def helloObject : List (String × Json) := [("delta", .object [("type", .string "text_delta"),
  ("text", .string "Hello")])]

def objectText (ms : List (String × Json)) : Bytes :=
  Utf8.encodeChars (Json.render (fun c => [c]) (.object ms))

/-- A reader of `helloObject` and of the object without members. -/
def helloGlaze : Glaze where
  chunk _ := none
  event text :=
    if text = objectText helloObject then
      some { delta := { type := utf8 "text_delta", text := utf8 "Hello" } }
    else if text = objectText [] then some {}
    else none

theorem helloObjects_readable : ∀ ms ∈ [helloObject, []],
    Json.Readable (fun c => [c]) (Json.strings (.object ms)) (Json.numbers (.object ms)) := by
  have hchars : ∀ ms ∈ [helloObject, []], ∀ s ∈ Json.strings (.object ms), s.toList.all (fun c =>
      c ≠ '"' ∧ c ≠ '\\' ∧ ¬c.toNat < 0x20) = true := by
    decide
  have hnumbers : ∀ ms ∈ [helloObject, []], Json.numbers (.object ms) = [] := by
    decide
  intro ms hms
  refine ⟨fun s hs c hc => ?_, by simp [hnumbers ms hms]⟩
  obtain ⟨hquote, hback, hcontrol⟩ :=
    of_decide_eq_true (List.all_eq_true.mp (hchars ms hms s hs) c hc)
  exact Json.escapes_self rfl hquote hback hcontrol

theorem helloObjects_isObject : ∀ ms ∈ [helloObject, []], IsObject (objectText ms) := by
  have hends : ∀ ms ∈ [helloObject, []], (objectText ms).head? = some 123 ∧
      (objectText ms).getLast? = some 125 := by
    decide
  intro ms hms
  refine ⟨⟨ms, ?_⟩, (hends ms hms).1, (hends ms hms).2⟩
  rw [Json.ofBytes, objectText, Utf8.decode_encodeChars, Option.bind_some,
    Json.parse_render (helloObjects_readable ms hms)]

theorem helloGlaze_rejectsCut : helloGlaze.RejectsCut := by
  have hcut : ∀ ms ∈ [helloObject, []], ∀ obj, IsObject obj → ∀ p, p <+: obj →
      p.length < obj.length → p ≠ objectText ms := by
    rintro ms hms obj hobj p ⟨t, ht⟩ hlt rfl
    have hnil := hobj.not_cut (helloObjects_readable ms hms) ht.symm
    subst hnil
    rw [← ht] at hlt
    simp at hlt
  refine ⟨rfl, by decide, fun _ _ _ _ _ => rfl, fun obj hobj p hp hlt => ?_⟩
  have hhello := hcut helloObject (by simp) obj hobj p hp hlt
  have hempty := hcut [] (by simp) obj hobj p hp hlt
  show (if p = objectText helloObject then _ else if p = objectText [] then _ else none) = none
  rw [if_neg hhello, if_neg hempty]

def helloEvent : SseEvent :=
  { name := utf8 "content_block_delta", payload := objectText helloObject }

def helloStop : SseEvent := { name := utf8 "message_stop", payload := objectText [] }

def helloBody : SseBody where
  before := helloEvent.lines ++ [helloStop.eventLine]
  final := helloStop.dataLine
  after := [[]]

theorem helloBody_wellFormed : LlmAdapter.anthropic.WellFormed helloBody := by
  have hevent : helloEvent.WellFormed :=
    ⟨by simp [helloEvent], by decide, helloObjects_isObject helloObject (by simp)⟩
  have hstop : helloStop.WellFormed :=
    ⟨by simp [helloStop], by decide, helloObjects_isObject [] (by simp)⟩
  refine ⟨⟨[helloEvent], helloStop, ?_, hstop, rfl, rfl, rfl⟩, ?_⟩
  · intro e he
    rw [List.mem_singleton.mp he]
    exact ⟨hevent, by decide⟩
  · have hclean : ∀ line ∈ helloBody.before ++ helloBody.final :: helloBody.after,
        13 ∉ line ∧ 10 ∉ line := by
      decide
    exact hclean

def helloConfig : LlmProviderConfig := ⟨utf8 "p1", utf8 "claude"⟩

/-- The whole stream is an answer, with either line end; cut off anywhere before its end it is
none. -/
theorem hello_cut_fails :
    (LlmAdapter.anthropic.chatStream helloGlaze helloConfig (.ok [])
        fun _ => .ok ⟨200, helloBody.text [13, 10]⟩) =
      ([⟨utf8 "Hello", false⟩, ⟨[], true⟩], .ok ⟨utf8 "Hello", 0, 0, utf8 "claude", utf8 "p1"⟩) ∧
    ∀ p, p <+: helloBody.text [10] → p.length < (helloBody.upToFinal [10]).length →
      ∃ e, (LlmAdapter.anthropic.chatStream helloGlaze helloConfig (.ok [])
        fun _ => .ok ⟨200, p⟩).2 = .error e := by
  have h := truncated_streams_fail .anthropic helloGlaze helloGlaze_rejectsCut helloConfig [] 200
    helloBody helloBody_wellFormed
  refine ⟨?_, h.1 [10] (.inl rfl)⟩
  rw [← h.2.1]
  decide

end Wikore
