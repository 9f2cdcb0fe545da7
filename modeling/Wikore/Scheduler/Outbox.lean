import Wikore.Schema.Types
import Wikore.Lib.Transition
import Mathlib.Data.List.Nodup

/-! `outbox_events` and its consumers: the statements of `claim_batch`, `reap_stale_claims`,
`release_my_claims`, `mark_completed` and `mark_failed`, and any number of workers of one job type
that run them in any order. -/

namespace Wikore

inductive OutboxJob
  | upsertChunkPayload | resyncChunkAcl | upsertEdgeVector | deleteEdgePoints
deriving DecidableEq, Repr

/-- A row of `outbox_events`.  `embedModelId` is the model that the payload names, or the empty
text. `claims` and `failures` count what happened to the event; no statement reads them. -/
structure OutboxEvent where
  id : Uuid
  jobType : OutboxJob
  embedModelId : String
  claimedAt : Option Nat
  claimedBy : Option String
  completedAt : Option Nat
  attemptCount : Nat
  lastError : Option String
  nextAttemptAt : Nat
  claims : Nat
  failures : Nat
deriving DecidableEq, Repr

structure OutboxOptions where
  maxAttempts : Nat
  batchSize : Nat
  claimLease : Nat
deriving DecidableEq, Repr

/-- What tells the consumers apart: the job type, the model that the worker is bound to (the empty
text for any) and whether the reaper bounds the length of `last_error`. -/
structure OutboxConsumer where
  jobType : OutboxJob
  expectedEmbedModel : String
  boundsError : Bool
deriving DecidableEq, Repr

def outboxWorker (expectedEmbedModel : String) : OutboxConsumer :=
  ⟨.upsertChunkPayload, expectedEmbedModel, false⟩

def resyncWorker : OutboxConsumer := ⟨.resyncChunkAcl, "", true⟩

def embedEdgeWorker : OutboxConsumer := ⟨.upsertEdgeVector, "", true⟩

def edgeVectorCleanupWorker : OutboxConsumer := ⟨.deleteEdgePoints, "", true⟩

/-! ### Statements -/

namespace OutboxEvent

variable (c : OutboxConsumer) (opts : OutboxOptions) (now : Nat) (e : OutboxEvent)

/-- The predicate of `claim_batch`. -/
def Claimable : Prop :=
  e.jobType = c.jobType ∧ e.completedAt = none ∧ e.claimedAt = none ∧
    e.attemptCount < opts.maxAttempts ∧ e.nextAttemptAt ≤ now ∧
    (c.expectedEmbedModel = "" ∨ e.embedModelId = c.expectedEmbedModel)

instance : Decidable (e.Claimable c opts now) := inferInstanceAs (Decidable (_ ∧ _))

def claim (worker : String) : OutboxEvent :=
  { e with
    claimedAt := some now
    claimedBy := some worker
    attemptCount := e.attemptCount + 1
    claims := e.claims + 1 }

/-- The predicate of `reap_stale_claims`. -/
def StaleClaim : Prop :=
  e.jobType = c.jobType ∧ e.completedAt = none ∧ ∃ t ∈ e.claimedAt, t + opts.claimLease < now

instance : Decidable (e.StaleClaim c opts now) := inferInstanceAs (Decidable (_ ∧ _))

def reapNote : String :=
  e.lastError.getD "" ++ " [reaped: stale claim by " ++ e.claimedBy.getD "?" ++ "]"

def reap : OutboxEvent :=
  { e with
    claimedAt := none
    claimedBy := none
    attemptCount := e.attemptCount - 1
    lastError := some (if c.boundsError then String.ofList (e.reapNote.toList.take 4096)
      else e.reapNote) }

/-- The predicate of `release_my_claims`. -/
def ClaimedBy (worker : String) : Prop :=
  e.jobType = c.jobType ∧ e.completedAt = none ∧ e.claimedBy = some worker

instance (worker : String) : Decidable (e.ClaimedBy c worker) := inferInstanceAs (Decidable (_ ∧ _))

def release : OutboxEvent :=
  { e with claimedAt := none, claimedBy := none, attemptCount := e.attemptCount - 1 }

def markCompleted : OutboxEvent := { e with completedAt := some now, claimedAt := none }

/-- `LEAST(300, POWER(2, attempt_count)::int)` seconds from now. -/
def backoff : Nat := now + min 300 (2 ^ e.attemptCount) * 1000000

/-- The cast of the power to `int` raises from `2 ^ 31` on; then the row stays as it is. -/
def markFailed (reason : String) : OutboxEvent :=
  if e.attemptCount < 31 then
    { e with
      claimedAt := none
      claimedBy := none
      lastError := some reason
      nextAttemptAt := e.backoff now
      failures := e.failures + 1 }
  else e

/-- The event as it is inserted. -/
def Fresh : Prop :=
  e.claimedAt = none ∧ e.claimedBy = none ∧ e.completedAt = none ∧ e.attemptCount = 0 ∧
    e.claims = 0 ∧ e.failures = 0

instance : Decidable e.Fresh := inferInstanceAs (Decidable (_ ∧ _))

end OutboxEvent

/-! ### The system -/

/-- How a statement ends: done and reported, not done, or done although an error is reported. -/
inductive StatementReply
  | ok | failed | lost
deriving DecidableEq, Repr

/-- A worker processes an event that it claimed as the `claim`-th. -/
structure Flight where
  worker : String
  event : Uuid
  claim : Nat
deriving DecidableEq, Repr

structure OutboxWorld where
  events : List OutboxEvent
  flights : List Flight
  clock : Nat
deriving DecidableEq, Repr

/-- A mark names the flight that it ends. -/
inductive OutboxAction
  | tick (d : Nat)
  | insert (e : OutboxEvent)
  | claimBatch (worker : String) (ids : List Uuid) (reply : StatementReply)
  | reapStaleClaims (reply : StatementReply)
  | releaseMyClaims (worker : String) (reply : StatementReply)
  | crash (worker : String)
  | markCompleted (k : Nat) (reply : StatementReply)
  | markFailed (k : Nat) (reason : String) (reply : StatementReply)
deriving DecidableEq, Repr

namespace OutboxWorld

/-- `UPDATE outbox_events ... WHERE p`. -/
def update (w : OutboxWorld) (p : OutboxEvent → Bool) (f : OutboxEvent → OutboxEvent) : OutboxWorld :=
  { w with events := w.events.map fun e => if p e then f e else e }

/-- The statement takes effect unless it fails. -/
def execute (w : OutboxWorld) (reply : StatementReply) (p : OutboxEvent → Bool)
    (f : OutboxEvent → OutboxEvent) : OutboxWorld :=
  if reply = .failed then w else w.update p f

variable (c : OutboxConsumer) (opts : OutboxOptions) (w : OutboxWorld)

/-- `claim_batch` after its reaper: `ids` are the rows that the inner query locks, which skips those
that others have locked. -/
def claimBatch (worker : String) (ids : List Uuid) (reply : StatementReply) : OutboxWorld :=
  if ids.length ≤ opts.batchSize then
    let p := fun e : OutboxEvent => decide (e.id ∈ ids ∧ e.Claimable c opts w.clock)
    let w' := w.execute reply p (OutboxEvent.claim w.clock · worker)
    if reply = .ok then
      { w' with flights := w.flights ++ (w.events.filter p).map fun e =>
          ⟨worker, e.id, e.claims + 1⟩ }
    else w'
  else w

def reapStaleClaims (reply : StatementReply) : OutboxWorld :=
  w.execute reply (fun e => e.StaleClaim c opts w.clock) (OutboxEvent.reap c)

/-- The worker stops after it. -/
def releaseMyClaims (worker : String) (reply : StatementReply) : OutboxWorld :=
  { w.execute reply (fun e => e.ClaimedBy c worker) OutboxEvent.release with
    flights := w.flights.filter fun f => f.worker ≠ worker }

def crash (worker : String) : OutboxWorld :=
  { w with flights := w.flights.filter fun f => f.worker ≠ worker }

/-- The end of the flight `k`, with the statement that marks its event. -/
def mark (k : Nat) (reply : StatementReply) (f : OutboxEvent → OutboxEvent) : OutboxWorld :=
  match w.flights[k]? with
  | some flight =>
    { w.execute reply (fun e => e.id = flight.event) f with flights := w.flights.eraseIdx k }
  | none => w

def step : OutboxAction → OutboxWorld
  | .tick d => { w with clock := w.clock + d }
  | .insert e =>
    if e.Fresh ∧ e.id ∉ w.events.map OutboxEvent.id then { w with events := w.events ++ [e] } else w
  | .claimBatch worker ids reply => w.claimBatch c opts worker ids reply
  | .reapStaleClaims reply => w.reapStaleClaims c opts reply
  | .releaseMyClaims worker reply => w.releaseMyClaims c worker reply
  | .crash worker => w.crash worker
  | .markCompleted k reply => w.mark k reply (OutboxEvent.markCompleted w.clock)
  | .markFailed k reason reply => w.mark k reply (OutboxEvent.markFailed w.clock · reason)

def init (clock : Nat) : OutboxWorld := ⟨[], [], clock⟩

/-! ### What one step can do -/

/-- What an action makes of an event. -/
inductive EventStep : OutboxAction → OutboxEvent → OutboxEvent → Prop
  | same (a : OutboxAction) (e : OutboxEvent) : EventStep a e e
  | claimed {e : OutboxEvent} {worker : String} {ids : List Uuid} {reply : StatementReply}
      (h : e.Claimable c opts w.clock) :
      EventStep (.claimBatch worker ids reply) e (e.claim w.clock worker)
  | reaped {e : OutboxEvent} {reply : StatementReply} (h : e.StaleClaim c opts w.clock) :
      EventStep (.reapStaleClaims reply) e (e.reap c)
  | released {e : OutboxEvent} {worker : String} {reply : StatementReply}
      (h : e.ClaimedBy c worker) : EventStep (.releaseMyClaims worker reply) e e.release
  | completed {e : OutboxEvent} {k : Nat} {reply : StatementReply} {f : Flight}
      (hk : w.flights[k]? = some f) (hid : e.id = f.event) (hr : reply ≠ .failed) :
      EventStep (.markCompleted k reply) e (e.markCompleted w.clock)
  | failed {e : OutboxEvent} {k : Nat} {reason : String} {reply : StatementReply} {f : Flight}
      (hk : w.flights[k]? = some f) (hid : e.id = f.event) (hr : reply ≠ .failed) :
      EventStep (.markFailed k reason reply) e (e.markFailed w.clock reason)

variable {c opts w} {w' : OutboxWorld} {a : OutboxAction}

/-- The events of the next state: one for each that there was, and those inserted. -/
def EventsStep (c : OutboxConsumer) (opts : OutboxOptions) (w w' : OutboxWorld) (a : OutboxAction) :
    Prop :=
  ∀ i e', w'.events[i]? = some e' → (∃ e, w.events[i]? = some e ∧ EventStep c opts w a e e') ∨
    w.events.length ≤ i ∧ e'.Fresh ∧ e'.id ∉ w.events.map OutboxEvent.id

theorem EventsStep.of_eq (h : w'.events = w.events) : EventsStep c opts w w' a := by
  intro i e' hi
  rw [h] at hi
  exact .inl ⟨e', hi, .same a e'⟩

theorem EventsStep.execute {reply : StatementReply} {p : OutboxEvent → Bool}
    {f : OutboxEvent → OutboxEvent} (hw : w'.events = (w.execute reply p f).events)
    (h : ∀ e, p e = true → reply ≠ .failed → EventStep c opts w a e (f e)) :
    EventsStep c opts w w' a := by
  intro i e' hi
  rw [hw, OutboxWorld.execute] at hi
  split at hi
  next => exact .inl ⟨e', hi, .same a e'⟩
  next hr =>
    simp only [update, List.getElem?_map, Option.map_eq_some_iff] at hi
    obtain ⟨e, he, rfl⟩ := hi
    refine .inl ⟨e, he, ?_⟩
    split
    next hp => exact h e hp hr
    next => exact .same a e

theorem events_step (a : OutboxAction) : EventsStep c opts w (w.step c opts a) a := by
  cases a with
  | tick d => exact .of_eq rfl
  | insert e =>
    simp only [step]
    split
    next h =>
      intro i e' hi
      dsimp only at hi
      rw [List.getElem?_append] at hi
      split at hi
      next => exact .inl ⟨e', hi, .same _ e'⟩
      next hlen =>
        obtain rfl : e' = e := List.mem_singleton.mp (List.mem_of_getElem? hi)
        exact .inr ⟨Nat.le_of_not_lt hlen, h⟩
    next => exact .of_eq rfl
  | claimBatch worker ids reply =>
    simp only [step, claimBatch]
    split
    next =>
      split
      next => exact .execute rfl fun e he _ => .claimed (of_decide_eq_true he).2
      next => exact .execute rfl fun e he _ => .claimed (of_decide_eq_true he).2
    next => exact .of_eq rfl
  | reapStaleClaims reply =>
    exact .execute rfl fun e he _ => .reaped (of_decide_eq_true he)
  | releaseMyClaims worker reply =>
    exact .execute rfl fun e he _ => .released (of_decide_eq_true he)
  | crash worker => exact .of_eq rfl
  | markCompleted k reply =>
    simp only [step, mark]
    split
    next f hk => exact .execute rfl fun e he hr => .completed hk (of_decide_eq_true he) hr
    next => exact .of_eq rfl
  | markFailed k reason reply =>
    simp only [step, mark]
    split
    next f hk => exact .execute rfl fun e he hr => .failed hk (of_decide_eq_true he) hr
    next => exact .of_eq rfl

end OutboxWorld

end Wikore
