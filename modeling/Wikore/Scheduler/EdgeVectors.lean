import Wikore.Scheduler.Outbox
import Mathlib.Logic.Function.Basic

/-! The vectors of one knowledge edge: the statements of `KnowledgeEdgeRepo` with the triggers of
`knowledge_edges`, and any number of `EmbedEdgeWorker`s and `EdgeVectorCleanupWorker`s, each of
which takes the steps of its `process` one by one between the steps of the others. -/

namespace Wikore

/-- The row of `knowledge_edges`, as `load_live_edge` returns it. -/
structure LiveEdge where
  formulaVersion : Nat
  edgeVersion : Nat
deriving DecidableEq, Repr

/-- The payload of an event about the edge. -/
inductive EdgeJob
  | upsertEdgeVector (embeddingModelId : Uuid) (formulaVersion edgeVersion : Nat)
  | deleteEdgePoints (pointIds : List Uuid)
deriving DecidableEq, Repr

/-- What the `idempotency_key` of an upsert event is made of: the model and the edge version. -/
def EdgeJob.upsertKey : EdgeJob → Option (Uuid × Nat)
  | .upsertEdgeVector m _ v => some (m, v)
  | .deleteEdgePoints _ => none

structure EdgeEvent where
  job : EdgeJob
  claimed : Bool
  completed : Bool
deriving DecidableEq, Repr

/-- A row of `knowledge_edge_embeddings`. -/
structure EdgeEmbedding where
  embeddingModelId : Uuid
  qdrantPointId : Uuid
  formulaVersion : Nat
  indexedEdgeVersion : Nat
deriving DecidableEq, Repr

/-- How far a worker is with `process`, with the row that `load_live_edge` returned.  `ended` says
whether the event is to be marked completed or failed. -/
inductive EdgePhase
  | claimed
  | loaded (live : LiveEdge)
  | checked (live : LiveEdge)
  | bound (live : LiveEdge)
  | prepared (live : LiveEdge)
  | upserted (live : LiveEdge)
  | ended (completed : Bool)
deriving DecidableEq, Repr

/-- A worker with the event that it claimed. -/
structure EdgeWorker where
  event : Nat
  job : EdgeJob
  phase : EdgePhase
deriving DecidableEq, Repr

/-- `created` says that the history knows the edge: its id is then never given out again.  `points`
holds the `edge_version` in the payload of each Qdrant point that names the edge. -/
structure EdgeWorld where
  edge : Option LiveEdge
  created : Bool
  enabled : List Uuid
  events : List EdgeEvent
  embeddings : List EdgeEmbedding
  points : Uuid → Option Nat
  workers : List EdgeWorker

/-- An update says whether the command names a field.  A step of `process` names the worker. -/
inductive EdgeAction
  | create
  | update (touched : Bool)
  | remove
  | setEnabled (models : List Uuid)
  | claim (k : Nat)
  | release (k : Nat)
  | loadLiveEdge (i : Nat) (reply : StatementReply)
  | loadIndexedEdgeVersion (i : Nat) (reply : StatementReply)
  | loadModelCollection (i : Nat) (reply : StatementReply)
  | prepareEdgeVector (i : Nat) (reply : StatementReply)
  | upsertRaw (i : Nat) (reply : StatementReply)
  | upsertBookkeeping (i : Nat) (reply : StatementReply)
  | deletePointsById (i : Nat) (reply : StatementReply)
  | mark (i : Nat) (reply : StatementReply)
  | crash (i : Nat)
deriving DecidableEq, Repr

/-! ### Statements -/

/-- The `INSERT` of `upsert_bookkeeping`: the row of the model changes only towards a newer
version. -/
def upsertEmbedding (rows : List EdgeEmbedding) (new : EdgeEmbedding) : List EdgeEmbedding :=
  if new.embeddingModelId ∈ rows.map EdgeEmbedding.embeddingModelId then
    rows.map fun r =>
      if r.embeddingModelId = new.embeddingModelId ∧ r.indexedEdgeVersion < new.indexedEdgeVersion
      then new else r
  else rows ++ [new]

theorem mem_upsertEmbedding {rows : List EdgeEmbedding} {new r : EdgeEmbedding}
    (h : r ∈ upsertEmbedding rows new) : r = new ∨ r ∈ rows ∧
      (r.embeddingModelId = new.embeddingModelId → new.indexedEdgeVersion ≤ r.indexedEdgeVersion) := by
  rw [upsertEmbedding] at h
  split at h
  next =>
    obtain ⟨s, hs, hr⟩ := List.mem_map.mp h
    split at hr
    next => exact .inl hr.symm
    next hlt =>
      subst hr
      exact .inr ⟨hs, fun hm => Nat.le_of_not_lt fun hv => hlt ⟨hm, hv⟩⟩
  next hnew =>
    rcases List.mem_append.mp h with hr | hr
    · exact .inr ⟨hr, fun hm => absurd (hm ▸ List.mem_map_of_mem hr) hnew⟩
    · exact .inl (List.mem_singleton.mp hr)

theorem upsertEmbedding_models (rows : List EdgeEmbedding) (new : EdgeEmbedding) :
    (upsertEmbedding rows new).map EdgeEmbedding.embeddingModelId =
      if new.embeddingModelId ∈ rows.map EdgeEmbedding.embeddingModelId then
        rows.map EdgeEmbedding.embeddingModelId
      else rows.map EdgeEmbedding.embeddingModelId ++ [new.embeddingModelId] := by
  rw [upsertEmbedding]
  split
  next =>
    rw [List.map_map]
    apply List.map_congr_left
    intro r _
    simp only [Function.comp_apply]
    split
    next h => exact h.1.symm
    next => rfl
  next => rw [List.map_append, List.map_singleton]

namespace EdgeWorld

/-- `knowledge_edges_enqueue_upsert_fn`: one event for each enabled model, unless the key is
taken. -/
def enqueueUpserts (w : EdgeWorld) (e : LiveEdge) : List EdgeEvent :=
  let keys := w.events.map fun ev => ev.job.upsertKey
  (w.enabled.filter fun m => some (m, e.edgeVersion) ∉ keys).map fun m =>
    ⟨.upsertEdgeVector m e.formulaVersion e.edgeVersion, false, false⟩

/-- `knowledge_edges_history_delete_fn`: one event with the points on record, if there are any. -/
def enqueueDelete (w : EdgeWorld) : List EdgeEvent :=
  if w.embeddings = [] then []
  else [⟨.deleteEdgePoints (w.embeddings.map EdgeEmbedding.qdrantPointId), false, false⟩]

/-- `KnowledgeEdgeRepo::create`, with the column defaults. -/
def create (w : EdgeWorld) : EdgeWorld :=
  if w.created then w
  else
    { w with
      edge := some ⟨1, 1⟩
      created := true
      events := w.events ++ w.enqueueUpserts ⟨1, 1⟩ }

/-- `KnowledgeEdgeRepo::update`. -/
def update (w : EdgeWorld) (touched : Bool) : EdgeWorld :=
  match w.edge with
  | some e =>
    if touched then
      let e' : LiveEdge := { e with edgeVersion := e.edgeVersion + 1 }
      { w with edge := some e', events := w.events ++ w.enqueueUpserts e' }
    else w
  | none => w

/-- `KnowledgeEdgeRepo::remove`; the embeddings go by the cascade. -/
def remove (w : EdgeWorld) : EdgeWorld :=
  match w.edge with
  | some _ => { w with edge := none, events := w.events ++ w.enqueueDelete, embeddings := [] }
  | none => w

def setEvent (w : EdgeWorld) (k : Nat) (e : EdgeEvent) : EdgeWorld :=
  { w with events := w.events.set k e }

/-- `claim_batch`, for one event of the batch. -/
def claim (w : EdgeWorld) (k : Nat) : EdgeWorld :=
  match w.events[k]? with
  | some e =>
    if e.claimed || e.completed then w
    else { w.setEvent k { e with claimed := true } with
      workers := w.workers ++ [⟨k, e.job, .claimed⟩] }
  | none => w

/-- `reap_stale_claims` or `release_my_claims`, for one event.  The worker may still be running. -/
def release (w : EdgeWorld) (k : Nat) : EdgeWorld :=
  match w.events[k]? with
  | some e => if e.completed then w else w.setEvent k { e with claimed := false }
  | none => w

/-! ### The steps of `process` -/

def setPhase (w : EdgeWorld) (i : Nat) (worker : EdgeWorker) (phase : EdgePhase) : EdgeWorld :=
  { w with workers := w.workers.set i { worker with phase := phase } }

/-- The error path of a read. -/
def readPhase (reply : StatementReply) (phase : EdgePhase) : EdgePhase :=
  if reply = .ok then phase else .ended false

def loadLiveEdge (w : EdgeWorld) (i : Nat) (reply : StatementReply) : EdgeWorld :=
  match w.workers[i]? with
  | some ⟨k, .upsertEdgeVector m f v, .claimed⟩ =>
    w.setPhase i ⟨k, .upsertEdgeVector m f v, .claimed⟩ (readPhase reply
      (match w.edge with
      | some live => .loaded live
      | none => .ended true))
  | _ => w

def indexedEdgeVersion (w : EdgeWorld) (m : Uuid) : Option Nat :=
  (w.embeddings.find? fun r => r.embeddingModelId = m).map EdgeEmbedding.indexedEdgeVersion

/-- The staleness gate compares with the version that `load_live_edge` saw. -/
def loadIndexedEdgeVersion (w : EdgeWorld) (i : Nat) (reply : StatementReply) : EdgeWorld :=
  match w.workers[i]? with
  | some ⟨k, .upsertEdgeVector m f v, .loaded live⟩ =>
    w.setPhase i ⟨k, .upsertEdgeVector m f v, .loaded live⟩ (readPhase reply
      (if (w.indexedEdgeVersion m).any (live.edgeVersion ≤ ·) then .ended true else .checked live))
  | _ => w

def loadModelCollection (w : EdgeWorld) (i : Nat) (reply : StatementReply) : EdgeWorld :=
  match w.workers[i]? with
  | some ⟨k, .upsertEdgeVector m f v, .checked live⟩ =>
    w.setPhase i ⟨k, .upsertEdgeVector m f v, .checked live⟩ (readPhase reply
      (if m ∈ w.enabled then .bound live else .ended true))
  | _ => w

/-- The vectors of the endpoints and of the type, and the formula. -/
def prepareEdgeVector (w : EdgeWorld) (i : Nat) (reply : StatementReply) : EdgeWorld :=
  match w.workers[i]? with
  | some ⟨k, .upsertEdgeVector m f v, .bound live⟩ =>
    w.setPhase i ⟨k, .upsertEdgeVector m f v, .bound live⟩ (readPhase reply (.prepared live))
  | _ => w

variable (computePointId : Uuid → Nat → Uuid)

/-- The Qdrant half of `apply_edge_vector`: the payload carries the version that was loaded. -/
def upsertRaw (w : EdgeWorld) (i : Nat) (reply : StatementReply) : EdgeWorld :=
  match w.workers[i]? with
  | some ⟨k, .upsertEdgeVector m f v, .prepared live⟩ =>
    let w' := w.setPhase i ⟨k, .upsertEdgeVector m f v, .prepared live⟩
      (if reply = .ok then .upserted live else .ended false)
    if reply = .failed then w'
    else { w' with
      points := Function.update w.points (computePointId m f) (some live.edgeVersion) }
  | _ => w

/-- `upsert_bookkeeping`.  Without the edge the foreign key refuses the row. -/
def upsertBookkeeping (w : EdgeWorld) (i : Nat) (reply : StatementReply) : EdgeWorld :=
  match w.workers[i]? with
  | some ⟨k, .upsertEdgeVector m f v, .upserted live⟩ =>
    let w' := w.setPhase i ⟨k, .upsertEdgeVector m f v, .upserted live⟩
      (.ended (decide (reply = .ok ∧ w.edge ≠ none)))
    if reply = .failed ∨ w.edge = none then w'
    else { w' with
      embeddings := upsertEmbedding w.embeddings ⟨m, computePointId m f, f, live.edgeVersion⟩ }
  | _ => w

/-- `EdgeVectorCleanupWorker::process`: an empty list makes no call. -/
def deletePointsById (w : EdgeWorld) (i : Nat) (reply : StatementReply) : EdgeWorld :=
  match w.workers[i]? with
  | some ⟨k, .deleteEdgePoints ids, .claimed⟩ =>
    let w' := w.setPhase i ⟨k, .deleteEdgePoints ids, .claimed⟩
      (.ended (decide (reply = .ok ∨ ids = [])))
    if reply = .failed then w'
    else { w' with points := fun p => if p ∈ ids then none else w.points p }
  | _ => w

/-- `mark_completed` or `mark_failed`, after which the worker leaves the event. -/
def mark (w : EdgeWorld) (i : Nat) (reply : StatementReply) : EdgeWorld :=
  match w.workers[i]? with
  | some ⟨k, _, .ended completed⟩ =>
    let w' := { w with workers := w.workers.eraseIdx i }
    match w.events[k]? with
    | some e =>
      if reply = .failed then w'
      else w'.setEvent k { e with claimed := false, completed := e.completed || completed }
    | none => w'
  | _ => w

def crash (w : EdgeWorld) (i : Nat) : EdgeWorld := { w with workers := w.workers.eraseIdx i }

def step (w : EdgeWorld) : EdgeAction → EdgeWorld
  | .create => w.create
  | .update touched => w.update touched
  | .remove => w.remove
  | .setEnabled models => { w with enabled := models }
  | .claim k => w.claim k
  | .release k => w.release k
  | .loadLiveEdge i reply => w.loadLiveEdge i reply
  | .loadIndexedEdgeVersion i reply => w.loadIndexedEdgeVersion i reply
  | .loadModelCollection i reply => w.loadModelCollection i reply
  | .prepareEdgeVector i reply => w.prepareEdgeVector i reply
  | .upsertRaw i reply => w.upsertRaw computePointId i reply
  | .upsertBookkeeping i reply => w.upsertBookkeeping computePointId i reply
  | .deletePointsById i reply => w.deletePointsById i reply
  | .mark i reply => w.mark i reply
  | .crash i => w.crash i

/-- Before the edge is created. -/
def init (enabled : List Uuid) : EdgeWorld := ⟨none, false, enabled, [], [], fun _ => none, []⟩

/-! ### What one step can do -/

/-- What an action makes of the state. -/
inductive EdgeStep (w : EdgeWorld) : EdgeAction → EdgeWorld → Prop
  | idle (a : EdgeAction) : EdgeStep w a w
  | created (h : w.created = false) : EdgeStep w .create
      { w with
        edge := some ⟨1, 1⟩
        created := true
        events := w.events ++ w.enqueueUpserts ⟨1, 1⟩ }
  | updated {touched : Bool} {e : LiveEdge} (h : w.edge = some e) : EdgeStep w (.update touched)
      { w with
        edge := some { e with edgeVersion := e.edgeVersion + 1 }
        events := w.events ++ w.enqueueUpserts { e with edgeVersion := e.edgeVersion + 1 } }
  | removed {e : LiveEdge} (h : w.edge = some e) : EdgeStep w .remove
      { w with edge := none, events := w.events ++ w.enqueueDelete, embeddings := [] }
  | enabled (models : List Uuid) : EdgeStep w (.setEnabled models) { w with enabled := models }
  | claimed {k : Nat} {e : EdgeEvent} (hk : w.events[k]? = some e) (hc : e.completed = false) :
      EdgeStep w (.claim k) { w.setEvent k { e with claimed := true } with
        workers := w.workers ++ [⟨k, e.job, .claimed⟩] }
  | released {k : Nat} {e : EdgeEvent} (hk : w.events[k]? = some e) :
      EdgeStep w (.release k) (w.setEvent k { e with claimed := false })
  /-- A step of an `EmbedEdgeWorker` that writes nothing. -/
  | moved {a : EdgeAction} {i k : Nat} {m : Uuid} {f v : Nat} {phase phase' : EdgePhase}
      (hi : w.workers[i]? = some ⟨k, .upsertEdgeVector m f v, phase⟩)
      (hphase : ∀ live, phase ≠ .upserted live) (hphase' : ∀ live, phase' ≠ .upserted live) :
      EdgeStep w a (w.setPhase i ⟨k, .upsertEdgeVector m f v, phase⟩ phase')
  | upserted {i k : Nat} {m : Uuid} {f v : Nat} {live : LiveEdge} {reply : StatementReply}
      (hi : w.workers[i]? = some ⟨k, .upsertEdgeVector m f v, .prepared live⟩)
      (hr : reply ≠ .failed) : EdgeStep w (.upsertRaw i reply)
      { w.setPhase i ⟨k, .upsertEdgeVector m f v, .prepared live⟩
          (if reply = .ok then .upserted live else .ended false) with
        points := Function.update w.points (computePointId m f) (some live.edgeVersion) }
  | booked {i k : Nat} {m : Uuid} {f v : Nat} {live : LiveEdge} {reply : StatementReply}
      {completed : Bool} (hi : w.workers[i]? = some ⟨k, .upsertEdgeVector m f v, .upserted live⟩)
      (he : w.edge ≠ none) : EdgeStep w (.upsertBookkeeping i reply)
      { w.setPhase i ⟨k, .upsertEdgeVector m f v, .upserted live⟩ (.ended completed) with
        embeddings := upsertEmbedding w.embeddings ⟨m, computePointId m f, f, live.edgeVersion⟩ }
  | refused {i k : Nat} {m : Uuid} {f v : Nat} {live : LiveEdge} {reply : StatementReply}
      {completed : Bool} (hi : w.workers[i]? = some ⟨k, .upsertEdgeVector m f v, .upserted live⟩)
      (h : reply = .failed ∨ w.edge = none) : EdgeStep w (.upsertBookkeeping i reply)
      (w.setPhase i ⟨k, .upsertEdgeVector m f v, .upserted live⟩ (.ended completed))
  | deleted {i k : Nat} {ids : List Uuid} {reply : StatementReply} {completed : Bool}
      (hi : w.workers[i]? = some ⟨k, .deleteEdgePoints ids, .claimed⟩) :
      EdgeStep w (.deletePointsById i reply)
      { w.setPhase i ⟨k, .deleteEdgePoints ids, .claimed⟩ (.ended completed) with
        points := fun p => if p ∈ ids then none else w.points p }
  /-- The call did not reach Qdrant.  The worker returns an error if there was a call. -/
  | unreached {i k : Nat} {ids : List Uuid} {reply : StatementReply}
      (hi : w.workers[i]? = some ⟨k, .deleteEdgePoints ids, .claimed⟩) :
      EdgeStep w (.deletePointsById i reply)
      (w.setPhase i ⟨k, .deleteEdgePoints ids, .claimed⟩ (.ended (decide (ids = []))))
  | marked {i k : Nat} {job : EdgeJob} {completed : Bool} {reply : StatementReply} {e : EdgeEvent}
      (hi : w.workers[i]? = some ⟨k, job, .ended completed⟩) (hk : w.events[k]? = some e) :
      EdgeStep w (.mark i reply)
      { w with
        workers := w.workers.eraseIdx i
        events := w.events.set k
          { e with claimed := false, completed := e.completed || completed } }
  | unmarked {i k : Nat} {job : EdgeJob} {completed : Bool} {reply : StatementReply}
      (hi : w.workers[i]? = some ⟨k, job, .ended completed⟩) :
      EdgeStep w (.mark i reply) { w with workers := w.workers.eraseIdx i }
  | crashed (i : Nat) : EdgeStep w (.crash i) { w with workers := w.workers.eraseIdx i }

variable {computePointId} {w : EdgeWorld}

theorem readPhase_ne_upserted {reply : StatementReply} {phase : EdgePhase}
    (h : ∀ live, phase ≠ .upserted live) : ∀ live, readPhase reply phase ≠ .upserted live := by
  intro live
  rw [readPhase]
  split
  next => exact h live
  next => nofun

theorem edge_step (a : EdgeAction) : EdgeStep computePointId w a (w.step computePointId a) := by
  cases a with
  | create =>
    simp only [step, create]
    split
    next => exact .idle _
    next h => exact .created (Bool.eq_false_iff.mpr h)
  | update touched =>
    simp only [step, update]
    split
    next e he =>
      split
      next => exact .updated he
      next => exact .idle _
    next => exact .idle _
  | remove =>
    simp only [step, remove]
    split
    next e he => exact .removed he
    next => exact .idle _
  | setEnabled models => exact .enabled models
  | claim k =>
    simp only [step, claim]
    split
    next e he =>
      split
      next => exact .idle _
      next h => exact .claimed he (by simp_all)
    next => exact .idle _
  | release k =>
    simp only [step, release]
    split
    next e he =>
      split
      next => exact .idle _
      next => exact .released he
    next => exact .idle _
  | loadLiveEdge i reply =>
    simp only [step, loadLiveEdge]
    split
    next hi =>
      refine .moved hi nofun (readPhase_ne_upserted ?_)
      split <;> nofun
    next => exact .idle _
  | loadIndexedEdgeVersion i reply =>
    simp only [step, loadIndexedEdgeVersion]
    split
    next hi =>
      refine .moved hi nofun (readPhase_ne_upserted ?_)
      split <;> nofun
    next => exact .idle _
  | loadModelCollection i reply =>
    simp only [step, loadModelCollection]
    split
    next hi =>
      refine .moved hi nofun (readPhase_ne_upserted ?_)
      split <;> nofun
    next => exact .idle _
  | prepareEdgeVector i reply =>
    simp only [step, prepareEdgeVector]
    split
    next hi => exact .moved hi nofun (readPhase_ne_upserted nofun)
    next => exact .idle _
  | upsertRaw i reply =>
    simp only [step, upsertRaw]
    split
    next hi =>
      split
      next hr =>
        subst hr
        exact .moved hi nofun nofun
      next hr => exact .upserted hi hr
    next => exact .idle _
  | upsertBookkeeping i reply =>
    simp only [step, upsertBookkeeping]
    split
    next hi =>
      split
      next h => exact .refused hi h
      next h => exact .booked hi (not_or.mp h).2
    next => exact .idle _
  | deletePointsById i reply =>
    simp only [step, deletePointsById]
    split
    next hi =>
      split
      next hr =>
        subst hr
        have h : EdgeStep computePointId w (.deletePointsById i .failed) _ := .unreached hi
        simpa using h
      next => exact .deleted hi
    next => exact .idle _
  | mark i reply =>
    simp only [step, mark]
    split
    next hi =>
      split
      next e he =>
        split
        next => exact .unmarked hi
        next => exact .marked hi he
      next => exact .unmarked hi
    next => exact .idle _
  | crash i => exact .crashed i

/-! ### What every run keeps -/

/-- The jobs of the events, which no statement changes. -/
def jobs (w : EdgeWorld) : List EdgeJob := w.events.map EdgeEvent.job

theorem jobs_set {k : Nat} {e e' : EdgeEvent} (hk : w.events[k]? = some e) (hj : e'.job = e.job) :
    (w.events.set k e').map EdgeEvent.job = w.jobs := by
  obtain ⟨hlt, rfl⟩ := List.getElem?_eq_some_iff.mp hk
  have hself : (w.events.map EdgeEvent.job).set k (w.events[k].job) = w.jobs := by
    rw [← List.map_set, List.set_getElem_self, jobs]
  rw [List.map_set, hj, hself]

/-- The state before the edge is created. -/
structure Blank (w : EdgeWorld) : Prop where
  edge : w.edge = none
  events : w.events = []
  embeddings : w.embeddings = []
  points : ∀ p, w.points p = none
  workers : w.workers = []

/-- A worker holds a copy of its event, the embeddings name the points of their models, and only a
deleted edge has an event that deletes its points. -/
structure Sound (computePointId : Uuid → Nat → Uuid) (w : EdgeWorld) : Prop where
  blank : w.created = false → Blank w
  formula : ∀ e ∈ w.edge, e.formulaVersion = 1
  jobFormula : ∀ m f v, .upsertEdgeVector m f v ∈ w.jobs → f = 1
  copies : ∀ worker ∈ w.workers, w.jobs[worker.event]? = some worker.job
  gone : w.edge = none → w.embeddings = []
  upserts : w.edge ≠ none → ∀ ids, .deleteEdgePoints ids ∉ w.jobs
  pointIds : ∀ r ∈ w.embeddings, r.qdrantPointId = computePointId r.embeddingModelId 1
  models : (w.embeddings.map EdgeEmbedding.embeddingModelId).Nodup

theorem jobs_append (events : List EdgeEvent) :
    (w.events ++ events).map EdgeEvent.job = w.jobs ++ events.map EdgeEvent.job := by
  rw [List.map_append, jobs]

theorem mem_enqueueUpserts {e : LiveEdge} {job : EdgeJob}
    (h : job ∈ (w.enqueueUpserts e).map EdgeEvent.job) :
    ∃ m, job = .upsertEdgeVector m e.formulaVersion e.edgeVersion := by
  simp only [enqueueUpserts, List.map_map, List.mem_map] at h
  obtain ⟨m, -, rfl⟩ := h
  exact ⟨m, rfl⟩

theorem Blank.init (enabled : List Uuid) : Blank (init enabled) := ⟨rfl, rfl, rfl, fun _ => rfl, rfl⟩

theorem Sound.init (enabled : List Uuid) : Sound computePointId (init enabled) where
  blank _ := .init enabled
  formula := nofun
  jobFormula := nofun
  copies := nofun
  gone _ := rfl
  upserts := nofun
  pointIds := nofun
  models := List.nodup_nil

namespace Sound

variable {i k : Nat} {worker : EdgeWorker} {e e' : EdgeEvent} {job : EdgeJob}

theorem created_of_worker (h : Sound computePointId w) (hi : w.workers[i]? = some worker) :
    w.created = true := by
  by_contra hc
  rw [(h.blank (Bool.eq_false_iff.mpr hc)).workers] at hi
  cases hi

/-- Only the workers change, and each has the event and the job of one that there was. -/
theorem of_workers (h : Sound computePointId w) (hc : w.created = true) {workers : List EdgeWorker}
    (hw : ∀ x ∈ workers, ∃ y ∈ w.workers, x.event = y.event ∧ x.job = y.job) :
    Sound computePointId { w with workers := workers } where
  blank hf := absurd (hc.symm.trans hf) nofun
  formula := h.formula
  jobFormula := h.jobFormula
  copies x hx := by
    obtain ⟨y, hy, he, hj⟩ := hw x hx
    rw [he, hj]
    exact h.copies y hy
  gone := h.gone
  upserts := h.upserts
  pointIds := h.pointIds
  models := h.models

theorem setPhase (h : Sound computePointId w) (hi : w.workers[i]? = some worker)
    (phase : EdgePhase) : Sound computePointId (w.setPhase i worker phase) := by
  refine h.of_workers (h.created_of_worker hi) fun x hx => ?_
  rcases List.mem_or_eq_of_mem_set hx with hx | rfl
  · exact ⟨x, hx, rfl, rfl⟩
  · exact ⟨worker, List.mem_of_getElem? hi, rfl, rfl⟩

theorem eraseIdx (h : Sound computePointId w) (i : Nat) :
    Sound computePointId { w with workers := w.workers.eraseIdx i } := by
  by_cases hc : w.created = true
  · exact h.of_workers hc fun x hx => ⟨x, List.mem_of_mem_eraseIdx hx, rfl, rfl⟩
  · have hw : w.workers.eraseIdx i = w.workers := by
      simp [(h.blank (Bool.eq_false_iff.mpr hc)).workers]
    rw [hw]
    exact h

theorem setEvent (h : Sound computePointId w) (hk : w.events[k]? = some e) (hj : e'.job = e.job) :
    Sound computePointId (w.setEvent k e') := by
  have hjobs : (w.setEvent k e').jobs = w.jobs := jobs_set hk hj
  refine ⟨fun hc => ?_, h.formula, ?_, ?_, h.gone, ?_, h.pointIds, h.models⟩
  · have hb := h.blank hc
    rw [hb.events] at hk
    cases hk
  · rw [hjobs]
    exact h.jobFormula
  · rw [hjobs]
    exact h.copies
  · rw [hjobs]
    exact h.upserts

theorem setPoints (h : Sound computePointId w) (hc : w.created = true) (points : Uuid → Option Nat) :
    Sound computePointId { w with points := points } :=
  { h with blank := fun hf => absurd (hc.symm.trans hf) nofun }

theorem append (h : Sound computePointId w) {events : List EdgeEvent} {edge : Option LiveEdge}
    (hedge : ∀ e ∈ edge, e.formulaVersion = 1) (hgone : edge = none → w.embeddings = [])
    (hf : ∀ m f v, .upsertEdgeVector m f v ∈ events.map EdgeEvent.job → f = 1)
    (hd : edge ≠ none → ∀ ids, .deleteEdgePoints ids ∉ w.jobs ++ events.map EdgeEvent.job) :
    Sound computePointId { w with edge := edge, created := true, events := w.events ++ events } := by
  have hjobs : ({ w with edge := edge, created := true, events := w.events ++ events } :
      EdgeWorld).jobs = w.jobs ++ events.map EdgeEvent.job := jobs_append events
  refine ⟨nofun, hedge, ?_, ?_, hgone, ?_, h.pointIds, h.models⟩
  · rw [hjobs]
    intro m f v hmem
    rcases List.mem_append.mp hmem with hmem | hmem
    · exact h.jobFormula m f v hmem
    · exact hf m f v hmem
  · rw [hjobs]
    intro x hx
    have hcopy := h.copies x hx
    rw [List.getElem?_append_left (List.getElem?_eq_some_iff.mp hcopy).1]
    exact hcopy
  · rw [hjobs]
    exact hd

theorem enqueueUpserts (h : Sound computePointId w) {edge : LiveEdge}
    (hf : edge.formulaVersion = 1) (hup : ∀ ids, .deleteEdgePoints ids ∉ w.jobs) :
    Sound computePointId { w with
      edge := some edge, created := true, events := w.events ++ w.enqueueUpserts edge } := by
  refine h.append (fun e he => ?_) nofun (fun m f v hmem => ?_) fun _ ids hmem => ?_
  · cases he
    exact hf
  · obtain ⟨_, hj⟩ := mem_enqueueUpserts hmem
    cases hj
    exact hf
  · rcases List.mem_append.mp hmem with hmem | hmem
    · exact hup ids hmem
    · obtain ⟨_, hj⟩ := mem_enqueueUpserts hmem
      cases hj

theorem remove (h : Sound computePointId w) (hc : w.created = true) : Sound computePointId
    { w with edge := none, events := w.events ++ w.enqueueDelete, embeddings := [] } := by
  have hempty : Sound computePointId { w with embeddings := [] } :=
    { h with
      blank := fun hf => absurd (hc.symm.trans hf) nofun
      gone := fun _ => rfl
      pointIds := nofun
      models := List.nodup_nil }
  have hdel : ∀ m f v, .upsertEdgeVector m f v ∉ w.enqueueDelete.map EdgeEvent.job := by
    intro m f v
    rw [EdgeWorld.enqueueDelete]
    split <;> simp
  rw [show w.created = true from hc] at hempty ⊢
  exact hempty.append nofun (fun _ => rfl) (fun m f v hmem => absurd hmem (hdel m f v)) nofun

theorem booked (h : Sound computePointId w) (he : w.edge ≠ none) (hc : w.created = true) (m : Uuid)
    (v : Nat) : Sound computePointId { w with
      embeddings := upsertEmbedding w.embeddings ⟨m, computePointId m 1, 1, v⟩ } where
  blank hf := absurd (hc.symm.trans hf) nofun
  formula := h.formula
  jobFormula := h.jobFormula
  copies := h.copies
  gone hg := absurd hg he
  upserts := h.upserts
  pointIds r hr := by
    rcases mem_upsertEmbedding hr with rfl | ⟨hr, -⟩
    · rfl
    · exact h.pointIds r hr
  models := by
    rw [upsertEmbedding_models]
    split
    next => exact h.models
    next hm => exact h.models.append (List.nodup_singleton _) (by simpa using hm)

theorem job_mem (h : Sound computePointId w) (hi : w.workers[i]? = some worker) :
    worker.job ∈ w.jobs :=
  List.mem_of_getElem? (h.copies worker (List.mem_of_getElem? hi))

theorem created_of_edge (h : Sound computePointId w) {edge : LiveEdge} (he : w.edge = some edge) :
    w.created = true := by
  by_contra hc
  rw [(h.blank (Bool.eq_false_iff.mpr hc)).edge] at he
  cases he

theorem claimed (h : Sound computePointId w) (hk : w.jobs[k]? = some job) : Sound computePointId
    { w with workers := w.workers ++ [⟨k, job, .claimed⟩] } :=
  { h with
    blank := fun hf => by
      rw [jobs, (h.blank hf).events] at hk
      cases hk
    copies := fun x hx => by
      rcases List.mem_append.mp hx with hx | hx
      · exact h.copies x hx
      · rw [List.mem_singleton.mp hx]
        exact hk }

theorem step (h : Sound computePointId w) (a : EdgeAction) :
    Sound computePointId (w.step computePointId a) := by
  have hs : EdgeStep computePointId w a (w.step computePointId a) := edge_step a
  generalize w.step computePointId a = w' at hs ⊢
  cases hs with
  | idle => exact h
  | created hc =>
    refine h.enqueueUpserts rfl fun ids hmem => ?_
    rw [jobs, (h.blank hc).events] at hmem
    cases hmem
  | @updated _ edge he =>
    have hup : ∀ ids, .deleteEdgePoints ids ∉ w.jobs := h.upserts (by rw [he]; nofun)
    rw [h.created_of_edge he]
    exact h.enqueueUpserts (h.formula edge he) hup
  | removed he => exact h.remove (h.created_of_edge he)
  | enabled models => exact { h with blank := fun hc => { h.blank hc with } }
  | @claimed k e hk hc =>
    have hset : Sound computePointId (w.setEvent k { e with claimed := true }) := h.setEvent hk rfl
    refine hset.claimed ?_
    rw [show (w.setEvent k { e with claimed := true }).jobs = w.jobs from jobs_set hk rfl, jobs,
      List.getElem?_map, hk, Option.map_some]
  | released hk => exact h.setEvent hk rfl
  | moved hi => exact h.setPhase hi _
  | upserted hi => exact (h.setPhase hi _).setPoints (h.created_of_worker hi) _
  | booked hi he =>
    obtain rfl := h.jobFormula _ _ _ (h.job_mem hi)
    exact (h.setPhase hi _).booked he (h.created_of_worker hi) _ _
  | refused hi => exact h.setPhase hi _
  | deleted hi => exact (h.setPhase hi _).setPoints (h.created_of_worker hi) _
  | unreached hi => exact h.setPhase hi _
  | marked hi hk => exact (h.eraseIdx _).setEvent hk rfl
  | unmarked hi => exact h.eraseIdx _
  | crashed i => exact h.eraseIdx i

end Sound

end EdgeWorld

end Wikore
