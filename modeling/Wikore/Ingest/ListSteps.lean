import Wikore.Ingest.Steps
import Mathlib.Data.Finset.Basic

/-! What one step of the pipeline can do to the lists of Redis: settle a job and leave them alone,
or push, take, remove or return one payload. -/

namespace Wikore

namespace IngestWorld

variable {env : IngestExternals} {opts : PollingOptions} {w w' : IngestWorld}
  {t : Uuid} {p : String}

def workerIds (w : IngestWorld) : Finset String := (w.workers.map Worker.id).toFinset

/-- The step leaves the lists alone. -/
structure Quiet (w w' : IngestWorld) : Prop where
  queue : w'.queue = w.queue
  proc : w'.proc = w.proc
  ids : w.workerIds ⊆ w'.workerIds
  journal : w'.journal = w.journal ∨ ∃ t p, w'.journal = w.journal ++ [.settled t p]

/-- A worker keeps its id. -/
theorem map_id_set {i : Nat} {id : String} {phase phase' : WorkerPhase}
    (hi : w.workers[i]? = some ⟨id, phase⟩) :
    (w.workers.set i ⟨id, phase'⟩).map Worker.id = w.workers.map Worker.id := by
  apply List.ext_getElem?
  intro k
  rw [List.getElem?_map, List.getElem?_map, List.getElem?_set]
  split
  next hik =>
    subst hik
    rw [if_pos (List.getElem?_eq_some_iff.mp hi).1, hi]
    rfl
  next => rfl

theorem Quiet.refl (w : IngestWorld) : Quiet w w := ⟨rfl, rfl, subset_refl _, .inl rfl⟩

/-- A step of worker `i` that leaves the lists alone. -/
theorem Quiet.worker {i : Nat} {id : String} {phase phase' : WorkerPhase}
    (hi : w.workers[i]? = some ⟨id, phase⟩) (hq : w'.queue = w.queue) (hp : w'.proc = w.proc)
    (hw : w'.workers = w.workers.set i ⟨id, phase'⟩)
    (hj : w'.journal = w.journal ∨ ∃ t p, w'.journal = w.journal ++ [.settled t p]) :
    Quiet w w' := by
  refine ⟨hq, hp, ?_, hj⟩
  rw [workerIds, workerIds, hw, map_id_set hi]

theorem Quiet.of_eq (hq : w'.queue = w.queue) (hp : w'.proc = w.proc)
    (hw : w'.workers = w.workers) (hj : w'.journal = w.journal) : Quiet w w' := by
  refine ⟨hq, hp, ?_, .inl hj⟩
  rw [workerIds, workerIds, hw]

theorem quiet_settle : Quiet w (w.settle t p) := ⟨rfl, rfl, subset_refl _, .inr ⟨t, p, rfl⟩⟩

theorem quiet_setSweeper (j : Nat) (x : Sweeper) : Quiet w (w.setSweeper j x) :=
  .of_eq rfl rfl rfl rfl

theorem quiet_setWorker {i : Nat} {id : String} {phase phase' : WorkerPhase}
    (hi : w.workers[i]? = some ⟨id, phase⟩) : Quiet w (w.setWorker i ⟨id, phase'⟩) :=
  .worker hi rfl rfl rfl (.inl rfl)

theorem quiet_claim (i : Nat) (token : Uuid) (reply : DbReply) :
    Quiet w (w.claim env i token reply) := by
  unfold claim
  split
  next id cmd hi =>
    split
    next =>
      split
      next => exact .refl w
      next =>
        split
        next => exact .worker hi rfl rfl rfl (.inl rfl)
        next => exact .worker hi rfl rfl rfl (.inr ⟨_, _, rfl⟩)
    next =>
      split
      next => exact .refl w
      next => exact .worker hi rfl rfl rfl (.inl rfl)
    next => exact quiet_setWorker hi
  next => exact .refl w

theorem quiet_markIngestDone (i : Nat) (reply : DbReply) (message : String) :
    Quiet w (w.markIngestDone env i reply message) := by
  unfold markIngestDone
  split
  next id token uow hi =>
    split
    next =>
      split
      next => exact .refl w
      next =>
        split
        next => exact quiet_setWorker hi
        next => exact .worker hi rfl rfl rfl (.inr ⟨_, _, rfl⟩)
    next => exact quiet_setWorker hi
  next => exact .refl w

theorem quiet_commit (i : Nat) (reply : DbReply) : Quiet w (w.commit env i reply) := by
  unfold commit
  split
  next id token uow hi =>
    split
    next => exact .refl w
    next =>
      cases reply with
      | ok => exact .worker hi rfl rfl rfl (.inr ⟨_, _, rfl⟩)
      | lost => exact .worker hi rfl rfl rfl (.inl rfl)
      | failed => exact quiet_setWorker hi
  next => exact .refl w

theorem quiet_setIngestError (i : Nat) (reply : DbReply) :
    Quiet w (w.setIngestError env i reply) := by
  unfold setIngestError
  split
  next id cmd token message hi =>
    split
    next => exact quiet_setWorker hi
    next =>
      split
      next => exact .refl w
      next =>
        cases reply with
        | ok => exact .worker hi rfl rfl rfl (.inr ⟨_, _, rfl⟩)
        | lost => exact .worker hi rfl rfl rfl (.inl rfl)
        | failed => exact quiet_setWorker hi
  next => exact .refl w

variable (env w)

/-- The steps that may take the last copy of a payload away. -/
inductive Removal : IngestAction → Uuid → String → Prop
  | malformed {i : Nat} {lremOk : Bool} {t : Uuid} {p : String} (hp : env.parseJob p = none) :
      Removal (.readJob i lremOk) t p
  | acknowledged {i : Nat} {id : String} {cmd : IngestDocumentVersionCmd}
      {outcome : IngestDispatchOutcome} {lremOk : Bool}
      (hi : w.workers[i]? = some ⟨id, .returned cmd outcome⟩) :
      Removal (.acknowledge i lremOk) cmd.company cmd.payload
  | unreadable {j : Nat} {touch : DbReply} {lremOk : Bool} {t : Uuid} {p : String}
      (hp : env.parseShape p = none) : Removal (.reapEntry j touch lremOk) t p

/-- What an action does to the queues, the processing lists and the journal. -/
inductive ListStep : IngestAction → IngestWorld → Prop
  | quiet {a : IngestAction} {w' : IngestWorld} (h : Quiet w w') : ListStep a w'
  | enqueued {t : Uuid} {p : String} {w' : IngestWorld} (h : Quiet (w.push t p) w') :
      ListStep (.enqueue t p) w'
  | pushed {a : IngestAction} {j : Nat} {x : Sweeper} {item : RequeueItem} {w' : IngestWorld}
      (hj : w.sweepers[j]? = some x) (hitem : item ∈ itemsIn x.phase)
      (h : Quiet (w.push item.company item.payload) w') : ListStep a w'
  | taken {a : IngestAction} {i : Nat} {t : Uuid} : ListStep a (w.lmove i t)
  | removed {a : IngestAction} {u w' : IngestWorld} {key : String × Uuid} {p : String}
      (hu : Quiet w u) (hrem : Removal env w a key.2 p) (h : Quiet (u.lrem key p) w') :
      ListStep a w'
  | transferred {a : IngestAction} {w' : IngestWorld} {key : String × Uuid} {p : String}
      (h : Quiet (w.transfer key p) w') : ListStep a w'

variable {env w}

theorem list_readJob (i : Nat) (lremOk : Bool) :
    ListStep env w (.readJob i lremOk) (w.readJob env i lremOk) := by
  unfold readJob
  split
  next id t' q hi =>
    split
    next => exact .quiet (quiet_setWorker hi)
    next hq =>
      dsimp only
      split
      next =>
        have hi' : ((w.settle t' q).lrem (id, t') q).workers[i]? = some ⟨id, .moved t' q⟩ := by
          rw [workers_lrem]
          exact hi
        exact .removed quiet_settle (.malformed hq) (quiet_setWorker hi')
      next => exact .quiet (.worker hi rfl rfl rfl (.inr ⟨_, _, rfl⟩))
  next => exact .quiet (.refl w)

theorem list_acknowledge (i : Nat) (lremOk : Bool) :
    ListStep env w (.acknowledge i lremOk) (w.acknowledge i lremOk) := by
  unfold acknowledge
  split
  next id cmd outcome hi =>
    split
    next =>
      have hi' : (w.lrem (id, cmd.company) cmd.payload).workers[i]? =
          some ⟨id, .returned cmd outcome⟩ := by
        rw [workers_lrem]
        exact hi
      exact .removed (.refl w) (.acknowledged hi) (quiet_setWorker hi')
    next => exact .quiet (quiet_setWorker hi)
  next => exact .quiet (.refl w)

theorem list_transferBack (i : Nat) (ok delOk : Bool) :
    ListStep env w (.transferBack i ok delOk) (w.transferBack i ok delOk) := by
  unfold transferBack
  split
  next id cmd attempts hi =>
    split
    next =>
      have hi' : (w.transfer (id, cmd.company) cmd.payload).workers[i]? =
          some ⟨id, .infraFailed cmd attempts⟩ := by
        rw [workers_transfer]
        exact hi
      exact .transferred (quiet_setWorker hi')
    next =>
      split
      next => exact .quiet (quiet_setWorker hi)
      next =>
        dsimp only
        split
        next => exact .quiet (.worker hi rfl rfl rfl (.inl rfl))
        next => exact .quiet (quiet_setWorker hi)
  next => exact .quiet (.refl w)

theorem list_reapEntry (j : Nat) (touch : DbReply) (lremOk : Bool) :
    ListStep env w (.reapEntry j touch lremOk) (w.reapEntry env j touch lremOk) := by
  unfold reapEntry
  split
  next => exact .quiet (quiet_setSweeper _ _)
  next at_ examined key q entries keys deferred hj =>
    split
    next hq =>
      dsimp only
      split
      next => exact .removed quiet_settle (.unreadable hq) (quiet_setSweeper _ _)
      next => exact .quiet ⟨rfl, rfl, subset_refl _, .inr ⟨_, _, rfl⟩⟩
    next =>
      dsimp only
      split <;> exact .quiet (.of_eq rfl rfl rfl rfl)
  next => exact .quiet (.refl w)

theorem list_step (a : IngestAction) : ListStep env w a (w.step env opts a) := by
  cases a with
  | tick d => exact .quiet (.of_eq rfl rfl rfl rfl)
  | enqueue t p => exact .enqueued (.of_eq rfl rfl rfl rfl)
  | heartbeat id alive => exact .quiet (.of_eq rfl rfl rfl rfl)
  | startWorker id =>
    refine .quiet ⟨rfl, rfl, ?_, .inl rfl⟩
    intro x hx
    rw [workerIds, List.mem_toFinset] at hx ⊢
    simp only [step, List.map_append, List.mem_append]
    exact .inl hx
  | lmove i t => exact .taken
  | readJob i lremOk => exact list_readJob i lremOk
  | claim i token reply => exact .quiet (quiet_claim i token reply)
  | giveUp i message =>
    simp only [step, giveUp]
    split
    next hi => exact .quiet (quiet_setWorker hi)
    next hi => exact .quiet (quiet_setWorker hi)
    next => exact .quiet (.refl w)
  | write i run =>
    simp only [step, write]
    split
    next hi =>
      split
      next => exact .quiet (.refl w)
      next => split <;> exact .quiet (quiet_setWorker hi)
    next => exact .quiet (.refl w)
  | markIngestDone i reply message => exact .quiet (quiet_markIngestDone i reply message)
  | commit i reply => exact .quiet (quiet_commit i reply)
  | setIngestError i reply => exact .quiet (quiet_setIngestError i reply)
  | acknowledge i lremOk => exact list_acknowledge i lremOk
  | transferBack i ok delOk => exact list_transferBack i ok delOk
  | stopWorker i =>
    simp only [step, stopWorker]
    split
    next hi => exact .quiet (quiet_setWorker hi)
    next => exact .quiet (.refl w)
  | startSweep keys =>
    simp only [step]
    split <;> exact .quiet (.of_eq rfl rfl rfl rfl)
  | reapKey j existsOk lrangeOk =>
    simp only [step, reapKey]
    (repeat' split) <;> exact .quiet (.of_eq rfl rfl rfl rfl)
  | reapEntry j touch lremOk => exact list_reapEntry j touch lremOk
  | reapTransfer j ok =>
    simp only [step, reapTransfer]
    split
    next =>
      split
      next => exact .transferred (quiet_setSweeper _ _)
      next => exact .quiet (quiet_setSweeper _ _)
    next => exact .quiet (.refl w)
  | sweep j now selected reply =>
    simp only [step, sweep]
    (repeat' split) <;> exact .quiet (.of_eq rfl rfl rfl rfl)
  | pushItem j ok =>
    simp only [step, pushItem]
    split
    next => exact .quiet (quiet_setSweeper _ _)
    next at_ examined item items attempts hj =>
      split
      next => exact .pushed hj List.mem_cons_self (quiet_setSweeper _ _)
      next => split <;> exact .quiet (quiet_setSweeper _ _)
    next => exact .quiet (.refl w)
  | compensate j reply =>
    simp only [step, compensate]
    (repeat' split) <;> exact .quiet (.of_eq rfl rfl rfl rfl)
  | stopSweeper j =>
    simp only [step, stopSweeper]
    split <;> exact .quiet (.of_eq rfl rfl rfl rfl)

end IngestWorld

end Wikore
