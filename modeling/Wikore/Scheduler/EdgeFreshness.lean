import Wikore.Lib.Ledger
import Wikore.Lib.Select
import Wikore.Scheduler.EdgeVectors

/-! The point of an edge against its bookkeeping.  `EmbedEdgeWorker` writes the point first and
`knowledge_edge_embeddings` second, and nothing orders the Qdrant writes of two workers: the
staleness gate is behind both of them.  The bookkeeping is the ledger of the point as long as the
writes come in order and a worker that has written its point also records it. -/

namespace Wikore

open Transition Ledger

/-- The version that a worker has put into the point of the model and not yet on record. -/
def EdgeWorker.unrecorded (m : Uuid) : EdgeWorker → Option Nat
  | ⟨_, .upsertEdgeVector m' _ _, .upserted live⟩ => if m' = m then some live.edgeVersion else none
  | _ => none

namespace EdgeWorld

/-- The model and the version of the upsert event that the action claims. -/
def claimedKey (w : EdgeWorld) : EdgeAction → Option (Uuid × Nat)
  | .claim k => w.jobs[k]?.bind EdgeJob.upsertKey
  | _ => none

/-- An upsert event that is claimed is of the model. -/
def ServesModel (m : Uuid) (w : EdgeWorld) (a : EdgeAction) : Prop := ∀ key ∈ w.claimedKey a, key.1 = m

instance (m : Uuid) (w : EdgeWorld) (a : EdgeAction) : Decidable (w.ServesModel m a) :=
  inferInstanceAs (Decidable (∀ key ∈ w.claimedKey a, _))

/-- The versions in the point of the model that are not yet on record. -/
def pending (m : Uuid) (workers : List EdgeWorker) : Set Nat :=
  { v | ∃ x ∈ workers, x.unrecorded m = some v }

/-- Neither the bookkeeping nor a worker that is about to write it has a newer version. -/
def Newest (w : EdgeWorld) (m : Uuid) (v : Nat) : Prop :=
  (∀ r ∈ w.indexedEdgeVersion m, r ≤ v) ∧ ∀ x ∈ w.workers, ∀ p ∈ x.unrecorded m, p ≤ v

instance (w : EdgeWorld) (m : Uuid) (v : Nat) : Decidable (w.Newest m v) :=
  inferInstanceAs (Decidable (_ ∧ _))

/-- Without worker `i`, the version `v` of the point is on record, or will be, or the model has no
row and will have none. -/
def Spared (w : EdgeWorld) (i : Nat) (m : Uuid) (v : Nat) : Prop :=
  Dispensable (w.indexedEdgeVersion m) (pending m (w.workers.eraseIdx i)) v

/-- The end of worker `i`, if it has written its point, leaves the point accounted for. -/
def LeavesInOrder (computePointId : Uuid → Nat → Uuid) (w : EdgeWorld) (i : Nat) : Prop :=
  match w.workers[i]? with
  | some ⟨_, .upsertEdgeVector m f _, .upserted live⟩ =>
    w.edge ≠ none → w.points (computePointId m f) = some live.edgeVersion →
      w.Spared i m live.edgeVersion
  | _ => True

/-- A Qdrant upsert of a live edge is not older than what its model has, and no worker stops between
its Qdrant upsert and its bookkeeping with a version that only it would have recorded. -/
def InOrder (computePointId : Uuid → Nat → Uuid) (w : EdgeWorld) : EdgeAction → Prop
  | .upsertRaw i reply =>
    match w.workers[i]? with
    | some ⟨_, .upsertEdgeVector m _ _, .prepared live⟩ =>
      reply ≠ .failed → w.edge ≠ none → w.Newest m live.edgeVersion ∧
        (reply = .lost → w.Spared i m live.edgeVersion)
    | _ => True
  | .upsertBookkeeping i reply => reply = .failed → w.LeavesInOrder computePointId i
  | .crash i => w.LeavesInOrder computePointId i
  | _ => True

/-- No worker is between its `load_live_edge` and its end. -/
def Idle (w : EdgeWorld) : Prop :=
  ∀ x ∈ w.workers, x.phase = .claimed ∨ ∃ completed, x.phase = .ended completed

instance (w : EdgeWorld) : Decidable w.Idle := inferInstanceAs (Decidable (∀ x ∈ w.workers, _))

variable {computePointId : Uuid → Nat → Uuid} {w : EdgeWorld} {m : Uuid} {i : Nat}

/-! ### The workers as pending writers -/

theorem pending_of_getElem? {workers : List EdgeWorker} {x : EdgeWorker}
    (hi : workers[i]? = some x) (v : Nat) : v ∈ pending m workers ↔
      x.unrecorded m = some v ∨ v ∈ pending m (workers.eraseIdx i) := by
  simp only [pending, Set.mem_ofPred_eq, Select.mem_iff_of_getElem? hi, or_and_right, exists_or,
    exists_eq_left]

theorem pending_set {workers : List EdgeWorker} {x : EdgeWorker} (hi : workers[i]? = some x)
    (y : EdgeWorker) (v : Nat) : v ∈ pending m (workers.set i y) ↔
      y.unrecorded m = some v ∨ v ∈ pending m (workers.eraseIdx i) := by
  have hlt : i < workers.length := (List.getElem?_eq_some_iff.mp hi).1
  have hy : (workers.set i y)[i]? = some y := by rw [List.getElem?_set_self hlt]
  rw [pending_of_getElem? hy, List.eraseIdx_set_eq]

theorem unrecorded_eq_none {x : EdgeWorker} (h : ∀ live, x.phase ≠ .upserted live) :
    x.unrecorded m = none := by
  rw [EdgeWorker.unrecorded.eq_def]
  split
  next => exact absurd rfl (h _)
  next => rfl

/-- A worker that has written no point, before the step and after it, is no pending writer. -/
theorem pending_setPhase {x : EdgeWorker} {phase : EdgePhase} (hi : w.workers[i]? = some x)
    (hx : ∀ live, x.phase ≠ .upserted live) (hphase : ∀ live, phase ≠ .upserted live) (v : Nat) :
    v ∈ pending m (w.setPhase i x phase).workers ↔ v ∈ pending m w.workers := by
  have hold : x.unrecorded m = none := unrecorded_eq_none hx
  have hnew : EdgeWorker.unrecorded m { x with phase := phase } = none := unrecorded_eq_none hphase
  simp only [setPhase, pending_set hi, pending_of_getElem? hi, hold, hnew, reduceCtorEq, false_or]

/-- A worker that has ended is no pending writer. -/
theorem pending_ended {x : EdgeWorker} (hi : w.workers[i]? = some x) (completed : Bool) (v : Nat) :
    v ∈ pending m (w.setPhase i x (.ended completed)).workers ↔
      v ∈ pending m (w.workers.eraseIdx i) := by
  have hnew : EdgeWorker.unrecorded m { x with phase := .ended completed } = none :=
    unrecorded_eq_none nofun
  simp only [setPhase, pending_set hi, hnew, reduceCtorEq, false_or]

theorem pending_eraseIdx {x : EdgeWorker} (hi : w.workers[i]? = some x)
    (hx : ∀ live, x.phase ≠ .upserted live) (v : Nat) :
    v ∈ pending m (w.workers.eraseIdx i) ↔ v ∈ pending m w.workers := by
  have hold : x.unrecorded m = none := unrecorded_eq_none hx
  simp only [pending_of_getElem? hi, hold, reduceCtorEq, false_or]

/-! ### The bookkeeping as the ledger -/

theorem indexed_upsertEmbedding (rows : List EdgeEmbedding) (new : EdgeEmbedding) :
    ((upsertEmbedding rows new).find? fun r => r.embeddingModelId = new.embeddingModelId).map
        EdgeEmbedding.indexedEdgeVersion =
      some (newest ((rows.find? fun r => r.embeddingModelId = new.embeddingModelId).map
        EdgeEmbedding.indexedEdgeVersion) new.indexedEdgeVersion) := by
  rw [upsertEmbedding]
  split
  next hmem =>
    obtain ⟨r, hr, hm⟩ := List.mem_map.mp hmem
    have hsome : (rows.find? fun r => r.embeddingModelId = new.embeddingModelId).isSome := by
      rw [List.find?_isSome]
      exact ⟨r, hr, by simpa using hm⟩
    obtain ⟨s, hs⟩ := Option.isSome_iff_exists.mp hsome
    have hsm : s.embeddingModelId = new.embeddingModelId := by
      simpa using List.find?_some hs
    have hfind : (rows.map fun r =>
        if r.embeddingModelId = new.embeddingModelId ∧
          r.indexedEdgeVersion < new.indexedEdgeVersion then new else r).find?
        (fun r => r.embeddingModelId = new.embeddingModelId) =
        some (if s.indexedEdgeVersion < new.indexedEdgeVersion then new else s) := by
      rw [List.find?_map]
      -- the update keeps the model of a row
      have hcomp : ((fun r : EdgeEmbedding => decide (r.embeddingModelId = new.embeddingModelId)) ∘
          fun r => if r.embeddingModelId = new.embeddingModelId ∧
            r.indexedEdgeVersion < new.indexedEdgeVersion then new else r) =
          fun r => decide (r.embeddingModelId = new.embeddingModelId) := by
        funext r
        simp only [Function.comp_apply]
        split
        next h => simp [h.1]
        next => rfl
      rw [hcomp, hs, Option.map_some]
      simp [hsm]
    rw [hfind, hs]
    simp only [Option.map_some, newest, Option.elim_some, Option.some.injEq]
    split
    next h => exact (max_eq_left (Nat.le_of_lt h)).symm
    next h => exact (max_eq_right (Nat.le_of_not_lt h)).symm
  next hmem =>
    have hnone : rows.find? (fun r => r.embeddingModelId = new.embeddingModelId) = none := by
      rw [List.find?_eq_none]
      intro r hr hm
      exact hmem (List.mem_map.mpr ⟨r, hr, by simpa using hm⟩)
    simp [List.find?_append, hnone, newest]

/-- The workers are of the model, and while the edge lives, its bookkeeping follows its point. -/
structure Followed (computePointId : Uuid → Nat → Uuid) (m : Uuid) (w : EdgeWorld) : Prop where
  serves : ∀ x ∈ w.workers, ∀ m' f v, x.job = .upsertEdgeVector m' f v → m' = m
  tracked : w.edge ≠ none → Ledger.Tracked (w.points (computePointId m 1)) (w.indexedEdgeVersion m)
    (pending m w.workers)

namespace Followed

theorem init (enabled : List Uuid) : Followed computePointId m (init enabled) :=
  ⟨nofun, fun h => absurd rfl h⟩

/-- Only the workers change, and each has the job of one that there was. -/
theorem of_workers (h : Followed computePointId m w) {workers : List EdgeWorker}
    (hw : ∀ x ∈ workers, ∃ y ∈ w.workers, x.job = y.job)
    (hp : ∀ v, v ∈ pending m workers ↔ v ∈ pending m w.workers) :
    Followed computePointId m { w with workers := workers } where
  serves x hx m' f v hj := by
    obtain ⟨y, hy, heq⟩ := hw x hx
    exact h.serves y hy m' f v (heq ▸ hj)
  tracked he := (h.tracked he).congr hp

theorem setPhase (h : Followed computePointId m w) {x : EdgeWorker} {phase : EdgePhase}
    (hi : w.workers[i]? = some x) (hx : ∀ live, x.phase ≠ .upserted live)
    (hphase : ∀ live, phase ≠ .upserted live) :
    Followed computePointId m (w.setPhase i x phase) := by
  refine h.of_workers (fun y hy => ?_) (pending_setPhase hi hx hphase)
  rcases List.mem_or_eq_of_mem_set hy with hy | rfl
  · exact ⟨y, hy, rfl⟩
  · exact ⟨x, List.mem_of_getElem? hi, rfl⟩

theorem leave (h : Followed computePointId m w) {x : EdgeWorker} (hi : w.workers[i]? = some x)
    (hx : ∀ live, x.phase ≠ .upserted live) :
    Followed computePointId m { w with workers := w.workers.eraseIdx i } :=
  h.of_workers (fun y hy => ⟨y, List.mem_of_mem_eraseIdx hy, rfl⟩) (pending_eraseIdx hi hx)

/-- The events and the models are no part of it. -/
theorem of_eq {w' : EdgeWorld} (h : Followed computePointId m w) (he : w'.edge = none ↔ w.edge = none)
    (hr : w'.embeddings = w.embeddings) (hp : w'.points = w.points) (hw : w'.workers = w.workers) :
    Followed computePointId m w' := by
  refine ⟨?_, fun hlive => ?_⟩
  · rw [hw]
    exact h.serves
  · rw [hp, hw, indexedEdgeVersion, hr]
    exact h.tracked (fun hnone => hlive (he.mpr hnone))

theorem insert_pending {k f v : Nat} {live : LiveEdge}
    (hi : w.workers[i]? = some ⟨k, .upsertEdgeVector m f v, .upserted live⟩) :
    (pending m w.workers) =
      insert live.edgeVersion (pending m (w.workers.eraseIdx i)) := by
  ext u
  simp only [Set.mem_insert_iff, pending_of_getElem? hi, EdgeWorker.unrecorded, if_true,
    Option.some.injEq, eq_comm]

/-- A worker with a written point ends without bookkeeping. -/
theorem abandon (hsound : Sound computePointId w) (h : Followed computePointId m w) {k f v : Nat}
    {m' : Uuid} {live : LiveEdge}
    (hi : w.workers[i]? = some ⟨k, .upsertEdgeVector m' f v, .upserted live⟩)
    (hleave : w.LeavesInOrder computePointId i) (he : w.edge ≠ none) :
    Ledger.Tracked (w.points (computePointId m 1)) (w.indexedEdgeVersion m)
      (pending m (w.workers.eraseIdx i)) := by
  obtain rfl := h.serves _ (List.mem_of_getElem? hi) _ _ _ rfl
  obtain rfl := hsound.jobFormula _ _ _ (hsound.job_mem hi)
  have htracked := h.tracked he
  rw [insert_pending hi] at htracked
  refine htracked.abandon fun hpoint => ?_
  simp only [LeavesInOrder, hi] at hleave
  exact hleave he hpoint

theorem upserted (hsound : Sound computePointId w) (h : Followed computePointId m w) {k f v : Nat}
    {m' : Uuid} {live : LiveEdge} {reply : StatementReply}
    (hi : w.workers[i]? = some ⟨k, .upsertEdgeVector m' f v, .prepared live⟩)
    (hr : reply ≠ .failed) (horder : w.InOrder computePointId (.upsertRaw i reply)) :
    Followed computePointId m
      { w.setPhase i ⟨k, .upsertEdgeVector m' f v, .prepared live⟩
          (if reply = .ok then .upserted live else .ended false) with
        points := Function.update w.points (computePointId m' f) (some live.edgeVersion) } := by
  obtain rfl := h.serves _ (List.mem_of_getElem? hi) _ _ _ rfl
  obtain rfl := hsound.jobFormula _ _ _ (hsound.job_mem hi)
  refine ⟨fun x hx m'' f'' v'' hj => ?_, fun he => ?_⟩
  · rcases List.mem_or_eq_of_mem_set hx with hx | rfl
    · exact h.serves x hx m'' f'' v'' hj
    · cases hj
      rfl
  · simp only [InOrder, hi] at horder
    obtain ⟨⟨hrec, hworkers⟩, hlost⟩ := horder hr he
    have hpend : ∀ p ∈ pending m' w.workers, p ≤ live.edgeVersion :=
      fun p ⟨x, hx, hp⟩ => hworkers x hx p hp
    show Ledger.Tracked (Function.update w.points _ _ _) (w.indexedEdgeVersion m') _
    rw [Function.update_self]
    by_cases hok : reply = .ok
    · subst hok
      refine (Ledger.Tracked.write hrec hpend).congr fun u => ?_
      show u ∈ pending m' (w.workers.set i ⟨k, .upsertEdgeVector m' 1 v, .upserted live⟩) ↔ _
      simp only [Set.mem_insert_iff, pending_set hi, pending_of_getElem? hi, EdgeWorker.unrecorded,
        if_true, Option.some.injEq, reduceCtorEq, false_or, eq_comm]
    · have herase : pending m' (w.workers.eraseIdx i) = pending m' w.workers :=
        Set.ext (pending_eraseIdx hi nofun)
      have hdisp := hlost (by cases reply <;> simp_all)
      rw [Spared, herase] at hdisp
      rw [if_neg hok]
      exact (Ledger.Tracked.write_lost hrec hpend hdisp).congr (pending_setPhase hi nofun nofun)

theorem booked (h : Followed computePointId m w) {k f v : Nat}
    {m' : Uuid} {live : LiveEdge} {completed : Bool}
    (hi : w.workers[i]? = some ⟨k, .upsertEdgeVector m' f v, .upserted live⟩) (he : w.edge ≠ none) :
    Followed computePointId m
      { w.setPhase i ⟨k, .upsertEdgeVector m' f v, .upserted live⟩ (.ended completed) with
        embeddings := upsertEmbedding w.embeddings
          ⟨m', computePointId m' f, f, live.edgeVersion⟩ } := by
  obtain rfl := h.serves _ (List.mem_of_getElem? hi) _ _ _ rfl
  refine ⟨fun x hx m'' f'' v'' hj => ?_, fun _ => ?_⟩
  · rcases List.mem_or_eq_of_mem_set hx with hx | rfl
    · exact h.serves x hx m'' f'' v'' hj
    · cases hj
      rfl
  · have htracked := h.tracked he
    rw [insert_pending hi] at htracked
    have hrec := htracked.recorded.congr (pending_ended hi completed)
    rw [indexedEdgeVersion, ← indexed_upsertEmbedding w.embeddings
      ⟨m', computePointId m' f, f, live.edgeVersion⟩] at hrec
    exact hrec

theorem refused (hsound : Sound computePointId w) (h : Followed computePointId m w) {k f v : Nat}
    {m' : Uuid} {live : LiveEdge} {completed : Bool}
    (hi : w.workers[i]? = some ⟨k, .upsertEdgeVector m' f v, .upserted live⟩)
    (hleave : w.edge ≠ none → w.LeavesInOrder computePointId i) :
    Followed computePointId m
      (w.setPhase i ⟨k, .upsertEdgeVector m' f v, .upserted live⟩ (.ended completed)) := by
  refine ⟨fun x hx m'' f'' v'' hj => ?_, fun he => ?_⟩
  · rcases List.mem_or_eq_of_mem_set hx with hx | rfl
    · exact h.serves x hx m'' f'' v'' hj
    · exact h.serves _ (List.mem_of_getElem? hi) m'' f'' v'' hj
  · exact (abandon hsound h hi (hleave he) he).congr (pending_ended hi completed)

theorem crash (hsound : Sound computePointId w) (h : Followed computePointId m w)
    (hleave : w.LeavesInOrder computePointId i) :
    Followed computePointId m { w with workers := w.workers.eraseIdx i } := by
  refine ⟨fun x hx => h.serves x (List.mem_of_mem_eraseIdx hx), fun he => ?_⟩
  cases hi : w.workers[i]? with
  | none =>
    have hlen : w.workers.length ≤ i := List.getElem?_eq_none_iff.mp hi
    rw [List.eraseIdx_of_length_le hlen]
    exact h.tracked he
  | some x =>
    obtain ⟨k, job, phase⟩ := x
    by_cases hx : ∀ live, phase ≠ .upserted live
    · exact (h.leave hi hx).tracked he
    · obtain ⟨live, hlive⟩ := not_forall.mp hx
      obtain rfl := not_not.mp hlive
      cases job with
      | upsertEdgeVector m' f v => exact abandon hsound h hi hleave he
      | deleteEdgePoints ids =>
        -- no cleanup worker writes points
        refine (h.tracked he).congr fun u => ?_
        simp only [pending_of_getElem? hi, EdgeWorker.unrecorded, reduceCtorEq, false_or]

theorem claim (h : Followed computePointId m w) {k : Nat} {job : EdgeJob}
    (hj : w.jobs[k]? = some job) (hserves : w.ServesModel m (.claim k)) :
    Followed computePointId m { w with workers := w.workers ++ [⟨k, job, .claimed⟩] } := by
  refine ⟨fun x hx m' f v hjob => ?_, fun he => ?_⟩
  · rcases List.mem_append.mp hx with hx | hx
    · exact h.serves x hx m' f v hjob
    · rw [List.mem_singleton.mp hx] at hjob
      have hkey : w.jobs[k]?.bind EdgeJob.upsertKey = some (m', v) := by
        rw [hj, show job = .upsertEdgeVector m' f v from hjob]
        rfl
      exact hserves (m', v) hkey
  · refine (h.tracked he).congr fun v => ?_
    simp [pending, EdgeWorker.unrecorded]

theorem claimed_ne_upserted {live : LiveEdge} : EdgePhase.claimed ≠ .upserted live := by
  intro h
  cases h

theorem ended_ne_upserted {completed : Bool} {live : LiveEdge} :
    EdgePhase.ended completed ≠ .upserted live := by
  intro h
  cases h

theorem step (hsound : Sound computePointId w) (h : Followed computePointId m w) (a : EdgeAction)
    (hserves : w.ServesModel m a) (horder : w.InOrder computePointId a) :
    Followed computePointId m (w.step computePointId a) := by
  have hs : EdgeStep computePointId w a (w.step computePointId a) := edge_step a
  generalize w.step computePointId a = w' at hs ⊢
  cases hs with
  | idle => exact h
  | created hc =>
    have hb := hsound.blank hc
    refine ⟨h.serves, fun _ => ?_⟩
    rw [indexedEdgeVersion, hb.embeddings, hb.points]
    exact Ledger.Tracked.empty.congr fun v => by simp [hb.workers, pending]
  | updated he => exact h.of_eq (by rw [he]; simp) rfl rfl rfl
  | removed => exact ⟨h.serves, fun he => absurd rfl he⟩
  | enabled => exact h.of_eq Iff.rfl rfl rfl rfl
  | @claimed k e hk =>
    have hjobs : w.jobs[k]? = some e.job := by rw [jobs, List.getElem?_map, hk, Option.map_some]
    exact (h.claim hjobs hserves).of_eq Iff.rfl rfl rfl rfl
  | released => exact h.of_eq Iff.rfl rfl rfl rfl
  | moved hi hphase hphase' => exact h.setPhase hi hphase hphase'
  | upserted hi hr => exact h.upserted hsound hi hr horder
  | booked hi he => exact h.booked hi he
  | refused hi hor => exact h.refused hsound hi fun he => horder (hor.resolve_right he)
  | @deleted i k ids reply completed hi =>
    have hended : Followed computePointId m
        (w.setPhase i ⟨k, .deleteEdgePoints ids, .claimed⟩ (.ended completed)) :=
      h.setPhase hi (fun _ => claimed_ne_upserted) fun _ => ended_ne_upserted
    exact ⟨hended.serves, fun he => absurd (hsound.job_mem hi) (hsound.upserts he ids)⟩
  | unreached hi => exact h.setPhase hi (fun _ => claimed_ne_upserted) fun _ => ended_ne_upserted
  | marked hi hk => exact (h.leave hi fun _ => ended_ne_upserted).of_eq Iff.rfl rfl rfl rfl
  | unmarked hi => exact h.leave hi fun _ => ended_ne_upserted
  | crashed i => exact h.crash hsound horder

end Followed

theorem pending_idle (h : w.Idle) : pending m w.workers = ∅ := by
  ext v
  refine ⟨fun ⟨x, hx, hv⟩ => ?_, nofun⟩
  have hphase : ∀ live, x.phase ≠ .upserted live := by
    intro live hlive
    rcases h x hx with hc | ⟨_, he⟩
    · rw [hc] at hlive
      cases hlive
    · rw [he] at hlive
      cases hlive
  rw [unrecorded_eq_none hphase] at hv
  cases hv

theorem Sound.indexed (h : Sound computePointId w) {r : EdgeEmbedding} (hr : r ∈ w.embeddings) :
    w.indexedEdgeVersion r.embeddingModelId = some r.indexedEdgeVersion := by
  cases hfind : w.embeddings.find? fun s => s.embeddingModelId = r.embeddingModelId with
  | none =>
    rw [List.find?_eq_none] at hfind
    exact absurd (by simp) (hfind r hr)
  | some s =>
    have hs : s.embeddingModelId = r.embeddingModelId := by simpa using List.find?_some hfind
    have heq : s = r := List.inj_on_of_nodup_map h.models (List.mem_of_find?_eq_some hfind) hr hs
    rw [indexedEdgeVersion, hfind, heq, Option.map_some]

end EdgeWorld

/-- In every run of workers of one model in which the points are written in order and recorded, the
point that a row of the model names carries the version of the row whenever no worker is at work. -/
theorem edge_vector_fresh (computePointId : Uuid → Nat → Uuid) (m : Uuid) (enabled : List Uuid)
    (as : List EdgeAction)
    (hrun : Along (EdgeWorld.step computePointId)
      (fun w a => w.ServesModel m a ∧ w.InOrder computePointId a) (.init enabled) as) :
    let w := run (EdgeWorld.step computePointId) (.init enabled) as
    w.Idle → ∀ r ∈ w.embeddings, r.embeddingModelId = m →
      w.points r.qdrantPointId = some r.indexedEdgeVersion := by
  intro w hidle r hr hm
  subst hm
  have hinv : w.Sound computePointId ∧ w.Followed computePointId r.embeddingModelId := by
    refine run_invariant_of
      (P := fun w => w.Sound computePointId ∧ w.Followed computePointId r.embeddingModelId)
      ⟨.init enabled, .init enabled⟩ hrun fun v a h hcond => ?_
    exact ⟨h.1.step a, h.2.step h.1 a hcond.1 hcond.2⟩
  obtain ⟨hsound, hfollowed⟩ := hinv
  have hlive : w.edge ≠ none := by
    intro hnone
    rw [hsound.gone hnone] at hr
    cases hr
  have htracked := hfollowed.tracked hlive
  rw [EdgeWorld.pending_idle hidle] at htracked
  rw [hsound.pointIds r hr]
  exact htracked.register_eq (hsound.indexed hr)

def citationModel : Uuid := 0x0a00000000004000800000000000000a

/-- `compute_point_id` for the edge `5f0c0000-0000-4000-8000-000000000001`, `citationModel` and
formula version 1. -/
def citationPointId (_ : Uuid) (_ : Nat) : Uuid := 0x895381111cc256a391e8b9be99a505d0

/-- The steps of `process` by worker `i`, up to the Qdrant upsert. -/
def embedUpTo (i : Nat) : List EdgeAction :=
  [.loadLiveEdge i .ok, .loadIndexedEdgeVersion i .ok, .loadModelCollection i .ok,
    .prepareEdgeVector i .ok]

/-- The rest of them, and the mark. -/
def embedFrom (i : Nat) : List EdgeAction :=
  [.upsertRaw i .ok, .upsertBookkeeping i .ok, .mark i .ok]

/-- An update between two runs of a worker. -/
def citationReindexed : List EdgeAction :=
  .create :: .claim 0 :: embedUpTo 0 ++ embedFrom 0 ++
    .update true :: .claim 1 :: embedUpTo 0 ++ embedFrom 0

theorem citation_reindexed_fresh :
    let w := run (EdgeWorld.step citationPointId) (.init [citationModel]) citationReindexed
    w.Idle ∧ w.embeddings ≠ [] ∧ ∀ r ∈ w.embeddings, r.embeddingModelId = citationModel →
      w.points r.qdrantPointId = some r.indexedEdgeVersion := by
  have hrun : Along (EdgeWorld.step citationPointId)
      (fun w a => w.ServesModel citationModel a ∧ w.InOrder citationPointId a)
      (.init [citationModel]) citationReindexed :=
    ⟨⟨nofun, trivial⟩, ⟨by decide, trivial⟩, ⟨nofun, trivial⟩, ⟨nofun, trivial⟩,
      ⟨nofun, trivial⟩, ⟨nofun, trivial⟩, ⟨nofun, fun _ _ => ⟨by decide, nofun⟩⟩,
      ⟨nofun, nofun⟩, ⟨nofun, trivial⟩, ⟨nofun, trivial⟩, ⟨by decide, trivial⟩,
      ⟨nofun, trivial⟩, ⟨nofun, trivial⟩, ⟨nofun, trivial⟩, ⟨nofun, trivial⟩,
      ⟨nofun, fun _ _ => ⟨by decide, nofun⟩⟩, ⟨nofun, nofun⟩, ⟨nofun, trivial⟩, trivial⟩
  have hidle : (run (EdgeWorld.step citationPointId) (.init [citationModel])
      citationReindexed).Idle := by decide
  exact ⟨hidle, by decide, edge_vector_fresh citationPointId citationModel [citationModel]
    citationReindexed hrun hidle⟩

/-- A slow worker upserts the version that it loaded before an update which another worker has
already indexed. -/
def citationOvertaken : List EdgeAction :=
  .create :: .claim 0 :: embedUpTo 0 ++ .update true :: .claim 1 :: embedUpTo 1 ++ embedFrom 1 ++
    embedFrom 0

theorem stale_citation_kept :
    Along (EdgeWorld.step citationPointId) (EdgeWorld.ServesModel citationModel)
      (.init [citationModel]) citationOvertaken ∧
    let w := run (EdgeWorld.step citationPointId) (.init [citationModel]) citationOvertaken
    w.Idle ∧ ¬∀ r ∈ w.embeddings, r.embeddingModelId = citationModel →
      w.points r.qdrantPointId = some r.indexedEdgeVersion := by
  decide

end Wikore
