import Wikore.Ingest.Stranding
import Wikore.Lib.Matching
import Mathlib.Algebra.BigOperators.Group.Finset.Basic
import Mathlib.Algebra.Order.BigOperators.Group.Finset

/-! The copies of a payload in Redis: they are those that were pushed and not removed, each removal
follows a job that was settled, and every list holds jobs of its own tenant only. -/

namespace Wikore

open Transition Matching

/-- The job that a worker has settled and not yet removed. -/
def WorkerPhase.settledJob : WorkerPhase → Option (Uuid × String)
  | .returned cmd _ => some (cmd.company, cmd.payload)
  | .idle | .moved _ _ | .claiming _ | .claimed _ _ | .writing _ _ | .marked _ _ | .failing _ _ _
  | .infraFailed _ _ | .stopped => none

namespace IngestWorld

variable {env : IngestExternals} {opts : PollingOptions} {w w' : IngestWorld} {a : IngestAction}

/-- The copies of the payload over the tenant's queue and all of its processing lists. -/
def copies (w : IngestWorld) (t : Uuid) (p : String) : Nat :=
  (w.queue t).count p + ∑ id ∈ w.workerIds, (w.proc id t).count p

/-! ### Balance -/

/-- Only workers have processing lists, and the copies are those pushed and not removed. -/
structure Balanced (w : IngestWorld) : Prop where
  listed : ∀ id t, w.proc id t ≠ [] → id ∈ w.workerIds
  balance : ∀ t p, w.copies t p + w.journal.count (.removed t p) = w.journal.count (.pushed t p)

variable {t t' : Uuid} {p p' : String} {key : String × Uuid}

theorem copies_mono_ids (h : w.Balanced) (hids : w.workerIds ⊆ w'.workerIds)
    (hq : w'.queue = w.queue) (hp : w'.proc = w.proc) : w'.copies t p = w.copies t p := by
  unfold copies
  rw [hq, hp]
  congr 1
  refine (Finset.sum_subset hids fun id _ hid => ?_).symm
  have hnil : w.proc id t = [] := by
    by_contra hne
    exact hid (h.listed id t hne)
  rw [hnil, List.count_nil]

theorem Balanced.quiet (h : w.Balanced) (hquiet : Quiet w w') : w'.Balanced where
  listed id t hne := hquiet.ids (h.listed id t (hquiet.proc ▸ hne))
  balance t p := by
    rw [copies_mono_ids h hquiet.ids hquiet.queue hquiet.proc]
    rcases hquiet.journal with hj | ⟨t', p', hj⟩
    · rw [hj]
      exact h.balance t p
    · rw [hj, List.count_append, List.count_append]
      have := h.balance t p
      simpa using this

/-- The sum after one summand has changed. -/
theorem sum_of_eq_off {S : Finset String} {f g : String → Nat} {id : String} (hid : id ∈ S)
    (h : ∀ x ≠ id, g x = f x) : ∑ x ∈ S, g x + f id = ∑ x ∈ S, f x + g id := by
  have hrest : ∑ x ∈ S.erase id, g x = ∑ x ∈ S.erase id, f x :=
    Finset.sum_congr rfl fun x hx => h x (Finset.ne_of_mem_erase hx)
  rw [← Finset.add_sum_erase S g hid, ← Finset.add_sum_erase S f hid, hrest]
  omega

/-- Replacing one processing list changes the sum by the difference of the two lists. -/
theorem sum_proc_update {S : Finset String} {id : String} (hid : id ∈ S)
    (proc : String → Uuid → List String) (t' t : Uuid) (l : List String) (p : String) :
    ∑ x ∈ S, (Function.update proc id (Function.update (proc id) t' l) x t).count p +
        (if t' = t then (proc id t).count p else 0) =
      ∑ x ∈ S, (proc x t).count p + (if t' = t then l.count p else 0) := by
  have hsum : ∑ x ∈ S, (Function.update proc id (Function.update (proc id) t' l) x t).count p +
      (proc id t).count p = ∑ x ∈ S, (proc x t).count p +
        (Function.update proc id (Function.update (proc id) t' l) id t).count p := by
    refine sum_of_eq_off (f := fun x => (proc x t).count p)
      (g := fun x => (Function.update proc id (Function.update (proc id) t' l) x t).count p) hid
      fun x hx => ?_
    rw [Function.update_of_ne hx]
  rw [Function.update_self] at hsum
  by_cases ht : t' = t
  · subst ht
    rw [Function.update_self] at hsum
    simpa using hsum
  · rw [Function.update_of_ne (Ne.symm ht)] at hsum
    simp only [if_neg ht]
    omega

theorem count_update_queue (q : Uuid → List String) (t' t : Uuid) (l : List String) (p : String) :
    (Function.update q t' l t).count p + (if t' = t then (q t).count p else 0) =
      (q t).count p + (if t' = t then l.count p else 0) := by
  by_cases ht : t' = t
  · subst ht
    rw [Function.update_self, if_pos rfl, if_pos rfl]
    omega
  · rw [Function.update_of_ne (Ne.symm ht), if_neg ht, if_neg ht]

theorem count_snoc (l : List QueueEvent) (e x : QueueEvent) :
    (l ++ [e]).count x = l.count x + if e = x then 1 else 0 := by
  rw [List.count_append, List.count_singleton]
  by_cases h : e = x <;> simp [h]

theorem listed_update (h : w.Balanced) {id : String} (hid : id ∈ w.workerIds) {l : List String}
    {id' : String} {t : Uuid}
    (hne : Function.update w.proc id (Function.update (w.proc id) t' l) id' t ≠ []) :
    id' ∈ w.workerIds := by
  by_cases heq : id' = id
  · rw [heq]
    exact hid
  · rw [Function.update_of_ne heq] at hne
    exact h.listed id' t hne

theorem mem_workerIds_of_proc (h : w.Balanced) (hp : p ∈ w.proc key.1 key.2) :
    key.1 ∈ w.workerIds :=
  h.listed key.1 key.2 (List.ne_nil_of_mem hp)

theorem Balanced.push (h : w.Balanced) : (w.push t' p').Balanced where
  listed := h.listed
  balance t p := by
    have hb := h.balance t p
    have hq := count_update_queue w.queue t' t (p' :: w.queue t') p
    unfold copies at hb ⊢
    simp only [IngestWorld.push, count_snoc, QueueEvent.pushed.injEq, reduceCtorEq, if_false,
      workerIds] at hb hq ⊢
    rw [List.count_cons] at hq
    by_cases ht : t' = t
    · subst ht
      by_cases hpp : p' = p
      · simp [hpp] at hq ⊢
        omega
      · simp [hpp] at hq ⊢
        omega
    · simp [ht] at hq ⊢
      omega

theorem Balanced.lrem (h : w.Balanced) : (w.lrem key p').Balanced := by
  unfold IngestWorld.lrem
  split
  next hmem =>
    have hid := mem_workerIds_of_proc h hmem
    refine ⟨fun id t hne => listed_update h hid hne, fun t p => ?_⟩
    have hb := h.balance t p
    have hs := sum_proc_update hid w.proc key.2 t ((w.proc key.1 key.2).erase p') p
    unfold copies at hb ⊢
    simp only [count_snoc, QueueEvent.removed.injEq, reduceCtorEq, if_false, workerIds] at hb hs ⊢
    by_cases ht : key.2 = t
    · rw [ht] at hmem
      by_cases hpp : p' = p
      · subst hpp
        have hpos := List.count_pos_iff.mpr hmem
        simp [ht] at hs ⊢
        omega
      · rw [List.count_erase_of_ne (Ne.symm hpp)] at hs
        simp [ht, hpp] at hs ⊢
        omega
    · simp [ht] at hs ⊢
      omega
  next => exact h

theorem Balanced.transfer (h : w.Balanced) : (w.transfer key p').Balanced := by
  unfold IngestWorld.transfer
  split
  next hmem =>
    have hid := mem_workerIds_of_proc h hmem
    refine ⟨fun id t hne => listed_update h hid hne, fun t p => ?_⟩
    have hb := h.balance t p
    have hs := sum_proc_update hid w.proc key.2 t ((w.proc key.1 key.2).erase p') p
    have hq := count_update_queue w.queue key.2 t (p' :: w.queue key.2) p
    unfold copies at hb ⊢
    simp only [workerIds] at hb hs ⊢
    rw [List.count_cons] at hq
    by_cases ht : key.2 = t
    · rw [ht] at hmem
      by_cases hpp : p' = p
      · subst hpp
        have hpos := List.count_pos_iff.mpr hmem
        simp [ht] at hs hq ⊢
        omega
      · rw [List.count_erase_of_ne (Ne.symm hpp)] at hs
        simp [ht, hpp] at hs hq ⊢
        omega
    · simp [ht] at hs hq ⊢
      omega
  next => exact h

theorem Balanced.lmove (h : w.Balanced) (i : Nat) (t' : Uuid) : (w.lmove i t').Balanced := by
  unfold IngestWorld.lmove
  split
  next id hi =>
    split
    next q hq =>
      have hid : id ∈ w.workerIds := by
        rw [workerIds, List.mem_toFinset]
        exact List.mem_map.mpr ⟨_, List.mem_of_getElem? hi, rfl⟩
      have hids : ∀ phase', ((w.workers.set i ⟨id, phase'⟩).map Worker.id).toFinset = w.workerIds :=
        fun phase' => by rw [map_id_set hi, workerIds]
      refine ⟨fun id' t hne => ?_, fun t p => ?_⟩
      · rw [workerIds, hids]
        exact listed_update h hid hne
      · have hb := h.balance t p
        have hs := sum_proc_update hid w.proc t' t (q :: w.proc id t') p
        have hc := count_update_queue w.queue t' t (w.queue t').dropLast p
        have hlast : (w.queue t').count p = (w.queue t').dropLast.count p + [q].count p := by
          rw [← List.count_append, List.dropLast_append_getLast? q hq]
        unfold copies at hb ⊢
        dsimp only
        rw [workerIds, hids]
        rw [List.count_cons] at hs
        rw [List.count_singleton] at hlast
        by_cases ht : t' = t
        · subst ht
          simp only [if_true] at hs hc
          omega
        · simp only [if_neg ht] at hs hc
          omega
    next => exact h
  next => exact h

theorem Balanced.step (h : w.Balanced) (a : IngestAction) : (w.step env opts a).Balanced := by
  have hs : ListStep env w a (w.step env opts a) := list_step a
  generalize w.step env opts a = w' at hs ⊢
  cases hs with
  | quiet hquiet => exact h.quiet hquiet
  | enqueued hquiet => exact h.push.quiet hquiet
  | pushed hj hitem hquiet => exact h.push.quiet hquiet
  | taken => exact h.lmove _ _
  | removed hu hrem hquiet => exact (h.quiet hu).lrem.quiet hquiet
  | transferred hquiet => exact h.transfer.quiet hquiet

theorem Balanced.init (uploads : List Upload) (clock : Nat) : (init uploads clock).Balanced where
  listed id t hne := absurd rfl hne
  balance t p := by simp [copies, IngestWorld.init, workerIds]

/-! ### Settled jobs -/

/-- The workers that have settled the job and not yet removed it. -/
def owed (w : IngestWorld) (t : Uuid) (p : String) : Nat :=
  w.workers.countP fun x => x.phase.settledJob = some (t, p)

/-- Each removal follows a job of its own that was settled, and the workers still owe no more removals
than are left. -/
def Matched (w : IngestWorld) : Prop :=
  ∀ t p, Follows w.journal (.settled t p) (.removed t p) ∧
    w.journal.count (.removed t p) + w.owed t p ≤ w.journal.count (.settled t p)

/-- One job is settled beyond those that were removed or are owed. -/
def Spare (w : IngestWorld) (t : Uuid) (p : String) : Prop :=
  w.journal.count (.removed t p) + w.owed t p < w.journal.count (.settled t p)

theorem owed_set {i : Nat} {x y : Worker} (hi : w.workers[i]? = some x) (t : Uuid) (p : String) :
    (w.setWorker i y).owed t p + (if x.phase.settledJob = some (t, p) then 1 else 0) =
      w.owed t p + (if y.phase.settledJob = some (t, p) then 1 else 0) := by
  obtain ⟨hlen, hx⟩ := List.getElem?_eq_some_iff.mp hi
  unfold owed
  rw [workers_setWorker, List.countP_set hlen, hx]
  by_cases hs : x.phase.settledJob = some (t, p)
  · have hpos : 0 < w.workers.countP fun x => decide (x.phase.settledJob = some (t, p)) :=
      List.countP_pos_iff.mpr ⟨x, List.mem_of_getElem? hi, by simpa using hs⟩
    simp only [hs, decide_true, if_true, decide_eq_true_eq]
    omega
  · simp only [hs, decide_false, if_false, decide_eq_true_eq, Bool.false_eq_true]
    omega

theorem Matched.setWorker {i : Nat} {x y : Worker} (h : w.Matched) (hi : w.workers[i]? = some x)
    (hy : y.phase.settledJob = none) : (w.setWorker i y).Matched := by
  intro t p
  refine ⟨(h t p).1, ?_⟩
  have hle := (h t p).2
  have ho := owed_set (y := y) hi t p
  simp only [hy, reduceCtorEq, if_false] at ho
  have hj : (w.setWorker i y).journal = w.journal := rfl
  rw [hj]
  omega

theorem Matched.settle (h : w.Matched) (t' : Uuid) (p' : String) : (w.settle t' p').Matched := by
  intro t p
  refine ⟨(h t p).1.snoc_ne (by simp), ?_⟩
  have hle := (h t p).2
  have hj : (w.settle t' p').journal = w.journal ++ [.settled t' p'] := rfl
  have ho : (w.settle t' p').owed t p = w.owed t p := rfl
  rw [hj, ho, count_snoc, count_snoc, if_neg (by simp)]
  omega

theorem spare_settle (h : w.Matched) : (w.settle t p).Spare t p := by
  have hle := (h t p).2
  have hj : (w.settle t p).journal = w.journal ++ [.settled t p] := rfl
  have ho : (w.settle t p).owed t p = w.owed t p := rfl
  rw [Spare, hj, ho, count_snoc, count_snoc, if_neg (by simp), if_pos rfl]
  omega

/-- A worker that leaves the job it has settled may remove a copy of it. -/
theorem spare_setWorker {i : Nat} {x y : Worker} (h : w.Matched) (hi : w.workers[i]? = some x)
    (hx : x.phase.settledJob = some (t, p)) (hy : y.phase.settledJob = none) :
    (w.setWorker i y).Spare t p := by
  have hle := (h t p).2
  have ho := owed_set (y := y) hi t p
  have hj : (w.setWorker i y).journal = w.journal := rfl
  simp only [hx, hy, reduceCtorEq, if_true, if_false] at ho
  rw [Spare, hj]
  omega

/-- A dispatch ends: its job is settled, and its worker owes a removal. -/
theorem Matched.returned {i : Nat} {x y : Worker} (h : w.Matched) (hi : w.workers[i]? = some x)
    (hy : y.phase.settledJob = some (t, p)) : ((w.settle t p).setWorker i y).Matched := by
  intro t' p'
  refine ⟨(h.settle t p t' p').1, ?_⟩
  have hle := (h.settle t p t' p').2
  have hspare := spare_settle (t := t) (p := p) h
  have ho := owed_set (w := w.settle t p) (y := y) hi t' p'
  have hj : ((w.settle t p).setWorker i y).journal = (w.settle t p).journal := rfl
  rw [hj]
  simp only [hy, Option.some.injEq, Prod.mk.injEq] at ho
  by_cases htp : t = t' ∧ p = p'
  · obtain ⟨rfl, rfl⟩ := htp
    rw [Spare] at hspare
    simp only [and_self, if_true] at ho
    omega
  · rw [if_neg htp] at ho
    omega

theorem Matched.lrem (h : w.Matched) (hs : w.Spare key.2 p') : (w.lrem key p').Matched := by
  unfold IngestWorld.lrem
  split
  next =>
    intro t p
    obtain ⟨hf, hle⟩ := h t p
    by_cases htp : key.2 = t ∧ p' = p
    · obtain ⟨rfl, rfl⟩ := htp
      rw [Spare] at hs
      refine ⟨hf.snoc (by omega), ?_⟩
      have ho : ∀ proc journal, IngestWorld.owed { w with proc := proc, journal := journal } key.2 p' =
          w.owed key.2 p' := fun _ _ => rfl
      rw [ho]
      dsimp only
      rw [count_snoc, count_snoc, if_pos rfl, if_neg (by simp)]
      omega
    · refine ⟨hf.snoc_ne (by simpa using htp), ?_⟩
      have ho : ∀ proc journal, IngestWorld.owed { w with proc := proc, journal := journal } t p =
          w.owed t p := fun _ _ => rfl
      rw [ho]
      dsimp only
      rw [count_snoc, count_snoc, if_neg (by simpa using htp), if_neg (by simp)]
      omega
  next => exact h

theorem Matched.of_eq (h : w.Matched) (hj : w'.journal = w.journal) (hw : w'.workers = w.workers) :
    w'.Matched := by
  intro t p
  rw [owed, hj, hw]
  exact h t p

theorem setWorker_lrem (i : Nat) (x : Worker) :
    (w.lrem key p).setWorker i x = (w.setWorker i x).lrem key p := by
  unfold IngestWorld.lrem
  by_cases h : p ∈ w.proc key.1 key.2
  · rw [if_pos h, if_pos (show p ∈ (w.setWorker i x).proc key.1 key.2 from h)]
    rfl
  · rw [if_neg h, if_neg (show p ∉ (w.setWorker i x).proc key.1 key.2 from h)]

@[simp] theorem journal_transfer : (w.transfer key p).journal = w.journal := by
  unfold IngestWorld.transfer
  split <;> rfl

theorem Matched.readJob (h : w.Matched) (i : Nat) (lremOk : Bool) :
    (w.readJob env i lremOk).Matched := by
  unfold IngestWorld.readJob
  split
  next id t' q hi =>
    split
    next => exact h.setWorker hi rfl
    next =>
      dsimp only
      split
      next =>
        have hl : ((w.settle t' q).lrem (id, t') q).Matched := (h.settle t' q).lrem (spare_settle h)
        exact hl.setWorker (by rw [workers_lrem]; exact hi) rfl
      next => exact (h.settle t' q).setWorker hi rfl
  next => exact h

theorem Matched.claim (h : w.Matched) (i : Nat) (token : Uuid) (reply : DbReply) :
    (w.claim env i token reply).Matched := by
  unfold IngestWorld.claim
  split
  next id cmd hi =>
    split
    next =>
      split
      next => exact h
      next =>
        split
        next => exact (h.setWorker (y := ⟨id, .claimed cmd token⟩) hi rfl).of_eq rfl rfl
        next => exact h.returned hi rfl
    next =>
      split
      next => exact h
      next => exact (h.setWorker (y := ⟨id, .infraFailed cmd 0⟩) hi rfl).of_eq rfl rfl
    next => exact h.setWorker hi rfl
  next => exact h

theorem Matched.markIngestDone (h : w.Matched) (i : Nat) (reply : DbReply) (message : String) :
    (w.markIngestDone env i reply message).Matched := by
  unfold IngestWorld.markIngestDone
  split
  next id token uow hi =>
    split
    next =>
      split
      next => exact h
      next =>
        split
        next => exact h.setWorker hi rfl
        next => exact h.returned hi rfl
    next => exact h.setWorker hi rfl
  next => exact h

theorem Matched.commit (h : w.Matched) (i : Nat) (reply : DbReply) :
    (w.commit env i reply).Matched := by
  unfold IngestWorld.commit
  split
  next id token uow hi =>
    split
    next => exact h
    next =>
      cases reply with
      | ok => exact (h.returned (y := ⟨id, .returned uow.cmd .processed⟩) hi rfl).of_eq rfl rfl
      | lost => exact (h.setWorker (y := ⟨id, .infraFailed uow.cmd 0⟩) hi rfl).of_eq rfl rfl
      | failed => exact h.setWorker hi rfl
  next => exact h

theorem Matched.setIngestError (h : w.Matched) (i : Nat) (reply : DbReply) :
    (w.setIngestError env i reply).Matched := by
  unfold IngestWorld.setIngestError
  split
  next id cmd token message hi =>
    split
    next => exact h.setWorker hi rfl
    next v hv =>
      split
      next => exact h
      next =>
        cases reply with
        | ok =>
          refine (h.returned (y := ⟨id, .returned cmd (if versionMatches cmd.company v
            (fun r => r.ingestClaimToken = some token) w.versions then .terminalError
            else .ownershipLost)⟩) hi rfl).of_eq rfl rfl
        | lost => exact (h.setWorker (y := ⟨id, .infraFailed cmd 0⟩) hi rfl).of_eq rfl rfl
        | failed => exact h.setWorker hi rfl
  next => exact h

theorem Matched.acknowledge (h : w.Matched) (i : Nat) (lremOk : Bool) :
    (w.acknowledge i lremOk).Matched := by
  unfold IngestWorld.acknowledge
  split
  next id cmd outcome hi =>
    split
    next =>
      rw [setWorker_lrem]
      exact (h.setWorker hi rfl).lrem (spare_setWorker h hi rfl rfl)
    next => exact h.setWorker hi rfl
  next => exact h

theorem Matched.transferBack (h : w.Matched) (i : Nat) (ok delOk : Bool) :
    (w.transferBack i ok delOk).Matched := by
  unfold IngestWorld.transferBack
  split
  next id cmd attempts hi =>
    split
    next =>
      have ht : (w.transfer (id, cmd.company) cmd.payload).Matched :=
        h.of_eq journal_transfer (workers_transfer _ _)
      exact ht.setWorker (by rw [workers_transfer]; exact hi) rfl
    next =>
      split
      next => exact h.setWorker hi rfl
      next =>
        dsimp only
        split
        next => exact (h.setWorker (y := ⟨id, .stopped⟩) hi rfl).of_eq rfl rfl
        next => exact h.setWorker hi rfl
  next => exact h

theorem Matched.reapEntry (h : w.Matched) (j : Nat) (touch : DbReply) (lremOk : Bool) :
    (w.reapEntry env j touch lremOk).Matched := by
  unfold IngestWorld.reapEntry
  split
  next => exact h.of_eq rfl rfl
  next at_ examined key q entries keys deferred hj =>
    split
    next =>
      dsimp only
      split
      next =>
        have hl : ((w.settle key.2 q).lrem key q).Matched := (h.settle key.2 q).lrem (spare_settle h)
        exact hl.of_eq rfl rfl
      next => exact (h.settle key.2 q).of_eq rfl rfl
    next =>
      dsimp only
      split <;> exact h.of_eq rfl rfl
  next => exact h

theorem Matched.push (h : w.Matched) : (w.push t' p').Matched := by
  intro t p
  have ho : (w.push t' p').owed t p = w.owed t p := rfl
  have hj : (w.push t' p').journal = w.journal ++ [.pushed t' p'] := rfl
  rw [hj, ho, count_snoc, count_snoc, if_neg (by simp), if_neg (by simp)]
  exact ⟨(h t p).1.snoc_ne (by simp), (h t p).2⟩

theorem Matched.step (h : w.Matched) (a : IngestAction) : (w.step env opts a).Matched := by
  cases a with
  | tick d => exact h.of_eq rfl rfl
  | enqueue t p => exact h.push.of_eq rfl rfl
  | heartbeat id alive => exact h.of_eq rfl rfl
  | startWorker id =>
    intro t p
    have ho : (w.step env opts (.startWorker id)).owed t p = w.owed t p := by
      simp [owed, IngestWorld.step, WorkerPhase.settledJob]
    rw [ho]
    exact h t p
  | lmove i t =>
    simp only [IngestWorld.step, IngestWorld.lmove]
    split
    next id hi =>
      split
      next q hq => exact (h.setWorker (y := ⟨id, .moved t q⟩) hi rfl).of_eq rfl rfl
      next => exact h
    next => exact h
  | readJob i lremOk => exact h.readJob i lremOk
  | claim i token reply => exact h.claim i token reply
  | giveUp i message =>
    simp only [IngestWorld.step, giveUp]
    split
    next hi => exact h.setWorker hi rfl
    next hi => exact h.setWorker hi rfl
    next => exact h
  | write i run =>
    simp only [IngestWorld.step, write]
    split
    next hi =>
      split
      next => exact h
      next => split <;> exact h.setWorker hi rfl
    next => exact h
  | markIngestDone i reply message => exact h.markIngestDone i reply message
  | commit i reply => exact h.commit i reply
  | setIngestError i reply => exact h.setIngestError i reply
  | acknowledge i lremOk => exact h.acknowledge i lremOk
  | transferBack i ok delOk => exact h.transferBack i ok delOk
  | stopWorker i =>
    simp only [IngestWorld.step, stopWorker]
    split
    next hi => exact h.setWorker hi rfl
    next => exact h
  | startSweep keys =>
    simp only [IngestWorld.step]
    split <;> exact h.of_eq rfl rfl
  | reapKey j existsOk lrangeOk =>
    simp only [IngestWorld.step, reapKey]
    (repeat' split) <;> exact h.of_eq rfl rfl
  | reapEntry j touch lremOk => exact h.reapEntry j touch lremOk
  | reapTransfer j ok =>
    simp only [IngestWorld.step, reapTransfer]
    split
    next =>
      split
      next => exact h.of_eq journal_transfer (workers_transfer _ _)
      next => exact h.of_eq rfl rfl
    next => exact h
  | sweep j now selected reply =>
    simp only [IngestWorld.step, IngestWorld.sweep]
    (repeat' split) <;> exact h.of_eq rfl rfl
  | pushItem j ok =>
    simp only [IngestWorld.step, pushItem]
    split
    next => exact h.of_eq rfl rfl
    next =>
      split
      next => exact h.push.of_eq rfl rfl
      next => split <;> exact h.of_eq rfl rfl
    next => exact h
  | compensate j reply =>
    simp only [IngestWorld.step, compensate]
    (repeat' split) <;> exact h.of_eq rfl rfl
  | stopSweeper j =>
    simp only [IngestWorld.step, stopSweeper]
    split <;> exact h.of_eq rfl rfl

theorem Matched.init (uploads : List Upload) (clock : Nat) : (init uploads clock).Matched := by
  intro t p
  exact ⟨follows_nil, by simp [owed, IngestWorld.init]⟩

/-! ### Routing -/

variable (env)

/-- The payload was pushed for the tenant by the API, or is what a row of the tenant keeps of such a
payload. -/
inductive Routed (as : List IngestAction) (t : Uuid) : String → Prop
  | enqueued {p : String} (h : .enqueue t p ∈ as) : Routed as t p
  | stored {p p' : String} (h : Routed as t p) (hj : env.jsonb p = some p') : Routed as t p'

variable {env} {as : List IngestAction}

theorem Routed.mono (h : Routed env as t p) (a : IngestAction) : Routed env (as ++ [a]) t p := by
  induction h with
  | enqueued h => exact .enqueued (List.mem_append_left _ h)
  | stored h hj ih => exact .stored ih hj

theorem pushed_of_copy (h : w.Balanced) (hc : w.Copy t p) : .pushed t p ∈ w.journal := by
  have hpos : 0 < w.copies t p := by
    unfold copies
    rcases hc with hq | ⟨id, hp⟩
    · have := List.count_pos_iff.mpr hq
      omega
    · have hid : id ∈ w.workerIds := h.listed id t (List.ne_nil_of_mem hp)
      have hle := Finset.single_le_sum (f := fun id => (w.proc id t).count p)
        (fun _ _ => Nat.zero_le _) hid
      have hcount := List.count_pos_iff.mpr hp
      omega
  have hb := h.balance t p
  apply List.count_pos_iff.mp
  omega

theorem journal_lrem :
    (w.lrem key p).journal = w.journal ∨ (w.lrem key p).journal = w.journal ++ [.removed key.2 p] := by
  unfold IngestWorld.lrem
  split
  · exact .inr rfl
  · exact .inl rfl

theorem mem_pushed_lrem (h : .pushed t p ∈ (w.lrem key p').journal) : .pushed t p ∈ w.journal := by
  have hrem : (w.lrem key p').journal = w.journal ∨
      (w.lrem key p').journal = w.journal ++ [.removed key.2 p'] := journal_lrem
  rcases hrem with hj | hj
  · rw [hj] at h
    exact h
  · rw [hj, List.mem_append] at h
    simpa using h

theorem Quiet.mem_pushed (hquiet : Quiet w w') (h : .pushed t p ∈ w'.journal) :
    .pushed t p ∈ w.journal := by
  rcases hquiet.journal with hj | ⟨t', p', hj⟩
  · rw [hj] at h
    exact h
  · rw [hj, List.mem_append] at h
    simpa using h

theorem mem_pushed_push (h : .pushed t p ∈ (w.push t' p').journal) :
    .pushed t p ∈ w.journal ∨ (t = t' ∧ p = p') :=
  (List.mem_append.mp h).imp_right fun h => by simpa using h

theorem journal_lmove (i : Nat) (t' : Uuid) : (w.lmove i t').journal = w.journal := by
  unfold IngestWorld.lmove
  (repeat' split) <;> rfl

/-- A payload is pushed by the API and by the sweeps. -/
theorem mem_pushed_step (h : .pushed t p ∈ (w.step env opts a).journal) :
    .pushed t p ∈ w.journal ∨ a = .enqueue t p ∨
      ∃ (j : Nat) (x : Sweeper), w.sweepers[j]? = some x ∧
        ∃ item ∈ itemsIn x.phase, item.company = t ∧ item.payload = p := by
  have hs : ListStep env w a (w.step env opts a) := list_step a
  generalize w.step env opts a = w' at hs h
  cases hs with
  | quiet hquiet => exact .inl (hquiet.mem_pushed h)
  | enqueued hquiet =>
    refine (mem_pushed_push (hquiet.mem_pushed h)).imp_right fun hnew => .inl ?_
    rw [hnew.1, hnew.2]
  | @pushed _ j x item _ hj hitem hquiet =>
    refine (mem_pushed_push (hquiet.mem_pushed h)).imp_right fun hnew => .inr ?_
    exact ⟨j, x, hj, item, hitem, hnew.1.symm, hnew.2.symm⟩
  | taken =>
    rw [journal_lmove] at h
    exact .inl h
  | removed hu hrem hquiet => exact .inl (hu.mem_pushed (mem_pushed_lrem (hquiet.mem_pushed h)))
  | transferred hquiet =>
    have hpushed := hquiet.mem_pushed h
    rw [journal_transfer] at hpushed
    exact .inl hpushed

variable (env)

/-- The tenant and the payload that the worker took from a queue. -/
def takenIn : WorkerPhase → Option (Uuid × String)
  | .moved t p => some (t, p)
  | phase => phase.job.map fun cmd => (cmd.company, cmd.payload)

structure RouteInv (w : IngestWorld) (as : List IngestAction) : Prop where
  balanced : w.Balanced
  pushed : ∀ t p, .pushed t p ∈ w.journal → Routed env as t p
  taken : ∀ (k : Nat) (x : Worker), w.workers[k]? = some x → ∀ t p, takenIn x.phase = some (t, p) →
    Routed env as t p
  stored : ∀ r ∈ w.versions, ∀ p, r.ingestJobPayload = some p → Routed env as r.companyId p
  items : ∀ (j : Nat) (x : Sweeper), w.sweepers[j]? = some x → ∀ item ∈ itemsIn x.phase,
    Routed env as item.company item.payload

variable {env}

namespace RouteInv

variable (h : RouteInv env w as)

include h

theorem copy_routed (hc : w.Copy t p) : Routed env as t p :=
  h.pushed t p (pushed_of_copy h.balanced hc)

theorem taken_step (k : Nat) (x : Worker) (hk : (w.step env opts a).workers[k]? = some x) (t : Uuid)
    (p : String) (htp : takenIn x.phase = some (t, p)) : Routed env as t p := by
  obtain ⟨id, phase'⟩ := x
  rcases workers_step a k _ hk with hold | ⟨hidle, -⟩ | ⟨phase, hold, hps⟩
  · exact h.taken k _ hold t p htp
  · dsimp only at hidle
    subst hidle
    cases htp
  · have hsame : takenIn phase = takenIn phase' → Routed env as t p := fun heq =>
      h.taken k _ hold t p (heq ▸ htp)
    dsimp only at hps htp
    cases hps with
    | lmove hq =>
      cases htp
      exact h.copy_routed (.inl (List.mem_of_getLast? hq))
    | drop | acknowledge | transferred | fatal | stop => cases htp
    | _ => exact hsame rfl

theorem stored_step {r' : VersionRow} (hr' : r' ∈ (w.step env opts a).versions)
    (hp : r'.ingestJobPayload = some p) : Routed env as r'.companyId p := by
  obtain ⟨r, hr, hrow⟩ := exists_row_of_step hr'
  cases hrow with
  | same | enqueued | touched | tookBack => exact h.stored _ hr p hp
  | claimed hi hc hv hj ht ht' hcl =>
    dsimp only [VersionRow.claim] at hp ⊢
    subst hp
    have htaken := h.taken _ _ hi _ _ rfl
    unfold jobPayload at hj
    split at hj
    next => cases hj
    next =>
      obtain ⟨text, htext, heq⟩ := Option.map_eq_some_iff.mp hj
      cases heq
      rw [hc]
      exact .stored htaken htext
  | done | failed => cases hp
  | swept hj hat hnow hsel hl =>
    rcases sweep_cases opts _ _ r with heq | ⟨-, ⟨-, heq⟩ | ⟨message, heq⟩⟩
    · rw [heq] at hp ⊢
      exact h.stored r hr p hp
    · rw [heq] at hp ⊢
      exact h.stored r hr p hp
    · rw [heq] at hp
      cases hp

theorem items_step (j : Nat) (x : Sweeper) (hj : (w.step env opts a).sweepers[j]? = some x)
    (item : RequeueItem) (hitem : item ∈ itemsIn x.phase) :
    Routed env as item.company item.payload := by
  rcases sweepers_step a j x hj with hold | ⟨keys, rfl⟩ | ⟨y, hold, hstep⟩
  · exact h.items j x hold item hitem
  · cases hitem
  · cases hstep with
    | advanced hd hi =>
      rcases hi item hitem with hold' | ⟨r, hr, hne, rfl⟩
      · exact h.items j y hold item hold'
      · cases hp : r.ingestJobPayload with
        | none => simp [hp] at hne
        | some p => exact h.stored r hr p hp
    | deferred | touched => cases hitem

theorem step : RouteInv env (w.step env opts a) (as ++ [a]) where
  balanced := h.balanced.step a
  pushed t p hp := by
    rcases mem_pushed_step hp with hold | rfl | ⟨j, x, hj, item, hitem, rfl, rfl⟩
    · exact (h.pushed t p hold).mono a
    · exact .enqueued (by simp)
    · exact (h.items j x hj item hitem).mono a
  taken k x hk t p htp := (h.taken_step k x hk t p htp).mono a
  stored r' hr' p hp := (h.stored_step hr' hp).mono a
  items j x hj item hitem := (h.items_step j x hj item hitem).mono a

omit h in
theorem init (uploads : List Upload) (clock : Nat) : RouteInv env (.init uploads clock) [] where
  balanced := .init uploads clock
  pushed t p hp := by cases hp
  taken k x hk := by cases hk
  stored r hr p hp := by
    obtain ⟨u, -, rfl⟩ := List.mem_map.mp hr
    cases hp
  items j x hj := by cases hj

end RouteInv

end IngestWorld

open IngestWorld

/-- In every run the copies of a payload for a tenant are those pushed for it and not removed, each
removal follows a settled job of its own, no other list holds entries, and each entry of a list was
pushed for the tenant of the list. -/
theorem jobs_conserved (env : IngestExternals) (opts : PollingOptions) (uploads : List Upload)
    (clock : Nat) (as : List IngestAction) :
    let w := run (IngestWorld.step env opts) (.init uploads clock) as
    (∀ id t, w.proc id t ≠ [] → id ∈ w.workerIds) ∧
    ∀ t p, w.copies t p + w.journal.count (.removed t p) = w.journal.count (.pushed t p) ∧
      Follows w.journal (.settled t p) (.removed t p) ∧ (w.Copy t p → Routed env as t p) := by
  intro w
  have hroute : RouteInv env w as :=
    run_invariant_trace (P := fun w as => RouteInv env w as) (RouteInv.init uploads clock)
      fun _ _ _ h => h.step
  have hmatch : w.Matched := run_invariant (Matched.init uploads clock) fun _ a h => h.step a
  exact ⟨hroute.balanced.listed, fun t p => ⟨hroute.balanced.balance t p, (hmatch t p).1,
    hroute.copy_routed⟩⟩

end Wikore
