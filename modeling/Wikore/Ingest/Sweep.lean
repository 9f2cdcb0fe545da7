import Wikore.Ingest.Stranding

/-! When a sweep gives a pending version up for want of a job: exactly which transactions do so while
the job is still in Redis, and what the reaper of the sweep protects. -/

namespace Wikore

open Transition

/-- The message of sweep 1 for a row without a payload. -/
def noJobMessage : String :=
  "stuck pending; no ingest job materialized (api crash before LPUSH, or worker crashed before " ++
    "persisting payload). Re-trigger the upload."

theorem pendingError_eq_noJob {r : VersionRow} :
    r.pendingError = noJobMessage ↔ r.ingestJobPayload.getD "" = "" := by
  unfold VersionRow.pendingError
  split
  next h => exact iff_of_true rfl h
  next h => exact iff_of_false (by decide) h

/-- Sweep 1 gives a pending row up for want of a job when it is stale, not deferred and without a
payload. -/
theorem sweep_noJob_iff {opts : PollingOptions} {now : Nat} {deferred : List String}
    {r : VersionRow} (hs : r.ingestStatus = .pending) :
    (r.sweep opts now deferred).ingestStatus = .error ∧
        (r.sweep opts now deferred).errorMsg = some noJobMessage ↔
      r.Stale opts now ∧ Uuid.text r.id ∉ deferred ∧ r.ingestJobPayload.getD "" = "" := by
  unfold VersionRow.sweep
  by_cases hstale : r.Stale opts now
  · rw [if_pos hstale, hs]
    dsimp only
    by_cases hd : Uuid.text r.id ∈ deferred
    · simp [hd, hs]
    · by_cases hreq : r.CanRequeue opts
      · simp [hd, hreq, hreq.1, VersionRow.requeue]
      · simp [hd, hreq, hstale, VersionRow.promote, pendingError_eq_noJob]
  · simp [hstale, hs]

namespace IngestWorld

variable (env : IngestExternals) (opts : PollingOptions) (w : IngestWorld)

/-- The transaction of sweeps 1 and 2 runs and is not rolled back. -/
structure Commits (j now : Nat) (selected : List Uuid) (reply : DbReply) (x : Sweeper)
    (deferred : List String) : Prop where
  sweeping : w.sweepers[j]? = some x ∧ x.phase = .sweeping deferred
  since : x.startedAt ≤ now
  past : now ≤ w.clock
  unlocked : ∀ r ∈ w.versions, r.id ∈ selected → ¬w.Locked env r.companyId r.id
  kept : reply ≠ .failed

/-- A sweep takes a version from `pending` to `error` for want of a job while a copy of a job of the
version is in Redis. -/
def Premature (a : IngestAction) : Prop :=
  ∃ j now selected reply, a = .sweep j now selected reply ∧
    ∃ (k : Nat) (r r' : VersionRow), w.versions[k]? = some r ∧
      (w.step env opts a).versions[k]? = some r' ∧ r.ingestStatus = .pending ∧
      r'.ingestStatus = .error ∧ r'.errorMsg = some noJobMessage ∧ w.HasCopy env r

/-- Every pending version without a payload that the transaction selects although a copy of its job
is in Redis was updated in the last `stuckThreshold`, or the touch of an entry that spells it
canonically has failed in this sweep. -/
def JobsAwaited (a : IngestAction) : Prop :=
  ∀ j now selected reply, a = .sweep j now selected reply →
    ∀ x deferred, w.Commits env j now selected reply x deferred →
      ∀ r ∈ w.versions, r.id ∈ selected → r.ingestStatus = .pending →
        r.ingestJobPayload.getD "" = "" → w.HasCopy env r →
        ¬r.Stale opts now ∨ ∃ t, ⟨t, Uuid.text r.id, false⟩ ∈ x.examined

variable {env opts w} {w' : IngestWorld} {a : IngestAction}

theorem Commits.versions {j now : Nat} {selected : List Uuid} {reply : DbReply} {x : Sweeper}
    {deferred : List String} (h : w.Commits env j now selected reply x deferred) :
    (w.step env opts (.sweep j now selected reply)).versions =
      w.versions.map fun r => if r.id ∈ selected then r.sweep opts now deferred else r := by
  obtain ⟨⟨hj, hphase⟩, hsince, hpast, hunlocked, hkept⟩ := h
  obtain ⟨at_, examined, phase⟩ := x
  dsimp only at hphase hsince
  subst hphase
  simp only [step, sweep, hj]
  rw [if_pos ⟨⟨hsince, hpast⟩, hunlocked⟩]
  cases reply with
  | ok => rfl
  | lost => rfl
  | failed => exact absurd rfl hkept

/-- A sweep that changes a row commits. -/
theorem commits_of_changed {j now : Nat} {selected : List Uuid} {reply : DbReply}
    (h : (w.step env opts (.sweep j now selected reply)).versions ≠ w.versions) :
    ∃ x deferred, w.Commits env j now selected reply x deferred := by
  simp only [step, sweep] at h
  split at h
  next at_ examined deferred hj =>
    split at h
    next hguard =>
      refine ⟨_, deferred, ⟨hj, rfl⟩, hguard.1.1, hguard.1.2, hguard.2, ?_⟩
      rintro rfl
      exact h rfl
    next => exact absurd rfl h
  next => exact absurd rfl h

/-! ### What the reaper leaves -/

variable (env)

/-- The entries that the reaper of a running sweep has met: those that it could not touch are
deferred, and the rows of the others have been updated since the sweep began. -/
structure ReapInv (w : IngestWorld) : Prop where
  started : ∀ (k : Nat) (x : Sweeper), w.sweepers[k]? = some x → x.startedAt ≤ w.clock
  deferred : ∀ (k : Nat) (x : Sweeper), w.sweepers[k]? = some x → ∀ ids ∈ deferredIn x.phase,
    ∀ s, s ∈ ids ↔ ∃ t, ⟨t, s, false⟩ ∈ x.examined
  fresh : ∀ (k : Nat) (x : Sweeper), w.sweepers[k]? = some x → ∀ t s, ⟨t, s, true⟩ ∈ x.examined →
    ∀ r ∈ w.versions, r.companyId = t → env.uuid s = some r.id → r.ingestStatus = .pending →
      r.ingestJobPayload.getD "" = "" → x.startedAt ≤ r.updatedAt

variable {env}

/-- A row that is pending without a payload was so before, and was updated now or not at all. -/
theorem RowStep.updatedAt {r r' : VersionRow} (h : RowStep env opts w w' a r r')
    (hs : r'.ingestStatus = .pending) (hp : r'.ingestJobPayload.getD "" = "") :
    (r.ingestStatus = .pending ∧ r.ingestJobPayload.getD "" = "") ∧
      (r'.updatedAt = r.updatedAt ∨ r'.updatedAt = w.clock) := by
  cases h with
  | same | enqueued => exact ⟨⟨hs, hp⟩, .inl rfl⟩
  | touched | tookBack => exact ⟨⟨hs, hp⟩, .inr rfl⟩
  | claimed | done | failed => cases hs
  | swept hj hat hnow hsel hl =>
    rcases sweep_cases opts _ _ r with heq | ⟨-, ⟨hreq, heq⟩ | ⟨message, heq⟩⟩
    · rw [heq] at hs hp ⊢
      exact ⟨⟨hs, hp⟩, .inl rfl⟩
    · rw [heq] at hp
      exact absurd hp hreq.1
    · rw [heq] at hs
      cases hs

namespace ReapInv

variable (h : ReapInv env w)

include h

theorem fresh_kept {k : Nat} {x : Sweeper} (hk : w.sweepers[k]? = some x) {t : Uuid} {s : String}
    (hx : ⟨t, s, true⟩ ∈ x.examined) {r' : VersionRow}
    (hr' : r' ∈ (w.step env opts a).versions) (ht : r'.companyId = t)
    (hv : env.uuid s = some r'.id) (hs : r'.ingestStatus = .pending)
    (hp : r'.ingestJobPayload.getD "" = "") : x.startedAt ≤ r'.updatedAt := by
  obtain ⟨r, hr, hrow⟩ := exists_row_of_step hr'
  obtain ⟨hid, hc, -⟩ := hrow.key
  obtain ⟨⟨hs, hp⟩, hat | hat⟩ := hrow.updatedAt hs hp
  · rw [hat]
    exact h.fresh k x hk t s hx r hr (hc ▸ ht) (hid ▸ hv) hs hp
  · rw [hat]
    exact h.started k x hk

theorem step : ReapInv env (w.step env opts a) where
  started k x' hk' := by
    have hclock : w.clock ≤ (w.step env opts a).clock := clock_step a
    rcases sweepers_step a k x' hk' with hk | ⟨keys, rfl⟩ | ⟨x, hk, hstep⟩
    · exact Nat.le_trans (h.started k x' hk) hclock
    · exact hclock
    · have hat : x'.startedAt = x.startedAt := by cases hstep <;> rfl
      rw [hat]
      exact Nat.le_trans (h.started k x hk) hclock
  deferred k x' hk' ids hids s := by
    rcases sweepers_step a k x' hk' with hk | ⟨keys, rfl⟩ | ⟨x, hk, hstep⟩
    · exact h.deferred k x' hk ids hids s
    · cases hids
      simp
    · cases hstep with
      | advanced hd hi => exact h.deferred k x hk ids (hd ids hids) s
      | deferred =>
        cases hids
        rw [List.mem_append, h.deferred k _ hk _ rfl s, List.mem_singleton]
        simp [or_comm, exists_or]
      | touched hv hrows =>
        cases hids
        rw [h.deferred k _ hk _ rfl s]
        simp
  fresh k x' hk' t s hx r' hr' ht hv hs hp := by
    rcases sweepers_step a k x' hk' with hk | ⟨keys, rfl⟩ | ⟨x, hk, hstep⟩
    · exact h.fresh_kept hk hx hr' ht hv hs hp
    · cases hx
    · cases hstep with
      | advanced hd hi => exact h.fresh_kept hk hx hr' ht hv hs hp
      | deferred =>
        rcases List.mem_cons.mp hx with heq | hx
        · cases heq
        · exact h.fresh_kept hk hx hr' ht hv hs hp
      | touched hv' hrows =>
        rcases List.mem_cons.mp hx with heq | hx
        · cases heq
          -- the row that was just touched
          rw [hrows] at hr'
          obtain ⟨r, hr, rfl⟩ := List.mem_map.mp hr'
          split at hs
          next hm =>
            rw [if_pos hm]
            have hat := h.started k _ hk
            exact hat
          next hm =>
            rw [if_neg hm] at ht hv
            have hid : r.id = _ := Option.some.inj (hv.symm.trans hv')
            exact absurd ⟨ht, hid, by simpa using hs⟩ hm
        · exact h.fresh_kept hk hx hr' ht hv hs hp

omit h in
theorem init (uploads : List Upload) (clock : Nat) : ReapInv env (.init uploads clock) where
  started k x hk := by cases hk
  deferred k x hk := by cases hk
  fresh k x hk := by cases hk

/-- A sweep gives no version up that has its job in Redis if and only if each of them is
awaited. -/
theorem not_premature_iff : ¬w.Premature env opts a ↔ w.JobsAwaited env opts a := by
  constructor
  · intro hnot j now selected reply ha x deferred hc r hr hsel hs hp hcopy
    by_contra hwait
    obtain ⟨hstale, hlate⟩ := not_or.mp hwait
    have hd : Uuid.text r.id ∉ deferred := fun hd =>
      hlate ((h.deferred j x hc.sweeping.1 deferred (by simp [hc.sweeping.2, deferredIn]) _).mp hd)
    obtain ⟨herr, hmsg⟩ := (sweep_noJob_iff hs).mpr ⟨not_not.mp hstale, hd, hp⟩
    obtain ⟨k, hk⟩ := List.mem_iff_getElem?.mp hr
    refine hnot ⟨j, now, selected, reply, ha, k, r, r.sweep opts now deferred, hk, ?_, hs, herr, hmsg,
      hcopy⟩
    rw [ha, hc.versions, List.getElem?_map, hk]
    simp [hsel]
  · rintro hwait ⟨j, now, selected, reply, ha, k, r, r', hk, hk', hs, hs', hmsg, hcopy⟩
    subst ha
    have hne : r' ≠ r := by
      rintro rfl
      rw [hs] at hs'
      cases hs'
    obtain ⟨x, deferred, hc⟩ := commits_of_changed (fun heq : (w.step env opts _).versions = _ => by
      rw [heq, hk] at hk'
      exact hne (Option.some.inj hk').symm)
    rw [hc.versions, List.getElem?_map, hk, Option.map_some] at hk'
    have hr' := Option.some.inj hk'
    by_cases hsel : r.id ∈ selected
    · rw [if_pos hsel] at hr'
      subst hr'
      obtain ⟨hstale, hd, hp⟩ := (sweep_noJob_iff hs).mp ⟨hs', hmsg⟩
      rcases hwait j now selected reply rfl x deferred hc r (List.mem_of_getElem? hk) hsel hs hp hcopy
        with hfresh | hlate
      · exact hfresh hstale
      · exact hd ((h.deferred j x hc.sweeping.1 deferred
          (by simp [hc.sweeping.2, deferredIn]) _).mpr hlate)
    · rw [if_neg hsel] at hr'
      exact hne hr'.symm

end ReapInv

end IngestWorld

open IngestWorld

/-- The runs in which no sweep gives up a version that has its job in Redis. -/
theorem sweep_never_premature_iff (env : IngestExternals) (opts : PollingOptions)
    (uploads : List Upload) (clock : Nat) (as : List IngestAction) :
    Along (IngestWorld.step env opts) (fun w a => ¬w.Premature env opts a) (.init uploads clock) as ↔
      Along (IngestWorld.step env opts) (fun w a => w.JobsAwaited env opts a) (.init uploads clock)
        as :=
  along_iff_of_invariant (ReapInv.init uploads clock) (fun _ _ h => h.step)
    fun _ _ h => h.not_premature_iff

/-- The job of the upload waits in the queue for longer than the threshold. -/
def handbookBacklog : List IngestAction :=
  [.enqueue 1 handbookPayload, .tick 16, .startSweep [], .reapKey 0 true true, .sweep 0 16 [7] .ok]

theorem queued_handbook_given_up :
    ¬Along (IngestWorld.step handbookExternals handbookOptions)
      (fun w a => ¬w.Premature handbookExternals handbookOptions a) (.init [handbookUpload] 0)
      handbookBacklog := by
  intro h
  obtain ⟨-, -, -, -, hlast, -⟩ := h
  let w := run (IngestWorld.step handbookExternals handbookOptions) (.init [handbookUpload] 0)
    [.enqueue 1 handbookPayload, .tick 16, .startSweep [], .reapKey 0 true true]
  let w' := w.step handbookExternals handbookOptions (.sweep 0 16 [7] .ok)
  have hbefore : (w.versions[0]?).map (fun r => (r.id, r.companyId, r.ingestStatus)) =
      some (7, 1, .pending) := by decide
  have hafter : (w'.versions[0]?).map (fun r => (r.ingestStatus, r.errorMsg)) =
      some (.error, some noJobMessage) := by decide
  obtain ⟨r, hr, hkey⟩ := Option.map_eq_some_iff.mp hbefore
  obtain ⟨r', hr', hend⟩ := Option.map_eq_some_iff.mp hafter
  obtain ⟨hid, hkey⟩ := Prod.mk.inj hkey
  obtain ⟨hc, hs⟩ := Prod.mk.inj hkey
  obtain ⟨hs', hmsg⟩ := Prod.mk.inj hend
  refine hlast ⟨0, 16, [7], .ok, rfl, 0, r, r', hr, hr', hs, hs', hmsg, handbookPayload, ?_, ?_⟩
  · rw [hid]
    decide
  · rw [hc]
    have hq : handbookPayload ∈ w.queue 1 := by decide
    exact .inl hq

/-- A sweep that lasts no longer than the threshold spares every version that its reaper has met
under its canonical text on a processing list of its tenant. -/
theorem reaped_spared {env : IngestExternals} (huuid : ∀ v, env.uuid (Uuid.text v) = some v)
    {opts : PollingOptions} {uploads : List Upload} {clock : Nat} {as : List IngestAction}
    {w : IngestWorld} (hw : w = run (IngestWorld.step env opts) (.init uploads clock) as)
    {j now : Nat} {selected : List Uuid} {reply : DbReply} {x : Sweeper} {deferred : List String}
    (hc : w.Commits env j now selected reply x deferred)
    (hshort : now ≤ x.startedAt + opts.stuckThreshold) {r : VersionRow} (hr : r ∈ w.versions)
    (hs : r.ingestStatus = .pending) (hp : r.ingestJobPayload.getD "" = "") {touched : Bool}
    (hx : ⟨r.companyId, Uuid.text r.id, touched⟩ ∈ x.examined) :
    r.sweep opts now deferred = r := by
  have h : ReapInv env w := hw ▸ run_invariant (ReapInv.init uploads clock) fun _ _ h => h.step
  cases touched with
  | true =>
    have hfresh := h.fresh j x hc.sweeping.1 _ _ hx r hr rfl (huuid r.id) hs hp
    have hstale : ¬r.Stale opts now := by
      unfold VersionRow.Stale
      omega
    rw [VersionRow.sweep, if_neg hstale]
  | false =>
    have hd : Uuid.text r.id ∈ deferred :=
      (h.deferred j x hc.sweeping.1 deferred (by simp [hc.sweeping.2, deferredIn]) _).mpr ⟨_, hx⟩
    rw [VersionRow.sweep, hs]
    dsimp only
    rw [if_pos hd, ite_self]

end Wikore
