import Wikore.Ingest.ClaimToken

/-! The retry budget of a version: the count stays within `maxResumeAttempts`, and the claims stay
within one more while each of them is charged. -/

namespace Wikore

open Transition

/-- How often the version has gone from `pending` to `processing`. -/
def VersionRow.claims (r : VersionRow) : Nat := (r.history.filterMap RowEvent.issued).length

namespace IngestWorld

variable (env : IngestExternals) (opts : PollingOptions)

/-- The command of a claim whose statement runs: it does not fail, its payload is cast, and its token
is a new one. -/
def runningClaim (w : IngestWorld) : IngestAction → Option IngestDocumentVersionCmd
  | .claim i token reply =>
    match w.workers[i]? with
    | some ⟨_, .claiming cmd⟩ =>
      if reply ≠ .failed ∧ jobPayload env cmd.payload ≠ none ∧ token ∉ w.tokens then some cmd else none
    | _ => none
  | _ => none

/-- A claim that takes effect finds the earlier claims of its version within the retry count: no retry
that a compensation took back is still to be charged again. -/
def RetriesCharged (w : IngestWorld) (a : IngestAction) : Prop :=
  ∀ cmd ∈ w.runningClaim env a, ∀ r ∈ w.versions, RowOf env cmd r →
    ¬w.Locked env r.companyId r.id → r.Claimable → r.claims ≤ r.ingestRetryCount

instance (w : IngestWorld) (a : IngestAction) : Decidable (RetriesCharged env w a) := by
  unfold RetriesCharged RowOf
  infer_instance

/-- No compensation takes effect. -/
def Uncompensated (_w : IngestWorld) (a : IngestAction) : Prop :=
  ∀ j reply, a = .compensate j reply → reply = .failed

def WithinCount (w : IngestWorld) : Prop :=
  ∀ r ∈ w.versions, r.ingestRetryCount ≤ opts.maxResumeAttempts

def WithinClaims (w : IngestWorld) : Prop :=
  ∀ r ∈ w.versions, r.claims ≤ opts.maxResumeAttempts + 1

/-- Each claim but the one that is running has been charged. -/
def AllCharged (w : IngestWorld) : Prop :=
  ∀ r ∈ w.versions, (r.ingestStatus = .pending → r.claims ≤ r.ingestRetryCount) ∧
    (r.ingestStatus = .processing → r.claims ≤ r.ingestRetryCount + 1)

variable {env opts} {w w' : IngestWorld} {a : IngestAction} {r r' : VersionRow}

theorem claims_snoc {h : List RowEvent} {e : RowEvent} :
    ((h ++ [e]).filterMap RowEvent.issued).length =
      (h.filterMap RowEvent.issued).length + if e.issued = none then 0 else 1 := by
  rw [List.filterMap_append, List.length_append]
  cases he : e.issued with
  | none => simp [he]
  | some token => simp [he]

@[simp] theorem claims_claim (payload : Option String) (token : Uuid) (now : Nat) :
    (r.claim payload token now).claims = r.claims + 1 := claims_snoc

@[simp] theorem claims_requeue (now : Nat) : (r.requeue now).claims = r.claims := claims_snoc

/-- A claim that writes a row runs and finds the row unlocked. -/
theorem claim_versions {i : Nat} {token : Uuid} {reply : DbReply}
    (h : (w.claim env i token reply).versions ≠ w.versions) :
    ∃ cmd v, w.runningClaim env (.claim i token reply) = some cmd ∧
      env.uuid cmd.documentVersionId = some v ∧ ¬w.Locked env cmd.company v := by
  simp only [claim] at h
  split at h
  next id cmd hi =>
    simp only [runningClaim, hi]
    split at h
    next v payload hv hp =>
      split at h
      next => exact absurd rfl h
      next hfree =>
        obtain ⟨hlock, htoken⟩ := not_or.mp hfree
        exact ⟨cmd, v, by simp [hp, htoken], hv, hlock⟩
    next v payload hv hp =>
      split at h
      next => exact absurd rfl h
      next hfree =>
        obtain ⟨hlock, htoken⟩ := not_or.mp hfree
        exact ⟨cmd, v, by simp [hp, htoken], hv, hlock⟩
    next => exact absurd rfl h
  next => exact absurd rfl h

/-- The count of claims after a step. -/
theorem RowStep.claims (h : RowStep env opts w w' a r r') :
    r'.claims = r.claims ∨ r'.claims = r.claims + 1 ∧ r'.ingestStatus = .processing ∧
      r'.ingestRetryCount = r.ingestRetryCount ∧ r.Claimable ∧
      ∃ i token reply id cmd, a = .claim i token reply ∧
        w.workers[i]? = some ⟨id, .claiming cmd⟩ ∧ RowOf env cmd r := by
  cases h with
  | same | enqueued | touched | tookBack => exact .inl rfl
  | claimed hi hc hv hp ht ht' hr =>
    exact .inr ⟨claims_snoc, rfl, rfl, hr, _, _, _, _, _, rfl, hi, hc, hv⟩
  | done | failed => exact .inl claims_snoc
  | swept hj hat hnow hsel hl =>
    rcases sweep_cases opts _ _ r with heq | ⟨-, ⟨-, heq⟩ | ⟨message, heq⟩⟩
    · exact .inl (by rw [heq])
    · rw [heq]
      exact .inl claims_snoc
    · rw [heq]
      exact .inl claims_snoc

theorem WithinCount.step (h : WithinCount opts w) (a : IngestAction) :
    WithinCount opts (w.step env opts a) := by
  intro r' hr'
  obtain ⟨r, hr, hrow⟩ := exists_row_of_step hr'
  have hle := h r hr
  cases hrow with
  | same | enqueued | touched | claimed | done | failed => exact hle
  | tookBack => exact Nat.le_trans (Nat.sub_le _ 1) hle
  | swept hj hat hnow hsel hl =>
    rcases sweep_cases opts _ _ r with heq | ⟨-, ⟨hreq, heq⟩ | ⟨message, heq⟩⟩
    · rw [heq]
      exact hle
    · rw [heq]
      exact hreq.2
    · rw [heq]
      exact hle

theorem WithinClaims.step (hc : WithinCount opts w) (h : WithinClaims opts w)
    (hcharged : RetriesCharged env w a) : WithinClaims opts (w.step env opts a) := by
  by_cases hsame : (w.step env opts a).versions = w.versions
  · intro r hr
    exact h r (hsame ▸ hr)
  intro r' hr'
  obtain ⟨r, hr, hrow⟩ := exists_row_of_step hr'
  rcases hrow.claims with heq | ⟨heq, -, -, hcl, i, token, reply, id, cmd, rfl, hi, hof⟩
  · rw [heq]
    exact h r hr
  · obtain ⟨cmd', v, hrun, hv, hlock⟩ := claim_versions hsame
    have hcmd : cmd' = cmd := by
      simp only [runningClaim, hi] at hrun
      split at hrun
      next => exact (Option.some.inj hrun).symm
      next => cases hrun
    subst hcmd
    obtain rfl : v = r.id := Option.some.inj (hv.symm.trans hof.2)
    have hle := hcharged cmd' hrun r hr hof (hof.1.symm ▸ hlock) hcl
    have hmax := hc r hr
    omega

theorem AllCharged.step (h : AllCharged w) (hu : Uncompensated w a) :
    AllCharged (w.step env opts a) := by
  intro r' hr'
  obtain ⟨r, hr, hrow⟩ := exists_row_of_step hr'
  have hcharged := h r hr
  cases hrow with
  | same | enqueued | touched => exact hcharged
  | tookBack hreply => exact absurd (hu _ _ rfl) hreply
  | claimed hi hc hv hp ht ht' hcl =>
    refine ⟨nofun, fun _ => ?_⟩
    have hle := hcharged.1 hcl.1
    rw [claims_claim]
    exact Nat.succ_le_succ hle
  | done | failed => exact ⟨nofun, nofun⟩
  | swept hj hat hnow hsel hl =>
    rcases sweep_cases opts _ _ r with heq | ⟨hopen, ⟨-, heq⟩ | ⟨message, heq⟩⟩
    · rw [heq]
      exact hcharged
    · rw [heq]
      refine ⟨fun _ => ?_, nofun⟩
      rw [claims_requeue]
      show r.claims ≤ r.ingestRetryCount + 1
      rcases hopen with hs | hs
      · exact Nat.le_succ_of_le (hcharged.1 hs)
      · exact hcharged.2 hs
    · rw [heq]
      exact ⟨nofun, nofun⟩

end IngestWorld

open IngestWorld

/-- The retry count never exceeds the budget.  A version is claimed at most once more than the budget
in every run whose claims are charged, as they are when no compensation takes effect. -/
theorem retry_budget (env : IngestExternals) (opts : PollingOptions) (uploads : List Upload)
    (clock : Nat) (as : List IngestAction) :
    (∀ r ∈ (run (IngestWorld.step env opts) (.init uploads clock) as).versions,
      r.ingestRetryCount ≤ opts.maxResumeAttempts) ∧
    (Along (IngestWorld.step env opts) (RetriesCharged env) (.init uploads clock) as →
      ∀ r ∈ (run (IngestWorld.step env opts) (.init uploads clock) as).versions,
        r.claims ≤ opts.maxResumeAttempts + 1) ∧
    (Along (IngestWorld.step env opts) Uncompensated (.init uploads clock) as →
      Along (IngestWorld.step env opts) (RetriesCharged env) (.init uploads clock) as) := by
  have hcount : WithinCount opts (.init uploads clock) := by
    intro r hr
    obtain ⟨u, -, rfl⟩ := List.mem_map.mp hr
    exact Nat.zero_le _
  have hclaims : WithinClaims opts (.init uploads clock) := by
    intro r hr
    obtain ⟨u, -, rfl⟩ := List.mem_map.mp hr
    exact Nat.zero_le _
  have hcharged : AllCharged (.init uploads clock) := by
    intro r hr
    obtain ⟨u, -, rfl⟩ := List.mem_map.mp hr
    exact ⟨fun _ => Nat.zero_le _, fun _ => Nat.zero_le _⟩
  refine ⟨run_invariant hcount fun _ a h => h.step a, fun hrun => ?_, fun hrun => ?_⟩
  · have hboth := run_invariant_of (P := fun w => WithinCount opts w ∧ WithinClaims opts w)
      ⟨hcount, hclaims⟩ hrun fun _ a h hc => ⟨h.1.step a, h.2.step h.1 hc⟩
    exact hboth.2
  · refine along_of_invariant hcharged hrun (fun _ _ h hu => h.step hu) ?_
    intro w a h _ cmd _ r hr _ _ hcl
    exact (h r hr).1 hcl.1

/-- One life of a worker that takes the job, dies, and leaves the entry to a sweep whose pushes
fail. -/
def handbookCrash (id : String) (k : Nat) (token : Uuid) : List IngestAction :=
  [.startWorker id, .lmove k 1, .readJob k true, .claim k token .ok, .stopWorker k, .tick 16,
    .startSweep [(id, 1)], .reapKey k true true, .reapEntry k .ok true, .reapTransfer k true,
    .reapEntry k .ok true, .reapKey k true true, .sweep k (16 * (k + 1)) [7] .ok, .pushItem k false,
    .pushItem k false, .pushItem k false, .compensate k .ok, .pushItem k true]

def handbookPoison : List IngestAction :=
  .enqueue 1 handbookPayload :: (handbookCrash "a" 0 500 ++ handbookCrash "b" 1 501 ++
    handbookCrash "c" 2 502 ++ handbookCrash "d" 3 503 ++ handbookCrash "e" 4 504)

/-- The pushes of a retry fail and it is taken back, the claim of the copy that is left fails, and a
sweep charges the retry again before the next claim. -/
def handbookRetry : List IngestAction :=
  .enqueue 1 handbookPayload :: handbookCrash "a" 0 500 ++
    [.startWorker "b", .lmove 1 1, .readJob 1 true, .claim 1 501 .failed, .transferBack 1 true true,
      .tick 16, .startSweep [], .reapKey 1 true true, .sweep 1 32 [7] .ok, .pushItem 1 true,
      .startWorker "c", .lmove 2 1, .readJob 2 true, .claim 2 502 .ok]

theorem handbook_retry_charged :
    Along (IngestWorld.step handbookExternals handbookOptions) (RetriesCharged handbookExternals)
        (.init [handbookUpload] 0) handbookRetry ∧
      (run (IngestWorld.step handbookExternals handbookOptions) (.init [handbookUpload] 0)
        handbookRetry).versions.map VersionRow.claims = [2] ∧
      ∀ r ∈ (run (IngestWorld.step handbookExternals handbookOptions) (.init [handbookUpload] 0)
        handbookRetry).versions, r.claims ≤ handbookOptions.maxResumeAttempts + 1 := by
  have hrun : Along (IngestWorld.step handbookExternals handbookOptions)
      (RetriesCharged handbookExternals) (.init [handbookUpload] 0) handbookRetry := by
    decide +kernel
  refine ⟨hrun, by decide +kernel, ?_⟩
  exact (retry_budget handbookExternals handbookOptions [handbookUpload] 0 handbookRetry).2.1 hrun

theorem poison_handbook_claimed_again :
    ¬∀ r ∈ (run (IngestWorld.step handbookExternals handbookOptions) (.init [handbookUpload] 0)
      handbookPoison).versions, r.claims ≤ handbookOptions.maxResumeAttempts + 1 := by
  decide +kernel

end Wikore
