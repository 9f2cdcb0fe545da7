import Wikore.Ingest.ListSteps

/-! No job is stranded: while a version waits for its ingest, a copy of its job is in Redis or the
row holds the payload. -/

namespace Wikore

open Transition

/-- What the pipeline relies on in the JSON reader: the empty text is no job, and the reader of the
reaper, which skips the keys it does not know, accepts every job and reads the same version. -/
structure IngestExternals.Lawful (env : IngestExternals) : Prop where
  parseJob_empty : env.parseJob "" = none
  parseShape_of_parseJob : ∀ p job, env.parseJob p = some job →
    ∃ shape, env.parseShape p = some shape ∧ shape.documentVersionId = job.documentVersionId

/-- The version waits for its ingest, and a worker may claim it now or after a reset. -/
def VersionRow.Waiting (r : VersionRow) : Prop :=
  (r.lifecycleStatus = .draft ∨ r.lifecycleStatus = .deprecated) ∧
    (r.ingestStatus = .pending ∨ r.ingestStatus = .processing)

/-- The row needs no copy of the job in Redis. -/
def VersionRow.Recoverable (r : VersionRow) : Prop := r.Waiting → r.ingestJobPayload ≠ none

/-- The command of the job that the worker holds. -/
def WorkerPhase.job : WorkerPhase → Option IngestDocumentVersionCmd
  | .idle | .moved _ _ | .stopped => none
  | .claiming cmd | .claimed cmd _ | .failing cmd _ _ | .returned cmd _ | .infraFailed cmd _ =>
    some cmd
  | .writing _ uow | .marked _ uow => some uow.cmd

/-- The command of a worker that has had an answer to its claim. -/
def WorkerPhase.answered : WorkerPhase → Option IngestDocumentVersionCmd
  | .idle | .moved _ _ | .claiming _ | .infraFailed _ _ | .stopped => none
  | .claimed cmd _ | .failing cmd _ _ | .returned cmd _ => some cmd
  | .writing _ uow | .marked _ uow => some uow.cmd

namespace IngestWorld

variable {env : IngestExternals} {opts : PollingOptions} {w w' : IngestWorld} {a : IngestAction}

/-! ### Copies -/

/-- A copy of the payload is in the tenant's queue or on one of its processing lists. -/
def Copy (w : IngestWorld) (t : Uuid) (p : String) : Prop :=
  p ∈ w.queue t ∨ ∃ id, p ∈ w.proc id t

variable {t t' : Uuid} {p p' : String} {key : String × Uuid}

theorem Copy.of_eq (h : w.Copy t p) (hq : w'.queue = w.queue) (hp : w'.proc = w.proc) :
    w'.Copy t p := by
  unfold Copy
  rw [hq, hp]
  exact h

theorem Copy.push (h : w.Copy t p) : (w.push t' p').Copy t p := by
  refine h.imp (fun hq => ?_) id
  simp only [IngestWorld.push, Function.update_apply]
  split
  next ht => exact List.mem_cons_of_mem _ (ht ▸ hq)
  next => exact hq

/-- An entry of the processing lists stays when the list of `key` is replaced by `l`. -/
theorem mem_proc_update {id id' : String} {l : List String} (h : p ∈ w.proc id t)
    (hl : id = id' → t = t' → p ∈ l) :
    p ∈ Function.update w.proc id' (Function.update (w.proc id') t' l) id t := by
  by_cases hid : id = id'
  · subst hid
    rw [Function.update_self]
    by_cases ht : t = t'
    · subst ht
      rw [Function.update_self]
      exact hl rfl rfl
    · rw [Function.update_of_ne ht]
      exact h
  · rw [Function.update_of_ne hid]
    exact h

theorem mem_proc_erase {id : String} (h : p ∈ w.proc id t) (hne : key.2 ≠ t ∨ p' ≠ p) :
    p ∈ Function.update w.proc key.1
      (Function.update (w.proc key.1) key.2 ((w.proc key.1 key.2).erase p')) id t := by
  refine mem_proc_update h fun hid ht => ?_
  have hp : p ≠ p' := fun hp => hne.elim (fun hk => hk ht.symm) (fun hk => hk hp.symm)
  rw [List.mem_erase_of_ne hp, ← hid, ← ht]
  exact h

theorem Copy.lrem (h : w.Copy t p) (hne : key.2 ≠ t ∨ p' ≠ p) : (w.lrem key p').Copy t p := by
  unfold IngestWorld.lrem
  split
  next =>
    rcases h with hq | ⟨id, hp⟩
    · exact .inl hq
    · exact .inr ⟨id, mem_proc_erase hp hne⟩
  next => exact h

theorem Copy.transfer (h : w.Copy t p) : (w.transfer key p').Copy t p := by
  unfold IngestWorld.transfer
  split
  next =>
    by_cases hmoved : key.2 = t ∧ p' = p
    · -- the entry that leaves the processing list arrives in the queue
      obtain ⟨rfl, rfl⟩ := hmoved
      exact .inl (by simp)
    · rcases h with hq | ⟨id, hp⟩
      · left
        simp only [Function.update_apply]
        split
        next ht => exact List.mem_cons_of_mem _ (ht ▸ hq)
        next => exact hq
      · exact .inr ⟨id, mem_proc_erase hp (by tauto)⟩
  next => exact h

theorem Copy.lmove (h : w.Copy t p) (i : Nat) (t' : Uuid) : (w.lmove i t').Copy t p := by
  unfold IngestWorld.lmove
  split
  next id hi =>
    split
    next q hq =>
      rcases h with hp | ⟨id', hp⟩
      · by_cases ht : t = t'
        · subst ht
          rw [← List.dropLast_append_getLast? q hq] at hp
          rcases List.mem_append.mp hp with hp | hp
          · exact .inl (by simpa using hp)
          · obtain rfl : p = q := List.mem_singleton.mp hp
            exact .inr ⟨id, by simp⟩
        · exact .inl (by simpa [Function.update_of_ne ht] using hp)
      · refine .inr ⟨id', mem_proc_update hp fun hid ht => ?_⟩
        subst hid ht
        exact List.mem_cons_of_mem _ hp
    next => exact h
  next => exact h

theorem Copy.quiet (h : w.Copy t p) (hquiet : Quiet w w') : w'.Copy t p :=
  h.of_eq hquiet.queue hquiet.proc

/-- A copy survives every step but the removals. -/
theorem Copy.step (h : w.Copy t p) (a : IngestAction) :
    (w.step env opts a).Copy t p ∨ Removal env w a t p := by
  have hs : ListStep env w a (w.step env opts a) := list_step a
  generalize w.step env opts a = w' at hs ⊢
  cases hs with
  | quiet hquiet => exact .inl (h.quiet hquiet)
  | enqueued hquiet => exact .inl (h.push.quiet hquiet)
  | pushed hj hitem hquiet => exact .inl (h.push.quiet hquiet)
  | taken => exact .inl (h.lmove _ _)
  | @removed _ u _ key q hu hrem hquiet =>
    by_cases hlast : key.2 = t ∧ q = p
    · obtain ⟨rfl, rfl⟩ := hlast
      exact .inr hrem
    · have hne : key.2 ≠ t ∨ q ≠ p := by tauto
      exact .inl (((h.quiet hu).lrem hne).quiet hquiet)
  | transferred hquiet => exact .inl (h.transfer.quiet hquiet)

/-! ### The invariant -/

variable (env)

/-- A copy of a job of the version is in Redis. -/
def HasCopy (w : IngestWorld) (r : VersionRow) : Prop :=
  ∃ p, Names env p r.id ∧ w.Copy r.companyId p

/-- The command carries the job of its payload. -/
def OfPayload (cmd : IngestDocumentVersionCmd) : Prop :=
  ∃ job, env.parseJob cmd.payload = some job ∧ cmd.documentVersionId = job.documentVersionId

structure KeptInv (w : IngestWorld) : Prop where
  jobs : ∀ (k : Nat) (x : Worker), w.workers[k]? = some x → ∀ cmd ∈ x.phase.job, OfPayload env cmd
  processing : ∀ r ∈ w.versions, r.ingestStatus = .processing → r.ingestJobPayload ≠ none
  answered : ∀ (k : Nat) (x : Worker), w.workers[k]? = some x → ∀ cmd ∈ x.phase.answered,
    ∀ r ∈ w.versions, RowOf env cmd r → r.Recoverable
  kept : ∀ r ∈ w.versions, r.enqueued = true → r.Recoverable ∨ w.HasCopy env r

variable {env}

/-- A claim writes the payload that the worker read its job from. -/
theorem jobPayload_ne_none (hext : env.Lawful) {cmd : IngestDocumentVersionCmd}
    (hcmd : OfPayload env cmd) {payload : Option String}
    (hp : jobPayload env cmd.payload = some payload) : payload ≠ none := by
  obtain ⟨job, hjob, -⟩ := hcmd
  have hne : cmd.payload ≠ "" := by
    intro he
    rw [he, hext.parseJob_empty] at hjob
    cases hjob
  rw [jobPayload, if_neg hne] at hp
  obtain ⟨text, -, rfl⟩ := Option.map_eq_some_iff.mp hp
  simp

namespace KeptInv

variable (h : KeptInv env w)

include h

/-- The payload that a claim stores is there. -/
theorem claimed_payload (hext : env.Lawful) {i : Nat} {id : String}
    {cmd : IngestDocumentVersionCmd} {payload : Option String}
    (hi : w.workers[i]? = some ⟨id, .claiming cmd⟩)
    (hp : jobPayload env cmd.payload = some payload) : payload ≠ none :=
  jobPayload_ne_none hext (h.jobs i _ hi cmd rfl) hp

theorem processing_step (hext : env.Lawful) {r r' : VersionRow} (hr : r ∈ w.versions)
    (hstep : RowStep env opts w w' a r r') (hs : r'.ingestStatus = .processing) :
    r'.ingestJobPayload ≠ none := by
  cases hstep with
  | claimed hi hc hv hp ht ht' hcl => exact h.claimed_payload hext hi hp
  | swept hj hat hnow hsel hl =>
    rcases sweep_cases opts _ _ r with heq | ⟨-, ⟨-, heq⟩ | ⟨message, heq⟩⟩
    · rw [heq] at hs ⊢
      exact h.processing r hr hs
    · rw [heq] at hs
      cases hs
    · rw [heq] at hs
      cases hs
  | done hi hc hv hfree => cases hs
  | failed hi hl ht => cases hs
  | same | enqueued | touched | tookBack => exact h.processing r hr hs

/-- A row that needs no copy never comes to need one. -/
theorem recoverable_step (hext : env.Lawful) {r r' : VersionRow} (hr : r.Recoverable)
    (hstep : RowStep env opts w w' a r r') : r'.Recoverable := by
  intro hw
  cases hstep with
  | claimed hi hc hv hp ht ht' hcl => exact h.claimed_payload hext hi hp
  | swept hj hat hnow hsel hl =>
    rcases sweep_cases opts _ _ r with heq | ⟨hopen, ⟨-, heq⟩ | ⟨message, heq⟩⟩
    · rw [heq] at hw ⊢
      exact hr hw
    · rw [heq] at hw ⊢
      exact hr ⟨hw.1, hopen⟩
    · rw [heq] at hw
      simp [VersionRow.Waiting, VersionRow.promote] at hw
  | done hi hc hv hfree => simp [VersionRow.Waiting, VersionRow.markDone] at hw
  | failed hi hl ht => simp [VersionRow.Waiting, VersionRow.setError] at hw
  | same | enqueued | touched | tookBack => exact hr hw

/-- A row that no worker can claim needs no copy. -/
theorem recoverable_of_not_claimable {r : VersionRow} (hr : r ∈ w.versions) (hc : ¬r.Claimable) :
    r.Recoverable := by
  intro hw
  apply h.processing r hr
  rcases hw.2 with hs | hs
  · exact absurd ⟨hs, hw.1⟩ hc
  · exact hs

theorem jobs_step (k : Nat) (x : Worker) (hk : (w.step env opts a).workers[k]? = some x)
    (cmd : IngestDocumentVersionCmd) (hcmd : cmd ∈ x.phase.job) : OfPayload env cmd := by
  obtain ⟨id, phase'⟩ := x
  rcases workers_step a k _ hk with hold | ⟨hidle, -⟩ | ⟨phase, hold, hps⟩
  · exact h.jobs k _ hold cmd hcmd
  · dsimp only at hidle
    subst hidle
    cases hcmd
  · have hjob : phase.job = phase'.job → OfPayload env cmd := fun heq =>
      h.jobs k _ hold cmd (heq ▸ hcmd)
    dsimp only at hps hcmd
    cases hps with
    | read hp =>
      cases hcmd
      exact ⟨_, hp, rfl⟩
    | lmove | drop | acknowledge | transferred | fatal | stop => cases hcmd
    | _ => exact hjob rfl

/-- After a claim that took effect, the row of the command holds the payload or is not open. -/
theorem recoverable_of_claim {cmd : IngestDocumentVersionCmd} {token v : Uuid}
    {payload : Option String} {r' : VersionRow} (hne : payload ≠ none)
    (hv : env.uuid cmd.documentVersionId = some v)
    (hr' : r' ∈ updateVersion cmd.company v (fun r => r.Claimable)
      (VersionRow.claim payload token w.clock) w.versions)
    (hof : RowOf env cmd r') : r'.Recoverable := by
  obtain ⟨r, hr, rfl⟩ := List.mem_map.mp hr'
  split at hof
  next hm =>
    rw [if_pos hm]
    exact fun _ => hne
  next hm =>
    rw [if_neg hm]
    apply h.recoverable_of_not_claimable hr
    intro hc
    have hid : r.id = v := Option.some.inj (hof.2.symm.trans hv)
    exact hm ⟨hof.1, hid, by simpa using hc⟩

theorem answered_step (hext : env.Lawful) (k : Nat) (x : Worker)
    (hk : (w.step env opts a).workers[k]? = some x) (cmd : IngestDocumentVersionCmd)
    (hcmd : cmd ∈ x.phase.answered) (r' : VersionRow) (hr' : r' ∈ (w.step env opts a).versions)
    (hof' : RowOf env cmd r') : r'.Recoverable := by
  obtain ⟨id, phase'⟩ := x
  obtain ⟨r, hr, hrow⟩ := exists_row_of_step hr'
  have hof : RowOf env cmd r := by
    obtain ⟨hid, hc, -⟩ := hrow.key
    exact ⟨hc ▸ hof'.1, hid ▸ hof'.2⟩
  have hold : ∀ phase, w.workers[k]? = some ⟨id, phase⟩ → phase.answered = phase'.answered →
      r'.Recoverable := fun phase hk heq =>
    h.recoverable_step hext (h.answered k _ hk cmd (heq ▸ hcmd) r hr hof) hrow
  rcases workers_step a k _ hk with hsame | ⟨hidle, -⟩ | ⟨phase, hphase, hps⟩
  · exact hold _ hsame rfl
  · dsimp only at hidle
    subst hidle
    cases hcmd
  · dsimp only at hps hcmd
    cases hps with
    | claim hv hp hrows =>
      cases hcmd
      rw [hrows] at hr'
      exact h.recoverable_of_claim (h.claimed_payload hext hphase hp) hv hr' hof'
    | duplicate hv hm =>
      cases hcmd
      -- the claim found no row, so the row of the command is one that no worker can claim
      refine h.recoverable_step hext (h.recoverable_of_not_claimable hr fun hc => hm ?_) hrow
      refine List.any_eq_true.mpr ⟨r, hr, ?_⟩
      have hid : r.id = _ := Option.some.inj (hof.2.symm.trans hv)
      simp [hof.1, hid, hc]
    | lmove | read | drop | claimError | commitError | errorFailed | acknowledge | transferred
    | retry | fatal | stop => cases hcmd
    | _ => exact hold _ hphase rfl

/-- The steps that take a copy of a job away leave a row that needs none. -/
theorem recoverable_of_removal (hext : env.Lawful) {r : VersionRow} {p : String}
    (hr : r ∈ w.versions) (hn : Names env p r.id) (hrem : Removal env w a r.companyId p) :
    r.Recoverable := by
  obtain ⟨job, hjob, hv⟩ := hn
  generalize hc : r.companyId = t at hrem
  cases hrem with
  | malformed hp =>
    rw [Option.mem_def, hp] at hjob
    cases hjob
  | unreadable hp =>
    obtain ⟨shape, hshape, -⟩ := hext.parseShape_of_parseJob p job hjob
    rw [hp] at hshape
    cases hshape
  | acknowledged hi =>
    obtain ⟨job', hjob', hid⟩ := h.jobs _ _ hi _ rfl
    obtain rfl : job' = job := Option.some.inj (hjob'.symm.trans hjob)
    exact h.answered _ _ hi _ rfl r hr ⟨hc, hid ▸ hv⟩

theorem kept_step (hext : env.Lawful) {r r' : VersionRow} (hr : r ∈ w.versions)
    (hrow : RowStep env opts w (w.step env opts a) a r r') (hq : r'.enqueued = true) :
    r'.Recoverable ∨ (w.step env opts a).HasCopy env r' := by
  have hold : r.enqueued = true → r'.Recoverable ∨ (w.step env opts a).HasCopy env r' := by
    intro hq
    rcases h.kept r hr hq with hrec | ⟨p, hn, hcopy⟩
    · exact .inl (h.recoverable_step hext hrec hrow)
    · rcases hcopy.step a with hcopy | hrem
      · obtain ⟨hid, hc, -⟩ := hrow.key
        exact .inr ⟨p, hid ▸ hn, hc ▸ hcopy⟩
      · exact .inl (h.recoverable_step hext (h.recoverable_of_removal hext hr hn hrem) hrow)
  cases hrow with
  | enqueued ht hn => exact .inr ⟨_, hn, .inl (by simp [step, enqueue, push, ht])⟩
  | swept hj hat hnow hsel hl =>
    rcases sweep_cases opts _ _ r with heq | ⟨-, ⟨-, heq⟩ | ⟨message, heq⟩⟩
    · exact hold (heq ▸ hq)
    · rw [heq] at hq
      exact hold hq
    · rw [heq] at hq
      exact hold hq
  | _ => exact hold hq

theorem step (hext : env.Lawful) : KeptInv env (w.step env opts a) where
  jobs := h.jobs_step
  processing r' hr' hs := by
    obtain ⟨r, hr, hrow⟩ := exists_row_of_step hr'
    exact h.processing_step hext hr hrow hs
  answered := h.answered_step hext
  kept r' hr' hq := by
    obtain ⟨r, hr, hrow⟩ := exists_row_of_step hr'
    exact h.kept_step hext hr hrow hq

omit h in
theorem init (uploads : List Upload) (clock : Nat) : KeptInv env (.init uploads clock) where
  jobs k x hk := by cases hk
  processing r hr hs := by
    obtain ⟨u, -, rfl⟩ := List.mem_map.mp hr
    cases hs
  answered k x hk := by cases hk
  kept r hr hq := by
    obtain ⟨u, -, rfl⟩ := List.mem_map.mp hr
    cases hq

end KeptInv

end IngestWorld

open IngestWorld

/-- A version that waits for its ingest, and for which a job was pushed to the queue of its tenant,
always has a copy of the job in Redis or the payload in its row. -/
theorem ingest_never_stranded (env : IngestExternals) (hext : env.Lawful) (opts : PollingOptions)
    (uploads : List Upload) (clock : Nat) (as : List IngestAction) (r : VersionRow)
    (hr : r ∈ (run (IngestWorld.step env opts) (.init uploads clock) as).versions)
    (hq : r.enqueued = true)
    (hlife : r.lifecycleStatus = .draft ∨ r.lifecycleStatus = .deprecated)
    (hs : r.ingestStatus = .pending ∨ r.ingestStatus = .processing) :
    (run (IngestWorld.step env opts) (.init uploads clock) as).HasCopy env r ∨
      r.ingestJobPayload ≠ none := by
  have h : KeptInv env (run (IngestWorld.step env opts) (.init uploads clock) as) :=
    run_invariant (KeptInv.init uploads clock) fun _ _ h => h.step hext
  rcases h.kept r hr hq with hrec | hcopy
  · exact .inr (hrec ⟨hlife, hs⟩)
  · exact .inl hcopy

theorem handbookExternals_lawful : handbookExternals.Lawful where
  parseJob_empty := by decide
  parseShape_of_parseJob p job h := by
    simp only [handbookExternals] at h ⊢
    split at h
    next hp =>
      cases h
      exact ⟨_, if_pos hp, rfl⟩
    next => cases h

/-- The job is pushed, and the worker that takes it from the queue dies before its claim. -/
def handbookOrphaned : List IngestAction :=
  [.enqueue 1 handbookPayload, .startWorker "w1", .lmove 0 1, .readJob 0 true, .stopWorker 0]

theorem handbook_orphan_kept :
    ∃ r ∈ (run (IngestWorld.step handbookExternals handbookOptions) (.init [handbookUpload] 0)
        handbookOrphaned).versions,
      r.id = 7 ∧ r.ingestStatus = .pending ∧
      ((run (IngestWorld.step handbookExternals handbookOptions) (.init [handbookUpload] 0)
        handbookOrphaned).HasCopy handbookExternals r ∨ r.ingestJobPayload ≠ none) := by
  obtain ⟨r, hr, hid, hs, hlife, hq⟩ :
      ∃ r ∈ (run (IngestWorld.step handbookExternals handbookOptions) (.init [handbookUpload] 0)
        handbookOrphaned).versions,
        r.id = 7 ∧ r.ingestStatus = .pending ∧ r.lifecycleStatus = .draft ∧ r.enqueued = true := by
    decide
  exact ⟨r, hr, hid, hs, ingest_never_stranded _ handbookExternals_lawful _ _ _ _ r hr hq
    (.inl hlife) (.inl hs)⟩

end Wikore
