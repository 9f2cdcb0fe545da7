import Wikore.Scheduler.Outbox

/-! The life of an outbox event over any run of its consumers: its attempts stay within the budget
and are paid for by failures, and its claim belongs to the worker that took it while no worker marks
an event that another has claimed since. -/

namespace Wikore

open Transition

namespace OutboxWorld

variable {c : OutboxConsumer} {opts : OutboxOptions} {w w' : OutboxWorld} {a : OutboxAction}
  {e e' : OutboxEvent}

/-! ### Attempts -/

/-- The attempt that no failure has paid for: that of a claim, running or completed. -/
def unpaid (e : OutboxEvent) : Nat := if e.claimedAt = none ∧ e.completedAt = none then 0 else 1

structure EventOk (opts : OutboxOptions) (e : OutboxEvent) : Prop where
  attempts : e.attemptCount ≤ opts.maxAttempts
  claimed : e.claimedAt ≠ none → 1 ≤ e.attemptCount
  paid : e.attemptCount ≤ e.failures + unpaid e
  owner : e.completedAt = none → (e.claimedBy = none ↔ e.claimedAt = none)
  done : e.completedAt ≠ none → e.claimedAt = none

theorem EventOk.fresh (h : e.Fresh) : EventOk opts e := by
  obtain ⟨hat, hby, hdone, hcount, -, -⟩ := h
  constructor <;> simp [hat, hby, hdone, hcount]

theorem unpaid_open (hat : e.claimedAt = none) (hdone : e.completedAt = none) : unpaid e = 0 := by
  rw [unpaid, if_pos ⟨hat, hdone⟩]

theorem unpaid_le_one : unpaid e ≤ 1 := by
  unfold unpaid
  split <;> omega

/-- Giving a claim back takes its attempt back. -/
theorem EventOk.giveBack (h : EventOk opts e) (error : Option String) :
    EventOk opts { e with
      claimedAt := none
      claimedBy := none
      attemptCount := e.attemptCount - 1
      lastError := error } := by
  have hle := h.attempts
  have hpaid := h.paid
  have hone := unpaid_le_one (e := e)
  refine ⟨?_, fun hne => absurd rfl hne, ?_, fun _ => iff_of_true rfl rfl, fun _ => rfl⟩
  · show e.attemptCount - 1 ≤ opts.maxAttempts
    omega
  · show e.attemptCount - 1 ≤ e.failures + _
    omega

theorem EventOk.step (h : EventOk opts e) (hs : EventStep c opts w a e e') : EventOk opts e' := by
  cases hs with
  | same => exact h
  | claimed hc =>
    obtain ⟨-, hdone, hat, hlt, -, -⟩ := hc
    have hpaid := h.paid
    rw [unpaid_open hat hdone] at hpaid
    refine ⟨hlt, fun _ => Nat.succ_le_succ (Nat.zero_le _), ?_, ?_, fun hne => absurd hdone hne⟩
    · simp only [unpaid, OutboxEvent.claim, reduceCtorEq, false_and, if_false]
      omega
    · simp [OutboxEvent.claim]
  | reaped hc => exact h.giveBack _
  | released hc => exact h.giveBack _
  | completed hk hid hr =>
    have hpaid := h.paid
    have hone := unpaid_le_one (e := e)
    refine ⟨h.attempts, fun hne => absurd rfl hne, ?_, nofun, fun _ => rfl⟩
    simp only [unpaid, OutboxEvent.markCompleted, reduceCtorEq, and_false, if_false]
    omega
  | failed hk hid hr =>
    unfold OutboxEvent.markFailed
    split
    next =>
      have hpaid := h.paid
      have hone := unpaid_le_one (e := e)
      refine ⟨h.attempts, fun hne => absurd rfl hne, ?_, fun _ => iff_of_true rfl rfl, fun _ => rfl⟩
      show e.attemptCount ≤ e.failures + 1 + _
      omega
    next => exact h

/-- A completed event stays completed and unclaimed. -/
theorem EventOk.completed_stays (h : EventOk opts e) (hs : EventStep c opts w a e e')
    (hdone : e.completedAt ≠ none) : e'.completedAt ≠ none ∧ e'.claimedAt = none := by
  cases hs with
  | same => exact ⟨hdone, h.done hdone⟩
  | claimed hc => exact absurd hc.2.1 hdone
  | reaped hc => exact absurd hc.2.1 hdone
  | released hc => exact absurd hc.2.1 hdone
  | completed => exact ⟨nofun, rfl⟩
  | failed =>
    unfold OutboxEvent.markFailed
    split
    next => exact ⟨hdone, rfl⟩
    next => exact ⟨hdone, h.done hdone⟩

def EventsOk (opts : OutboxOptions) (w : OutboxWorld) : Prop := ∀ e ∈ w.events, EventOk opts e

theorem EventsOk.step (h : EventsOk opts w) (a : OutboxAction) :
    EventsOk opts (w.step c opts a) := by
  intro e' he'
  obtain ⟨i, hi⟩ := List.mem_iff_getElem?.mp he'
  rcases events_step a i e' hi with ⟨e, he, hs⟩ | ⟨-, hfresh, -⟩
  · exact (h e (List.mem_of_getElem? he)).step hs
  · exact .fresh hfresh

/-! ### Ownership -/

/-- A flight knows its event by the number of its claim: while no later claim was taken, a claim
that is still there is its own. -/
structure FlightsOk (w : OutboxWorld) : Prop where
  ids : (w.events.map OutboxEvent.id).Nodup
  known : ∀ f ∈ w.flights, f.event ∈ w.events.map OutboxEvent.id
  past : ∀ f ∈ w.flights, ∀ e ∈ w.events, e.id = f.event → f.claim ≤ e.claims
  own : ∀ f ∈ w.flights, ∀ e ∈ w.events, e.id = f.event → f.claim = e.claims → e.claimedAt ≠ none →
    e.claimedBy = some f.worker

theorem EventStep.id (h : EventStep c opts w a e e') : e'.id = e.id := by
  cases h with
  | failed =>
    unfold OutboxEvent.markFailed
    split <;> rfl
  | _ => rfl

/-- What a step does to the claim of an event: nothing, a new claim, or its end. -/
theorem EventStep.claim_cases (h : EventStep c opts w a e e') :
    (e'.claims = e.claims ∧ (e'.claimedAt = none ∨
      e'.claimedAt = e.claimedAt ∧ e'.claimedBy = e.claimedBy)) ∨ e'.claims = e.claims + 1 := by
  cases h with
  | same => exact .inl ⟨rfl, .inr ⟨rfl, rfl⟩⟩
  | claimed => exact .inr rfl
  | reaped => exact .inl ⟨rfl, .inl rfl⟩
  | released => exact .inl ⟨rfl, .inl rfl⟩
  | completed => exact .inl ⟨rfl, .inl rfl⟩
  | failed =>
    unfold OutboxEvent.markFailed
    split
    next => exact .inl ⟨rfl, .inl rfl⟩
    next => exact .inl ⟨rfl, .inr ⟨rfl, rfl⟩⟩

theorem ids_execute (reply : StatementReply) (p : OutboxEvent → Bool) {f : OutboxEvent → OutboxEvent}
    (hf : ∀ e, (f e).id = e.id) :
    (w.execute reply p f).events.map OutboxEvent.id = w.events.map OutboxEvent.id := by
  unfold execute
  split
  next => rfl
  next =>
    simp only [update, List.map_map]
    apply List.map_congr_left
    intro e _
    simp only [Function.comp_apply]
    split
    next => exact hf e
    next => rfl

theorem markFailed_id (now : Nat) (reason : String) : (e.markFailed now reason).id = e.id := by
  unfold OutboxEvent.markFailed
  split <;> rfl

/-- The ids of the next state: the same, or one more. -/
theorem ids_step (a : OutboxAction) :
    (w.step c opts a).events.map OutboxEvent.id = w.events.map OutboxEvent.id ∨
      ∃ v, v ∉ w.events.map OutboxEvent.id ∧
        (w.step c opts a).events.map OutboxEvent.id = w.events.map OutboxEvent.id ++ [v] := by
  cases a with
  | tick d => exact .inl rfl
  | insert e =>
    simp only [step]
    split
    next h => exact .inr ⟨e.id, h.2, by simp⟩
    next => exact .inl rfl
  | claimBatch worker ids reply =>
    simp only [step, claimBatch]
    split
    next => split <;> exact .inl (ids_execute _ _ fun _ => rfl)
    next => exact .inl rfl
  | reapStaleClaims reply => exact .inl (ids_execute _ _ fun _ => rfl)
  | releaseMyClaims worker reply => exact .inl (ids_execute _ _ fun _ => rfl)
  | crash worker => exact .inl rfl
  | markCompleted k reply =>
    simp only [step, mark]
    split
    next => exact .inl (ids_execute _ _ fun _ => rfl)
    next => exact .inl rfl
  | markFailed k reason reply =>
    simp only [step, mark]
    split
    next => exact .inl (ids_execute _ _ fun _ => markFailed_id _ _)
    next => exact .inl rfl

theorem length_step (a : OutboxAction) : w.events.length ≤ (w.step c opts a).events.length := by
  have hids : (w.step c opts a).events.map OutboxEvent.id = w.events.map OutboxEvent.id ∨ _ :=
    ids_step a
  rcases hids with heq | ⟨v, -, heq⟩
  · have hlen := congrArg List.length heq
    simp only [List.length_map] at hlen
    omega
  · have hlen := congrArg List.length heq
    simp only [List.length_map, List.length_append] at hlen
    omega

/-- A flight was there before, or begins with a claim of its worker. -/
theorem flights_step {f : Flight} (a : OutboxAction) (hf : f ∈ (w.step c opts a).flights) :
    f ∈ w.flights ∨ ∃ (worker : String) (p : OutboxEvent → Bool),
      (w.step c opts a).events = w.events.map (fun e => if p e then e.claim w.clock worker else e) ∧
      ∃ e ∈ w.events, p e = true ∧ f = ⟨worker, e.id, e.claims + 1⟩ := by
  cases a with
  | claimBatch worker ids reply =>
    simp only [step, claimBatch] at hf ⊢
    split at hf
    next hlen =>
      rw [if_pos hlen]
      split at hf
      next hr =>
        subst hr
        rcases List.mem_append.mp hf with hf | hf
        · exact .inl hf
        · obtain ⟨e, he, rfl⟩ := List.mem_map.mp hf
          obtain ⟨he, hp⟩ := List.mem_filter.mp he
          exact .inr ⟨worker, _, rfl, e, he, hp, rfl⟩
      next =>
        unfold execute at hf
        split at hf <;> exact .inl hf
    next => exact .inl hf
  | tick d => exact .inl hf
  | insert e =>
    simp only [step] at hf
    split at hf <;> exact .inl hf
  | reapStaleClaims reply =>
    simp only [step, reapStaleClaims, execute] at hf
    split at hf <;> exact .inl hf
  | releaseMyClaims worker reply => exact .inl (List.mem_filter.mp hf).1
  | crash worker => exact .inl (List.mem_filter.mp hf).1
  | markCompleted k reply =>
    simp only [step, mark] at hf
    split at hf
    next => exact .inl (List.mem_of_mem_eraseIdx hf)
    next => exact .inl hf
  | markFailed k reason reply =>
    simp only [step, mark] at hf
    split at hf
    next => exact .inl (List.mem_of_mem_eraseIdx hf)
    next => exact .inl hf

theorem event_unique (hids : (w.events.map OutboxEvent.id).Nodup) {x y : OutboxEvent}
    (hx : x ∈ w.events) (hy : y ∈ w.events) (hid : x.id = y.id) : x = y :=
  List.inj_on_of_nodup_map hids hx hy hid

theorem FlightsOk.step (h : FlightsOk w) (a : OutboxAction) : FlightsOk (w.step c opts a) := by
  have hids : ((w.step c opts a).events.map OutboxEvent.id).Nodup := by
    rcases ids_step a with heq | ⟨v, hv, heq⟩
    · rw [heq]
      exact h.ids
    · rw [heq]
      exact h.ids.append (List.nodup_singleton v) (by simpa using hv)
  -- the numbers of a flight and of an event of its id, and whose the claim is
  have hpair : ∀ f ∈ (w.step c opts a).flights, ∀ e' ∈ (w.step c opts a).events, e'.id = f.event →
      f.claim ≤ e'.claims ∧ (f.claim = e'.claims → e'.claimedAt ≠ none →
        e'.claimedBy = some f.worker) := by
    intro f hf e' he' hid
    rcases flights_step a hf with hf | ⟨worker, p, hevents, e, he, hp, rfl⟩
    · obtain ⟨i, hi⟩ := List.mem_iff_getElem?.mp he'
      rcases events_step a i e' hi with ⟨e, hi, hs⟩ | ⟨-, -, hnew⟩
      · have he := List.mem_of_getElem? hi
        have hpast := h.past f hf e he (hs.id ▸ hid)
        rcases hs.claim_cases with ⟨hn, hnone | ⟨hat, hby⟩⟩ | hn
        · exact ⟨hn ▸ hpast, fun _ hne => absurd hnone hne⟩
        · rw [hn, hat, hby]
          exact ⟨hpast, h.own f hf e he (hs.id ▸ hid)⟩
        · exact ⟨by omega, fun heq => by omega⟩
      · exact absurd (hid ▸ h.known f hf) hnew
    · rw [hevents] at he'
      obtain ⟨x, hx, rfl⟩ := List.mem_map.mp he'
      have hxe : x = e := by
        apply event_unique h.ids hx he
        split at hid <;> exact hid
      subst hxe
      rw [if_pos hp]
      exact ⟨Nat.le_refl _, fun _ _ => rfl⟩
  refine ⟨hids, fun f hf => ?_, fun f hf e' he' hid => (hpair f hf e' he' hid).1,
    fun f hf e' he' hid => (hpair f hf e' he' hid).2⟩
  have hsub : ∀ v ∈ w.events.map OutboxEvent.id, v ∈ (w.step c opts a).events.map OutboxEvent.id := by
    intro v hv
    rcases ids_step a with heq | ⟨u, -, heq⟩
    · rw [heq]
      exact hv
    · rw [heq]
      exact List.mem_append_left _ hv
  rcases flights_step a hf with hf | ⟨worker, p, -, e, he, -, rfl⟩
  · exact hsub _ (h.known f hf)
  · exact hsub _ (List.mem_map_of_mem he)

theorem FlightsOk.init (clock : Nat) : FlightsOk (.init clock) where
  ids := List.nodup_nil
  known f hf := by cases hf
  past f hf := by cases hf
  own f hf := by cases hf

/-- The worker whose statement the action is. -/
def actor (w : OutboxWorld) : OutboxAction → Option String
  | .markCompleted k _ | .markFailed k _ _ => (w.flights[k]?).map Flight.worker
  | .releaseMyClaims worker _ | .claimBatch worker _ _ => some worker
  | .tick _ | .insert _ | .reapStaleClaims _ | .crash _ => none

/-- The flight that the action ends with a mark. -/
def marking (w : OutboxWorld) : OutboxAction → Option Flight
  | .markCompleted k _ | .markFailed k _ _ => w.flights[k]?
  | .tick _ | .insert _ | .claimBatch _ _ _ | .reapStaleClaims _ | .releaseMyClaims _ _
  | .crash _ => none

variable (c opts)

/-- The action respects the claims: the claim of a worker ends by that worker or by a reaper after
the lease, and a worker whose event was claimed again since does not touch it. -/
structure Respects (w : OutboxWorld) (a : OutboxAction) : Prop where
  cleared : ∀ (i : Nat) (e e' : OutboxEvent) (worker : String), w.events[i]? = some e →
    (w.step c opts a).events[i]? = some e' → e.claimedAt ≠ none → e.claimedBy = some worker →
    e'.claimedAt ≠ e.claimedAt ∨ e'.claimedBy ≠ e.claimedBy →
    w.actor a = some worker ∨ (∃ reply, a = .reapStaleClaims reply) ∧
      ∃ t, e.claimedAt = some t ∧ t + opts.claimLease < w.clock
  untouched : ∀ (i : Nat) (e e' : OutboxEvent) (f : Flight), w.events[i]? = some e →
    (w.step c opts a).events[i]? = some e' → w.marking a = some f → e.id = f.event →
    f.claim < e.claims →
    e'.claimedAt = e.claimedAt ∧ e'.claimedBy = e.claimedBy ∧
      e'.nextAttemptAt = e.nextAttemptAt ∧ e'.lastError = e.lastError

variable {c opts}

/-- The event of the flight was not claimed again since. -/
def Current (w : OutboxWorld) (k : Nat) : Prop :=
  ∀ f ∈ w.flights[k]?, ∀ e ∈ w.events, e.id = f.event → f.claim = e.claims

instance (w : OutboxWorld) (k : Nat) : Decidable (w.Current k) :=
  inferInstanceAs (Decidable (∀ f ∈ w.flights[k]?, _))

/-- A mark that takes effect ends a flight whose event was not claimed again since. -/
def MarksCurrent (w : OutboxWorld) : OutboxAction → Prop
  | .markCompleted k reply => reply = .failed ∨ w.Current k
  | .markFailed k _ reply => reply = .failed ∨ w.Current k
  | .tick _ | .insert _ | .claimBatch _ _ _ | .reapStaleClaims _ | .releaseMyClaims _ _
  | .crash _ => True

theorem MarksCurrent.claim_eq (h : w.MarksCurrent a) {f : Flight} (hf : w.marking a = some f)
    (hs : EventStep c opts w a e e') (hne : e' ≠ e) (he : e ∈ w.events) (hid : e.id = f.event) :
    f.claim = e.claims := by
  cases hs with
  | same => exact absurd rfl hne
  | claimed | reaped | released => cases hf
  | completed hk hid' hr => exact (h.resolve_left hr) f hf e he hid
  | failed hk hid' hr => exact (h.resolve_left hr) f hf e he hid

/-- The event that a mark changes is the one of its flight. -/
theorem EventStep.marked (hs : EventStep c opts w a e e') {f : Flight} (hf : w.marking a = some f)
    (hne : e' ≠ e) : e.id = f.event := by
  cases hs with
  | same => exact absurd rfl hne
  | claimed | reaped | released => cases hf
  | completed hk hid hr =>
    cases hk.symm.trans hf
    exact hid
  | failed hk hid hr =>
    cases hk.symm.trans hf
    exact hid

theorem exists_eventStep {i : Nat} (hi : w.events[i]? = some e)
    (hi' : (w.step c opts a).events[i]? = some e') : EventStep c opts w a e e' := by
  rcases events_step a i e' hi' with ⟨x, hx, hs⟩ | ⟨hlen, -⟩
  · cases hi.symm.trans hx
    exact hs
  · rw [List.getElem?_eq_none hlen] at hi
    cases hi

theorem FlightsOk.respects (h : FlightsOk w) (hcur : w.MarksCurrent a) : Respects c opts w a where
  cleared i e e' worker hi hi' hat hby hch := by
    have hs := exists_eventStep hi hi'
    have he := List.mem_of_getElem? hi
    have hne : e' ≠ e := by
      intro heq
      rw [heq] at hch
      exact hch.elim (fun hx => hx rfl) (fun hx => hx rfl)
    -- a mark of the event is the mark of the claim's owner
    have hmark : ∀ f, w.marking a = some f → worker = f.worker := by
      intro f hf
      have hid := hs.marked hf hne
      have hown := h.own f ?_ e he hid (hcur.claim_eq hf hs hne he hid) hat
      · exact Option.some.inj (hby.symm.trans hown)
      · cases a with
        | markCompleted k reply => exact List.mem_of_getElem? hf
        | markFailed k reason reply => exact List.mem_of_getElem? hf
        | _ => cases hf
    cases hs with
    | same => exact absurd rfl hne
    | claimed hc => exact absurd hc.2.2.1 hat
    | reaped hc =>
      obtain ⟨-, -, t, ht, hlt⟩ := hc
      exact .inr ⟨⟨_, rfl⟩, t, ht, hlt⟩
    | released hc =>
      left
      rw [actor, ← hby]
      exact hc.2.2.symm
    | completed hk hid hr =>
      left
      rw [actor, hk, hmark _ hk]
      rfl
    | failed hk hid hr =>
      left
      rw [actor, hk, hmark _ hk]
      rfl
  untouched i e e' f hi hi' hf hid hlt := by
    have hs := exists_eventStep hi hi'
    by_cases hne : e' = e
    · rw [hne]
      exact ⟨rfl, rfl, rfl, rfl⟩
    · have heq := hcur.claim_eq hf hs hne (List.mem_of_getElem? hi) hid
      omega

end OutboxWorld

open OutboxWorld

/-- In every run whose marks end current flights, every action respects the claims. -/
theorem outbox_claims_respected (c : OutboxConsumer) (opts : OutboxOptions) (clock : Nat)
    (as : List OutboxAction)
    (hcur : Along (OutboxWorld.step c opts) MarksCurrent (.init clock) as) :
    Along (OutboxWorld.step c opts) (Respects c opts) (.init clock) as :=
  along_of_invariant (FlightsOk.init clock) hcur (fun _ a h _ => h.step a)
    fun _ _ h hc => h.respects hc

/-- An event of the resync worker as the trigger inserts it. -/
def handbookResync : OutboxEvent := ⟨70, .resyncChunkAcl, "", none, none, none, 0, none, 0, 0, 0⟩

def resyncOptions : OutboxOptions := ⟨5, 16, 600⟩

theorem resync_completed_respected :
    Along (OutboxWorld.step resyncWorker resyncOptions) (Respects resyncWorker resyncOptions)
      (.init 0) [.insert handbookResync, .claimBatch "a:1" [70] .ok, .markCompleted 0 .ok] :=
  outbox_claims_respected _ _ _ _ ⟨trivial, trivial, .inr (by decide), trivial⟩

/-- A slow worker fails after its claim was reaped and the event was claimed by another. -/
def resyncTakenOver : List OutboxAction :=
  [.insert handbookResync, .claimBatch "a:1" [70] .ok, .tick 601, .reapStaleClaims .ok,
    .claimBatch "b:2" [70] .ok, .markFailed 0 "timeout" .ok]

theorem resync_claim_freed :
    ¬Along (OutboxWorld.step resyncWorker resyncOptions) (Respects resyncWorker resyncOptions)
      (.init 0) resyncTakenOver := by
  intro h
  obtain ⟨-, -, -, -, -, hlast, -⟩ := h
  have hfreed := (hlast.untouched 0 _ _ ⟨"a:1", 70, 1⟩ rfl rfl rfl rfl (by decide)).1
  revert hfreed
  decide

/-- Over every run: the attempts stay within the budget, a claimed event has one, each attempt but
that of a claim is paid for by a failure, and a completed event stays so. -/
theorem outbox_attempts_paid (c : OutboxConsumer) (opts : OutboxOptions) (clock : Nat)
    (as : List OutboxAction) :
    let w := run (OutboxWorld.step c opts) (.init clock) as
    (∀ e ∈ w.events, e.attemptCount ≤ opts.maxAttempts ∧
      (e.claimedAt ≠ none → 1 ≤ e.attemptCount) ∧
      e.attemptCount ≤ e.failures +
        (if e.claimedAt ≠ none ∨ e.completedAt ≠ none then 1 else 0) ∧
      (e.claimedAt = none → e.completedAt = none → e.attemptCount = opts.maxAttempts →
        opts.maxAttempts ≤ e.failures)) ∧
    ∀ (a : OutboxAction) (i : Nat) (e : OutboxEvent), w.events[i]? = some e →
      e.completedAt ≠ none → ∃ e', (w.step c opts a).events[i]? = some e' ∧
        e'.completedAt ≠ none ∧ e'.claimedAt = none := by
  intro w
  have hok : EventsOk opts w :=
    run_invariant (P := EventsOk opts) (fun e he => by cases he) fun _ a h => h.step a
  refine ⟨fun e he => ?_, fun a i e hi hdone => ?_⟩
  · have h := hok e he
    have hpaid := h.paid
    refine ⟨h.attempts, h.claimed, ?_, fun hat hdone hmax => ?_⟩
    · have heq : unpaid e = if e.claimedAt ≠ none ∨ e.completedAt ≠ none then 1 else 0 := by
        unfold unpaid
        by_cases hat : e.claimedAt = none <;> by_cases hdone : e.completedAt = none <;>
          simp [hat, hdone]
      rw [← heq]
      exact hpaid
    · rw [unpaid_open hat hdone] at hpaid
      omega
  · have hlen : i < (w.step c opts a).events.length :=
      Nat.lt_of_lt_of_le (List.getElem?_eq_some_iff.mp hi).1 (length_step a)
    have hi' := List.getElem?_eq_getElem hlen
    refine ⟨_, hi', ?_⟩
    exact (hok e (List.mem_of_getElem? hi)).completed_stays (exists_eventStep hi hi') hdone

/-- A completed event keeps the attempt of its claim. -/
theorem completed_attempt_unpaid :
    ¬∀ e ∈ (run (OutboxWorld.step resyncWorker resyncOptions) (.init 0)
        [.insert handbookResync, .claimBatch "a:1" [70] .ok, .markCompleted 0 .ok]).events,
      e.attemptCount ≤ e.failures + (if e.claimedAt ≠ none then 1 else 0) := by
  decide

end Wikore
