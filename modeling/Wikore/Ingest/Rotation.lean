import Wikore.Ingest.Pipeline
import Wikore.Lib.RoundRobin
import Wikore.Lib.Sorting

/-! The rotation of one `IngestWorker` over its list of tenants: `rescan_tenants_locked` and
`try_one_rotation`, while others push to the queues between its steps, no shutdown is requested and
Redis answers.  The rotation is fair if the list names no tenant twice. -/

namespace Wikore

/-! ### The list of tenants -/

def queuePrefix : String := "lr:ingest:q:"

def isHexDigit (c : Char) : Bool :=
  (decide ('0' ≤ c) && decide (c ≤ '9')) || (decide ('a' ≤ c) && decide (c ≤ 'f')) ||
    (decide ('A' ≤ c) && decide (c ≤ 'F'))

/-- `is_uuid_v4_ish`: 8-4-4-4-12 hexadecimal digits with hyphens. -/
def isUuidV4Ish (s : List Char) : Bool :=
  decide (s.length = 36) && s.zipIdx.all fun (c, i) =>
    if i = 8 ∨ i = 13 ∨ i = 18 ∨ i = 23 then c == '-' else isHexDigit c

def tenantFromKey (key : String) : Option String :=
  match queuePrefix.toList.isPrefixOf? key.toList with
  | some tenant => if isUuidV4Ish tenant then some (String.ofList tenant) else none
  | none => none

/-- The list and the cursor after a scan that returned these keys. -/
def rescanTenants (keys : List String) (cursor : Nat) : List String × Nat :=
  let tenants := (keys.filterMap tenantFromKey).mergeSort
  (tenants, cursor % max tenants.length 1)

/-! ### The worker -/

/-- Where the worker is: in a call that began at `start`, in the `dispatch` of a job, or back from
a call with its result. -/
inductive RotationPhase
  | returned (dispatched : Bool)
  | rotating (start : Nat)
  | dispatching (companyId payload : String) (job : IngestJob)
deriving DecidableEq, Repr

/-- The queues, the worker's processing lists, and its own fields. -/
structure RotationState where
  queue : String → List String
  proc : String → List String
  cursor : Nat
  jobsProcessed : Nat
  jobsFailed : Nat
  jobsDuplicates : Nat
  phase : RotationPhase

/-- `none` is an infrastructure error of the use case. -/
inductive RotationEvent
  | others (queue : String → List String)
  | called
  | probed
  | finished (result : Option IngestDispatchOutcome)

inductive ProbeResult
  | empty
  | malformed (payload : String)
  | job (payload : String) (job : IngestJob)
deriving DecidableEq, Repr

structure Probe where
  companyId : String
  result : ProbeResult
deriving DecidableEq, Repr

namespace RotationState

variable (parseJob : String → Option IngestJob) (tenants : List String) (s : RotationState)

/-- `LMOVE` from the tail of the tenant's queue to the head of the processing list. -/
def lmove (companyId payload : String) : RotationState :=
  { s with
    queue := Function.update s.queue companyId (s.queue companyId).dropLast
    proc := Function.update s.proc companyId (payload :: s.proc companyId) }

/-- `LREM` of one entry of the processing list. -/
def lrem (companyId payload : String) : RotationState :=
  { s with proc := Function.update s.proc companyId ((s.proc companyId).erase payload) }

/-- `transfer_proc_to_source`. -/
def transfer (companyId payload : String) : RotationState :=
  if payload ∈ s.proc companyId then
    { s.lrem companyId payload with
      queue := Function.update s.queue companyId (payload :: s.queue companyId) }
  else s

/-- The condition of the loop, after an iteration that dispatched nothing. -/
def again (start : Nat) : RotationState :=
  { s with phase := if s.cursor ≠ start then .rotating start else .returned false }

/-- What the queue of the tenant holds at its tail; the queue names the tenant of the job. -/
def probe (companyId : String) : ProbeResult :=
  match (s.queue companyId).getLast? with
  | none => .empty
  | some payload =>
    match parseJob payload with
    | none => .malformed payload
    | some job => .job payload { job with companyId := companyId }

/-- One iteration of the loop, for the tenant at the cursor. -/
def iterate (start : Nat) (companyId : String) : RotationState :=
  let s' := { s with cursor := (s.cursor + 1) % tenants.length }
  match s.probe parseJob companyId with
  | .empty => s'.again start
  | .malformed payload =>
    { (s'.lmove companyId payload).lrem companyId payload with
      jobsFailed := s.jobsFailed + 1 }.again start
  | .job payload job =>
    { s'.lmove companyId payload with phase := .dispatching companyId payload job }

def call : RotationState :=
  { s with phase := if tenants = [] then .returned false else .rotating s.cursor }

/-- The end of `dispatch`. -/
def finish (companyId payload : String) (result : Option IngestDispatchOutcome) : RotationState :=
  let s' := { s with phase := .returned true }
  match result with
  | none => { s'.transfer companyId payload with jobsFailed := s.jobsFailed + 1 }
  | some .processed => { s'.lrem companyId payload with jobsProcessed := s.jobsProcessed + 1 }
  | some .terminalError => { s'.lrem companyId payload with jobsFailed := s.jobsFailed + 1 }
  | some .duplicateSkipped | some .ownershipLost =>
    { s'.lrem companyId payload with jobsDuplicates := s.jobsDuplicates + 1 }

def step : RotationEvent → RotationState
  | .others queue => { s with queue := queue }
  | .called =>
    match s.phase with
    | .returned _ => s.call tenants
    | _ => s
  | .probed =>
    match s.phase, tenants[s.cursor]? with
    | .rotating start, some companyId => s.iterate parseJob tenants start companyId
    | _, _ => s
  | .finished result =>
    match s.phase with
    | .dispatching companyId payload _ => s.finish companyId payload result
    | _ => s

/-- The probe that the event makes. -/
def probeOf : RotationEvent → Option Probe
  | .probed =>
    match s.phase, tenants[s.cursor]? with
    | .rotating _, some companyId => some ⟨companyId, s.probe parseJob companyId⟩
    | _, _ => none
  | _ => none

/-- The probes of a run. -/
def probes (s : RotationState) : List RotationEvent → List Probe
  | [] => []
  | e :: es => (s.probeOf parseJob tenants e).toList ++ probes (s.step parseJob tenants e) es

end RotationState

/-- The tenant of a job that goes to `dispatch`. -/
def Probe.dispatched (p : Probe) : Option String :=
  match p.result with
  | .job _ _ => some p.companyId
  | _ => none

def RotationEvent.isCalled : RotationEvent → Bool
  | .called => true
  | _ => false

def RotationEvent.isProbed : RotationEvent → Bool
  | .probed => true
  | _ => false

open RotationState in
/-- What a rotation is for.  A call is `called` and what comes before the next one. -/
structure FairRotation (parseJob : String → Option IngestJob) (tenants : List String) : Prop where
  /-- No call goes on after as many iterations as there are tenants. -/
  terminates : ∀ (s : RotationState) (es : List RotationEvent) (b : Bool) (start : Nat),
    s.cursor < max tenants.length 1 → s.phase = .returned b →
    (∀ e ∈ es, e.isCalled = false) → tenants.length ≤ es.countP RotationEvent.isProbed →
    (Transition.run (step parseJob tenants) s (.called :: es)).phase ≠ .rotating start
  /-- No call probes a tenant twice. -/
  once : ∀ (s : RotationState) (es : List RotationEvent) (b : Bool),
    s.cursor < max tenants.length 1 → s.phase = .returned b →
    (∀ e ∈ es, e.isCalled = false) →
    ((s.probes parseJob tenants (.called :: es)).map Probe.companyId).Nodup
  /-- A tenant whose probes all find a job is among any as many dispatches in a row as there are
  tenants. -/
  dispatched : ∀ (s : RotationState) (es : List RotationEvent) (companyId : String),
    s.cursor < max tenants.length 1 → companyId ∈ tenants →
    (∀ p ∈ s.probes parseJob tenants es, p.companyId = companyId → p.dispatched.isSome) →
    ∀ w, w <:+: (s.probes parseJob tenants es).filterMap Probe.dispatched →
      w.length = tenants.length → companyId ∈ w
  /-- A probe that finds a malformed job removes it and nothing else. -/
  removes : ∀ (s : RotationState) (companyId payload : String),
    s.probeOf parseJob tenants .probed = some ⟨companyId, .malformed payload⟩ →
    s.queue companyId = (s.step parseJob tenants .probed).queue companyId ++ [payload] ∧
    (∀ t, t ≠ companyId → (s.step parseJob tenants .probed).queue t = s.queue t) ∧
    (s.step parseJob tenants .probed).proc = s.proc
  /-- A call that dispatches nothing, whatever it finds malformed, probes every tenant. -/
  visits : ∀ (s : RotationState) (es : List RotationEvent) (b : Bool) (companyId : String),
    s.cursor < max tenants.length 1 → s.phase = .returned b →
    (∀ e ∈ es, e.isCalled = false) →
    (Transition.run (step parseJob tenants) s (.called :: es)).phase = .returned false →
    companyId ∈ tenants →
    companyId ∈ (s.probes parseJob tenants (.called :: es)).map Probe.companyId

namespace RotationState

variable {parseJob : String → Option IngestJob} {tenants : List String} {s : RotationState}
  {e : RotationEvent} {es : List RotationEvent} {start k : Nat}

/-! ### The cursor -/

@[simp] theorem again_cursor (s : RotationState) (start : Nat) :
    (s.again start).cursor = s.cursor := rfl

@[simp] theorem again_queue (s : RotationState) (start : Nat) :
    (s.again start).queue = s.queue := rfl

@[simp] theorem again_proc (s : RotationState) (start : Nat) :
    (s.again start).proc = s.proc := rfl

theorem iterate_cursor (companyId : String) :
    (s.iterate parseJob tenants start companyId).cursor = (s.cursor + 1) % tenants.length := by
  unfold iterate
  cases s.probe parseJob companyId <;> rfl

@[simp] theorem transfer_cursor (s : RotationState) (companyId payload : String) :
    (s.transfer companyId payload).cursor = s.cursor := by
  unfold transfer
  split <;> rfl

theorem finish_cursor (companyId payload : String) (result : Option IngestDispatchOutcome) :
    (s.finish companyId payload result).cursor = s.cursor := by
  match result with
  | none => exact transfer_cursor _ _ _
  | some .processed => rfl
  | some .terminalError => rfl
  | some .duplicateSkipped => rfl
  | some .ownershipLost => rfl

theorem finish_phase (companyId payload : String) (result : Option IngestDispatchOutcome) :
    (s.finish companyId payload result).phase = .returned true := by
  match result with
  | none =>
    simp only [finish, transfer]
    split <;> rfl
  | some .processed => rfl
  | some .terminalError => rfl
  | some .duplicateSkipped => rfl
  | some .ownershipLost => rfl

/-- A probe is of the tenant at the cursor, which it moves on. -/
theorem step_of_probeOf {p : Probe} (h : s.probeOf parseJob tenants e = some p) :
    ∃ start, s.phase = .rotating start ∧ tenants[s.cursor]? = some p.companyId ∧
      p.result = s.probe parseJob p.companyId ∧
      s.step parseJob tenants e = s.iterate parseJob tenants start p.companyId := by
  match e with
  | .probed =>
    simp only [probeOf] at h
    split at h
    next start companyId hphase htenant =>
      obtain rfl := Option.some.inj h
      exact ⟨start, hphase, htenant, rfl, by simp only [step, hphase, htenant]⟩
    next => cases h
  | .others _ => cases h
  | .called => cases h
  | .finished _ => cases h

theorem step_cursor_of_none (h : s.probeOf parseJob tenants e = none) :
    (s.step parseJob tenants e).cursor = s.cursor := by
  match e with
  | .others _ => rfl
  | .called =>
    simp only [step]
    split <;> rfl
  | .probed =>
    simp only [probeOf, step] at h ⊢
    split at h
    next => cases h
    next => rfl
  | .finished _ =>
    simp only [step]
    split
    next => exact finish_cursor _ _ _
    next => rfl

/-- The probes of a run go round the list. -/
theorem turns_probes (s : RotationState) (es : List RotationEvent) :
    RoundRobin.Turns tenants s.cursor ((s.probes parseJob tenants es).map Probe.companyId) := by
  induction es generalizing s with
  | nil => trivial
  | cons e es ih =>
    have hnext := ih (s.step parseJob tenants e)
    rw [probes]
    cases hp : s.probeOf parseJob tenants e with
    | none =>
      rw [step_cursor_of_none hp] at hnext
      exact hnext
    | some p =>
      obtain ⟨start, -, htenant, -, hstep⟩ := step_of_probeOf hp
      rw [hstep, iterate_cursor, ← hstep] at hnext
      exact ⟨htenant, hnext⟩

theorem cursor_step (h : s.cursor < max tenants.length 1) :
    (s.step parseJob tenants e).cursor < max tenants.length 1 := by
  cases hp : s.probeOf parseJob tenants e with
  | none =>
    rw [step_cursor_of_none hp]
    exact h
  | some p =>
    obtain ⟨start, -, htenant, -, hstep⟩ := step_of_probeOf hp
    have hpos : 0 < tenants.length :=
      Nat.zero_lt_of_lt (List.getElem?_eq_some_iff.mp htenant).1
    rw [hstep, iterate_cursor]
    exact Nat.lt_of_lt_of_le (Nat.mod_lt _ hpos) (Nat.le_max_left _ _)

theorem cursor_run (h : s.cursor < max tenants.length 1) :
    (Transition.run (step parseJob tenants) s es).cursor < max tenants.length 1 :=
  Transition.run_invariant (P := fun s : RotationState => s.cursor < max tenants.length 1) h
    fun _ _ => cursor_step

theorem cursor_rescanTenants (keys : List String) (cursor : Nat) :
    (rescanTenants keys cursor).2 < max (rescanTenants keys cursor).1.length 1 :=
  Nat.mod_lt _ (Nat.lt_of_lt_of_le Nat.zero_lt_one (Nat.le_max_right _ _))

/-! ### One call -/

/-- A call that began at `start` and has probed `k` times. -/
def InCall (tenants : List String) (start k : Nat) (s : RotationState) : Prop :=
  match s.phase with
  | .rotating start' => start' = start ∧ k < tenants.length ∧
      s.cursor = (start + k) % tenants.length
  | .dispatching _ _ _ => k ≤ tenants.length
  | .returned dispatched => k ≤ tenants.length ∧ (dispatched = false → k = tenants.length)

theorem InCall.le (h : InCall tenants start k s) : k ≤ tenants.length := by
  unfold InCall at h
  split at h
  next => exact Nat.le_of_lt h.2.1
  next => exact h
  next => exact h.1

/-- The cursor is back at the start after a whole round. -/
theorem mod_eq_start_iff {n m : Nat} (hstart : start < n) (hm : m < n) :
    (start + (m + 1)) % n = start ↔ m + 1 = n := by
  constructor
  · intro h
    by_contra hne
    have hlt : m + 1 < n := Nat.lt_of_le_of_ne hm hne
    by_cases hround : start + (m + 1) < n
    · rw [Nat.mod_eq_of_lt hround] at h
      omega
    · rw [Nat.mod_eq_sub_mod (Nat.le_of_not_lt hround), Nat.mod_eq_of_lt (by omega)] at h
      omega
  · rintro h
    rw [h, Nat.add_mod_right, Nat.mod_eq_of_lt hstart]

theorem inCall_again (hstart : start < tenants.length) (hk : k < tenants.length)
    (hcursor : s.cursor = (start + (k + 1)) % tenants.length) :
    InCall tenants start (k + 1) (s.again start) := by
  have hback := mod_eq_start_iff hstart hk
  rw [← hcursor] at hback
  unfold InCall again
  by_cases hc : s.cursor = start
  · have hround : k + 1 = tenants.length := hback.mp hc
    simp only [hc, ne_eq, not_true_eq_false, if_false]
    exact ⟨Nat.le_of_eq hround, fun _ => hround⟩
  · have hround : k + 1 ≠ tenants.length := fun h => hc (hback.mpr h)
    simp only [ne_eq, hc, not_false_eq_true, if_true]
    exact ⟨trivial, Nat.lt_of_le_of_ne hk hround, hcursor⟩

theorem inCall_iterate (hstart : start < tenants.length) (hk : k < tenants.length)
    (hcursor : s.cursor = (start + k) % tenants.length) (companyId : String) :
    InCall tenants start (k + 1) (s.iterate parseJob tenants start companyId) := by
  have hnext : (s.cursor + 1) % tenants.length = (start + (k + 1)) % tenants.length := by
    rw [hcursor, Nat.mod_add_mod, Nat.add_assoc]
  unfold iterate
  cases s.probe parseJob companyId with
  | empty => exact inCall_again hstart hk hnext
  | malformed payload => exact inCall_again hstart hk hnext
  | job payload job => exact hk

/-- Where a call stands after its next event. -/
theorem inCall_step (hstart : start < tenants.length) (h : InCall tenants start k s)
    (he : e.isCalled = false) :
    InCall tenants start (k + (s.probeOf parseJob tenants e).toList.length)
      (s.step parseJob tenants e) := by
  match e with
  | .called => cases he
  | .others _ => exact h
  | .probed =>
    cases hp : s.probeOf parseJob tenants .probed with
    | some p =>
      obtain ⟨start', hphase, -, -, hstep⟩ := step_of_probeOf hp
      simp only [InCall, hphase] at h
      obtain ⟨rfl, hk, hcursor⟩ := h
      rw [hstep]
      exact inCall_iterate hstart hk hcursor p.companyId
    | none =>
      simp only [probeOf, step] at hp ⊢
      split at hp
      next => cases hp
      next => exact h
  | .finished result =>
    cases hphase : s.phase with
    | dispatching companyId payload job =>
      simp only [InCall, hphase] at h
      have hreturned : (s.finish companyId payload result).phase = .returned true :=
        finish_phase companyId payload result
      simp only [step, hphase, probeOf, InCall, hreturned]
      exact ⟨h, nofun⟩
    | rotating _ =>
      simp only [step, hphase]
      exact h
    | returned _ =>
      simp only [step, hphase]
      exact h

theorem inCall_run (hstart : start < tenants.length) (h : InCall tenants start k s)
    (hes : ∀ e ∈ es, e.isCalled = false) :
    InCall tenants start (k + (s.probes parseJob tenants es).length)
      (Transition.run (step parseJob tenants) s es) := by
  induction es generalizing s k with
  | nil => exact h
  | cons e es ih =>
    have hstep : InCall tenants start (k + (s.probeOf parseJob tenants e).toList.length)
        (s.step parseJob tenants e) := inCall_step hstart h (hes e List.mem_cons_self)
    rw [probes, List.length_append, ← Nat.add_assoc]
    exact ih hstep fun e he => hes e (List.mem_cons_of_mem _ he)

theorem inCall_call {b : Bool} (hphase : s.phase = .returned b) (hne : tenants ≠ [])
    (hcursor : s.cursor < tenants.length) :
    InCall tenants s.cursor 0 (s.step parseJob tenants .called) := by
  have hcall : (s.call tenants).phase = .rotating s.cursor := if_neg hne
  simp only [step, hphase, InCall, hcall]
  exact ⟨trivial, Nat.zero_lt_of_lt hcursor, (Nat.mod_eq_of_lt hcursor).symm⟩

theorem step_called_cursor : (s.step parseJob tenants .called).cursor = s.cursor :=
  step_cursor_of_none rfl

/-- A run that ends in the loop was in it all along. -/
theorem rotating_of_run {start : Nat} (hes : ∀ e ∈ es, e.isCalled = false)
    (h : (Transition.run (step parseJob tenants) s es).phase = .rotating start) :
    ∃ start', s.phase = .rotating start' := by
  induction es generalizing s with
  | nil => exact ⟨start, h⟩
  | cons e es ih =>
    obtain ⟨start', hstep⟩ := ih (fun e he => hes e (List.mem_cons_of_mem _ he)) h
    match e with
    | .called => cases hes .called List.mem_cons_self
    | .others _ => exact ⟨start', hstep⟩
    | .probed =>
      simp only [step] at hstep
      split at hstep
      next start'' companyId hphase htenant => exact ⟨start'', hphase⟩
      next => exact ⟨start', hstep⟩
    | .finished result =>
      simp only [step] at hstep
      split at hstep
      next companyId payload job hphase =>
        rw [finish_phase] at hstep
        cases hstep
      next => exact ⟨start', hstep⟩

/-- In the loop each iteration probes. -/
theorem countP_probed_of_run {start' : Nat} (hstart : start < tenants.length)
    (h : InCall tenants start k s) (hes : ∀ e ∈ es, e.isCalled = false)
    (hend : (Transition.run (step parseJob tenants) s es).phase = .rotating start') :
    es.countP RotationEvent.isProbed = (s.probes parseJob tenants es).length := by
  induction es generalizing s k with
  | nil => rfl
  | cons e es ih =>
    obtain ⟨start'', hphase⟩ := rotating_of_run hes hend
    have hrest := ih (inCall_step hstart h (hes e List.mem_cons_self))
      (fun e he => hes e (List.mem_cons_of_mem _ he)) hend
    rw [List.countP_cons, hrest, probes, List.length_append, Nat.add_comm]
    congr 1
    match e with
    | .called => cases hes .called List.mem_cons_self
    | .others _ => rfl
    | .finished _ => rfl
    | .probed =>
      simp only [InCall, hphase] at h
      have hcursor : s.cursor < tenants.length := by
        rw [h.2.2]
        exact Nat.mod_lt _ (Nat.zero_lt_of_lt hstart)
      simp only [probeOf, hphase, List.getElem?_eq_getElem hcursor]
      rfl

/-! ### Queues that stay empty -/

theorem length_probes_empty (hstart : start < tenants.length) {j : Nat}
    (hj : k + j = tenants.length) (hphase : s.phase = .rotating start)
    (h : InCall tenants start k s) (hempty : ∀ t, s.queue t = []) :
    (s.probes parseJob tenants (List.replicate j .probed)).length = j := by
  induction j generalizing s k with
  | zero => rfl
  | succ j ih =>
    have hnext : InCall tenants start (k + (s.probeOf parseJob tenants .probed).toList.length)
        (s.step parseJob tenants .probed) := inCall_step hstart h rfl
    simp only [InCall, hphase] at h
    have hcursor : s.cursor < tenants.length := by
      rw [h.2.2]
      exact Nat.mod_lt _ (Nat.zero_lt_of_lt hstart)
    have hprobe : ∀ t, s.probe parseJob t = .empty := by
      intro t
      simp only [probe, hempty t, List.getLast?_nil]
    have hone : s.probeOf parseJob tenants .probed = some ⟨tenants[s.cursor], .empty⟩ := by
      simp only [probeOf, hphase, List.getElem?_eq_getElem hcursor, hprobe]
    obtain ⟨start', hstart', -, -, hstep⟩ := step_of_probeOf hone
    rw [hphase] at hstart'
    obtain rfl := RotationPhase.rotating.inj hstart'
    simp only [iterate, hprobe] at hstep
    rw [List.replicate_succ, probes, hone, List.length_append, Option.toList_some,
      List.length_singleton, Nat.add_comm]
    cases j with
    | zero => rfl
    | succ j =>
      have hplace : (s.cursor + 1) % tenants.length = (start + (k + 1)) % tenants.length := by
        rw [h.2.2, Nat.mod_add_mod, Nat.add_assoc]
      have hne : (s.cursor + 1) % tenants.length ≠ start := by
        rw [hplace]
        intro hback
        have hround := (mod_eq_start_iff hstart h.2.1).mp hback
        omega
      have hrotating : (s.step parseJob tenants .probed).phase = .rotating start := by
        rw [hstep]
        exact if_pos hne
      rw [hone] at hnext
      have hqueue : ∀ t, (s.step parseJob tenants .probed).queue t = [] := by
        rw [hstep]
        exact hempty
      rw [ih (by simp only [Option.toList_some, List.length_singleton]; omega) hrotating hnext
        hqueue]

/-! ### What a rotation is for -/

/-- The probes of a call, as part of the rounds from the cursor on. -/
theorem turns_call (parseJob : String → Option IngestJob) (tenants : List String)
    (s : RotationState) (es : List RotationEvent) :
    RoundRobin.Turns tenants s.cursor
      ((s.probes parseJob tenants (.called :: es)).map Probe.companyId) := by
  have hturns : RoundRobin.Turns tenants (s.step parseJob tenants .called).cursor
      (((s.step parseJob tenants .called).probes parseJob tenants es).map Probe.companyId) :=
    turns_probes _ es
  rwa [step_called_cursor] at hturns

/-- A malformed job leaves its queue, and the processing list is as it was. -/
theorem step_of_malformed {companyId payload : String}
    (h : s.probeOf parseJob tenants .probed = some ⟨companyId, .malformed payload⟩) :
    s.queue companyId = (s.step parseJob tenants .probed).queue companyId ++ [payload] ∧
      (∀ t, t ≠ companyId → (s.step parseJob tenants .probed).queue t = s.queue t) ∧
      (s.step parseJob tenants .probed).proc = s.proc := by
  obtain ⟨start, -, -, hresult, hstep⟩ := step_of_probeOf h
  have hmalformed : s.probe parseJob companyId = .malformed payload := hresult.symm
  have htail : (s.queue companyId).getLast? = some payload := by
    simp only [probe] at hmalformed
    split at hmalformed
    next => cases hmalformed
    next p hp =>
      split at hmalformed
      next =>
        obtain rfl := ProbeResult.malformed.inj hmalformed
        exact hp
      next => cases hmalformed
  rw [hstep]
  simp only [iterate, hmalformed, again_queue, again_proc, lmove, lrem]
  refine ⟨?_, fun t ht => Function.update_of_ne ht _ _, ?_⟩
  · rw [Function.update_self]
    exact (List.dropLast_append_getLast? payload htail).symm
  · simp

theorem dispatched_mem {companyId : String} (hcursor : s.cursor < max tenants.length 1)
    (hmem : companyId ∈ tenants)
    (hjobs : ∀ p ∈ s.probes parseJob tenants es, p.companyId = companyId → p.dispatched.isSome)
    {w : List String} (hw : w <:+: (s.probes parseJob tenants es).filterMap Probe.dispatched)
    (hlen : w.length = tenants.length) : companyId ∈ w := by
  have hpos : 0 < tenants.length := List.length_pos_of_mem hmem
  have hc : s.cursor < tenants.length := by omega
  -- the probes among which these dispatches were made
  obtain ⟨pre, suf, heq⟩ := hw
  obtain ⟨as, qs, hprobes, has, -⟩ := List.filterMap_eq_append_iff.mp heq.symm
  obtain ⟨ps, bs, rfl, -, hbs⟩ := List.filterMap_eq_append_iff.mp has
  have hblock : bs <:+: s.probes parseJob tenants es := ⟨ps, qs, hprobes.symm⟩
  have hlong : tenants.length ≤ (bs.map Probe.companyId).length := by
    rw [← hlen, ← hbs, List.length_map]
    exact List.length_filterMap_le _ _
  have hvisited := (turns_probes s es).mem_of_block hc (hblock.map Probe.companyId) hlong hmem
  obtain ⟨p, hp, hcompany⟩ := List.mem_map.mp hvisited
  have hsome := hjobs p (hblock.subset hp) hcompany
  have hdispatched : p.dispatched = some companyId := by
    unfold Probe.dispatched at hsome ⊢
    split at hsome
    next => rw [hcompany]
    next => cases hsome
  rw [← hbs]
  exact List.mem_filterMap.mpr ⟨p, hp, hdispatched⟩

/-- A call makes no more probes than there are tenants. -/
theorem length_probes_call (parseJob : String → Option IngestJob) {b : Bool} (hcursor : s.cursor < max tenants.length 1)
    (hphase : s.phase = .returned b) (hes : ∀ e ∈ es, e.isCalled = false) (hne : tenants ≠ []) :
    InCall tenants s.cursor (s.probes parseJob tenants (.called :: es)).length
      (Transition.run (step parseJob tenants) s (.called :: es)) := by
  have hpos : 0 < tenants.length := List.length_pos_iff.mpr hne
  have hc : s.cursor < tenants.length := by omega
  have hrun : InCall tenants s.cursor
      (0 + ((s.step parseJob tenants .called).probes parseJob tenants es).length) _ :=
    inCall_run hc (inCall_call hphase hne hc) hes
  rw [Nat.zero_add] at hrun
  exact hrun

theorem nodup_probes_call {b : Bool} (hcursor : s.cursor < max tenants.length 1)
    (hphase : s.phase = .returned b) (hes : ∀ e ∈ es, e.isCalled = false) (hl : tenants.Nodup) :
    ((s.probes parseJob tenants (.called :: es)).map Probe.companyId).Nodup := by
  have hturns := turns_call parseJob tenants s es
  by_cases hne : tenants = []
  · subst hne
    rw [hturns.eq_nil]
    exact List.nodup_nil
  · have hpos : 0 < tenants.length := List.length_pos_iff.mpr hne
    have hc : s.cursor < tenants.length := by omega
    have hlen := (length_probes_call parseJob hcursor hphase hes hne).le
    exact hturns.nodup hc ((List.length_map _).trans_le hlen) hl

theorem mem_probes_call {b : Bool} (hcursor : s.cursor < max tenants.length 1)
    (hphase : s.phase = .returned b) (hes : ∀ e ∈ es, e.isCalled = false)
    (hend : (Transition.run (step parseJob tenants) s (.called :: es)).phase = .returned false)
    {companyId : String} (hmem : companyId ∈ tenants) :
    companyId ∈ (s.probes parseJob tenants (.called :: es)).map Probe.companyId := by
  have hpos : 0 < tenants.length := List.length_pos_of_mem hmem
  have hc : s.cursor < tenants.length := by omega
  have hcall := length_probes_call parseJob hcursor hphase hes
    (List.ne_nil_of_mem hmem)
  simp only [InCall, hend] at hcall
  exact (turns_call parseJob tenants s es).mem hc ((List.length_map _).trans (hcall.2 trivial)).ge hmem

theorem not_rotating_call {b : Bool} (hcursor : s.cursor < max tenants.length 1)
    (hphase : s.phase = .returned b) (hes : ∀ e ∈ es, e.isCalled = false)
    (hcount : tenants.length ≤ es.countP RotationEvent.isProbed) (start : Nat) :
    (Transition.run (step parseJob tenants) s (.called :: es)).phase ≠ .rotating start := by
  intro hend
  by_cases hne : tenants = []
  · have hcall : (s.step parseJob tenants .called).phase = .returned false := by
      simp only [step, hphase, call, hne, if_true]
    obtain ⟨start', hrotating⟩ := rotating_of_run hes hend
    rw [hcall] at hrotating
    cases hrotating
  · have hpos : 0 < tenants.length := List.length_pos_iff.mpr hne
    have hc : s.cursor < tenants.length := by omega
    have hprobes := countP_probed_of_run hc (inCall_call hphase hne hc) hes hend
    have hcall := length_probes_call parseJob hcursor hphase hes hne
    simp only [InCall, hend] at hcall
    have hlt := hcall.2.1
    simp only [probes, probeOf, Option.toList_none, List.nil_append] at hlt
    omega

/-- A rotation over a list that names a tenant twice probes it twice when all queues are empty. -/
theorem nodup_of_once (h : ∀ (s : RotationState) (es : List RotationEvent) (b : Bool),
    s.cursor < max tenants.length 1 → s.phase = .returned b → (∀ e ∈ es, e.isCalled = false) →
    ((s.probes parseJob tenants (.called :: es)).map Probe.companyId).Nodup) : tenants.Nodup := by
  by_cases hne : tenants = []
  · rw [hne]
    exact List.nodup_nil
  have hpos : 0 < tenants.length := List.length_pos_iff.mpr hne
  let s : RotationState := {
    queue := fun _ => []
    proc := fun _ => []
    cursor := 0
    jobsProcessed := 0
    jobsFailed := 0
    jobsDuplicates := 0
    phase := .returned false }
  let es : List RotationEvent := List.replicate tenants.length .probed
  have hes : ∀ e ∈ es, e.isCalled = false := by
    intro e he
    rw [List.eq_of_mem_replicate he]
    rfl
  have hphase : (s.step parseJob tenants .called).phase = .rotating 0 := if_neg hne
  have hlen : (s.probes parseJob tenants (.called :: es)).length = tenants.length :=
    length_probes_empty hpos (Nat.zero_add _) hphase (inCall_call rfl hne hpos) fun _ => rfl
  have hmap : ((s.probes parseJob tenants (.called :: es)).map Probe.companyId).length =
      tenants.length := (List.length_map _).trans hlen
  have hround := (turns_call parseJob tenants s es).rotate hpos hmap.le
  rw [List.rotate_zero] at hround
  rw [← hround.eq_of_length hmap]
  exact h s es false (Nat.lt_of_lt_of_le Nat.zero_lt_one (Nat.le_max_right _ _)) rfl hes

end RotationState

open RotationState

/-- The rotation is fair exactly if the list names no tenant twice. -/
theorem fairRotation_iff (parseJob : String → Option IngestJob) (tenants : List String) :
    FairRotation parseJob tenants ↔ tenants.Nodup := by
  constructor
  · intro h
    exact nodup_of_once h.once
  · intro hl
    exact {
      terminates := fun s es b start hcursor hphase hes hcount =>
        not_rotating_call hcursor hphase hes hcount start
      once := fun s es b hcursor hphase hes => nodup_probes_call hcursor hphase hes hl
      dispatched := fun s es companyId hcursor hmem hjobs w hw hlen =>
        dispatched_mem hcursor hmem hjobs hw hlen
      removes := fun s companyId payload h => step_of_malformed h
      visits := fun s es b companyId hcursor hphase hes hend hmem =>
        mem_probes_call hcursor hphase hes hend hmem }

/-- What a scan may return: one key two times. -/
def repeatedScan : List String :=
  List.replicate 2 "lr:ingest:q:aaaaaaaa-aaaa-4aaa-8aaa-aaaaaaaaaaaa"

theorem repeatedScan_not_fair :
    ¬∀ parseJob : String → Option IngestJob,
      FairRotation parseJob (rescanTenants repeatedScan 0).1 := by
  intro h
  have hl : (rescanTenants repeatedScan 0).1.Nodup := nodup_of_once (h fun _ => none).once
  have hlist : (repeatedScan.filterMap tenantFromKey).Nodup :=
    (List.mergeSort_perm _ _).nodup_iff.mp hl
  revert hlist
  decide

end Wikore
