import Wikore.Lib.Transition
import Wikore.Lib.Volatile
import Wikore.Schema.Types
import Mathlib.Data.List.Nodup
import Mathlib.Data.List.Perm.Subperm
import Mathlib.Data.Rat.Defs

/-! `LlmGate` and the concurrency semaphore behind it: a Redis sorted set of leases, scored by their
expiry, under one expiry of the whole key that every granted acquire sets anew. -/

namespace Wikore

open Transition

structure LlmLimits where
  maxConcurrency : Int := 4
  ratePerSec : Rat := 5
  burst : Int := 15
deriving DecidableEq, Repr

/-- What `LlmGate` refuses with `std::invalid_argument`, and the value it got. -/
inductive LlmGateError
  | maxConcurrency (got : Int)
  | ratePerSec (got : Rat)
  | burst (got : Int)
  | maxHold (got : Int)
deriving DecidableEq, Repr

/-- A gate whose limits passed the checks of the constructor. -/
structure LlmGate where
  limits : LlmLimits
  maxConcurrency_pos : 1 ≤ limits.maxConcurrency
  ratePerSec_pos : 0 < limits.ratePerSec
  burst_pos : 1 ≤ limits.burst

/-- The constructor; a rational is finite. -/
def LlmGate.ofLimits (limits : LlmLimits) : Except LlmGateError LlmGate :=
  if hc : limits.maxConcurrency < 1 then .error (.maxConcurrency limits.maxConcurrency)
  else if hr : limits.ratePerSec ≤ 0 then .error (.ratePerSec limits.ratePerSec)
  else if hb : limits.burst < 1 then .error (.burst limits.burst)
  else .ok ⟨limits, Int.not_lt.mp hc, Rat.not_le.mp hr, Int.not_lt.mp hb⟩

/-! ### The sorted set -/

/-- A member of the sorted set, with its score. -/
structure Lease where
  token : Uuid
  expiry : Nat
deriving DecidableEq, Repr

abbrev SemKey := Option (Volatile (List Lease))

namespace SemKey

/-- The members of the set; a key that is not there holds none. -/
def members (key : SemKey) : List Lease := (key.map Volatile.value).getD []

/-- The key with other members.  Redis deletes a set that has become empty. -/
def setMembers (key : SemKey) (leases : List Lease) : SemKey :=
  if leases = [] then none else key.map fun v => { v with value := leases }

/-- `ZREMRANGEBYSCORE key -inf now`. -/
def zremrangebyscore (key : SemKey) (now : Nat) : SemKey :=
  setMembers key ((members key).filter fun l => now < l.expiry)

/-- `ZREM key token`. -/
def zrem (key : SemKey) (token : Uuid) : SemKey :=
  setMembers key ((members key).filter fun l => l.token ≠ token)

/-- `ZADD key expiry token`, which moves the score of a member that is there already, and
`PEXPIRE key ttl`. -/
def zaddPexpire (key : SemKey) (lease : Lease) (deadline : Nat) : SemKey :=
  some ⟨(members key).filter (fun l => l.token ≠ lease.token) ++ [lease], deadline⟩

end SemKey

open SemKey

/-- The script of `Redis::sem_acquire`, and whether it returned 1. -/
def semAcquire (key : SemKey) (cap : Int) (leaseTtlMs : Nat) (token : Uuid) (now : Nat) :
    SemKey × Bool :=
  let key := zremrangebyscore key now
  if cap ≤ (members key).length then (key, false)
  else (zaddPexpire key ⟨token, now + leaseTtlMs⟩ (now + leaseTtlMs * 2), true)

/-- `Redis::sem_release`. -/
def semRelease (key : SemKey) (token : Uuid) : SemKey := zrem key token

def kMaxHoldMs : Int := 24 * 60 * 60 * 1000

/-- `kLeaseMargin`, 15 seconds. -/
def kLeaseMarginMs : Int := 15 * 1000

/-- The lease length of `LlmGate::acquire`, or its exception. -/
def leaseMs (maxHold : Int) : Except LlmGateError Nat :=
  if maxHold ≤ 0 ∨ kMaxHoldMs < maxHold then .error (.maxHold maxHold)
  else .ok (maxHold + kLeaseMarginMs).toNat

/-! ### Callers of one tenant -/

/-- What became of a command to Redis: answered, never run, or run with its answer lost. -/
inductive RedisReply
  | ok | failed | lost
deriving DecidableEq, Repr

/-- The semaphore of one tenant.  `granted` holds the leases that the script has granted and that
no release has given back, the ones of crashed holders too. -/
structure SemWorld where
  now : Nat
  sem : SemKey := none
  granted : List Lease := []
deriving DecidableEq, Repr

inductive SemAction
  | clock (ms : Nat)
  | acquire (maxHold : Int) (token : Uuid) (reply : RedisReply)
  | release (token : Uuid) (reply : RedisReply)
  | crash (token : Uuid)
deriving DecidableEq, Repr

namespace SemWorld

variable (gate : LlmGate) (w : SemWorld)

/-- The world when the clock of Redis shows `now`. -/
def advance (now : Nat) : SemWorld := { w with now, sem := Volatile.current now w.sem }

/-- `LlmGate::acquire`. -/
def acquire (maxHold : Int) (token : Uuid) (reply : RedisReply) : SemWorld :=
  match leaseMs maxHold, reply with
  | .error _, _ | _, .failed => w
  | .ok ttl, _ =>
    let r := semAcquire w.sem gate.limits.maxConcurrency ttl token w.now
    { w with
      sem := r.1
      granted := if r.2 then w.granted ++ [⟨token, w.now + ttl⟩] else w.granted }

/-- `LlmLease::release`. -/
def release (token : Uuid) (reply : RedisReply) : SemWorld :=
  if reply = .failed then w
  else
    { w with
      sem := semRelease w.sem token
      granted := w.granted.filter fun l => l.token ≠ token }

def step (w : SemWorld) : SemAction → SemWorld
  | .clock ms => w.advance (w.now + ms)
  | .acquire maxHold token reply => w.acquire gate maxHold token reply
  | .release token reply => w.release token reply
  | .crash _ => w

/-- The leases that are granted, not released and not past their expiry. -/
def live : List Lease := w.granted.filter fun l => w.now < l.expiry

/-- The key outlives its leases: when the action takes the clock past the deadline of the key, every
lease in it has expired. -/
def OutlivesLeases : SemAction → Prop
  | .clock ms => ∀ key ∈ w.sem, key.deadline < w.now + ms → ∀ l ∈ key.value, l.expiry ≤ w.now + ms
  | _ => True

instance : ∀ a, Decidable (w.OutlivesLeases a)
  | .clock _ => inferInstanceAs (Decidable (∀ key ∈ w.sem, _))
  | .acquire _ _ _ => .isTrue trivial
  | .release _ _ => .isTrue trivial
  | .crash _ => .isTrue trivial

end SemWorld

/-- The token that an action asks a lease for. -/
def SemAction.requested : SemAction → Option Uuid
  | .acquire _ token _ => some token
  | _ => none

/-- The tokens that `uuid_generate` made for the calls of a run. -/
def requested (as : List SemAction) : List Uuid := as.filterMap SemAction.requested

/-! ### The invariant -/

section Members

variable {key : SemKey} {leases : List Lease} {l : Lease}

theorem members_setMembers (h : leases ⊆ members key) :
    members (setMembers key leases) = leases := by
  by_cases hl : leases = []
  · simp [setMembers, members, hl]
  · rcases key with - | v
    · exact absurd (List.subset_nil.mp h) hl
    · simp [setMembers, members, hl]

theorem members_zremrangebyscore (now : Nat) :
    members (zremrangebyscore key now) = (members key).filter fun l => now < l.expiry :=
  members_setMembers (List.filter_subset_self _)

theorem members_zrem (token : Uuid) :
    members (zrem key token) = (members key).filter fun l => l.token ≠ token :=
  members_setMembers (List.filter_subset_self _)

theorem members_zaddPexpire (lease : Lease) (deadline : Nat) :
    members (zaddPexpire key lease deadline) =
      (members key).filter (fun l => l.token ≠ lease.token) ++ [lease] := rfl

/-- The members after an acquire: the leases that have not expired and, when it was granted, the
new one, for which there was room. -/
theorem semAcquire_cases (key : SemKey) (cap : Int) (ttl : Nat) (token : Uuid) (now : Nat) :
    (semAcquire key cap ttl token now).2 = false ∧
        members (semAcquire key cap ttl token now).1 =
          (members key).filter (fun l => now < l.expiry) ∨
      (semAcquire key cap ttl token now).2 = true ∧
        ((members key).filter fun l => now < l.expiry).length < cap ∧
        members (semAcquire key cap ttl token now).1 =
          ((members key).filter fun l => now < l.expiry).filter (fun l => l.token ≠ token) ++
            [⟨token, now + ttl⟩] := by
  simp only [semAcquire, members_zremrangebyscore]
  by_cases hcap : cap ≤ ((members key).filter fun l => now < l.expiry).length
  · left
    rw [if_pos hcap]
    exact ⟨rfl, members_zremrangebyscore now⟩
  · right
    rw [if_neg hcap]
    refine ⟨rfl, by omega, ?_⟩
    rw [members_zaddPexpire, members_zremrangebyscore]

end Members

namespace SemWorld

/-- What holds along a run in which the key outlives its leases.  `tokens` are the tokens that were
asked for. -/
structure Inv (gate : LlmGate) (w : SemWorld) (tokens : List Uuid) : Prop where
  distinct : (w.granted.map Lease.token).Nodup
  asked : ∀ l ∈ w.granted, l.token ∈ tokens
  held : ∀ l ∈ w.live, l ∈ members w.sem
  bounded : (members w.sem).length ≤ gate.limits.maxConcurrency

variable {gate : LlmGate} {w : SemWorld} {tokens : List Uuid}

theorem mem_live {l : Lease} : l ∈ w.live ↔ l ∈ w.granted ∧ w.now < l.expiry := by
  simp [live]

theorem Inv.init (gate : LlmGate) (now : Nat) : Inv gate { now } [] where
  distinct := List.nodup_nil
  asked := by simp
  held := by simp [live]
  bounded := by
    have := gate.maxConcurrency_pos
    simp [members]
    omega

theorem Inv.live_length (h : Inv gate w tokens) : w.live.length ≤ gate.limits.maxConcurrency := by
  have hnodup : w.live.Nodup := (List.Nodup.of_map _ h.distinct).filter _
  have hle : w.live.length ≤ (members w.sem).length :=
    (List.subperm_of_subset hnodup h.held).length_le
  have := h.bounded
  omega

/-- The clock moves on; a key whose deadline has passed takes expired leases along only. -/
theorem Inv.advance {ms : Nat} (h : Inv gate w tokens) (hkept : w.OutlivesLeases (.clock ms)) :
    Inv gate (w.advance (w.now + ms)) tokens := by
  have hbound : (members (w.advance (w.now + ms)).sem).length ≤ (members w.sem).length := by
    show (members (Volatile.current _ _)).length ≤ _
    rcases Volatile.current_cases (w.now + ms) w.sem with hc | ⟨v, -, -, hc⟩
    · rw [hc]
    · simp [hc, members]
  refine ⟨h.distinct, h.asked, ?_, ?_⟩
  · intro l hl
    obtain ⟨hg, hlt⟩ := mem_live.mp hl
    replace hlt : w.now + ms < l.expiry := hlt
    have hmem : l ∈ members w.sem := h.held l (mem_live.mpr ⟨hg, by omega⟩)
    show l ∈ members (Volatile.current _ _)
    rcases Volatile.current_cases (w.now + ms) w.sem with hc | ⟨v, hv, hpast, -⟩
    · rwa [hc]
    · -- the key would have gone under the live lease `l`
      have hle := hkept v (by simp [hv]) hpast l (by simpa [members, hv] using hmem)
      omega
  · have := h.bounded
    omega

theorem Inv.release (h : Inv gate w tokens) (token : Uuid) (reply : RedisReply) :
    Inv gate (w.release token reply) tokens := by
  by_cases hr : reply = .failed
  · rwa [SemWorld.release, if_pos hr]
  rw [SemWorld.release, if_neg hr]
  have hsub : (w.granted.filter fun l => l.token ≠ token).Sublist w.granted := List.filter_sublist
  refine ⟨h.distinct.sublist (hsub.map _), fun l hl => h.asked l (hsub.subset hl), ?_, ?_⟩
  · intro l hl
    obtain ⟨hg, hlt⟩ := mem_live.mp hl
    obtain ⟨hg, hne⟩ := List.mem_filter.mp hg
    show l ∈ members (zrem _ _)
    rw [members_zrem]
    exact List.mem_filter.mpr ⟨h.held l (mem_live.mpr ⟨hg, hlt⟩), hne⟩
  · have hle : (members (zrem w.sem token)).length ≤ (members w.sem).length := by
      rw [members_zrem]
      exact List.length_filter_le _ _
    have := h.bounded
    show ((members (zrem w.sem token)).length : Int) ≤ _
    omega

/-- An acquire under a token that was not asked for before. -/
theorem Inv.acquire (h : Inv gate w tokens) (maxHold : Int) (reply : RedisReply) {token : Uuid}
    (hfresh : token ∉ tokens) :
    Inv gate (w.acquire gate maxHold token reply) (tokens ++ [token]) := by
  have hsame : Inv gate w (tokens ++ [token]) :=
    ⟨h.distinct, fun l hl => List.mem_append_left _ (h.asked l hl), h.held, h.bounded⟩
  unfold SemWorld.acquire
  split
  · exact hsame
  · exact hsame
  rename_i ttl _ _
  have hprune : ((members w.sem).filter fun l => w.now < l.expiry).length ≤ (members w.sem).length :=
    List.length_filter_le _ _
  have hkept : ∀ l ∈ w.live, l ∈ (members w.sem).filter fun l => w.now < l.expiry := by
    intro l hl
    have hlt := (mem_live.mp hl).2
    exact List.mem_filter.mpr ⟨h.held l hl, by simpa using hlt⟩
  have hother : ∀ l ∈ w.granted, l.token ≠ token := by
    rintro l hl rfl
    exact hfresh (h.asked l hl)
  rcases semAcquire_cases w.sem gate.limits.maxConcurrency ttl token w.now with
    ⟨hr, hm⟩ | ⟨hr, hroom, hm⟩
  · refine ⟨by simpa [hr] using hsame.distinct, by simpa [hr] using hsame.asked, ?_, ?_⟩
    · intro l hl
      show l ∈ members (semAcquire _ _ _ _ _).1
      rw [hm]
      exact hkept l (by simpa [live, hr] using hl)
    · have := h.bounded
      show ((members (semAcquire _ _ _ _ _).1).length : Int) ≤ _
      rw [hm]
      omega
  · simp only [hr, if_true]
    refine ⟨?_, ?_, ?_, ?_⟩
    · rw [List.map_append, List.nodup_append]
      refine ⟨h.distinct, List.nodup_singleton _, ?_⟩
      intro a ha b hb
      obtain ⟨l, hl, rfl⟩ := List.mem_map.mp ha
      obtain rfl : b = token := by simpa using hb
      exact hother l hl
    · intro l hl
      rcases List.mem_append.mp hl with hl | hl
      · exact List.mem_append_left _ (h.asked l hl)
      · obtain rfl := List.mem_singleton.mp hl
        simp
    · intro l hl
      obtain ⟨hg, hlt⟩ := mem_live.mp hl
      show l ∈ members (semAcquire _ _ _ _ _).1
      rw [hm]
      rcases List.mem_append.mp hg with hg | hg
      · refine List.mem_append_left _ (List.mem_filter.mpr ⟨?_, by simpa using hother l hg⟩)
        exact hkept l (mem_live.mpr ⟨hg, hlt⟩)
      · exact List.mem_append_right _ hg
    · have hle := List.length_filter_le (fun l => decide (l.token ≠ token))
        ((members w.sem).filter fun l => w.now < l.expiry)
      show ((members (semAcquire _ _ _ _ _).1).length : Int) ≤ _
      rw [hm, List.length_append, List.length_singleton]
      omega

/-- One action, with its token among those asked for. -/
theorem Inv.step {a : SemAction} (h : Inv gate w tokens) (hkept : w.OutlivesLeases a)
    (hfresh : ∀ t ∈ a.requested, t ∉ tokens) :
    Inv gate (w.step gate a) (tokens ++ a.requested.toList) := by
  cases a with
  | clock ms =>
    show Inv gate (w.advance (w.now + ms)) (tokens ++ [])
    rw [List.append_nil]
    exact h.advance hkept
  | acquire maxHold token reply => exact h.acquire maxHold reply (hfresh token rfl)
  | release token reply =>
    show Inv gate (w.release token reply) (tokens ++ [])
    rw [List.append_nil]
    exact h.release token reply
  | crash token =>
    show Inv gate w (tokens ++ [])
    rwa [List.append_nil]

theorem Inv.run {as : List SemAction} (h : Inv gate w tokens)
    (hkept : Along (SemWorld.step gate) OutlivesLeases w as)
    (hfresh : (tokens ++ requested as).Nodup) :
    Inv gate (Transition.run (SemWorld.step gate) w as) (tokens ++ requested as) := by
  induction as generalizing w tokens with
  | nil =>
    show Inv gate w (tokens ++ [])
    rwa [List.append_nil]
  | cons a as ih =>
    have hsplit : tokens ++ requested (a :: as) =
        (tokens ++ a.requested.toList) ++ requested as := by
      cases hr : a.requested <;> simp [requested, hr]
    rw [hsplit] at hfresh ⊢
    refine ih (h.step hkept.1 ?_) hkept.2 hfresh
    intro t ht
    have hdisj := (List.nodup_append.mp (List.nodup_append.mp hfresh).1).2.2
    exact fun hmem => hdisj t hmem t (Option.mem_toList.mpr ht) rfl

/-- The tenant never has more than `max_concurrency` leases that are granted, not released and not
expired, in a run in which the key outlives its leases. -/
theorem live_le_maxConcurrency (gate : LlmGate) (start : Nat) (as : List SemAction)
    (hfresh : (requested as).Nodup)
    (hkept : Along (SemWorld.step gate) OutlivesLeases { now := start } as) :
    (Transition.run (SemWorld.step gate) { now := start } as).live.length ≤
      gate.limits.maxConcurrency :=
  ((Inv.init gate start).run hkept (by simpa using hfresh)).live_length

/-- A gate that admits two calls at a time. -/
def twoAtATime : LlmGate := ⟨{ maxConcurrency := 2 }, by decide, by decide, by decide⟩

theorem live_le_two_of_equal_leases :
    (Transition.run (SemWorld.step twoAtATime) { now := 0 }
      [.acquire 60000 1 .ok, .acquire 60000 2 .ok, .clock 80000, .acquire 60000 3 .ok]).live.length ≤
        twoAtATime.limits.maxConcurrency :=
  live_le_maxConcurrency twoAtATime 0 _ (by decide) (by decide)

/-- A call with a short lease sets the expiry of the key to twice that lease.  The key goes while
the lease of a call with a long one is live, and its slot is given away once more. -/
theorem short_lease_drops_long_one :
    ¬∀ (gate : LlmGate) (start : Nat) (as : List SemAction), (requested as).Nodup →
      (Transition.run (SemWorld.step gate) { now := start } as).live.length ≤
        gate.limits.maxConcurrency := by
  intro h
  have := h twoAtATime 0 [.acquire 86400000 1 .ok, .acquire 1000 2 .ok, .clock 32001,
    .acquire 1000 3 .ok, .acquire 1000 4 .ok] (by decide)
  revert this
  decide

end SemWorld

end Wikore
