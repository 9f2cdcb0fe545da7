import Wikore.Lib.Spending
import Wikore.Lib.Volatile
import Wikore.Rag.LlmGate
import Mathlib.Algebra.Order.Floor.Ring
import Mathlib.Data.Rat.Floor
import Mathlib.Tactic.Positivity

/-! The token bucket that limits a tenant's rate: the script of `Redis::token_bucket_take` in exact
arithmetic, on a hash that expires some time after the last call. -/

namespace Wikore

open Spending

/-- The hash under the key: the tokens, and the time of the last call in milliseconds. -/
structure Bucket where
  tokens : Rat
  ts : Nat
deriving DecidableEq, Repr

structure BucketCall where
  now : Nat
  cost : Int
deriving DecidableEq, Repr

section Script

variable (rate : Rat) (burst : Int)

/-- The tokens that a call at `now` finds: those stored, refilled since, or a full bucket. -/
def refill (found : Option Bucket) (now : Nat) : Rat :=
  let tokens := (found.map Bucket.tokens).getD burst
  let ts := (found.map Bucket.ts).getD now
  let delta : Rat := now - ts
  let delta := if delta < 0 then 0 else delta
  min burst (tokens + delta / 1000 * rate)

/-- The script between `HMGET` and `HSET`: the hash that it stores, and whether it allows the
call. -/
def takeFrom (found : Option Bucket) (call : BucketCall) : Bucket × Bool :=
  let tokens := refill rate burst found call.now
  if call.cost ≤ tokens then (⟨tokens - call.cost, call.now⟩, true)
  else (⟨tokens, call.now⟩, false)

/-- `math.ceil((burst / rate) * 1000) + 1000`, in milliseconds. -/
def bucketTtl : Int := ⌈burst / rate * 1000⌉ + 1000

/-- The key of a bucket, whose deadline is `⊤` as long as none has been set. -/
abbrev BucketKey := Option (Volatile Bucket (WithTop Nat))

/-- The script, with `rate` as the number that it reads from its first argument: the key that it
leaves, and the outcome of the call. -/
def bucketScript (key : BucketKey) (call : BucketCall) : BucketKey × Int :=
  let found := Volatile.current (call.now : WithTop Nat) key
  let r := takeFrom rate burst (found.map Volatile.value) call
  -- at the rate 0 the expiry is infinite: `PEXPIRE` refuses it after `HSET`, and the call fails
  if rate = 0 then (some ⟨r.1, (found.map Volatile.deadline).getD ⊤⟩, -1)
  else
    let deadline := call.now + (bucketTtl rate burst).toNat
    (some ⟨r.1, deadline⟩, if r.2 then 1 else 0)

/-- The outcomes of the same script without the expiry. -/
def answersWithoutExpiry (found : Option Bucket) : List BucketCall → List Int
  | [] => []
  | call :: calls =>
    (if (takeFrom rate burst found call).2 then 1 else 0) ::
      answersWithoutExpiry (some (takeFrom rate burst found call).1) calls

end Script

/-- `std::to_string` of a floating-point number, in millionths: it is printed with six decimals, a tie
with the even digit. -/
def printedMillionths (x : Rat) : Int :=
  let millionths := x * 1000000
  let rest := millionths - ⌊millionths⌋
  if rest < 1 / 2 then ⌊millionths⌋
  else if 1 / 2 < rest then ⌊millionths⌋ + 1
  else if ⌊millionths⌋ % 2 = 0 then ⌊millionths⌋
  else ⌊millionths⌋ + 1

/-- The rate that the script reads: `rate_s`. -/
def printedRate (refillPerSec : Rat) : Rat := printedMillionths refillPerSec / 1000000

section Calls

variable (refillPerSec : Rat) (burst : Int)

/-- `Redis::token_bucket_take`: 1 for a call that is allowed, 0 for one that is denied, -1 for an
error. -/
def tokenBucketTake (key : BucketKey) (call : BucketCall) : BucketKey × Int :=
  bucketScript (printedRate refillPerSec) burst key call

/-- The key after a sequence of calls. -/
def bucketAfter (key : BucketKey) : List BucketCall → BucketKey
  | [] => key
  | call :: calls => bucketAfter (tokenBucketTake refillPerSec burst key call).1 calls

/-- The outcomes of a sequence of calls. -/
def bucketAnswers (key : BucketKey) : List BucketCall → List Int
  | [] => []
  | call :: calls =>
    (tokenBucketTake refillPerSec burst key call).2 ::
      bucketAnswers (tokenBucketTake refillPerSec burst key call).1 calls

end Calls

/-- `LlmGate::allow_rate`, which lets a call through if the bucket fails. -/
def LlmGate.allowRate (gate : LlmGate) (key : BucketKey) (now : Nat) : BucketKey × Bool :=
  let r := tokenBucketTake gate.limits.ratePerSec gate.limits.burst key ⟨now, 1⟩
  (r.1, if r.2 < 0 then true else r.2 = 1)

/-- The calls, with the cost of those that were allowed. -/
def allowedCosts (calls : List BucketCall) (answers : List Int) : List (BucketCall × Rat) :=
  calls.zipWith (fun call answer => (call, if answer = 1 then (call.cost : Rat) else 0)) answers

/-- The cost that was admitted from the time `a` to the time `b`. -/
def admittedCost (calls : List BucketCall) (answers : List Int) (a b : Rat) : Rat :=
  within (fun call : BucketCall => (call.now : Rat)) a b (allowedCosts calls answers)

/-- What the bucket promises of a sequence of calls: the stored tokens are between 0 and the burst,
what is admitted in a window is at most the burst and what the window refills, and the outcomes are
those of the script without the expiry. Times are in milliseconds and the rate is per second. -/
structure BucketBound (refillPerSec : Rat) (burst : Int) (calls : List BucketCall) : Prop where
  stored : ∀ v ∈ bucketAfter refillPerSec burst none calls,
    0 ≤ v.value.tokens ∧ v.value.tokens ≤ burst
  admitted : ∀ a b : Rat, a ≤ b →
    admittedCost calls (bucketAnswers refillPerSec burst none calls) a b ≤
      burst + refillPerSec * ((b - a) / 1000)
  expiry : bucketAnswers refillPerSec burst none calls =
    answersWithoutExpiry (printedRate refillPerSec) burst none calls

/-! ### The stored tokens -/

section Facts

variable {rate refillPerSec : Rat} {burst : Int} {found : Option Bucket} {key : BucketKey}
  {call : BucketCall} {calls : List BucketCall} {now : Nat}

/-- Tokens that are neither negative nor more than the burst. -/
def Bucket.Within (burst : Int) (b : Bucket) : Prop := 0 ≤ b.tokens ∧ b.tokens ≤ burst

theorem refill_none : refill rate burst none now = burst := by
  simp [refill]

theorem refill_some {b : Bucket} (h : b.ts ≤ now) :
    refill rate burst (some b) now = min (burst : Rat) (b.tokens + (now - b.ts) / 1000 * rate) := by
  have : ¬(now : Rat) - b.ts < 0 := by
    have : (b.ts : Rat) ≤ now := by exact_mod_cast h
    linarith
  simp [refill, this]

theorem refill_le_burst : refill rate burst found now ≤ burst := min_le_left _ _

theorem refill_nonneg (now : Nat) (hrate : 0 ≤ rate) (hburst : 1 ≤ burst)
    (h : ∀ b ∈ found, b.Within burst) : 0 ≤ refill rate burst found now := by
  have hb : (0 : Rat) ≤ burst := by exact_mod_cast (by omega : (0 : Int) ≤ burst)
  have htokens : 0 ≤ (found.map Bucket.tokens).getD (burst : Rat) := by
    rcases found with - | b
    · exact hb
    · exact (h b rfl).1
  have hdelta : ∀ d : Rat, 0 ≤ (if d < 0 then 0 else d) := by
    intro d
    split <;> linarith
  refine le_min hb (add_nonneg htokens ?_)
  have := hdelta (now - (found.map Bucket.ts).getD now)
  positivity

/-- A call pays from the refilled tokens, or leaves them as they are. -/
theorem takeFrom_cases (rate : Rat) (burst : Int) (found : Option Bucket) (call : BucketCall) :
    call.cost ≤ refill rate burst found call.now ∧ takeFrom rate burst found call =
        (⟨refill rate burst found call.now - call.cost, call.now⟩, true) ∨
      refill rate burst found call.now < call.cost ∧ takeFrom rate burst found call =
        (⟨refill rate burst found call.now, call.now⟩, false) := by
  by_cases h : (call.cost : Rat) ≤ refill rate burst found call.now
  · exact .inl ⟨h, by simp [takeFrom, h]⟩
  · exact .inr ⟨not_le.mp h, by simp [takeFrom, h]⟩

theorem takeFrom_ts : (takeFrom rate burst found call).1.ts = call.now := by
  rcases takeFrom_cases rate burst found call with ⟨-, h⟩ | ⟨-, h⟩ <;> rw [h]

theorem takeFrom_within (hrate : 0 ≤ rate) (hburst : 1 ≤ burst) (hcost : 0 < call.cost)
    (h : ∀ b ∈ found, b.Within burst) : (takeFrom rate burst found call).1.Within burst := by
  have h0 := refill_nonneg call.now hrate hburst h
  have h1 : refill rate burst found call.now ≤ burst := refill_le_burst
  have hc : (0 : Rat) < call.cost := by exact_mod_cast hcost
  rcases takeFrom_cases rate burst found call with ⟨hle, ht⟩ | ⟨-, ht⟩
  · rw [ht]
    constructor <;> show _ ≤ _ <;> linarith
  · rw [ht]
    exact ⟨h0, h1⟩

/-! ### The expiry -/

/-- The key as the calls leave it: its tokens are in range, and it lives until the bucket is full
again. -/
structure KeptBucket (rate : Rat) (burst : Int) (v : Volatile Bucket (WithTop Nat)) : Prop where
  within : v.value.Within burst
  deadline : ((v.value.ts + (bucketTtl rate burst).toNat : Nat) : WithTop Nat) ≤ v.deadline

/-- The tokens in the key stay in range, whether its expiry is set or not. -/
theorem bucketScript_within (hrate : 0 ≤ rate) (hburst : 1 ≤ burst) (hcost : 0 < call.cost)
    (h : ∀ v ∈ key, v.value.Within burst) :
    ∀ v ∈ (bucketScript rate burst key call).1, v.value.Within burst := by
  have hfound : ∀ b ∈ (Volatile.current (call.now : WithTop Nat) key).map Volatile.value,
      b.Within burst := by
    intro b hb
    obtain ⟨v, hv, rfl⟩ := Option.map_eq_some_iff.mp hb
    rcases Volatile.current_cases (call.now : WithTop Nat) key with hc | ⟨-, -, -, hc⟩
    · exact h v (hc ▸ hv)
    · rw [hc] at hv
      cases hv
  have hleft := takeFrom_within hrate hburst hcost hfound
  intro v hv
  rw [bucketScript] at hv
  split at hv <;> obtain rfl := Option.some.inj hv <;> exact hleft

theorem bucketAfter_within (hrate : 0 ≤ printedRate refillPerSec) (hburst : 1 ≤ burst)
    (hcost : ∀ c ∈ calls, 0 < c.cost) (h : ∀ v ∈ key, v.value.Within burst) :
    ∀ v ∈ bucketAfter refillPerSec burst key calls, v.value.Within burst := by
  induction calls generalizing key with
  | nil => exact h
  | cons call calls ih =>
    exact ih (fun c hc => hcost c (List.mem_cons_of_mem _ hc))
      (bucketScript_within hrate hburst (hcost call List.mem_cons_self) h)

theorem KeptBucket.bucketScript (hrate : 0 < rate) (hburst : 1 ≤ burst) (hcost : 0 < call.cost)
    (h : ∀ v ∈ key, KeptBucket rate burst v) :
    ∀ v ∈ (bucketScript rate burst key call).1, KeptBucket rate burst v := by
  intro v hv
  refine ⟨bucketScript_within hrate.le hburst hcost (fun v hv => (h v hv).within) v hv, ?_⟩
  rw [Wikore.bucketScript, if_neg hrate.ne'] at hv
  obtain rfl := Option.some.inj hv
  rw [takeFrom_ts]

/-- When the key has expired, the bucket would have been full. -/
theorem refill_of_expired {v : Volatile Bucket (WithTop Nat)} (hrate : 0 < rate) (hburst : 1 ≤ burst)
    (h : KeptBucket rate burst v) (hpast : v.deadline < now) :
    refill rate burst (some v.value) now = burst := by
  have hb : (0 : Rat) < burst := by exact_mod_cast (by omega : (0 : Int) < burst)
  have hceil : (burst : Rat) / rate * 1000 ≤ ⌈(burst : Rat) / rate * 1000⌉ := Int.le_ceil _
  have httl : 0 ≤ bucketTtl rate burst := by
    have : (0 : Int) ≤ ⌈(burst : Rat) / rate * 1000⌉ := Int.ceil_nonneg (by positivity)
    unfold bucketTtl
    omega
  have hlong : v.value.ts + (bucketTtl rate burst).toNat < now :=
    WithTop.coe_lt_coe.mp (h.deadline.trans_lt hpast)
  have helapsed : (burst : Rat) / rate * 1000 ≤ now - v.value.ts := by
    have hint : (v.value.ts : Int) + bucketTtl rate burst < now := by omega
    have : (v.value.ts : Rat) + (⌈(burst : Rat) / rate * 1000⌉ + 1000) < now := by
      exact_mod_cast hint
    linarith
  have hfull : (burst : Rat) ≤ (now - v.value.ts) / 1000 * rate := by
    have := mul_le_mul_of_nonneg_right helapsed hrate.le
    rw [div_mul_eq_mul_div, div_mul_cancel₀ _ hrate.ne'] at this
    linarith
  rw [refill_some (by omega), min_eq_left]
  linarith [h.within.1]

/-- A read of the key and the hash that it would hold without its expiry refill to the same
tokens. -/
theorem refill_read (hrate : 0 < rate) (hburst : 1 ≤ burst) (h : ∀ v ∈ key, KeptBucket rate burst v)
    (now : Nat) : refill rate burst ((Volatile.current (now : WithTop Nat) key).map Volatile.value) now =
      refill rate burst (key.map Volatile.value) now := by
  rcases Volatile.current_cases (now : WithTop Nat) key with hc | ⟨v, rfl, hpast, hc⟩
  · rw [hc]
  · rw [hc, Option.map_none, refill_none, Option.map_some,
      refill_of_expired hrate hburst (h v rfl) hpast]

/-- A call finds what it would find without the expiry. -/
theorem bucketScript_eq (hrate : 0 < rate) (hburst : 1 ≤ burst)
    (h : ∀ v ∈ key, KeptBucket rate burst v) :
    (bucketScript rate burst key call).1.map Volatile.value =
        some (takeFrom rate burst (key.map Volatile.value) call).1 ∧
      (bucketScript rate burst key call).2 =
        if (takeFrom rate burst (key.map Volatile.value) call).2 then 1 else 0 := by
  have hsame : takeFrom rate burst
      ((Volatile.current (call.now : WithTop Nat) key).map Volatile.value) call =
        takeFrom rate burst (key.map Volatile.value) call := by
    simp only [takeFrom, refill_read hrate hburst h call.now]
  rw [bucketScript, if_neg hrate.ne', hsame]
  exact ⟨rfl, rfl⟩

theorem bucketAnswers_eq (hrate : 0 < printedRate refillPerSec) (hburst : 1 ≤ burst)
    (hcost : ∀ c ∈ calls, 0 < c.cost)
    (h : ∀ v ∈ key, KeptBucket (printedRate refillPerSec) burst v) :
    bucketAnswers refillPerSec burst key calls =
      answersWithoutExpiry (printedRate refillPerSec) burst (key.map Volatile.value) calls := by
  induction calls generalizing key with
  | nil => rfl
  | cons call calls ih =>
    have hkept := KeptBucket.bucketScript hrate hburst (hcost call List.mem_cons_self) h
    have hrest := ih (fun c hc => hcost c (List.mem_cons_of_mem _ hc)) hkept
    obtain ⟨hkey, hanswer⟩ := bucketScript_eq hrate hburst h
    rw [bucketAnswers, answersWithoutExpiry, tokenBucketTake, hrest, hanswer, hkey]

/-! ### The admitted cost -/

/-- The tokens that could be taken at a time. -/
def level (rate : Rat) (burst : Int) (found : Option Bucket) (t : Rat) : Rat :=
  match found with
  | none => burst
  | some b => max 0 (min burst (b.tokens + max 0 (t - b.ts) / 1000 * rate))

theorem level_eq_refill (hburst : 1 ≤ burst) (found : Option Bucket) (now : Nat) :
    level rate burst found now = max 0 (refill rate burst found now) := by
  have hb : (0 : Rat) ≤ burst := by exact_mod_cast (by omega : (0 : Int) ≤ burst)
  rcases found with - | b
  · rw [refill_none, max_eq_right hb, level]
  · have hdelta : ∀ d : Rat, (if d < 0 then 0 else d) = max 0 d := by
      intro d
      split
      · rw [max_eq_left (by linarith)]
      · rw [max_eq_right (by linarith)]
    simp only [level, refill, Option.map_some, Option.getD_some, hdelta]

/-- The level right after a call. -/
theorem level_at_ts (x : Rat) (now : Nat) :
    level rate burst (some ⟨x, now⟩) now = max 0 (min (burst : Rat) x) := by
  simp [level]

/-- The bucket as something that is spent from. -/
theorem metered (hrate : 0 < rate) (hburst : 1 ≤ burst) :
    Metered (fun found call => some (takeFrom rate burst found call).1)
      (fun found call => if (takeFrom rate burst found call).2 then (call.cost : Rat) else 0)
      (fun call : BucketCall => (call.now : Rat)) (level rate burst) burst (rate / 1000) where
  nonneg := by
    have hb : (0 : Rat) ≤ burst := by exact_mod_cast (by omega : (0 : Int) ≤ burst)
    rintro (- | b) t
    · exact hb
    · exact le_max_left _ _
  le_cap := by
    have hb : (0 : Rat) ≤ burst := by exact_mod_cast (by omega : (0 : Int) ≤ burst)
    rintro (- | b) t
    · exact le_rfl
    · exact max_le hb (min_le_left _ _)
  grows := by
    rintro (- | b) t t' ht
    · have : 0 ≤ rate / 1000 * (t' - t) := mul_nonneg (by positivity) (sub_nonneg.mpr ht)
      show (burst : Rat) ≤ burst + _
      linarith
    · have hgap : 0 ≤ rate / 1000 * (t' - t) := mul_nonneg (by positivity) (sub_nonneg.mpr ht)
      have hmax : max 0 (t' - b.ts) ≤ max 0 (t - b.ts) + (t' - t) := by
        apply max_le
        · linarith [le_max_left 0 (t - b.ts)]
        · linarith [le_max_right 0 (t - b.ts)]
      have hscaled := mul_le_mul_of_nonneg_right hmax (by positivity : 0 ≤ rate / 1000)
      have hrefill : b.tokens + max 0 (t' - b.ts) / 1000 * rate ≤
          b.tokens + max 0 (t - b.ts) / 1000 * rate + rate / 1000 * (t' - t) := by
        linarith
      show max 0 (min _ _) ≤ max 0 (min _ _) + _
      rw [← max_add_add_right, ← min_add_add_right]
      exact max_le_max (by linarith) (min_le_min (by linarith) hrefill)
  pays := by
    intro found call
    show level rate burst (some _) call.now + _ ≤ level rate burst found call.now
    rw [level_eq_refill hburst found]
    have hle : refill rate burst found call.now ≤ max 0 (refill rate burst found call.now) :=
      le_max_right _ _
    rcases takeFrom_cases rate burst found call with ⟨hc, h⟩ | ⟨-, h⟩
    · rw [h, level_at_ts, if_pos rfl, ← max_add_add_right]
      apply max_le
      · linarith
      · linarith [min_le_right (burst : Rat) (refill rate burst found call.now - call.cost)]
    · rw [h, level_at_ts, if_neg (by simp), add_zero]
      exact max_le_max le_rfl (min_le_right _ _)
  rate_nonneg := by positivity

theorem allowedCosts_withoutExpiry :
    allowedCosts calls (answersWithoutExpiry rate burst found calls) =
      spending (fun found call => some (takeFrom rate burst found call).1)
        (fun found call => if (takeFrom rate burst found call).2 then (call.cost : Rat) else 0)
        found calls := by
  induction calls generalizing found with
  | nil => rfl
  | cons call calls ih =>
    rw [answersWithoutExpiry, spending, ← ih]
    cases (takeFrom rate burst found call).2 <;> rfl

end Facts

/-! ### The printed rate -/

section Printed

variable {refillPerSec : Rat} {burst : Int} {calls : List BucketCall}

/-- A rate above 0 is not printed below it. -/
theorem printedRate_nonneg (h : 0 < refillPerSec) : 0 ≤ printedRate refillPerSec := by
  have hfloor : 0 ≤ ⌊refillPerSec * 1000000⌋ := Int.floor_nonneg.mpr (by positivity)
  have hprinted : 0 ≤ printedMillionths refillPerSec := by
    rw [printedMillionths]
    split
    · exact hfloor
    · split
      · omega
      · split <;> omega
  have hmillionths : (0 : Rat) ≤ printedMillionths refillPerSec := by exact_mod_cast hprinted
  rw [printedRate]
  positivity

/-- A gate whose rate is printed as 0 passes the checks of its constructor, and limits nothing. -/
theorem allowRate_of_zero {gate : LlmGate} (h : printedRate gate.limits.ratePerSec = 0) (key : BucketKey)
    (now : Nat) : (gate.allowRate key now).2 = true := by
  simp [LlmGate.allowRate, tokenBucketTake, bucketScript, h]

/-- The window bound at the rate that the script reads. -/
theorem admittedCost_le_printed (hrate : 0 < printedRate refillPerSec) (hburst : 1 ≤ burst)
    (hclock : calls.Pairwise fun c d => c.now ≤ d.now) (hcost : ∀ c ∈ calls, 0 < c.cost) {a b : Rat}
    (hab : a ≤ b) : admittedCost calls (bucketAnswers refillPerSec burst none calls) a b ≤
      burst + printedRate refillPerSec * ((b - a) / 1000) := by
  have hsorted : calls.Pairwise fun c d => (c.now : Rat) ≤ d.now := by
    refine hclock.imp fun h => ?_
    exact_mod_cast h
  have hle := within_le_window (s := none) (metered hrate hburst) hsorted hab
  have hnone : ∀ v ∈ (none : BucketKey), KeptBucket (printedRate refillPerSec) burst v := by simp
  have hanswers := bucketAnswers_eq hrate hburst hcost hnone
  rw [← allowedCosts_withoutExpiry] at hle
  rw [admittedCost, hanswers, Option.map_none]
  linarith

/-- A burst of as many tokens as the printed rate has millionths refills in a million seconds, and is
taken twice. -/
theorem bucketAnswers_twice (hrate : 0 < printedRate refillPerSec) :
    let burst := printedMillionths refillPerSec
    bucketAnswers refillPerSec burst none [⟨0, burst⟩, ⟨1000000000, burst⟩] = [1, 1] := by
  intro burst
  have hmillion : printedRate refillPerSec * 1000000 = burst := by
    rw [printedRate]
    exact div_mul_cancel₀ _ (by norm_num)
  have hpos : (0 : Rat) < burst := by
    rw [← hmillion]
    positivity
  have hburst : 1 ≤ burst := by
    have : 0 < burst := by exact_mod_cast hpos
    omega
  have hcost : ∀ c ∈ ([⟨0, burst⟩, ⟨1000000000, burst⟩] : List BucketCall), 0 < c.cost := by
    intro c hc
    simp only [List.mem_cons, List.not_mem_nil, or_false] at hc
    rcases hc with rfl | rfl <;> exact hburst
  have hfirst : takeFrom (printedRate refillPerSec) burst none ⟨0, burst⟩ = (⟨0, 0⟩, true) := by
    simp [takeFrom, refill_none]
  have hrefill : refill (printedRate refillPerSec) burst (some ⟨0, 0⟩) 1000000000 = burst := by
    rw [refill_some (Nat.zero_le _), ← hmillion]
    norm_num
    rw [mul_comm]
  have hsecond : (takeFrom (printedRate refillPerSec) burst (some ⟨0, 0⟩)
      ⟨1000000000, burst⟩).2 = true := by
    simp [takeFrom, hrefill]
  rw [bucketAnswers_eq hrate hburst hcost (by simp)]
  simp [answersWithoutExpiry, hfirst, hsecond]

end Printed

/-- The bucket of a tenant keeps its bound, for every burst and every sequence of calls with positive
costs at times that do not go back, exactly if the rate is printed as more than 0 and not as more than
it is. -/
theorem token_bucket_bound_iff (refillPerSec : Rat) (hrate : 0 < refillPerSec) :
    (∀ burst : Int, 1 ≤ burst → ∀ calls : List BucketCall,
      (calls.Pairwise fun c d => c.now ≤ d.now) → (∀ c ∈ calls, 0 < c.cost) →
        BucketBound refillPerSec burst calls) ↔
      0 < printedRate refillPerSec ∧ printedRate refillPerSec ≤ refillPerSec := by
  constructor
  · intro hbound
    have hpos : 0 < printedRate refillPerSec := by
      refine (printedRate_nonneg hrate).lt_of_ne' fun hzero => ?_
      -- the script without the expiry allows the first call
      have hsame := (hbound 1 le_rfl [⟨0, 1⟩] (List.pairwise_singleton _ _) (by simp)).expiry
      simp [bucketAnswers, tokenBucketTake, bucketScript, hzero, answersWithoutExpiry, takeFrom,
        refill_none] at hsame
    refine ⟨hpos, le_of_not_gt fun habove => ?_⟩
    have hmillion : printedRate refillPerSec * 1000000 = printedMillionths refillPerSec := by
      rw [printedRate]
      exact div_mul_cancel₀ _ (by norm_num)
    have hburst : 0 < printedMillionths refillPerSec := by
      have : (0 : Rat) < printedMillionths refillPerSec := by
        rw [← hmillion]
        positivity
      exact_mod_cast this
    have hadmitted := (hbound _ hburst [⟨0, printedMillionths refillPerSec⟩,
      ⟨1000000000, printedMillionths refillPerSec⟩] (by simp) (by simp [hburst])).admitted
      0 1000000000 (by norm_num)
    rw [bucketAnswers_twice hpos] at hadmitted
    simp [admittedCost, allowedCosts, within] at hadmitted
    linarith
  · rintro ⟨hpos, hle⟩ burst hburst calls hclock hcost
    refine ⟨?_, fun a b hab => ?_, ?_⟩
    · exact bucketAfter_within hpos.le hburst hcost (by simp)
    · have hadmitted := admittedCost_le_printed hpos hburst hclock hcost hab
      have hwindow : 0 ≤ (b - a) / 1000 := div_nonneg (sub_nonneg.mpr hab) (by norm_num)
      linarith [mul_le_mul_of_nonneg_right hle hwindow]
    · exact bucketAnswers_eq hpos hburst hcost (by simp)

/-- Two calls a second with bursts of three, one of them after the key has expired. -/
theorem token_bucket_two_per_second :
    bucketAnswers 2 3 none [⟨0, 3⟩, ⟨100, 1⟩, ⟨600, 1⟩, ⟨9000, 3⟩] = [1, 0, 1, 1] ∧
      BucketBound 2 3 [⟨0, 3⟩, ⟨100, 1⟩, ⟨600, 1⟩, ⟨9000, 3⟩] :=
  ⟨by decide +kernel, (token_bucket_bound_iff 2 (by decide)).mpr (by decide +kernel) 3 (by decide)
    [⟨0, 3⟩, ⟨100, 1⟩, ⟨600, 1⟩, ⟨9000, 3⟩] (by decide) (by decide)⟩

/-- A rate of 5/512 is printed as 0.009766: after a burst of one the next call is allowed some
milliseconds too soon. And a rate that is printed as 0 makes the call fail. -/
theorem token_bucket_hurries :
    (¬∀ (refillPerSec : Rat) (burst : Int) (calls : List BucketCall), 0 < refillPerSec → 1 ≤ burst →
      (calls.Pairwise fun c d => c.now ≤ d.now) → (∀ c ∈ calls, 0 < c.cost) →
        BucketBound refillPerSec burst calls) ∧
      admittedCost [⟨0, 1⟩, ⟨102397, 1⟩] (bucketAnswers (5 / 512) 1 none [⟨0, 1⟩, ⟨102397, 1⟩])
        0 102397 = 2 ∧
      bucketAnswers (1 / 2500000) 1 none [⟨0, 1⟩] = [-1] := by
  have hadmitted : admittedCost [⟨0, 1⟩, ⟨102397, 1⟩]
      (bucketAnswers (5 / 512) 1 none [⟨0, 1⟩, ⟨102397, 1⟩]) 0 102397 = 2 := by
    decide +kernel
  refine ⟨fun hall => ?_, hadmitted, by decide +kernel⟩
  have hbound := (hall (5 / 512) 1 [⟨0, 1⟩, ⟨102397, 1⟩] (by norm_num) le_rfl (by simp)
    (by simp)).admitted 0 102397 (by norm_num)
  rw [hadmitted] at hbound
  norm_num at hbound

end Wikore
