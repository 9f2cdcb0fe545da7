import Mathlib.Algebra.Order.Group.Basic
import Wikore.Lib.RangePartition

/-! `PartitionMaintainer`: the sweep that creates the partitions of `audit_log` and `usage_events`
ahead of time, and the functions of the database that it calls. -/

namespace Wikore.PartitionMaintainer

open Fallible RangePartition RangePartition.Table

/-! ### Bounds -/

/-- PostgreSQL's day number of a date, for a year that begins in March. -/
def julian (year month day : Int) : Int :=
  year * 365 - 32167 + (year / 4 - year / 100 + year / 100 / 4) + 7834 * month / 256 + day

def date2j (year month day : Int) : Int :=
  if month > 2 then julian (year + 4800) (month + 1) day else julian (year + 4799) (month + 13) day

/-- A `TIMESTAMPTZ`: microseconds from the beginning of 2000, UTC. -/
abbrev Timestamptz := Int

/-- The first instant of a month, UTC. -/
def makeTimestamptz (year month : Int) : Timestamptz :=
  (date2j year month 1 - date2j 2000 1 1) * 86400000000

/-- The first instant of the month with the number `k`, counting from January of year 0. -/
def monthStart (k : Int) : Timestamptz := makeTimestamptz (k / 12) (k % 12 + 1)

theorem monthStart_lt_succ (k : Int) : monthStart k < monthStart (k + 1) := by
  have hdays : date2j (k / 12) (k % 12 + 1) 1 < date2j ((k + 1) / 12) ((k + 1) % 12 + 1) 1 := by
    by_cases hlast : k % 12 = 11
    · have hyear : (k + 1) / 12 = k / 12 + 1 := by omega
      have hmonth : (k + 1) % 12 = 0 := by omega
      rw [hyear, hmonth, hlast, date2j, date2j, if_pos (by decide), if_neg (by decide), julian, julian]
      omega
    · have hyear : (k + 1) / 12 = k / 12 := by omega
      have hmonth : (k + 1) % 12 = k % 12 + 1 := by omega
      rw [hyear, hmonth, date2j, date2j]
      split <;> split <;> rw [julian, julian] <;> omega
  exact Int.mul_lt_mul_of_pos_right (by omega) (by decide)

theorem monthStart_lt {k l : Int} : monthStart k < monthStart l ↔ k < l :=
  (strictMono_int_of_lt_succ monthStart_lt_succ).lt_iff_lt

theorem monthStart_inj {k l : Int} (h : monthStart k = monthStart l) : k = l :=
  (strictMono_int_of_lt_succ monthStart_lt_succ).injective h

theorem eq_monthStart {year month k : Int} (h : 1 ≤ month) (h' : month ≤ 12)
    (hk : k = 12 * year + (month - 1)) : makeTimestamptz year month = monthStart k := by
  rw [monthStart]
  congr 1 <;> omega

/-! ### The functions of the database -/

abbrev Partition := RangePart String Timestamptz

abbrev Rows := Table String Timestamptz

/-- The month in two digits. -/
def twoDigits (month : Int) : String :=
  if month < 10 then "0" ++ toString month else toString month

def auditLogPartition (year quarter : Int) : Partition :=
  let startMonth := (quarter - 1) * 3 + 1
  let endMonth := startMonth + 3
  { name := "audit_log_" ++ toString year ++ "_q" ++ toString quarter
    lo := makeTimestamptz year startMonth
    hi := if endMonth > 12 then makeTimestamptz (year + 1) (endMonth - 12)
      else makeTimestamptz year endMonth }

def usageEventsPartition (year month : Int) : Partition :=
  { name := "usage_events_" ++ toString year ++ "_" ++ twoDigits month
    lo := makeTimestamptz year month
    hi := if month + 1 > 12 then makeTimestamptz (year + 1) 1 else makeTimestamptz year (month + 1) }

/-- Why a statement of the sweep fails; `database` is a failure of the connection, or a time limit. -/
inductive Raised
  | period
  | year
  | refused (why : Refusal String)
  | database
deriving DecidableEq, Repr

def ensurePartition (periods : Int) (partition : Int → Int → Partition) (year period : Int)
    (taken : List String) (T : Rows) : Except Raised (Rows × Bool) := do
  rejectIf (¬(1 ≤ period ∧ period ≤ periods)) .period
  rejectIf (¬(2024 ≤ year ∧ year ≤ 2099)) .year
  (T.ensure taken (partition year period)).mapError .refused

def wikoreEnsureAuditLogPartition := ensurePartition 4 auditLogPartition

def wikoreEnsureUsageEventsPartition := ensurePartition 12 usageEventsPartition

/-- The two partitioned tables. -/
inductive Parent
  | auditLog
  | usageEvents
deriving DecidableEq, Repr

namespace Parent

def other : Parent → Parent
  | auditLog => usageEvents
  | usageEvents => auditLog

theorem other_other (p : Parent) : p.other.other = p := by cases p <;> rfl

def perYear : Parent → Int
  | auditLog => 4
  | usageEvents => 12

/-- The months of a period. -/
def width : Parent → Int
  | auditLog => 3
  | usageEvents => 1

def partition : Parent → Int × Int → Partition
  | auditLog, (year, quarter) => auditLogPartition year quarter
  | usageEvents, (year, month) => usageEventsPartition year month

def ensure : Parent → Int → Int → List String → Rows → Except Raised (Rows × Bool)
  | auditLog => wikoreEnsureAuditLogPartition
  | usageEvents => wikoreEnsureUsageEventsPartition

theorem ensure_eq (p : Parent) (year period : Int) (taken : List String) (T : Rows) :
    p.ensure year period taken T =
      ensurePartition p.perYear (fun y n => p.partition (y, n)) year period taken T := by
  cases p <;> rfl

end Parent

/-! ### The sweep -/

/-- The default lookaheads; the constructor refuses negative ones. -/
structure Options where
  auditLogLookahead : Nat := 4
  usageEventsLookahead : Nat := 12
deriving DecidableEq, Repr

/-- How the transaction ends: with `lost` it is committed, and the acknowledgement does not arrive. -/
inductive Commit
  | acknowledged
  | rejected
  | lost
deriving DecidableEq, Repr

/-- The clock, and what the database answers: `lock` is `none` where the transaction or the lock
cannot be asked for, and `fault` are the statements that fail, by what they are for. -/
structure Replies where
  year : Int
  month : Int
  month_pos : 1 ≤ month
  month_le : month ≤ 12
  lock : Option Bool
  fault : String → Bool
  commit : Commit
  overflowCheck : Bool

/-- The two tables, and the names of the other relations of the schema. -/
structure Catalogue where
  auditLog : Rows
  usageEvents : Rows
  relations : List String
deriving DecidableEq, Repr

namespace Catalogue

def table (c : Catalogue) : Parent → Rows
  | .auditLog => c.auditLog
  | .usageEvents => c.usageEvents

def put (c : Catalogue) (p : Parent) (T : Rows) : Catalogue :=
  match p with
  | .auditLog => { c with auditLog := T }
  | .usageEvents => { c with usageEvents := T }

/-- The names that are not free for a partition of the table. -/
def taken (c : Catalogue) (p : Parent) : List String :=
  c.relations ++ (c.table p.other).attached.map RangePart.name

end Catalogue

namespace Parent

/-- The year and the period of the `i`-th turn of a loop, from the period `start` of `year`. -/
def target (p : Parent) (year start : Int) (i : Nat) : Int × Int :=
  let n := start + i
  (year + (n - 1).tdiv p.perYear, (n - 1).tmod p.perYear + 1)

def label : Parent → Int × Int → String
  | auditLog, (y, q) => "audit_log_" ++ toString y ++ "_q" ++ toString q
  | usageEvents, (y, m) => "usage_events_" ++ toString y ++ "_" ++ twoDigits m

/-- The period that a month is in. -/
def period : Parent → Int → Int
  | auditLog, month => (month - 1).tdiv 3 + 1
  | usageEvents, month => month

def lookahead : Parent → Options → Nat
  | auditLog, opts => opts.auditLogLookahead
  | usageEvents, opts => opts.usageEventsLookahead

def targets (p : Parent) (opts : Options) (year month : Int) : List (Int × Int) :=
  (List.range (p.lookahead opts)).map (p.target year (p.period month))

end Parent

/-- One of the two loops: the partitions that it creates, by their labels. -/
def ensureEach (p : Parent) (fault : String → Bool) (taken : List String) :
    Rows → List (Int × Int) → Except Raised (Rows × List String)
  | T, [] => .ok (T, [])
  | T, t :: ts => do
    rejectIf (fault (p.label t) = true) .database
    let (T', new) ← p.ensure t.1 t.2 taken T
    let (T'', created) ← ensureEach p fault taken T' ts
    return (T'', if new then p.label t :: created else created)

def ensureAhead (p : Parent) (opts : Options) (r : Replies) (c : Catalogue) :
    Except Raised (Catalogue × List String) := do
  let (T, created) ← ensureEach p r.fault (c.taken p) (c.table p) (p.targets opts r.year r.month)
  return (c.put p T, created)

/-- The statements between the lock and the end of the transaction. -/
def ddl (opts : Options) (r : Replies) (c : Catalogue) : Except Raised (Catalogue × List String) := do
  let (c, quarters) ← ensureAhead .auditLog opts r c
  let (c, months) ← ensureAhead .usageEvents opts r c
  return (c, quarters ++ months)

/-- `check_default_overflow`: the default partitions with rows, if the question is answered. -/
def checkDefaultOverflow (answered : Bool) (c : Catalogue) : Option (List String) :=
  if answered then
    some ((if c.auditLog.stored.any fun r => r.1 = none then ["audit_log_default"] else []) ++
      if c.usageEvents.stored.any fun r => r.1 = none then ["usage_events_default"] else [])
  else none

inductive Outcome
  | skipped
  | complete (created : List String)
  | commitFailed
  | failed
deriving DecidableEq, Repr

/-- The catalogue after a sweep, what the sweep logs, and what it adds to `partitions_created_`. -/
structure Swept where
  catalogue : Catalogue
  outcome : Outcome
  partitionsCreated : Nat
  overflow : Option (List String)
deriving DecidableEq, Repr

def runOnce (opts : Options) (r : Replies) (c : Catalogue) : Swept :=
  let swept (c : Catalogue) (outcome : Outcome) (n : Nat) : Swept :=
    ⟨c, outcome, n, checkDefaultOverflow r.overflowCheck c⟩
  match r.lock with
  | none => swept c .failed 0
  | some false => swept c .skipped 0
  | some true =>
    match ddl opts r c with
    | .error _ => swept c .failed 0
    | .ok (c', created) =>
      match r.commit with
      | .acknowledged => swept c' (.complete created) created.length
      | .rejected => swept c .commitFailed 0
      | .lost => swept c' .commitFailed 0

/-! ### Names -/

theorem ofDigitChars_toString {n : Int} (h : 0 ≤ n) :
    Nat.ofDigitChars 10 (toString n).toList 0 = n.toNat := by
  obtain ⟨k, rfl⟩ := Int.eq_ofNat_of_zero_le h
  rw [show toString (k : Int) = toString k from rfl, Nat.toString_eq_ofList_toDigits,
    String.toList_ofList, Nat.ofDigitChars_ten_toDigits, Int.toNat_natCast]

theorem ofDigitChars_twoDigits {n : Int} (h : 0 ≤ n) :
    Nat.ofDigitChars 10 (twoDigits n).toList 0 = n.toNat := by
  rw [twoDigits]
  split
  · rw [String.toList_append, ← ofDigitChars_toString h]
    rfl
  · exact ofDigitChars_toString h

theorem underscore_notMem_toString {n : Int} (h : 0 ≤ n) : '_' ∉ (toString n).toList := by
  obtain ⟨k, rfl⟩ := Int.eq_ofNat_of_zero_le h
  rw [show toString (k : Int) = toString k from rfl, Nat.toString_eq_ofList_toDigits,
    String.toList_ofList]
  intro hmem
  exact absurd (Nat.isDigit_of_mem_toDigits (by decide) (by decide) hmem) (by decide)

theorem underscore_notMem_twoDigits {n : Int} (h : 0 ≤ n) : '_' ∉ (twoDigits n).toList := by
  rw [twoDigits]
  split
  · rw [String.toList_append, List.mem_append]
    rintro (hzero | hmem)
    · exact absurd hzero (by decide)
    · exact underscore_notMem_toString h hmem
  · exact underscore_notMem_toString h

theorem toString_inj {n m : Int} (hn : 0 ≤ n) (hm : 0 ≤ m)
    (h : (toString n).toList = (toString m).toList) : n = m := by
  have hread := congrArg (Nat.ofDigitChars 10 · 0) h
  rw [ofDigitChars_toString hn, ofDigitChars_toString hm] at hread
  omega

theorem year_inj {y y' : Int} (hy : 0 ≤ y) (hy' : 0 ≤ y') {rest rest' : List Char}
    (hrest : '_' ∉ rest)
    (h : (toString y).toList ++ '_' :: rest = (toString y').toList ++ '_' :: rest') :
    y = y' ∧ rest = rest' := by
  obtain ⟨hyear, -, hrest⟩ :=
    (List.append_cons_inj_of_notMem (underscore_notMem_toString hy) hrest).mp h
  exact ⟨toString_inj hy hy' hyear, hrest⟩

namespace Parent

theorem partition_name (p : Parent) (t : Int × Int) : (p.partition t).name = p.label t := by
  cases p <;> rfl

/-- A label determines its period. -/
theorem label_injective {p : Parent} {y y' n n' : Int} (hy : 0 ≤ y) (hn : 0 ≤ n) (hy' : 0 ≤ y')
    (hn' : 0 ≤ n') (h : p.label (y, n) = p.label (y', n')) : (y, n) = (y', n') := by
  have hlist := congrArg String.toList h
  cases p with
  | auditLog =>
    simp only [label, String.toList_append, List.append_assoc] at hlist
    have hq : '_' ∉ 'q' :: (toString n).toList := by
      intro hmem
      rcases List.mem_cons.mp hmem with he | hmem
      · exact absurd he (by decide)
      · exact underscore_notMem_toString hn hmem
    obtain ⟨hyear, hrest⟩ := year_inj hy hy' hq (List.append_cancel_left hlist)
    rw [hyear, toString_inj hn hn' (List.cons.inj hrest).2]
  | usageEvents =>
    simp only [label, String.toList_append, List.append_assoc] at hlist
    obtain ⟨hyear, hrest⟩ :=
      year_inj hy hy' (underscore_notMem_twoDigits hn) (List.append_cancel_left hlist)
    have hmonth : Nat.ofDigitChars 10 (twoDigits n).toList 0 =
        Nat.ofDigitChars 10 (twoDigits n').toList 0 := congrArg (Nat.ofDigitChars 10 · 0) hrest
    rw [ofDigitChars_twoDigits hn, ofDigitChars_twoDigits hn'] at hmonth
    rw [hyear, show n = n' by omega]

theorem label_ne (s t : Int × Int) : auditLog.label s ≠ usageEvents.label t := by
  intro h
  have hlist := congrArg (fun l => l.toList.head?) h
  simp [label, String.toList_append] at hlist

theorem label_ne_other (p : Parent) (s t : Int × Int) : p.label s ≠ p.other.label t := by
  cases p with
  | auditLog => exact label_ne s t
  | usageEvents => exact (label_ne t s).symm

/-! ### The window of a sweep -/

/-- The number of the first month of the window. -/
def firstMonth : Parent → Int → Int → Int
  | auditLog, year, month => 12 * year + 3 * ((month - 1) / 3)
  | usageEvents, year, month => 12 * year + (month - 1)

/-- The `i`-th partition of the window is that of the `i`-th quarter or month from the one that the
clock is in. -/
theorem partition_target (p : Parent) (year : Int) {month : Int} (h : 1 ≤ month) (h' : month ≤ 12)
    (i : Nat) : let first := p.firstMonth year month + p.width * i
    p.partition (p.target year (p.period month) i) =
      ⟨p.label (p.target year (p.period month) i), monthStart first,
        monthStart (first + p.width)⟩ := by
  cases p with
  | auditLog =>
    have hq : (auditLog.period month + (i : Int) - 1) = (month - 1) / 3 + i := by
      rw [period, Int.tdiv_eq_ediv_of_nonneg (by omega)]
      omega
    have hn : (0 : Int) ≤ (month - 1) / 3 + i := by omega
    have hlo : (0 : Int) ≤ (month - 1) / 3 + i := by omega
    simp only [partition, target, auditLogPartition, label, perYear, width, firstMonth, hq,
      Int.tdiv_eq_ediv_of_nonneg hn, Int.tmod_eq_emod_of_nonneg hn, RangePart.mk.injEq, true_and]
    constructor
    · exact eq_monthStart (by omega) (by omega) (by omega)
    · split <;> exact eq_monthStart (by omega) (by omega) (by omega)
  | usageEvents =>
    have hn : (0 : Int) ≤ month + i - 1 := by omega
    simp only [partition, target, usageEventsPartition, label, perYear, period, width, firstMonth,
      Int.tdiv_eq_ediv_of_nonneg hn, Int.tmod_eq_emod_of_nonneg hn, RangePart.mk.injEq, true_and]
    constructor
    · exact eq_monthStart (by omega) (by omega) (by omega)
    · split <;> exact eq_monthStart (by omega) (by omega) (by omega)

theorem width_pos (p : Parent) : 0 < p.width := by cases p <;> decide

section Window

variable (p : Parent) (opts : Options) (year : Int) {month : Int} (h : 1 ≤ month) (h' : month ≤ 12)

include h h'

theorem mem_targets_iff {q : Partition} :
    q ∈ (p.targets opts year month).map p.partition ↔ ∃ i < p.lookahead opts,
      q = ⟨p.label (p.target year (p.period month) i),
        monthStart (p.firstMonth year month + p.width * i),
        monthStart (p.firstMonth year month + p.width * i + p.width)⟩ := by
  simp only [targets, List.map_map, List.mem_map, List.mem_range, Function.comp_apply,
    partition_target p year h h']
  exact exists_congr fun i => and_congr_right fun _ => eq_comm

/-- The partitions of the window are proper, and do not overlap. -/
theorem targets_pairwise :
    ((p.targets opts year month).map p.partition).Pairwise fun a b => ¬a.Overlaps b := by
  rw [targets, List.map_map, List.pairwise_map]
  refine List.pairwise_lt_range.imp fun {i j} hij hover => ?_
  simp only [Function.comp_apply, partition_target p year h h'] at hover
  have hlt := monthStart_lt.mp hover.2
  have hmul : p.width * (i + 1) ≤ p.width * j :=
    Int.mul_le_mul_of_nonneg_left (by omega) p.width_pos.le
  rw [Int.mul_add, Int.mul_one] at hmul
  omega

theorem targets_proper : ∀ q ∈ (p.targets opts year month).map p.partition, q.lo < q.hi := by
  intro q hq
  obtain ⟨i, -, rfl⟩ := (mem_targets_iff p opts year h h').mp hq
  exact monthStart_lt.mpr (by have := p.width_pos; omega)

/-- Every instant of the window is in one of the partitions. -/
theorem exists_holds {t : Timestamptz} (hlo : monthStart (p.firstMonth year month) ≤ t)
    (hhi : t < monthStart (p.firstMonth year month + p.width * p.lookahead opts)) :
    ∃ q ∈ (p.targets opts year month).map p.partition, q.Holds t := by
  have hcover : ∀ n : Nat, t < monthStart (p.firstMonth year month + p.width * n) → ∃ i < n,
      monthStart (p.firstMonth year month + p.width * i) ≤ t ∧
        t < monthStart (p.firstMonth year month + p.width * i + p.width) := by
    intro n
    induction n with
    | zero =>
      intro hlt
      simp only [Int.natCast_zero, Int.mul_zero, Int.add_zero] at hlt
      exact absurd hlt (not_lt.mpr hlo)
    | succ n ih =>
      intro hlt
      rw [Int.natCast_succ, Int.mul_add, Int.mul_one, ← Int.add_assoc] at hlt
      rcases le_or_gt (monthStart (p.firstMonth year month + p.width * n)) t with hle | hgt
      · exact ⟨n, Nat.lt_succ_self n, hle, hlt⟩
      · obtain ⟨i, hi, hin⟩ := ih hgt
        exact ⟨i, Nat.lt_succ_of_lt hi, hin⟩
  obtain ⟨i, hi, hin⟩ := hcover _ hhi
  exact ⟨_, (mem_targets_iff p opts year h h').mpr ⟨i, hi, rfl⟩, hin⟩

/-- What the functions of the database accept. -/
def InRange (t : Int × Int) : Prop := (1 ≤ t.2 ∧ t.2 ≤ p.perYear) ∧ 2024 ≤ t.1 ∧ t.1 ≤ 2099

instance (t : Int × Int) : Decidable (p.InRange t) := inferInstanceAs (Decidable (_ ∧ _))

theorem targets_names (hrange : ∀ t ∈ p.targets opts year month, p.InRange t) :
    (((p.targets opts year month).map p.partition).map RangePart.name).Nodup := by
  rw [targets, List.map_map, List.map_map]
  refine List.nodup_range.map_on fun i hi j hj hname => ?_
  simp only [Function.comp_apply, partition_name] at hname
  have hi := hrange _ (List.mem_map_of_mem hi)
  have hj := hrange _ (List.mem_map_of_mem hj)
  have htarget : p.target year (p.period month) i = p.target year (p.period month) j := by
    refine label_injective ?_ ?_ ?_ ?_ hname
    · exact Int.le_trans (by decide) hi.2.1
    · exact Int.le_trans (by decide) hi.1.1
    · exact Int.le_trans (by decide) hj.2.1
    · exact Int.le_trans (by decide) hj.1.1
  -- the same period begins in the same month
  have hlo := congrArg (fun t => (p.partition t).lo) htarget
  simp only [partition_target p year h h'] at hlo
  have hmul := Int.add_left_cancel (monthStart_inj hlo)
  exact Int.ofNat_inj.mp (Int.eq_of_mul_eq_mul_left p.width_pos.ne' hmul)

end Window

end Parent

end Wikore.PartitionMaintainer
