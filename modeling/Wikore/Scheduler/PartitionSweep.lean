import Wikore.Scheduler.PartitionMaintainer

/-! What a sweep of the partitions does: it creates all that is missing of its window, or changes
nothing. -/

namespace Wikore.PartitionMaintainer

open Fallible RangePartition RangePartition.Table

/-! ### What a sweep does -/

section Loop

variable {p : Parent} {fault : String → Bool} {taken : List String} {T T' : Rows}
  {ts : List (Int × Int)} {created : List String}

theorem ensurePartition_ok {periods year n : Int} {part : Int → Int → Partition} {new : Bool} :
    ensurePartition periods part year n taken T = .ok (T', new) ↔
      ((1 ≤ n ∧ n ≤ periods) ∧ 2024 ≤ year ∧ year ≤ 2099) ∧
        T.ensure taken (part year n) = .ok (T', new) := by
  rw [ensurePartition, rejectIf_bind_ok, rejectIf_bind_ok, not_not, not_not, ← and_assoc]
  refine and_congr_right fun _ => ?_
  cases T.ensure taken (part year n) with
  | error e => exact iff_of_false (ok_ne_error _ _).symm (ok_ne_error _ _).symm
  | ok x => exact Iff.of_eq (by rw [Except.mapError]; simp only [Except.ok.injEq])

/-- A loop ends where none of its statements fails, and then it has gone through the partitions. -/
theorem ensureEach_ok : ensureEach p fault taken T ts = .ok (T', created) ↔
    (∀ t ∈ ts, fault (p.label t) = false ∧ p.InRange t) ∧
      ∃ parts, ensureAll taken T (ts.map p.partition) = .ok (T', parts) ∧
        created = parts.map RangePart.name := by
  induction ts generalizing T T' created with
  | nil =>
    simp only [ensureEach, ensureAll, List.map_nil, Except.ok.injEq, Prod.mk.injEq]
    constructor
    · rintro ⟨rfl, rfl⟩
      exact ⟨fun t ht => absurd ht List.not_mem_nil, [], ⟨rfl, rfl⟩, rfl⟩
    · rintro ⟨-, parts, ⟨rfl, rfl⟩, rfl⟩
      exact ⟨rfl, rfl⟩
  | cons t ts ih =>
    rw [ensureEach, rejectIf_bind_ok, Bool.not_eq_true, bind_ok, List.forall_mem_cons]
    constructor
    · rintro ⟨hfault, ⟨T1, new⟩, hensure, hrest⟩
      obtain ⟨⟨T2, created'⟩, hloop, hpair⟩ := bind_ok.mp hrest
      cases hpair
      rw [p.ensure_eq] at hensure
      obtain ⟨hrange, hensure⟩ := ensurePartition_ok.mp hensure
      obtain ⟨hall, parts, hparts, rfl⟩ := ih.mp hloop
      refine ⟨⟨⟨hfault, hrange⟩, hall⟩, if new then p.partition t :: parts else parts, ?_, ?_⟩
      · rw [List.map_cons, ensureAll]
        exact bind_ok.mpr ⟨_, hensure, bind_ok.mpr ⟨_, hparts, rfl⟩⟩
      · cases new with
        | false => rfl
        | true => exact congrArg (· :: _) (p.partition_name t).symm
    · rintro ⟨⟨⟨hfault, hrange⟩, hall⟩, parts, hparts, rfl⟩
      rw [List.map_cons, ensureAll] at hparts
      obtain ⟨⟨T1, new⟩, hensure, hparts⟩ := bind_ok.mp hparts
      obtain ⟨⟨T2, parts'⟩, hloop, hpair⟩ := bind_ok.mp hparts
      cases hpair
      refine ⟨hfault, ⟨T1, new⟩, ?_, bind_ok.mpr ⟨_, ih.mpr ⟨hall, parts', hloop, rfl⟩, ?_⟩⟩
      · rw [p.ensure_eq]
        exact ensurePartition_ok.mpr ⟨hrange, hensure⟩
      · cases new with
        | false => rfl
        | true => exact congrArg (fun n => Except.ok (T', n :: _)) (p.partition_name t).symm

end Loop

namespace Catalogue

/-- Every row is in the partition that holds it, and no two relations have one name. -/
structure Sound (c : Catalogue) : Prop where
  tables : ∀ p, (c.table p).Sound
  apart : ∀ p, ∀ q ∈ (c.table p).attached, q.name ∉ c.taken p

/-- The partitions of the window that are not there. -/
def missing (c : Catalogue) (opts : Options) (year month : Int) (p : Parent) : List Partition :=
  ((p.targets opts year month).map p.partition).filter fun q => q ∉ (c.table p).attached

def fill (c : Catalogue) (opts : Options) (year month : Int) : Catalogue :=
  let filled (p : Parent) : Rows :=
    ⟨(c.table p).attached ++ c.missing opts year month p, (c.table p).stored⟩
  { c with auditLog := filled .auditLog, usageEvents := filled .usageEvents }

/-- No statement for the table fails: the database answers, the period is one that the functions
accept, and the partition is there or nothing is in its way. -/
def Clear (c : Catalogue) (opts : Options) (r : Replies) (p : Parent) : Prop :=
  ∀ t ∈ p.targets opts r.year r.month,
    (r.fault (p.label t) = false ∧ p.InRange t) ∧
      Ensurable (c.taken p) (c.table p) (p.partition t)

variable {c c' : Catalogue} {opts : Options} {r : Replies} {p : Parent} {created : List String}

theorem ensureAhead_ok (h : (c.table p).Sound) :
    ensureAhead p opts r c = .ok (c', created) ↔ c.Clear opts r p ∧
      created = (c.missing opts r.year r.month p).map RangePart.name ∧
      c' = c.put p ⟨(c.table p).attached ++ c.missing opts r.year r.month p, (c.table p).stored⟩ := by
  have hproper := p.targets_proper opts r.year r.month_pos r.month_le
  have hpairwise := p.targets_pairwise opts r.year r.month_pos r.month_le
  have hstep : ensureAhead p opts r c = .ok (c', created) ↔ ∃ T,
      ensureEach p r.fault (c.taken p) (c.table p) (p.targets opts r.year r.month) =
        .ok (T, created) ∧ c' = c.put p T := by
    rw [ensureAhead, bind_ok, Prod.exists]
    refine exists_congr fun T => ?_
    constructor
    · rintro ⟨names, hloop, hpair⟩
      cases hpair
      exact ⟨hloop, rfl⟩
    · rintro ⟨hloop, rfl⟩
      exact ⟨created, hloop, rfl⟩
  rw [hstep]
  constructor
  · rintro ⟨T, hloop, rfl⟩
    obtain ⟨hall, parts, hparts, rfl⟩ := ensureEach_ok.mp hloop
    have hnames := p.targets_names opts r.year r.month_pos r.month_le fun t ht => (hall t ht).2
    obtain ⟨hen, rfl, rfl⟩ := (ensureAll_ok h hproper hnames hpairwise).mp hparts
    exact ⟨fun t ht => ⟨hall t ht, hen _ (List.mem_map_of_mem ht)⟩, rfl, rfl⟩
  · rintro ⟨hclear, rfl, rfl⟩
    have hnames := p.targets_names opts r.year r.month_pos r.month_le fun t ht => (hclear t ht).1.2
    refine ⟨_, ensureEach_ok.mpr ⟨fun t ht => (hclear t ht).1, _, ?_, rfl⟩, rfl⟩
    exact (ensureAll_ok h hproper hnames hpairwise).mpr
      ⟨List.forall_mem_map.mpr fun t ht => (hclear t ht).2, rfl, rfl⟩

@[simp] theorem table_fill (c : Catalogue) (year month : Int) (p : Parent) :
    (c.fill opts year month).table p =
      ⟨(c.table p).attached ++ c.missing opts year month p, (c.table p).stored⟩ := by
  cases p <;> rfl

/-- The names of one table's partitions are free for those of the other. -/
theorem clear_usageEvents (hput : c' = c.put .auditLog
      ⟨c.auditLog.attached ++ c.missing opts r.year r.month .auditLog, c.auditLog.stored⟩) :
    c'.Clear opts r .usageEvents ↔ c.Clear opts r .usageEvents := by
  subst hput
  refine forall_congr' fun t => forall_congr' fun _ => and_congr_right fun _ => ?_
  refine or_congr_right (and_congr_right fun _ => and_congr_left fun _ => not_congr ?_)
  simp only [taken, Parent.other, table, put, List.map_append, List.mem_append]
  refine or_congr_right (or_iff_left fun hmem => ?_)
  obtain ⟨q, hq, hname⟩ := List.mem_map.mp hmem
  obtain ⟨s, -, rfl⟩ := List.mem_map.mp (List.mem_of_mem_filter hq)
  rw [Parent.partition_name, Parent.partition_name] at hname
  exact Parent.label_ne s t hname

/-- The statements of a sweep succeed exactly where none of them fails on the catalogue as it was,
and then they create what is missing. -/
theorem ddl_ok (h : c.Sound) :
    ddl opts r c = .ok (c', created) ↔ (∀ p, c.Clear opts r p) ∧
      c' = c.fill opts r.year r.month ∧
      created = (c.missing opts r.year r.month .auditLog ++
        c.missing opts r.year r.month .usageEvents).map RangePart.name := by
  rw [ddl, bind_ok]
  constructor
  · rintro ⟨⟨c1, quarters⟩, hquarters, hrest⟩
    obtain ⟨⟨c2, months⟩, hmonths, hpair⟩ := bind_ok.mp hrest
    cases hpair
    obtain ⟨haudit, rfl, hput⟩ := (ensureAhead_ok (h.tables _)).mp hquarters
    have husage : (c1.table .usageEvents).Sound := by
      rw [hput]
      exact h.tables .usageEvents
    obtain ⟨hclear, rfl, rfl⟩ := (ensureAhead_ok husage).mp hmonths
    rw [clear_usageEvents hput] at hclear
    subst hput
    refine ⟨fun p => ?_, rfl, List.map_append.symm⟩
    cases p with
    | auditLog => exact haudit
    | usageEvents => exact hclear
  · rintro ⟨hclear, rfl, rfl⟩
    refine ⟨_, (ensureAhead_ok (h.tables .auditLog)).mpr ⟨hclear _, rfl, rfl⟩, ?_⟩
    have husage : ∀ T, ((c.put .auditLog T).table .usageEvents).Sound := fun _ => h.tables .usageEvents
    refine bind_ok.mpr ⟨_, (ensureAhead_ok (husage _)).mpr ⟨?_, rfl, rfl⟩, ?_⟩
    · exact (clear_usageEvents rfl).mpr (hclear .usageEvents)
    · rw [List.map_append]
      rfl

/-- What is missing is not in the way of anything. -/
theorem missing_free (hclear : c.Clear opts r p) {q : Partition}
    (hq : q ∈ c.missing opts r.year r.month p) : q.name ∉ c.taken p := by
  obtain ⟨hq, hnew⟩ := List.mem_filter.mp hq
  obtain ⟨t, ht, rfl⟩ := List.mem_map.mp hq
  rcases (hclear t ht).2 with hin | ⟨-, hfree, -⟩
  · exact absurd hin (by simpa using hnew)
  · exact hfree

theorem fill_sound (h : c.Sound)
    (hclear : ∀ p, c.Clear opts r p) : (c.fill opts r.year r.month).Sound := by
  refine ⟨fun p => ?_, fun p q hq hname => ?_⟩
  · have hproper := p.targets_proper opts r.year r.month_pos r.month_le
    have hpairwise := p.targets_pairwise opts r.year r.month_pos r.month_le
    have hnames := p.targets_names opts r.year r.month_pos r.month_le fun t ht => (hclear p t ht).1.2
    have hen : ∀ q ∈ (p.targets opts r.year r.month).map p.partition,
        Ensurable (c.taken p) (c.table p) q :=
      List.forall_mem_map.mpr fun t ht => (hclear p t ht).2
    have hok := (ensureAll_ok (h.tables p) hproper hnames hpairwise).mpr ⟨hen, rfl, rfl⟩
    rw [table_fill]
    exact ensureAll_sound (h.tables p) hproper hok
  · simp only [taken, table_fill, List.map_append, List.mem_append] at hq hname
    have htaken : ∀ n, n ∈ c.taken p ↔
        n ∈ c.relations ∨ n ∈ (c.table p.other).attached.map RangePart.name := by
      simp [taken]
    rcases hq with hold | hnew
    · have hapart := h.apart p q hold
      rw [htaken] at hapart
      rcases hname with hrel | hother | hmade
      · exact hapart (.inl hrel)
      · exact hapart (.inr hother)
      · obtain ⟨q', hq', he⟩ := List.mem_map.mp hmade
        refine missing_free (hclear p.other) hq' (List.mem_append_right _ ?_)
        rw [he, Parent.other_other]
        exact List.mem_map_of_mem hold
    · have hfree := missing_free (hclear p) hnew
      rw [htaken] at hfree
      rcases hname with hrel | hother | hmade
      · exact hfree (.inl hrel)
      · exact hfree (.inr hother)
      · obtain ⟨q', hq', he⟩ := List.mem_map.mp hmade
        obtain ⟨t, -, rfl⟩ := List.mem_map.mp (List.mem_of_mem_filter hq')
        obtain ⟨s, -, rfl⟩ := List.mem_map.mp (List.mem_of_mem_filter hnew)
        rw [Parent.partition_name, Parent.partition_name] at he
        exact p.label_ne_other s t he.symm

/-- The instants that the sweep creates partitions for. -/
def InWindow (opts : Options) (r : Replies) (p : Parent) (t : Timestamptz) : Prop :=
  monthStart (p.firstMonth r.year r.month) ≤ t ∧
    t < monthStart (p.firstMonth r.year r.month + p.width * p.lookahead opts)

instance (opts : Options) (r : Replies) (p : Parent) (t : Timestamptz) :
    Decidable (InWindow opts r p t) := inferInstanceAs (Decidable (_ ∧ _))

theorem mem_fill_of_target (c : Catalogue) {q : Partition} {year month : Int}
    (hq : q ∈ (p.targets opts year month).map p.partition) :
    q ∈ ((c.fill opts year month).table p).attached := by
  rw [table_fill, List.mem_append]
  by_cases hold : q ∈ (c.table p).attached
  · exact .inl hold
  · exact .inr (List.mem_filter.mpr ⟨hq, decide_eq_true hold⟩)

/-- An instant of the window is routed to the partition of its quarter or month, wherever the
partitions of the window are attached. -/
theorem route_of_window (h : (c.table p).Sound)
    (hthere : ∀ q ∈ (p.targets opts r.year r.month).map p.partition, q ∈ (c.table p).attached)
    {t : Timestamptz} (ht : InWindow opts r p t) :
    ∃ q ∈ (p.targets opts r.year r.month).map p.partition,
      q.Holds t ∧ (c.table p).route t = some q.name := by
  obtain ⟨q, hq, hin⟩ := p.exists_holds opts r.year r.month_pos r.month_le ht.1 ht.2
  exact ⟨q, hq, hin, h.route_eq_some.mpr ⟨q, hthere q hq, hin, rfl⟩⟩

/-- The labels of what a sweep creates. -/
def missingLabels (c : Catalogue) (opts : Options) (r : Replies) : List String :=
  (c.missing opts r.year r.month .auditLog ++
    c.missing opts r.year r.month .usageEvents).map RangePart.name

end Catalogue

open Catalogue

variable {opts : Options} {r : Replies} {c : Catalogue}

/-- A sweep with the lock, none of whose statements fails. -/
theorem runOnce_of_clear (h : c.Sound) (hlock : r.lock = some true)
    (hclear : ∀ p, c.Clear opts r p) :
    let s := runOnce opts r c
    s.catalogue = (if r.commit = .rejected then c else c.fill opts r.year r.month) ∧
      s.outcome = (if r.commit = .acknowledged then .complete (c.missingLabels opts r)
        else .commitFailed) ∧
      s.partitionsCreated =
        if r.commit = .acknowledged then (c.missingLabels opts r).length else 0 := by
  have hddl := (ddl_ok h).mpr ⟨hclear, rfl, rfl⟩
  simp only [runOnce, hlock, hddl]
  cases r.commit with
  | acknowledged => exact ⟨rfl, rfl, rfl⟩
  | rejected => exact ⟨rfl, rfl, rfl⟩
  | lost => exact ⟨rfl, rfl, rfl⟩

/-- Any other sweep. -/
theorem runOnce_of_not_clear (h : c.Sound)
    (hnot : ¬(r.lock = some true ∧ ∀ p, c.Clear opts r p)) :
    let s := runOnce opts r c
    s.catalogue = c ∧ (s.outcome = .skipped ∨ s.outcome = .failed) ∧ s.partitionsCreated = 0 := by
  rw [runOnce]
  match hlock : r.lock with
  | none => exact ⟨rfl, .inr rfl, rfl⟩
  | some false => exact ⟨rfl, .inl rfl, rfl⟩
  | some true =>
    cases hddl : ddl opts r c with
    | error e => exact ⟨rfl, .inr rfl, rfl⟩
    | ok x => exact absurd ⟨hlock, ((ddl_ok h).mp hddl).1⟩ hnot

/-- A sweep that is complete created what was missing, and one that is not complete created this as
well or changed nothing. -/
theorem runOnce_complete (h : c.Sound) {names : List String}
    (hdone : (runOnce opts r c).outcome = .complete names) :
    (∀ p, c.Clear opts r p) ∧ (runOnce opts r c).catalogue = c.fill opts r.year r.month := by
  by_cases hclear : r.lock = some true ∧ ∀ p, c.Clear opts r p
  · obtain ⟨hcatalogue, houtcome, -⟩ := runOnce_of_clear h hclear.1 hclear.2
    refine ⟨hclear.2, hcatalogue.trans (if_neg fun hcommit => ?_)⟩
    rw [houtcome, hcommit] at hdone
    cases hdone
  · obtain ⟨-, hskipped | hfailed, -⟩ := runOnce_of_not_clear h hclear
    · cases hskipped.symm.trans hdone
    · cases hfailed.symm.trans hdone

/-- The parents and their default partitions. -/
def parents : List String :=
  ["audit_log", "audit_log_default", "usage_events", "usage_events_default"]

/-- The partitions that the migrations create, in a session whose time zone is UTC; `others` are the
other relations. -/
def migrated (others : List String) : Catalogue where
  auditLog :=
    { attached := [
        ⟨"audit_log_2026_q2", makeTimestamptz 2026 4, makeTimestamptz 2026 7⟩,
        ⟨"audit_log_2026_q3", makeTimestamptz 2026 7, makeTimestamptz 2026 10⟩,
        ⟨"audit_log_2026_q4", makeTimestamptz 2026 10, makeTimestamptz 2027 1⟩,
        ⟨"audit_log_2027_q1", makeTimestamptz 2027 1, makeTimestamptz 2027 4⟩,
        ⟨"audit_log_2027_q2", makeTimestamptz 2027 4, makeTimestamptz 2027 7⟩]
      stored := [] }
  usageEvents :=
    { attached := [
        ⟨"usage_events_2026_06", makeTimestamptz 2026 6, makeTimestamptz 2026 7⟩,
        ⟨"usage_events_2026_07", makeTimestamptz 2026 7, makeTimestamptz 2026 8⟩,
        ⟨"usage_events_2026_08", makeTimestamptz 2026 8, makeTimestamptz 2026 9⟩,
        ⟨"usage_events_2026_09", makeTimestamptz 2026 9, makeTimestamptz 2026 10⟩,
        ⟨"usage_events_2026_10", makeTimestamptz 2026 10, makeTimestamptz 2026 11⟩,
        ⟨"usage_events_2026_11", makeTimestamptz 2026 11, makeTimestamptz 2026 12⟩,
        ⟨"usage_events_2026_12", makeTimestamptz 2026 12, makeTimestamptz 2027 1⟩,
        ⟨"usage_events_2027_01", makeTimestamptz 2027 1, makeTimestamptz 2027 2⟩,
        ⟨"usage_events_2027_02", makeTimestamptz 2027 2, makeTimestamptz 2027 3⟩,
        ⟨"usage_events_2027_03", makeTimestamptz 2027 3, makeTimestamptz 2027 4⟩,
        ⟨"usage_events_2027_04", makeTimestamptz 2027 4, makeTimestamptz 2027 5⟩,
        ⟨"usage_events_2027_05", makeTimestamptz 2027 5, makeTimestamptz 2027 6⟩,
        ⟨"usage_events_2027_06", makeTimestamptz 2027 6, makeTimestamptz 2027 7⟩]
      stored := [] }
  relations := parents ++ others

/-- The tables before any partition is created. -/
def unpartitioned (others : List String) : Catalogue := ⟨⟨[], []⟩, ⟨[], []⟩, parents ++ others⟩

/-- The migrations create what a sweep in June 2026 would, with other lookaheads. -/
theorem migrated_eq (others : List String) :
    migrated others = (unpartitioned others).fill ⟨5, 13⟩ 2026 6 := rfl

theorem migrated_sound {others : List String} (hothers : ∀ p t, Parent.label p t ∉ others) :
    (migrated others).Sound := by
  let june : Replies := ⟨2026, 6, by decide, by decide, none, fun _ => false, .acknowledged, true⟩
  have hbare : (unpartitioned others).Sound := by
    refine ⟨fun p => ?_, fun p q hq => ?_⟩
    · cases p <;> exact ⟨by simp [unpartitioned, table], by simp [unpartitioned, table],
        by simp [unpartitioned, table], by simp [unpartitioned, table]⟩
    · cases p <;> exact absurd hq List.not_mem_nil
  have hrange : ∀ p : Parent, ∀ t ∈ p.targets ⟨5, 13⟩ 2026 6,
      p.InRange t ∧ p.label t ∉ parents := by
    intro p
    cases p <;> decide
  rw [migrated_eq]
  refine fill_sound (r := june) hbare fun p t ht => ⟨⟨rfl, (hrange p t ht).1⟩,
    .inr ⟨?_, ?_, ?_, ?_⟩⟩
  · cases p <;> exact fun q hq => absurd hq List.not_mem_nil
  · rw [Parent.partition_name]
    have htaken : (unpartitioned others).taken p = parents ++ others := by
      cases p <;> exact List.append_nil _
    rw [htaken, List.mem_append]
    exact not_or.mpr ⟨(hrange p t ht).2, hothers p t⟩
  · cases p <;> exact fun q hq => absurd hq List.not_mem_nil
  · cases p <;> exact fun q hq => absurd hq List.not_mem_nil

/-- A sweep that holds the lock and none of whose statements fails on the catalogue as it was creates
exactly the partitions of its window that are missing, unless its commit is rejected, and then every
instant of the window is routed to the partition of its quarter or month; what it reports and counts
is what it created, if the commit is acknowledged. Any other sweep changes nothing. -/
theorem runOnce_exact (h : c.Sound) :
    let s := runOnce opts r c
    let names := c.missingLabels opts r
    (¬(r.lock = some true ∧ ∀ p, c.Clear opts r p) →
      s.catalogue = c ∧ (s.outcome = .skipped ∨ s.outcome = .failed) ∧ s.partitionsCreated = 0) ∧
    (r.lock = some true → (∀ p, c.Clear opts r p) →
      (s.outcome = if r.commit = .acknowledged then .complete names else .commitFailed) ∧
      (s.partitionsCreated = if r.commit = .acknowledged then names.length else 0) ∧
      (r.commit = .rejected → s.catalogue = c) ∧
      (r.commit ≠ .rejected → s.catalogue = c.fill opts r.year r.month ∧
        ∀ p t, InWindow opts r p t → ∃ q ∈ (p.targets opts r.year r.month).map p.partition,
          q.Holds t ∧ (s.catalogue.table p).route t = some q.name)) := by
  refine ⟨runOnce_of_not_clear h, fun hlock hclear => ?_⟩
  obtain ⟨hcatalogue, houtcome, hcreated⟩ := runOnce_of_clear h hlock hclear
  refine ⟨houtcome, hcreated, fun hrej => ?_, fun hrej => ?_⟩
  · exact hcatalogue.trans (if_pos hrej)
  · rw [if_neg hrej] at hcatalogue
    refine ⟨hcatalogue, fun p t ht => ?_⟩
    rw [hcatalogue]
    exact route_of_window ((fill_sound h hclear).tables p) (fun q => mem_fill_of_target c) ht

/-- May 2027, when the last partitions of the migrations are in use. -/
def may2027 : Replies :=
  ⟨2027, 5, by decide, by decide, some true, fun _ => false, .acknowledged, true⟩

set_option maxRecDepth 8000 in
/-- The first sweep that finds partitions missing. -/
theorem may2027_exact : (runOnce ⟨2, 4⟩ may2027 (migrated [])).partitionsCreated = 3 ∧
    (runOnce ⟨2, 4⟩ may2027 (migrated [])).catalogue = (migrated []).fill ⟨2, 4⟩ 2027 5 := by
  have hsound := migrated_sound fun p t => List.not_mem_nil
  have hdone : (runOnce ⟨2, 4⟩ may2027 (migrated [])).outcome = .complete
      ["audit_log_2027_q3", "usage_events_2027_07", "usage_events_2027_08"] := by
    decide
  have hexact := (runOnce_exact hsound).2 rfl (runOnce_complete hsound hdone).1
  exact ⟨hexact.2.1.trans (by decide), (hexact.2.2.2 (by decide)).1⟩

end Wikore.PartitionMaintainer
