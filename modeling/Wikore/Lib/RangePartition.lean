import Mathlib.Data.List.Nodup
import Mathlib.Order.Basic
import Wikore.Lib.Fallible
import Wikore.Lib.Query

/-! Tables partitioned by range, with a default partition for the rows that no range holds: how rows
are placed, and what creating the missing ones of a list of partitions comes to. -/

namespace RangePartition

open Fallible Query

/-- A partition: the half-open range from `lo` to `hi`. -/
structure RangePart (ν τ : Type) where
  name : ν
  lo : τ
  hi : τ
deriving DecidableEq, Repr

/-- The attached partitions, and every row's key with the partition that it is stored in; `none` is
the default partition. -/
structure Table (ν τ : Type) where
  attached : List (RangePart ν τ)
  stored : List (Option ν × τ)
deriving DecidableEq, Repr

/-- Why a partition is not created. -/
inductive Refusal (ν : Type)
  | wrongBounds (name : ν)
  | nameTaken (name : ν)
  | overlaps (name : ν)
  | defaultRows (name : ν)
deriving DecidableEq, Repr

variable {ν τ : Type} [LinearOrder τ]

def RangePart.Holds (p : RangePart ν τ) (t : τ) : Prop := p.lo ≤ t ∧ t < p.hi

def RangePart.Overlaps (p q : RangePart ν τ) : Prop := p.lo < q.hi ∧ q.lo < p.hi

instance (p : RangePart ν τ) (t : τ) : Decidable (p.Holds t) := inferInstanceAs (Decidable (_ ∧ _))

instance (p q : RangePart ν τ) : Decidable (p.Overlaps q) := inferInstanceAs (Decidable (_ ∧ _))

/-- Ranges that hold one key overlap. -/
theorem RangePart.Holds.overlaps {p q : RangePart ν τ} {t : τ} (hp : p.Holds t) (hq : q.Holds t) :
    p.Overlaps q := ⟨lt_of_le_of_lt hp.1 hq.2, lt_of_le_of_lt hq.1 hp.2⟩

theorem RangePart.Overlaps.symm {p q : RangePart ν τ} (h : p.Overlaps q) : q.Overlaps p := ⟨h.2, h.1⟩

namespace Table

variable (T : Table ν τ)

/-- Where a row with the key `t` is placed. -/
def route (t : τ) : Option ν := (T.attached.find? fun p => p.Holds t).map RangePart.name

def insert (t : τ) : Table ν τ := { T with stored := T.stored ++ [(T.route t, t)] }

/-- The partition may be attached with these keys in it: it overlaps no other, and none of the rows of
the default partition belongs to it. -/
def Admits (p : RangePart ν τ) (keys : List τ) : Prop :=
  p.lo < p.hi ∧ (∀ q ∈ T.attached, ¬p.Overlaps q) ∧
    (∀ r ∈ T.stored, r.1 = none → ¬p.Holds r.2) ∧ ∀ t ∈ keys, p.Holds t

def attach (p : RangePart ν τ) (keys : List τ) : Table ν τ :=
  ⟨T.attached ++ [p], T.stored ++ keys.map fun t => (some p.name, t)⟩

/-- The partition goes, with its rows. -/
def detach [DecidableEq ν] (name : ν) : Table ν τ :=
  ⟨T.attached.filter fun p => p.name ≠ name, T.stored.filter fun r => r.1 ≠ some name⟩

def delete (gone : Option ν × τ → Bool) : Table ν τ :=
  { T with stored := T.stored.filter fun r => !gone r }

/-- `CREATE TABLE ... PARTITION OF`, if the partition is not attached; `taken` are the names of the
other relations. -/
def ensure [DecidableEq ν] (taken : List ν) (p : RangePart ν τ) : Except (Refusal ν) (Table ν τ × Bool) :=
  match T.attached.find? fun q => q.name = p.name with
  | some q => if q = p then .ok (T, false) else .error (.wrongBounds p.name)
  | none =>
    if p.name ∈ taken then .error (.nameTaken p.name)
    else if T.attached.any fun q => p.Overlaps q then .error (.overlaps p.name)
    else if T.stored.any fun r => r.1 = none ∧ p.Holds r.2 then .error (.defaultRows p.name)
    else .ok (T.attach p [], true)

/-- The partitions do not overlap, and every row is in the one that holds it. -/
structure Sound : Prop where
  proper : ∀ p ∈ T.attached, p.lo < p.hi
  names : (T.attached.map RangePart.name).Nodup
  disjoint : ∀ p ∈ T.attached, ∀ q ∈ T.attached, p.Overlaps q → p = q
  routed : ∀ r ∈ T.stored, r.1 = T.route r.2

variable {T} {p q : RangePart ν τ} {t : τ} {name : ν}

/-! ### Routing -/

namespace Sound

variable (h : T.Sound)

include h

theorem atMostOne (t : τ) : AtMostOne T.attached fun p => p.Holds t := by
  intro p hp q hq hpt hqt
  exact h.disjoint p hp q hq ((of_decide_eq_true hpt).overlaps (of_decide_eq_true hqt))

theorem route_eq_some : T.route t = some name ↔ ∃ p ∈ T.attached, p.Holds t ∧ p.name = name := by
  rw [route, Option.map_eq_some_iff]
  constructor
  · rintro ⟨p, hp, rfl⟩
    exact ⟨p, List.mem_of_find?_eq_some hp, by simpa using List.find?_some hp, rfl⟩
  · rintro ⟨p, hp, ht, rfl⟩
    exact ⟨p, (find?_eq_some_iff (h.atMostOne t)).mpr ⟨hp, decide_eq_true ht⟩, rfl⟩

omit h in
theorem route_eq_none : T.route t = none ↔ ∀ p ∈ T.attached, ¬p.Holds t := by
  simp [route]

theorem insert (t : τ) : (T.insert t).Sound where
  proper := h.proper
  names := h.names
  disjoint := h.disjoint
  routed := by
    intro r hr
    rcases List.mem_append.mp hr with hr | hr
    · exact h.routed r hr
    · obtain rfl := List.mem_singleton.mp hr
      rfl

theorem delete (gone : Option ν × τ → Bool) : (T.delete gone).Sound where
  proper := h.proper
  names := h.names
  disjoint := h.disjoint
  routed := fun r hr => h.routed r (List.mem_of_mem_filter hr)

theorem attach {keys : List τ} (hallowed : T.Admits p keys)
    (hname : ∀ q ∈ T.attached, q.name ≠ p.name) : (T.attach p keys).Sound := by
  obtain ⟨hproper, hfree, hdefault, hkeys⟩ := hallowed
  have hmem : ∀ q, q ∈ (T.attach p keys).attached ↔ q ∈ T.attached ∨ q = p := by
    simp [Table.attach]
  have hsound : (⟨T.attached ++ [p], []⟩ : Table ν τ).Sound := by
    refine ⟨fun q hq => ?_, ?_, fun a ha b hb hab => ?_, fun r hr => absurd hr List.not_mem_nil⟩
    · rcases (hmem q).mp hq with hq | rfl
      · exact h.proper q hq
      · exact hproper
    · rw [List.map_append]
      refine h.names.append (List.nodup_singleton _) fun n hn hp => ?_
      obtain ⟨q, hq, rfl⟩ := List.mem_map.mp hn
      exact hname q hq (List.mem_singleton.mp hp)
    · rcases (hmem a).mp ha with hold | hnew
      · rcases (hmem b).mp hb with hold' | hnew'
        · exact h.disjoint a hold b hold' hab
        · exact absurd (hnew' ▸ hab.symm) (hfree a hold)
      · rcases (hmem b).mp hb with hold' | hnew'
        · exact absurd (hnew ▸ hab) (hfree b hold')
        · exact hnew.trans hnew'.symm
  refine ⟨hsound.proper, hsound.names, hsound.disjoint, fun r hr => ?_⟩
  have hroute : (T.attach p keys).route r.2 =
      (⟨T.attached ++ [p], []⟩ : Table ν τ).route r.2 := rfl
  rw [hroute]
  rcases List.mem_append.mp hr with hrow | hr
  · rw [h.routed r hrow]
    cases hold : T.route r.2 with
    | none =>
      refine (route_eq_none.mpr fun q hq => ?_).symm
      rcases (hmem q).mp hq with hq | hq
      · exact route_eq_none.mp hold q hq
      · exact hq ▸ hdefault r hrow ((h.routed r hrow).trans hold)
    | some name =>
      obtain ⟨q, hq, ht, he⟩ := h.route_eq_some.mp hold
      exact (hsound.route_eq_some.mpr ⟨q, (hmem q).mpr (.inl hq), ht, he⟩).symm
  · obtain ⟨t, ht, rfl⟩ := List.mem_map.mp hr
    exact (hsound.route_eq_some.mpr ⟨p, (hmem p).mpr (.inr rfl), hkeys t ht, rfl⟩).symm

theorem detach [DecidableEq ν] (name : ν) : (T.detach name).Sound := by
  have hmem : ∀ q, q ∈ (T.detach name).attached ↔ q ∈ T.attached ∧ q.name ≠ name := by
    simp [Table.detach]
  have hsound : (⟨(T.detach name).attached, []⟩ : Table ν τ).Sound := by
    refine ⟨fun q hq => h.proper q ((hmem q).mp hq).1, ?_, fun a ha b hb => ?_,
      fun r hr => absurd hr List.not_mem_nil⟩
    · exact h.names.sublist (List.filter_sublist.map _)
    · exact h.disjoint a ((hmem a).mp ha).1 b ((hmem b).mp hb).1
  refine ⟨hsound.proper, hsound.names, hsound.disjoint, fun r hr => ?_⟩
  obtain ⟨hr, hkept⟩ := List.mem_filter.mp hr
  have hroute : (T.detach name).route r.2 =
      (⟨(T.detach name).attached, []⟩ : Table ν τ).route r.2 := rfl
  rw [hroute, h.routed r hr]
  rw [h.routed r hr, decide_eq_true_eq] at hkept
  cases hold : T.route r.2 with
  | none =>
    exact (route_eq_none.mpr fun q hq => route_eq_none.mp hold q ((hmem q).mp hq).1).symm
  | some n =>
    obtain ⟨q, hq, ht, rfl⟩ := h.route_eq_some.mp hold
    rw [hold] at hkept
    refine (hsound.route_eq_some.mpr ⟨q, (hmem q).mpr ⟨hq, fun he => hkept ?_⟩, ht, rfl⟩).symm
    rw [he]

end Sound

/-! ### Creating what is missing -/

section Ensure

variable {taken : List ν} {T' : Table ν τ} {new : Bool} {ps created : List (RangePart ν τ)}

/-- The partition is there, or nothing is in its way. -/
def Ensurable (taken : List ν) (T : Table ν τ) (p : RangePart ν τ) : Prop :=
  p ∈ T.attached ∨ ((∀ q ∈ T.attached, q.name ≠ p.name) ∧ p.name ∉ taken ∧
    (∀ q ∈ T.attached, ¬p.Overlaps q) ∧ ∀ r ∈ T.stored, r.1 = none → ¬p.Holds r.2)

omit [LinearOrder τ] in
theorem attach_nil (T : Table ν τ) (p : RangePart ν τ) :
    T.attach p [] = ⟨T.attached ++ [p], T.stored⟩ := by
  rw [attach, List.map_nil, List.append_nil]

/-- Creating one of two partitions that do not overlap is nothing to the other. -/
theorem ensurable_attach (hname : q.name ≠ p.name) (hover : ¬p.Overlaps q) :
    Ensurable taken (T.attach q []) p ↔ Ensurable taken T p := by
  have hne : p ≠ q := fun he => hname (he ▸ rfl)
  simp only [Ensurable, attach_nil, List.mem_append, List.mem_singleton, hne, or_false]
  refine or_congr_right (and_congr ?_ (and_congr_right fun _ => and_congr_left fun _ => ?_))
  · exact ⟨fun hall r hr => hall r (.inl hr),
      fun hall r hr => hr.elim (hall r) fun he => he ▸ hname⟩
  · exact ⟨fun hall r hr => hall r (.inl hr),
      fun hall r hr => hr.elim (hall r) fun he => he ▸ hover⟩

variable [DecidableEq ν]

/-- What `ensure` does where it succeeds. -/
theorem ensure_ok (h : T.Sound) : T.ensure taken p = .ok (T', new) ↔
    Ensurable taken T p ∧
      ((p ∈ T.attached ∧ T' = T ∧ new = false) ∨
        (p ∉ T.attached ∧ T' = T.attach p [] ∧ new = true)) := by
  rw [ensure]
  cases hfind : T.attached.find? fun q => q.name = p.name with
  | some q =>
    have hq := List.mem_of_find?_eq_some hfind
    have hname : q.name = p.name := by simpa using List.find?_some hfind
    have hin : p ∈ T.attached ↔ q = p := by
      constructor
      · exact fun hp => List.inj_on_of_nodup_map h.names hq hp hname
      · exact fun he => he ▸ hq
    have hen : Ensurable taken T p ↔ q = p := by
      rw [Ensurable, hin]
      exact or_iff_left fun hfree => hfree.1 q hq hname
    dsimp only
    by_cases he : q = p
    · simp only [hen, hin, he, if_true, Except.ok.injEq, Prod.mk.injEq, true_and, not_true,
        false_and, or_false]
      exact and_congr eq_comm eq_comm
    · simp only [hen, he, if_false, false_and, iff_false]
      exact nofun
  | none =>
    have hfree : ∀ q ∈ T.attached, q.name ≠ p.name := by
      simpa using List.find?_eq_none.mp hfind
    have hnot : p ∉ T.attached := fun hp => hfree p hp rfl
    have hen : Ensurable taken T p ↔ p.name ∉ taken ∧ (∀ q ∈ T.attached, ¬p.Overlaps q) ∧
        ∀ r ∈ T.stored, r.1 = none → ¬p.Holds r.2 := by
      rw [Ensurable]
      exact (or_iff_right hnot).trans (and_iff_right hfree)
    dsimp only
    by_cases htaken : p.name ∈ taken
    · simp only [hen, htaken, if_true, not_true, false_and, iff_false]
      exact nofun
    · by_cases hover : (T.attached.any fun q => p.Overlaps q) = true
      · have hno : ¬∀ q ∈ T.attached, ¬p.Overlaps q := by
          simpa using hover
        simp only [hen, htaken, hover, hno, if_true, if_false, not_false_eq_true, true_and,
          false_and, iff_false]
        exact nofun
      · have hover' : ∀ q ∈ T.attached, ¬p.Overlaps q := by simpa using hover
        by_cases hrows : (T.stored.any fun r => r.1 = none ∧ p.Holds r.2) = true
        · have hno : ¬∀ r ∈ T.stored, r.1 = none → ¬p.Holds r.2 := by
            intro hall
            obtain ⟨r, hr, hp⟩ := List.any_eq_true.mp hrows
            have hp := of_decide_eq_true hp
            exact hall r hr hp.1 hp.2
          simp only [hen, htaken, hover, hrows, hno, if_true, if_false, not_false_eq_true, and_false,
            false_and, iff_false]
          exact nofun
        · have hrows' : ∀ r ∈ T.stored, r.1 = none → ¬p.Holds r.2 := by
            intro r hr hnone hp
            exact hrows (List.any_eq_true.mpr ⟨r, hr, decide_eq_true ⟨hnone, hp⟩⟩)
          rw [if_neg htaken, if_neg hover, if_neg hrows]
          constructor
          · intro hok
            cases hok
            exact ⟨hen.mpr ⟨htaken, hover', hrows'⟩, .inr ⟨hnot, rfl, rfl⟩⟩
          · rintro ⟨-, ⟨hin, -⟩ | ⟨-, rfl, rfl⟩⟩
            · exact absurd hin hnot
            · rfl

/-- Goes through the list, and notes the partitions that it creates. -/
def ensureAll (taken : List ν) (T : Table ν τ) :
    List (RangePart ν τ) → Except (Refusal ν) (Table ν τ × List (RangePart ν τ))
  | [] => .ok (T, [])
  | p :: ps => do
    let (T', new) ← T.ensure taken p
    let (T'', created) ← ensureAll taken T' ps
    return (T'', if new then p :: created else created)

/-- A list of partitions with different names that do not overlap is gone through exactly when each
of them is there or nothing is in its way, as the table was before; and then the missing ones are
created. -/
theorem ensureAll_ok (h : T.Sound) (hproper : ∀ p ∈ ps, p.lo < p.hi)
    (hnames : (ps.map RangePart.name).Nodup) (hdisjoint : ps.Pairwise fun p q => ¬p.Overlaps q) :
    ensureAll taken T ps = .ok (T', created) ↔ (∀ p ∈ ps, Ensurable taken T p) ∧
      created = ps.filter (fun p => p ∉ T.attached) ∧
      T' = ⟨T.attached ++ created, T.stored⟩ := by
  induction ps generalizing T T' created with
  | nil =>
    simp only [ensureAll, Except.ok.injEq, Prod.mk.injEq, List.not_mem_nil, false_imp_iff,
      implies_true, List.filter_nil, true_and]
    constructor
    · rintro ⟨rfl, rfl⟩
      exact ⟨rfl, by rw [List.append_nil]⟩
    · rintro ⟨rfl, rfl⟩
      exact ⟨by rw [List.append_nil], rfl⟩
  | cons p ps ih =>
    rw [List.forall_mem_cons] at hproper
    rw [List.map_cons, List.nodup_cons] at hnames
    rw [List.pairwise_cons] at hdisjoint
    have hstep : ensureAll taken T (p :: ps) = .ok (T', created) ↔ ∃ T1 new,
        T.ensure taken p = .ok (T1, new) ∧ ∃ created', ensureAll taken T1 ps = .ok (T', created') ∧
          created = if new then p :: created' else created' := by
      rw [ensureAll, bind_ok, Prod.exists]
      refine exists_congr fun T1 => exists_congr fun new => and_congr_right fun _ => ?_
      rw [bind_ok, Prod.exists]
      constructor
      · rintro ⟨T2, created', hps, hpair⟩
        cases hpair
        exact ⟨created', hps, rfl⟩
      · rintro ⟨created', hps, rfl⟩
        exact ⟨T', created', hps, rfl⟩
    rw [hstep, List.forall_mem_cons]
    by_cases hp : p ∈ T.attached
    · rw [List.filter_cons_of_neg (by simpa using hp)]
      constructor
      · rintro ⟨T1, new, hensure, created', hps, rfl⟩
        obtain ⟨hen, ⟨-, rfl, rfl⟩ | ⟨hnot, -⟩⟩ := (ensure_ok h).mp hensure
        · obtain ⟨hall, hrest⟩ := (ih h hproper.2 hnames.2 hdisjoint.2).mp hps
          exact ⟨⟨hen, hall⟩, hrest⟩
        · exact absurd hp hnot
      · rintro ⟨⟨hen, hall⟩, hrest⟩
        exact ⟨T, false, (ensure_ok h).mpr ⟨hen, .inl ⟨hp, rfl, rfl⟩⟩, created,
          (ih h hproper.2 hnames.2 hdisjoint.2).mpr ⟨hall, hrest⟩, rfl⟩
    · rw [List.filter_cons_of_pos (by simpa using hp)]
      -- the others are as they were before this one was created
      have hsame : ∀ q ∈ ps, (Ensurable taken (T.attach p []) q ↔ Ensurable taken T q) := by
        intro q hq
        refine ensurable_attach (fun he => hnames.1 (he ▸ List.mem_map_of_mem hq)) ?_
        exact fun hover => hdisjoint.1 q hq hover.symm
      have hfilter : ps.filter (fun q => q ∉ (T.attach p []).attached) =
          ps.filter fun q => q ∉ T.attached := by
        refine List.filter_congr fun q hq => ?_
        have hne : q ≠ p := fun he => hnames.1 (he ▸ List.mem_map_of_mem hq)
        simp [attach_nil, hne]
      have hsound : ∀ hen : Ensurable taken T p, (T.attach p []).Sound := by
        rintro (hin | ⟨hname, -, hfree, hrows⟩)
        · exact absurd hin hp
        · exact h.attach ⟨hproper.1, hfree, hrows, by simp⟩ hname
      constructor
      · rintro ⟨T1, new, hensure, created', hps, rfl⟩
        obtain ⟨hen, ⟨hin, -⟩ | ⟨-, rfl, rfl⟩⟩ := (ensure_ok h).mp hensure
        · exact absurd hin hp
        · obtain ⟨hall, hcreated, rfl⟩ :=
            (ih (hsound hen) hproper.2 hnames.2 hdisjoint.2).mp hps
          rw [hfilter] at hcreated
          refine ⟨⟨hen, fun q hq => (hsame q hq).mp (hall q hq)⟩, by rw [hcreated]; rfl, ?_⟩
          simp [attach_nil]
      · rintro ⟨⟨hen, hall⟩, hcreated, rfl⟩
        refine ⟨_, true, (ensure_ok h).mpr ⟨hen, .inr ⟨hp, rfl, rfl⟩⟩,
          ps.filter (fun q => q ∉ T.attached), ?_, by rw [hcreated]; rfl⟩
        refine (ih (hsound hen) hproper.2 hnames.2 hdisjoint.2).mpr
          ⟨fun q hq => (hsame q hq).mpr (hall q hq), hfilter.symm, ?_⟩
        simp [attach_nil, hcreated]

theorem ensureAll_sound (h : T.Sound) (hproper : ∀ p ∈ ps, p.lo < p.hi)
    (hok : ensureAll taken T ps = .ok (T', created)) : T'.Sound := by
  induction ps generalizing T created with
  | nil =>
    cases hok
    exact h
  | cons p ps ih =>
    rw [List.forall_mem_cons] at hproper
    rw [ensureAll, bind_ok] at hok
    obtain ⟨⟨T1, new⟩, hensure, hok⟩ := hok
    obtain ⟨⟨T2, created'⟩, hps, hpair⟩ := bind_ok.mp hok
    cases hpair
    refine ih ?_ hproper.2 hps
    obtain ⟨hen, ⟨-, rfl, -⟩ | ⟨hnot, rfl, -⟩⟩ := (ensure_ok h).mp hensure
    · exact h
    · obtain hin | ⟨hname, -, hfree, hrows⟩ := hen
      · exact absurd hin hnot
      · exact h.attach ⟨hproper.1, hfree, hrows, by simp⟩ hname

end Ensure

end Table

end RangePartition
