import Wikore.Access.Resolver
import Mathlib.Order.Nat

/-! Every transaction that changes what a user's scope is computed from bumps the company's
`acl_epoch` or the user's `scope_epoch`. -/

namespace Wikore

open Statement Stamp

/-- `CHECK memberships_exactly_one_principal`. -/
def AclDb.PrincipalOk (db : AclDb) : Prop :=
  ∀ m ∈ db.memberships, m.userId.isSome ≠ m.groupId.isSome

/-- The membership counts for the user. -/
def Counts (db : AclDb) (m : Membership) (c u : Uuid) : Prop :=
  m.companyId = c ∧
    (m.userId = some u ∨ ∃ g, m.groupId = some g ∧ ⟨c, g, u⟩ ∈ db.groupMembers)

/-- What the resolver reads for the user, expiry apart, is the same in both databases. -/
structure SameInputs (c u : Uuid) (db db' : AclDb) : Prop where
  memberships : ∀ m, m ∈ readerMemberships db c u ↔ m ∈ readerMemberships db' c u
  closure : ∀ r : ClosureRow, r.companyId = c → (r ∈ db.org.closure ↔ r ∈ db'.org.closure)

theorem SameInputs.refl (c u : Uuid) (db : AclDb) : SameInputs c u db db :=
  ⟨fun _ => Iff.rfl, fun _ _ => Iff.rfl⟩

theorem SameInputs.trans {c u : Uuid} {db db' db'' : AclDb} (h1 : SameInputs c u db db')
    (h2 : SameInputs c u db' db'') : SameInputs c u db db'' where
  memberships := fun m => (h1.memberships m).trans (h2.memberships m)
  closure := fun r hr => (h1.closure r hr).trans (h2.closure r hr)

/-- The epochs guard the inputs of the user's scope. -/
abbrev EpochsGuard (c u : Uuid) : AclDb → AclDb → Prop :=
  Guarded (fun db => epochs db c u) (SameInputs c u)

theorem EpochsGuard.trans {c u : Uuid} {db db' db'' : AclDb} (h1 : EpochsGuard c u db db')
    (h2 : EpochsGuard c u db' db'') : EpochsGuard c u db db'' :=
  Guarded.trans SameInputs.trans h1 h2

theorem mem_readerMemberships {db : AclDb} {c u : Uuid} {m : Membership} :
    m ∈ readerMemberships db c u ↔ m ∈ db.memberships ∧ Counts db m c u := by
  simp only [readerMemberships, List.mem_append, List.mem_filter, List.mem_flatMap,
    decide_eq_true_eq, Counts]
  constructor
  · rintro (⟨hm, hc, hu⟩ | ⟨⟨_, g, _⟩, ⟨hgm, rfl, rfl⟩, hm, hc, hg⟩)
    · exact ⟨hm, hc, .inl hu⟩
    · exact ⟨hm, hc, .inr ⟨g, hg, hgm⟩⟩
  · rintro ⟨hm, hc, hu | ⟨g, hg, hgm⟩⟩
    · exact .inl ⟨hm, hc, hu⟩
    · exact .inr ⟨⟨c, g, u⟩, ⟨hgm, rfl, rfl⟩, hm, hc, hg⟩

/-! ### Bumps -/

/-- From `db` to `db'` only the scope epochs of users changed: none went back, and those of the
users in `T` grew. -/
structure Bumped (T : Uuid → Uuid → Prop) (db db' : AclDb) : Prop where
  org : db'.org = db.org
  groupMembers : db'.groupMembers = db.groupMembers
  memberships : db'.memberships = db.memberships
  grows : ∀ c u x', db'.users.find? (fun x => x.companyId = c ∧ x.id = u) = some x' →
    ∃ x, db.users.find? (fun x => x.companyId = c ∧ x.id = u) = some x ∧
      x.scopeEpoch ≤ x'.scopeEpoch ∧ (T c u → x.scopeEpoch < x'.scopeEpoch)

theorem Bumped.refl (db : AclDb) : Bumped (fun _ _ => False) db db where
  org := rfl
  groupMembers := rfl
  memberships := rfl
  grows := fun _ _ x hx => ⟨x, hx, Nat.le_refl _, False.elim⟩

theorem Bumped.trans {T T' : Uuid → Uuid → Prop} {db db' db'' : AclDb} (h1 : Bumped T db db')
    (h2 : Bumped T' db' db'') : Bumped (fun c u => T c u ∨ T' c u) db db'' where
  org := h2.org.trans h1.org
  groupMembers := h2.groupMembers.trans h1.groupMembers
  memberships := h2.memberships.trans h1.memberships
  grows := by
    intro c u x'' hx''
    obtain ⟨x', hx', hle', hlt'⟩ := h2.grows c u x'' hx''
    obtain ⟨x, hx, hle, hlt⟩ := h1.grows c u x' hx'
    refine ⟨x, hx, Nat.le_trans hle hle', ?_⟩
    rintro (hT | hT)
    · have := hlt hT
      omega
    · have := hlt' hT
      omega

theorem Bumped.mono {T T' : Uuid → Uuid → Prop} {db db' : AclDb} (h : Bumped T db db')
    (hsub : ∀ c u, T' c u → T c u) : Bumped T' db db' where
  org := h.org
  groupMembers := h.groupMembers
  memberships := h.memberships
  grows := by
    intro c u x' hx'
    obtain ⟨x, hx, hle, hlt⟩ := h.grows c u x' hx'
    exact ⟨x, hx, hle, fun hT => hlt (hsub c u hT)⟩

theorem bumpScopeEpoch_bumped (p : Uuid → Uuid → Bool) (db : AclDb) :
    Bumped (fun c u => p c u = true) db (bumpScopeEpoch (fun x => p x.companyId x.id) db) where
  org := rfl
  groupMembers := rfl
  memberships := rfl
  grows := by
    intro c u x' hx'
    have hkey : ∀ x : User, (if p x.companyId x.id = true
        then { x with scopeEpoch := x.scopeEpoch + 1 } else x).companyId = x.companyId ∧
        (if p x.companyId x.id = true
        then { x with scopeEpoch := x.scopeEpoch + 1 } else x).id = x.id := by
      intro x
      split <;> exact ⟨rfl, rfl⟩
    simp only [bumpScopeEpoch, List.find?_map, Function.comp_def, hkey] at hx'
    obtain ⟨x, hx, rfl⟩ := Option.map_eq_some_iff.mp hx'
    obtain ⟨hc, hu⟩ : x.companyId = c ∧ x.id = u := by simpa using List.find?_some hx
    refine ⟨x, hx, ?_, fun hT => ?_⟩
    · split
      · exact Nat.le_succ _
      · exact Nat.le_refl _
    · rw [← hc, ← hu] at hT
      rw [if_pos hT]
      exact Nat.lt_succ_self _

theorem bumpGroupMember_bumped (gm : GroupMember) (db : AclDb) :
    Bumped (fun c u => gm.companyId = c ∧ gm.userId = u) db (bumpGroupMember gm db) := by
  refine (bumpScopeEpoch_bumped (fun c u => c = gm.companyId ∧ u = gm.userId) db).mono ?_
  rintro c u ⟨rfl, rfl⟩
  simp

/-- The trigger on `memberships` bumps every user that the row counts for. -/
theorem bumpMembership_bumped {m : Membership} (h : m.userId.isSome ≠ m.groupId.isSome)
    (db : AclDb) : Bumped (Counts db m) db (bumpMembership m db) := by
  obtain ⟨id, c, user, group, unit, role, applies, by_, at_, expires⟩ := m
  cases user with
  | some v =>
    obtain rfl : group = none := by
      cases group
      · rfl
      · simp at h
    refine (bumpScopeEpoch_bumped (fun c' u => c' = c ∧ u = v) db).mono ?_
    rintro c' u ⟨rfl, hu | ⟨g, hg, -⟩⟩
    · obtain rfl : v = u := by simpa using hu
      simp
    · simp at hg
  | none =>
    cases group with
    | none => simp at h
    | some g =>
      refine (bumpScopeEpoch_bumped (fun c' u => c' = c ∧ u ∈ groupUsers db c g) db).mono ?_
      rintro c' u ⟨rfl, hu | ⟨g', hg, hgm⟩⟩
      · simp at hu
      · obtain rfl : g = g' := by simpa using hg
        have hin : u ∈ groupUsers db c g := by
          refine List.mem_map.mpr ⟨⟨c, g, u⟩, List.mem_filter.mpr ⟨hgm, ?_⟩, rfl⟩
          simp
        simp [hin]

theorem Counts.congr {db db' : AclDb} (h : db'.groupMembers = db.groupMembers) (m : Membership) :
    Counts db' m = Counts db m := by
  funext c u
  rw [Counts, h, Counts]

/-- A loop over rows whose triggers all fire. -/
theorem foldl_bumped {α : Type} {bump : α → AclDb → AclDb} {T : α → Uuid → Uuid → Prop}
    {rows : List α} {db : AclDb}
    (h : ∀ r ∈ rows, ∀ d, d.groupMembers = db.groupMembers → Bumped (T r) d (bump r d)) :
    Bumped (fun c u => ∃ r ∈ rows, T r c u) db (rows.foldl (fun d r => bump r d) db) := by
  induction rows generalizing db with
  | nil => exact (Bumped.refl db).mono fun c u hex => by simp at hex
  | cons r rows ih =>
    have hhead := h r (by simp) db rfl
    have htail : Bumped (fun c u => ∃ s ∈ rows, T s c u) (bump r db)
        (rows.foldl (fun d s => bump s d) (bump r db)) :=
      ih fun s hs d hd => h s (by simp [hs]) d (hd.trans hhead.groupMembers)
    refine (hhead.trans htail).mono ?_
    rintro c u ⟨s, hs, hT⟩
    rcases List.mem_cons.mp hs with rfl | hs
    · exact .inl hT
    · exact .inr ⟨s, hs, hT⟩

/-! ### Steps inside a statement -/

/-- A step that the epochs guard for every user, and that keeps the check on principals. -/
structure Tracked (db db' : AclDb) : Prop where
  principalOk : db'.PrincipalOk
  guard : ∀ c u, EpochsGuard c u db db'

theorem Tracked.refl {db : AclDb} (h : db.PrincipalOk) : Tracked db db :=
  ⟨h, fun c u => Guarded.of_same rfl (SameInputs.refl c u db)⟩

theorem Tracked.trans {db db' db'' : AclDb} (h1 : Tracked db db') (h2 : Tracked db' db'') :
    Tracked db db'' where
  principalOk := h2.principalOk
  guard := fun c u => (h1.guard c u).trans (h2.guard c u)

theorem epochs_eq_some {db : AclDb} {c u : Uuid} {a s : Nat} :
    epochs db c u = some (a, s) ↔ ∃ company user,
      db.org.companies.find? (fun x => x.id = c) = some company ∧
      db.users.find? (fun x => x.companyId = c ∧ x.id = u) = some user ∧
      company.aclEpoch = a ∧ user.scopeEpoch = s := by
  unfold epochs
  split
  next company user hc hu =>
    simp only [hc, hu, Option.some.injEq, Prod.mk.injEq, exists_eq_left', exists_and_left]
  next hnone =>
    constructor
    · intro h
      cases h
    · rintro ⟨company, user, hc, hu, -⟩
      exact absurd hu (hnone company user hc)

/-- The organisation and the user's row are in `db1` as in `db`, and then the triggers bump the users
in `T`. -/
theorem Bumped.epochs {T : Uuid → Uuid → Prop} {db1 db' : AclDb} (hb : Bumped T db1 db')
    (db : AclDb) (horg : db1.org = db.org) {c u : Uuid}
    (husers : ∀ x, db1.users.find? (fun x => x.companyId = c ∧ x.id = u) = some x →
      db.users.find? (fun x => x.companyId = c ∧ x.id = u) = some x)
    {e' : Nat × Nat} (he' : epochs db' c u = some e') :
    ∃ e, epochs db c u = some e ∧ e ≤ e' ∧ (e = e' → ¬T c u ∧
      ∃ x, db1.users.find? (fun x => x.companyId = c ∧ x.id = u) = some x) := by
  obtain ⟨a', s'⟩ := e'
  obtain ⟨company, user', hcompany, huser', rfl, rfl⟩ := epochs_eq_some.mp he'
  obtain ⟨user, huser, hle, hlt⟩ := hb.grows c u user' huser'
  rw [hb.org, horg] at hcompany
  refine ⟨(company.aclEpoch, user.scopeEpoch),
    epochs_eq_some.mpr ⟨company, user, hcompany, husers user huser, rfl, rfl⟩,
    Prod.mk_le_mk.mpr ⟨Nat.le_refl _, hle⟩, fun heq => ⟨fun hT => ?_, user, huser⟩⟩
  have hs : user.scopeEpoch = user'.scopeEpoch := (Prod.mk.inj heq).2
  have := hlt hT
  omega

/-- A bump changes nothing that the resolver reads. -/
theorem Bumped.sameInputs {T : Uuid → Uuid → Prop} {db db' : AclDb} (hb : Bumped T db db')
    (c u : Uuid) : SameInputs c u db db' where
  memberships := by
    intro m
    rw [mem_readerMemberships, mem_readerMemberships, hb.memberships, Counts.congr hb.groupMembers]
  closure := fun r _ => by rw [hb.org]

/-- The tables change from `db` to `db1`, for the users outside `T` without effect on their
memberships, and then the triggers bump the users in `T`. -/
theorem guard_of_bumped {T : Uuid → Uuid → Prop} (db : AclDb) {db1 db' : AclDb}
    (hb : Bumped T db1 db') (horg : db1.org = db.org) {c u : Uuid}
    (husers : ∀ x, db1.users.find? (fun x => x.companyId = c ∧ x.id = u) = some x →
      db.users.find? (fun x => x.companyId = c ∧ x.id = u) = some x)
    (hsame : (∃ x, db1.users.find? (fun x => x.companyId = c ∧ x.id = u) = some x) →
      ¬T c u → ∀ m, m ∈ readerMemberships db c u ↔ m ∈ readerMemberships db1 c u) :
    EpochsGuard c u db db' := by
  intro e' he'
  obtain ⟨e, he, hle, hfresh⟩ := hb.epochs db horg husers he'
  refine ⟨e, he, hle, fun heq => ?_⟩
  obtain ⟨hT, huser⟩ := hfresh heq
  have h1 : SameInputs c u db db1 := ⟨hsame huser hT, fun r _ => by rw [horg]⟩
  exact h1.trans (hb.sameInputs c u)

/-- The same memberships count when the rows that differ do not count and the user is in the same
groups. -/
theorem readerMemberships_congr {db db' : AclDb} {c u : Uuid}
    (hg : ∀ g, (⟨c, g, u⟩ ∈ db.groupMembers ↔ ⟨c, g, u⟩ ∈ db'.groupMembers))
    (hm : ∀ m, Counts db m c u → (m ∈ db.memberships ↔ m ∈ db'.memberships)) (m : Membership) :
    m ∈ readerMemberships db c u ↔ m ∈ readerMemberships db' c u := by
  have hcounts : Counts db m c u ↔ Counts db' m c u := by
    simp only [Counts, hg]
  rw [mem_readerMemberships, mem_readerMemberships, ← hcounts]
  exact and_congr_left fun h => hm m h

section Steps

variable {db : AclDb}

theorem insertMembership_tracked (h : db.PrincipalOk) {m : Membership}
    (hm : m.userId.isSome ≠ m.groupId.isSome) :
    Tracked db (bumpMembership m { db with memberships := db.memberships ++ [m] }) := by
  have hb := bumpMembership_bumped hm { db with memberships := db.memberships ++ [m] }
  constructor
  · intro x hx
    rw [hb.memberships] at hx
    rcases List.mem_append.mp hx with hx | hx
    · exact h x hx
    · obtain rfl := List.mem_singleton.mp hx
      exact hm
  · refine fun c u => guard_of_bumped db hb rfl (fun _ hx => hx) (fun _ hT => ?_)
    refine readerMemberships_congr (fun _ => Iff.rfl) fun x hx => ?_
    have hne : x ≠ m := by
      rintro rfl
      exact hT hx
    simp [hne]

theorem updateMembership_tracked (h : db.PrincipalOk) {old m : Membership}
    (hold : old ∈ db.memberships) (hm : m.userId.isSome ≠ m.groupId.isSome) :
    Tracked db (bumpMembership m (bumpMembership old
      { db with memberships := db.memberships.map fun o => if o = old then m else o })) := by
  have hb1 := bumpMembership_bumped (h old hold)
    { db with memberships := db.memberships.map fun o => if o = old then m else o }
  have hb2 := bumpMembership_bumped hm (bumpMembership old
    { db with memberships := db.memberships.map fun o => if o = old then m else o })
  have hb := hb1.trans hb2
  have hmap : ∀ x, x ∈ (db.memberships.map fun o => if o = old then m else o) ↔
      (x ∈ db.memberships ∧ x ≠ old) ∨ x = m := by
    intro x
    rw [List.mem_map]
    constructor
    · rintro ⟨o, ho, rfl⟩
      by_cases he : o = old
      · simp [he]
      · simp [he, ho]
    · rintro (⟨hx, hne⟩ | rfl)
      · exact ⟨x, hx, if_neg hne⟩
      · exact ⟨old, hold, if_pos rfl⟩
  constructor
  · intro x hx
    rw [hb.memberships] at hx
    rcases (hmap x).mp hx with ⟨hx, -⟩ | rfl
    · exact h x hx
    · exact hm
  · refine fun c u => guard_of_bumped db hb rfl (fun _ hx => hx) (fun _ hT => ?_)
    refine readerMemberships_congr (fun _ => Iff.rfl) fun x hx => ?_
    have hneold : x ≠ old := by
      rintro rfl
      exact hT (.inl hx)
    have hnem : x ≠ m := by
      rintro rfl
      refine hT (.inr ?_)
      rw [Counts.congr hb1.groupMembers]
      exact hx
    simp [hmap, hneold, hnem]

theorem cascadeMemberships_tracked (h : db.PrincipalOk) (p : Membership → Bool) :
    Tracked db (cascadeMemberships p db) := by
  have hb : Bumped (fun c u => ∃ m ∈ db.memberships.filter p, Counts db m c u)
      { db with memberships := db.memberships.filter fun m => !p m }
      (cascadeMemberships p db) := by
    refine foldl_bumped fun m hm d hd => ?_
    have hone := bumpMembership_bumped (h m (List.mem_filter.mp hm).1) d
    rwa [Counts.congr hd] at hone
  constructor
  · intro x hx
    rw [hb.memberships] at hx
    exact h x (List.mem_filter.mp hx).1
  · refine fun c u => guard_of_bumped db hb rfl (fun _ hx => hx) (fun _ hT => ?_)
    refine readerMemberships_congr (fun _ => Iff.rfl) fun x hx => ?_
    rw [List.mem_filter]
    constructor
    · intro hmem
      refine ⟨hmem, ?_⟩
      by_contra hp
      exact hT ⟨x, List.mem_filter.mpr ⟨hmem, by simpa using hp⟩, hx⟩
    · exact fun hmem => hmem.1

theorem deleteMembership_tracked (h : db.PrincipalOk) {old : Membership}
    (hold : old ∈ db.memberships) :
    Tracked db (bumpMembership old { db with memberships := db.memberships.filter (· ≠ old) }) := by
  have hb := bumpMembership_bumped (h old hold)
    { db with memberships := db.memberships.filter (· ≠ old) }
  constructor
  · intro x hx
    rw [hb.memberships] at hx
    exact h x (List.mem_filter.mp hx).1
  · refine fun c u => guard_of_bumped db hb rfl (fun _ hx => hx) (fun _ hT => ?_)
    refine readerMemberships_congr (fun _ => Iff.rfl) fun x hx => ?_
    have hne : x ≠ old := by
      rintro rfl
      exact hT hx
    simp [hne]

/-- Rows of `group_members` change, and every user of a changed row is bumped. -/
theorem groupMembers_tracked (h : db.PrincipalOk) {T : Uuid → Uuid → Prop} {gms : List GroupMember}
    {db' : AclDb} (hb : Bumped T { db with groupMembers := gms } db')
    (hT : ∀ c u, ¬T c u → ∀ g, (⟨c, g, u⟩ ∈ db.groupMembers ↔ ⟨c, g, u⟩ ∈ gms)) :
    Tracked db db' := by
  constructor
  · intro x hx
    rw [hb.memberships] at hx
    exact h x hx
  · refine fun c u => guard_of_bumped db hb rfl (fun _ hx => hx) (fun _ hn => ?_)
    exact readerMemberships_congr (hT c u hn) fun _ _ => Iff.rfl

theorem insertGroupMember_tracked (h : db.PrincipalOk) (gm : GroupMember) :
    Tracked db (bumpGroupMember gm { db with groupMembers := db.groupMembers ++ [gm] }) := by
  refine groupMembers_tracked h (bumpGroupMember_bumped gm _) fun c u hT g => ?_
  have hne : (⟨c, g, u⟩ : GroupMember) ≠ gm := by
    rintro rfl
    exact hT ⟨rfl, rfl⟩
  simp [hne]

theorem updateGroupMember_tracked (h : db.PrincipalOk) {old new : GroupMember}
    (hold : old ∈ db.groupMembers) :
    Tracked db (bumpGroupMember new (bumpGroupMember old
      { db with groupMembers := db.groupMembers.map fun o => if o = old then new else o })) := by
  refine groupMembers_tracked h
    ((bumpGroupMember_bumped old _).trans (bumpGroupMember_bumped new _)) fun c u hT g => ?_
  have hneold : (⟨c, g, u⟩ : GroupMember) ≠ old := by
    rintro rfl
    exact hT (.inl ⟨rfl, rfl⟩)
  have hnenew : (⟨c, g, u⟩ : GroupMember) ≠ new := by
    rintro rfl
    exact hT (.inr ⟨rfl, rfl⟩)
  rw [List.mem_map]
  constructor
  · exact fun hmem => ⟨_, hmem, if_neg hneold⟩
  · rintro ⟨o, ho, he⟩
    by_cases hoo : o = old
    · rw [if_pos hoo] at he
      exact absurd he.symm hnenew
    · rw [if_neg hoo] at he
      exact he ▸ ho

theorem deleteGroupMember_tracked (h : db.PrincipalOk) (gm : GroupMember) :
    Tracked db (bumpGroupMember gm
      { db with groupMembers := db.groupMembers.filter (· ≠ gm) }) := by
  refine groupMembers_tracked h (bumpGroupMember_bumped gm _) fun c u hT g => ?_
  have hne : (⟨c, g, u⟩ : GroupMember) ≠ gm := by
    rintro rfl
    exact hT ⟨rfl, rfl⟩
  simp [hne]

theorem cascadeGroupMembers_tracked (h : db.PrincipalOk) (p : GroupMember → Bool) :
    Tracked db (cascadeGroupMembers p db) := by
  have hb : Bumped
      (fun c u => ∃ gm ∈ db.groupMembers.filter p, gm.companyId = c ∧ gm.userId = u)
      { db with groupMembers := db.groupMembers.filter fun gm => !p gm }
      (cascadeGroupMembers p db) :=
    foldl_bumped fun gm _ d _ => bumpGroupMember_bumped gm d
  refine groupMembers_tracked h hb fun c u hT g => ?_
  rw [List.mem_filter]
  constructor
  · intro hmem
    refine ⟨hmem, ?_⟩
    by_contra hp
    exact hT ⟨_, List.mem_filter.mpr ⟨hmem, by simpa using hp⟩, rfl, rfl⟩
  · exact fun hmem => hmem.1

theorem clearGrantedBy_tracked (h : db.PrincipalOk) (v : Uuid) :
    Tracked db (clearGrantedBy v db) := by
  have hb : Bumped
      (fun c u => ∃ m ∈ db.memberships.filter fun m => m.grantedBy = some v, Counts db m c u)
      { db with memberships := db.memberships.map fun m =>
          if m.grantedBy = some v then { m with grantedBy := none } else m }
      (clearGrantedBy v db) := by
    refine foldl_bumped fun m hm d hd => ?_
    have hpm := h m (List.mem_filter.mp hm).1
    have hone := (bumpMembership_bumped hpm d).trans
      (bumpMembership_bumped (m := { m with grantedBy := none }) hpm (bumpMembership m d))
    refine hone.mono fun c u hc => .inl ?_
    rwa [Counts.congr hd]
  have hfix : ∀ m : Membership,
      (if m.grantedBy = some v then { m with grantedBy := none } else m).userId = m.userId ∧
      (if m.grantedBy = some v then { m with grantedBy := none } else m).groupId = m.groupId ∧
      (if m.grantedBy = some v then { m with grantedBy := none } else m).companyId =
        m.companyId := by
    intro m
    split <;> exact ⟨rfl, rfl, rfl⟩
  constructor
  · intro x hx
    rw [hb.memberships] at hx
    obtain ⟨m, hm, rfl⟩ := List.mem_map.mp hx
    rw [(hfix m).1, (hfix m).2.1]
    exact h m hm
  · refine fun c u => guard_of_bumped db hb rfl (fun _ hx => hx) (fun _ hT => ?_)
    refine readerMemberships_congr (fun _ => Iff.rfl) fun x hx => ?_
    rw [List.mem_map]
    constructor
    · intro hmem
      refine ⟨x, hmem, if_neg fun hv => hT ⟨x, ?_, hx⟩⟩
      exact List.mem_filter.mpr ⟨hmem, by simpa using hv⟩
    · rintro ⟨m, hm, rfl⟩
      by_cases hv : m.grantedBy = some v
      · refine absurd ⟨m, List.mem_filter.mpr ⟨hm, by simpa using hv⟩, ?_⟩ hT
        rwa [Counts, (hfix m).1, (hfix m).2.1, (hfix m).2.2] at hx
      · rwa [if_neg hv]

/-- A deleted user has no epochs any more; for the others nothing changes. -/
theorem removeUser_tracked (h : db.PrincipalOk) (c v : Uuid) :
    Tracked db { db with users := db.users.filter fun x => ¬(x.companyId = c ∧ x.id = v) } := by
  constructor
  · exact h
  · intro c' u
    have hb := Bumped.refl
      { db with users := db.users.filter fun x => ¬(x.companyId = c ∧ x.id = v) }
    refine guard_of_bumped db hb rfl (fun x hx => ?_) fun _ _ _ => Iff.rfl
    simp only [List.find?_filter, decide_eq_true_eq] at hx
    have hkeep := List.find?_some hx
    have hpred : (fun a : User => decide (¬(a.companyId = c ∧ a.id = v) ∧
        a.companyId = c' ∧ a.id = u)) = fun a => decide (a.companyId = c' ∧ a.id = u) := by
      funext a
      by_cases ha : a.companyId = c' ∧ a.id = u
      · obtain ⟨rfl, rfl⟩ := ha
        simp only [decide_eq_true_eq] at hkeep
        obtain ⟨hne, hc', hu⟩ := hkeep
        rw [hc', hu] at hne
        simp [hne]
      · simp [ha]
    rwa [hpred] at hx

end Steps

/-! ### The organisation tables -/

/-- The `acl_epoch` of every company guards its closure rows. -/
def OrgGuard (org org' : OrgDb) : Prop :=
  ∀ c company', org'.companies.find? (fun x => x.id = c) = some company' →
    ∃ company, org.companies.find? (fun x => x.id = c) = some company ∧
      company.aclEpoch ≤ company'.aclEpoch ∧ (company.aclEpoch = company'.aclEpoch →
        ∀ r : ClosureRow, r.companyId = c → (r ∈ org.closure ↔ r ∈ org'.closure))

theorem OrgGuard.refl (org : OrgDb) : OrgGuard org org :=
  fun _ company' h => ⟨company', h, Nat.le_refl _, fun _ _ _ => Iff.rfl⟩

/-- A change to the closure rows of one company, with a bump of its epoch. -/
theorem OrgGuard.of_bump {org org' : OrgDb} {c0 : Uuid} {n : Nat} (hn : 0 < n)
    (hcompanies : org'.companies = (bumpAclEpoch c0 n org).companies)
    (hclosure : ∀ r : ClosureRow, r.companyId ≠ c0 → (r ∈ org.closure ↔ r ∈ org'.closure)) :
    OrgGuard org org' := by
  intro c company' hc'
  have hkey : ∀ x : Company, (if x.id = c0 then { x with aclEpoch := x.aclEpoch + n } else x).id =
      x.id := by
    intro x
    split <;> rfl
  rw [hcompanies] at hc'
  simp only [bumpAclEpoch, List.find?_map, Function.comp_def, hkey] at hc'
  obtain ⟨company, hc, rfl⟩ := Option.map_eq_some_iff.mp hc'
  have hid : company.id = c := by simpa using List.find?_some hc
  refine ⟨company, hc, ?_, fun heq r hr => hclosure r fun hrc => ?_⟩
  · split
    · exact Nat.le_add_right _ _
    · exact Nat.le_refl _
  · rw [if_pos (hid.trans (hr.symm.trans hrc))] at heq
    simp only at heq
    omega

theorem insertOrgUnit_orgGuard {u : OrgUnit} {org org' : OrgDb}
    (h : insertOrgUnit u org = .ok () org') : OrgGuard org org' := by
  obtain ⟨-, rfl⟩ := insertOrgUnit_ok h
  refine OrgGuard.of_bump Nat.one_pos rfl ?_
  rintro ⟨c, a, d, k⟩ hr
  simp only [List.mem_append, OrgDb.mem_insertedRows]
  constructor
  · exact .inl
  · rintro (hin | ⟨hc, -⟩)
    · exact hin
    · exact absurd hc.symm hr

theorem moveOrgUnit_orgGuard {c n q : Uuid} {org org' : OrgDb}
    (h : moveOrgUnit c n q org = .ok () org') : OrgGuard org org' := by
  obtain rfl | ⟨u, -, -, -, rfl⟩ := moveOrgUnit_ok h
  · exact OrgGuard.refl _
  · refine OrgGuard.of_bump Nat.one_pos rfl ?_
    intro r hr
    have hnew : r ∉ newLinks (deleteOldLinks c n org) c n q := by
      simp only [newLinks, List.mem_flatMap, List.mem_map]
      rintro ⟨a, -, d, -, rfl⟩
      exact hr rfl
    have hold : r ∈ (deleteOldLinks c n org).closure ↔ r ∈ org.closure := by
      simp [deleteOldLinks, hr]
    simp only [movedClosure, List.mem_append, hnew, or_false, hold]

theorem deleteOrgUnit_orgGuard {c x : Uuid} {restricted : List Uuid} {org org' : OrgDb}
    (h : deleteOrgUnit c x restricted org = .ok () org') : OrgGuard org org' := by
  obtain rfl | ⟨u, hu, rfl, -, rfl⟩ := deleteOrgUnit_ok h
  · exact OrgGuard.refl _
  · refine OrgGuard.of_bump (Nat.succ_pos _) rfl ?_
    intro r hr
    have hkeep : ¬∃ v ∈ deletedUnits org u, v.companyId = r.companyId ∧
        (v.id = r.ancestorId ∨ v.id = r.descendantId) := by
      rintro ⟨v, hv, hc, -⟩
      exact hr (hc.symm.trans (mem_deletedUnits hu hv).2)
    rw [bumpAclEpoch_closure, removeUnits, List.mem_filter, decide_eq_true_eq]
    exact (and_iff_left hkeep).symm

theorem onOrg_ok {m : OrgStmt Unit} {db db' : AclDb} (h : onOrg m db = .ok () db') :
    ∃ org', m db.org = .ok () org' ∧ db' = { db with org := org' } := by
  unfold onOrg at h
  split at h
  next org hm => exact ⟨org, hm, by simpa using h.symm⟩
  next => cases h

theorem setOrg_tracked {db : AclDb} (h : db.PrincipalOk) {org' : OrgDb}
    (horg : OrgGuard db.org org') : Tracked db { db with org := org' } := by
  constructor
  · exact h
  · rintro c u ⟨a', s'⟩ he'
    obtain ⟨company', user, hc', hu, rfl, rfl⟩ := epochs_eq_some.mp he'
    obtain ⟨company, hc, hle, hsame⟩ := horg c company' hc'
    refine ⟨(company.aclEpoch, user.scopeEpoch), epochs_eq_some.mpr ⟨company, user, hc, hu, rfl, rfl⟩,
      Prod.mk_le_mk.mpr ⟨hle, Nat.le_refl _⟩, fun heq => ⟨fun _ => Iff.rfl, ?_⟩⟩
    exact hsame (Prod.mk.inj heq).1

/-! ### Statements and transactions -/

theorem checkMembership_ok {m : Membership} {others : List Membership} {db db' : AclDb}
    (h : checkMembership m others db = .ok () db') :
    m.userId.isSome ≠ m.groupId.isSome ∧ db' = db := by
  simp only [checkMembership, bind_ok, raiseIf_ok, get_ok] at h
  obtain ⟨_, _, ⟨rfl, rfl⟩, _, _, ⟨-, rfl⟩, _, _, ⟨hone, rfl⟩, _, _, ⟨-, rfl⟩, _, _, ⟨-, rfl⟩, _, _,
    ⟨-, rfl⟩, _, _, ⟨-, rfl⟩, _, _, ⟨-, rfl⟩, _, _, ⟨-, rfl⟩, -, rfl⟩ := h
  exact ⟨hone, rfl⟩

theorem checkGroupMember_ok {gm : GroupMember} {others : List GroupMember} {db db' : AclDb}
    (h : checkGroupMember gm others db = .ok () db') : db' = db := by
  simp only [checkGroupMember, bind_ok, raiseIf_ok, get_ok] at h
  obtain ⟨_, _, ⟨rfl, rfl⟩, _, _, ⟨-, rfl⟩, _, _, ⟨-, rfl⟩, -, rfl⟩ := h
  rfl

theorem deleteUnit_tracked {c x : Uuid} {restricted : List Uuid} {db db' : AclDb}
    (h : db.PrincipalOk) (hok : deleteUnit c x restricted db = .ok () db') : Tracked db db' := by
  simp only [deleteUnit, bind_ok, get_ok, modify_ok] at hok
  obtain ⟨_, _, ⟨rfl, rfl⟩, _, db1, horg, _, _, ⟨rfl, rfl⟩, rfl⟩ := hok
  obtain ⟨org', hdel, rfl⟩ := onOrg_ok horg
  have htrack := setOrg_tracked h (deleteOrgUnit_orgGuard hdel)
  exact htrack.trans (cascadeMemberships_tracked htrack.principalOk _)

/-- Every statement is tracked by the epochs. -/
theorem AclOp.statement_tracked {op : AclOp} {db db' : AclDb} (h : db.PrincipalOk)
    (hok : op.statement db = .ok () db') : Tracked db db' := by
  cases op with
  | insertMembership m =>
    simp only [AclOp.statement, Wikore.insertMembership, bind_ok, get_ok, modify_ok] at hok
    obtain ⟨_, _, ⟨rfl, rfl⟩, _, _, hcheck, _, _, rfl, rfl⟩ := hok
    obtain ⟨hm, rfl⟩ := checkMembership_ok hcheck
    exact insertMembership_tracked h hm
  | updateMembership x m =>
    simp only [AclOp.statement, Wikore.updateMembership, bind_ok, get_ok] at hok
    obtain ⟨_, _, ⟨rfl, rfl⟩, hok⟩ := hok
    cases hf : db.memberships.find? fun o => o.id = x with
    | none =>
      rw [hf] at hok
      obtain ⟨-, rfl⟩ := pure_ok.mp hok
      exact Tracked.refl h
    | some old =>
      simp only [hf, bind_ok, modify_ok] at hok
      obtain ⟨_, _, hcheck, _, _, rfl, _, _, rfl, rfl⟩ := hok
      obtain ⟨hm, rfl⟩ := checkMembership_ok hcheck
      exact updateMembership_tracked h (List.mem_of_find?_eq_some hf) hm
  | deleteMembership x =>
    simp only [AclOp.statement, Wikore.deleteMembership, bind_ok, get_ok] at hok
    obtain ⟨_, _, ⟨rfl, rfl⟩, hok⟩ := hok
    cases hf : db.memberships.find? fun o => o.id = x with
    | none =>
      rw [hf] at hok
      obtain ⟨-, rfl⟩ := pure_ok.mp hok
      exact Tracked.refl h
    | some old =>
      simp only [hf, bind_ok, modify_ok] at hok
      obtain ⟨_, _, rfl, rfl⟩ := hok
      exact deleteMembership_tracked h (List.mem_of_find?_eq_some hf)
  | insertGroupMember gm =>
    simp only [AclOp.statement, Wikore.insertGroupMember, bind_ok, get_ok, modify_ok] at hok
    obtain ⟨_, _, ⟨rfl, rfl⟩, _, _, hcheck, _, _, rfl, rfl⟩ := hok
    obtain rfl := checkGroupMember_ok hcheck
    exact insertGroupMember_tracked h gm
  | updateGroupMember old new =>
    simp only [AclOp.statement, Wikore.updateGroupMember, bind_ok, get_ok, ite_ok, pure_ok,
      modify_ok] at hok
    obtain ⟨_, _, ⟨rfl, rfl⟩, ⟨hold, _, _, hcheck, _, _, rfl, _, _, rfl, rfl⟩ | ⟨-, -, rfl⟩⟩ := hok
    · obtain rfl := checkGroupMember_ok hcheck
      exact updateGroupMember_tracked h hold
    · exact Tracked.refl h
  | deleteGroupMember gm =>
    simp only [AclOp.statement, Wikore.deleteGroupMember, bind_ok, get_ok, ite_ok, pure_ok,
      modify_ok] at hok
    obtain ⟨_, _, ⟨rfl, rfl⟩, ⟨-, _, _, rfl, rfl⟩ | ⟨-, -, rfl⟩⟩ := hok
    · exact deleteGroupMember_tracked h gm
    · exact Tracked.refl h
  | deleteGroup c g =>
    simp only [AclOp.statement, Wikore.deleteGroup, bind_ok, modify_ok] at hok
    obtain ⟨_, _, rfl, _, _, rfl, rfl⟩ := hok
    have h0 : Tracked db { db with groups := db.groups.filter fun x =>
        ¬(x.companyId = c ∧ x.id = g) } :=
      ⟨h, fun c u => Guarded.of_same rfl ⟨fun _ => Iff.rfl, fun _ _ => Iff.rfl⟩⟩
    have h1 := h0.trans (cascadeGroupMembers_tracked h0.principalOk fun gm =>
      gm.companyId = c ∧ gm.groupId = g)
    exact h1.trans (cascadeMemberships_tracked h1.principalOk _)
  | deleteUser c u restricted =>
    simp only [AclOp.statement, Wikore.deleteUser, bind_ok, raiseIf_ok, modify_ok] at hok
    obtain ⟨_, _, ⟨-, rfl⟩, _, _, rfl, _, _, rfl, _, _, rfl, rfl⟩ := hok
    have h0 := removeUser_tracked h c u
    have h1 := h0.trans (cascadeGroupMembers_tracked h0.principalOk fun gm =>
      gm.companyId = c ∧ gm.userId = u)
    have h2 := h1.trans (cascadeMemberships_tracked h1.principalOk fun m =>
      m.companyId = c ∧ m.userId = some u)
    exact h2.trans (clearGrantedBy_tracked h2.principalOk u)
  | insertOrgUnit u =>
    obtain ⟨org', hins, rfl⟩ := onOrg_ok hok
    exact setOrg_tracked h (insertOrgUnit_orgGuard hins)
  | deleteOrgUnit c x restricted => exact deleteUnit_tracked h hok
  | moveOrgUnit c n q =>
    obtain ⟨org', hmove, rfl⟩ := onOrg_ok hok
    exact setOrg_tracked h (moveOrgUnit_orgGuard hmove)

/-- Every committed transaction is tracked by the epochs. -/
theorem transaction_tracked {ops : List AclOp} {db db' : AclDb} (h : db.PrincipalOk)
    (hok : transaction ops db = .ok () db') : Tracked db db' := by
  obtain ⟨_, db1, hops, hend⟩ := bind_ok.mp hok
  have hmod := modify_ok.mp hend
  let P : List AclOp → AclDb → Prop := fun _ d => Tracked db d
  have hstart : P [] db := Tracked.refl h
  have h1 : P ([] ++ ops) db1 := by
    refine forEach_ok ?_ hops hstart
    intro op _ _ d d' hd hstep
    exact hd.trans (AclOp.statement_tracked hd.principalOk hstep)
  have h2 : Tracked db1 db' := by
    rw [← hmod]
    exact ⟨h1.principalOk, fun c u => Guarded.of_same rfl
      ⟨fun _ => Iff.rfl, fun _ _ => Iff.rfl⟩⟩
  exact Tracked.trans h1 h2

/-! ### The scope is a function of its inputs -/

theorem mem_scopeIds {db : AclDb} {now : Nat} {c u unit x : Uuid} :
    x ∈ scopeIds db now c u unit ↔ ∃ m ∈ readerMemberships db c u, unexpired now m.expiresAt = true ∧
      ∃ sub ∈ db.org.closure, sub.companyId = c ∧ sub.ancestorId = m.orgUnitId ∧
        (m.appliesTo = .selfAndDescendants ∨ sub.depth = 0) ∧
        ∃ scope ∈ db.org.closure, scope.companyId = c ∧ scope.ancestorId = unit ∧
          scope.descendantId = sub.descendantId ∧ sub.descendantId = x := by
  simp only [scopeIds, liveMemberships, List.mem_dedup, List.mem_flatMap, List.mem_filter,
    List.mem_map, decide_eq_true_eq]
  constructor
  · rintro ⟨m, ⟨hm, hl⟩, sub, ⟨hsub, hc, ha, happ⟩, scope, ⟨hscope, hsc, hsa, hsd⟩, rfl⟩
    exact ⟨m, hm, hl, sub, hsub, hc, ha, happ, scope, hscope, hsc, hsa, hsd, rfl⟩
  · rintro ⟨m, hm, hl, sub, hsub, hc, ha, happ, scope, hscope, hsc, hsa, hsd, rfl⟩
    exact ⟨m, ⟨hm, hl⟩, sub, ⟨hsub, hc, ha, happ⟩, scope, ⟨hscope, hsc, hsa, hsd⟩, rfl⟩

/-- The same inputs, with the same memberships alive, give the same scope. -/
theorem scopeIds_congr {db db' : AclDb} {c u : Uuid} (h : SameInputs c u db db')
    {t t' : Nat} (hlive : ∀ m ∈ readerMemberships db c u,
      (unexpired t m.expiresAt = true ↔ unexpired t' m.expiresAt = true)) (unit x : Uuid) :
    x ∈ scopeIds db t c u unit ↔ x ∈ scopeIds db' t' c u unit := by
  rw [mem_scopeIds, mem_scopeIds]
  constructor
  · rintro ⟨m, hm, hl, sub, hsub, hc, ha, happ, scope, hscope, hsc, hrest⟩
    exact ⟨m, (h.memberships m).mp hm, (hlive m hm).mp hl, sub, (h.closure sub hc).mp hsub, hc, ha,
      happ, scope, (h.closure scope hsc).mp hscope, hsc, hrest⟩
  · rintro ⟨m, hm, hl, sub, hsub, hc, ha, happ, scope, hscope, hsc, hrest⟩
    have hm' := (h.memberships m).mpr hm
    exact ⟨m, hm', (hlive m hm').mpr hl, sub, (h.closure sub hc).mpr hsub, hc, ha, happ, scope,
      (h.closure scope hsc).mpr hscope, hsc, hrest⟩

end Wikore
