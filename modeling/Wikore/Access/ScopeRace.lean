import Wikore.Access.ScopeCache

/-! The scope cache while two transactions overlap under `READ COMMITTED`: one that writes a row of
`memberships` and one that inserts or deletes a row of `group_members`.  Each statement reads the
rows committed when it starts, a row of `users` stays locked from its update to the end of the
transaction, and the other connections see a transaction's writes when it commits. -/

namespace Wikore

open Statement Stamp Transition

inductive MembershipWrite
  | insert (m : Membership)
  | update (x : Uuid) (m : Membership)
  | delete (x : Uuid)
deriving DecidableEq, Repr

inductive GroupMemberWrite
  | insert (gm : GroupMember)
  | delete (gm : GroupMember)
deriving DecidableEq, Repr

def GroupMemberWrite.row : GroupMemberWrite → GroupMember
  | .insert gm => gm
  | .delete gm => gm

/-- An open transaction that has written a row of `memberships`.  `waiting` are the rows whose
principal the trigger has still to bump; `selected` are the users that its running `UPDATE` has read
and not yet updated; `bumped` are the rows of `users` that it has updated and keeps locked. -/
structure MembershipTx where
  old : Option Membership
  new : Option Membership
  waiting : List Membership
  selected : List (Uuid × Uuid)
  bumped : List (Uuid × Uuid)
deriving DecidableEq, Repr

structure GroupMemberTx where
  write : GroupMemberWrite
  bumped : Bool
deriving DecidableEq, Repr

structure RaceWorld where
  cacheWorld : CacheWorld
  membershipTx : Option MembershipTx
  groupMemberTx : Option GroupMemberTx
deriving DecidableEq, Repr

inductive RaceAction
  | cache (a : CacheAction)
  | writeMembership (op : MembershipWrite)
  /-- The next `UPDATE users` of `wikore_bump_membership_principal` takes its snapshot. -/
  | bumpPrincipal
  | bumpRow (user : Uuid × Uuid)
  | endMembership (commit : Bool)
  | writeGroupMember (op : GroupMemberWrite)
  | bumpMember
  | endGroupMember (commit : Bool)
deriving DecidableEq, Repr

def bumpUser (k : Uuid × Uuid) (db : AclDb) : AclDb :=
  bumpScopeEpoch (fun x => x.companyId = k.1 ∧ x.id = k.2) db

/-- The users that `wikore_bump_membership_principal` selects for a row. -/
def selectPrincipal (db : AclDb) (m : Membership) : List (Uuid × Uuid) :=
  match m.userId, m.groupId with
  | some u, _ => [(m.companyId, u)]
  | none, some g => (groupUsers db m.companyId g).map fun u => (m.companyId, u)
  | none, none => []

/-- The statement on `memberships`.  A statement that fails or finds no row leaves nothing to
commit. -/
def MembershipWrite.start (db : AclDb) : MembershipWrite → Option MembershipTx
  | .insert m =>
    match checkMembership m db.memberships db with
    | .ok _ _ => some ⟨none, some m, [m], [], []⟩
    | .error _ _ => none
  | .update x m =>
    match db.memberships.find? fun o => o.id = x with
    | none => none
    | some old =>
      match checkMembership m (db.memberships.filter (· ≠ old)) db with
      | .ok _ _ => some ⟨some old, some m, [old, m], [], []⟩
      | .error _ _ => none
  | .delete x =>
    match db.memberships.find? fun o => o.id = x with
    | none => none
    | some old => some ⟨some old, none, [old], [], []⟩

def GroupMemberWrite.start (db : AclDb) (op : GroupMemberWrite) : Option GroupMemberTx :=
  match op with
  | .insert gm =>
    match checkGroupMember gm db.groupMembers db with
    | .ok _ _ => some ⟨op, false⟩
    | .error _ _ => none
  | .delete gm => if gm ∈ db.groupMembers then some ⟨op, false⟩ else none

def writeRow (old new : Option Membership) (rows : List Membership) : List Membership :=
  match old, new with
  | none, none => rows
  | none, some m => rows ++ [m]
  | some o, none => rows.filter (· ≠ o)
  | some o, some m => rows.map fun x => if x = o then m else x

namespace MembershipTx

def rows (tx : MembershipTx) : List Membership := tx.old.toList ++ tx.new.toList

def commit (tx : MembershipTx) (db : AclDb) : AclDb :=
  tx.bumped.foldl (fun db k => bumpUser k db)
    { db with memberships := writeRow tx.old tx.new db.memberships }

end MembershipTx

def GroupMemberTx.commit (tx : GroupMemberTx) (db : AclDb) : AclDb :=
  match tx.write with
  | .insert gm => bumpGroupMember gm { db with groupMembers := db.groupMembers ++ [gm] }
  | .delete gm => bumpGroupMember gm { db with groupMembers := db.groupMembers.filter (· ≠ gm) }

namespace RaceWorld

def db (w : RaceWorld) : AclDb := w.cacheWorld.db

def setDb (w : RaceWorld) (db : AclDb) : RaceWorld :=
  { w with cacheWorld := { w.cacheWorld with db } }

/-- Whether the other transaction keeps the row of `users` locked. -/
def lockedByGroupMember (w : RaceWorld) (k : Uuid × Uuid) : Prop :=
  ∃ tx ∈ w.groupMemberTx, tx.bumped = true ∧
    (tx.write.row.companyId, tx.write.row.userId) = k

def lockedByMembership (w : RaceWorld) (k : Uuid × Uuid) : Prop :=
  ∃ tx ∈ w.membershipTx, k ∈ tx.bumped

instance (w : RaceWorld) (k : Uuid × Uuid) : Decidable (w.lockedByGroupMember k) :=
  inferInstanceAs (Decidable (∃ tx ∈ w.groupMemberTx, _))

instance (w : RaceWorld) (k : Uuid × Uuid) : Decidable (w.lockedByMembership k) :=
  inferInstanceAs (Decidable (∃ tx ∈ w.membershipTx, _))

/-- Transactions of other kinds run while neither of the two is open. -/
def cacheStep (w : RaceWorld) : CacheAction → RaceWorld
  | .commit ops =>
    if w.membershipTx = none ∧ w.groupMemberTx = none then
      { w with cacheWorld := w.cacheWorld.step (.commit ops) }
    else w
  | a => { w with cacheWorld := w.cacheWorld.step a }

def step (w : RaceWorld) : RaceAction → RaceWorld
  | .cache a => w.cacheStep a
  | .writeMembership op =>
    match w.membershipTx with
    | none => { w with membershipTx := op.start w.db }
    | some _ => w
  | .bumpPrincipal =>
    match w.membershipTx with
    | some ⟨old, new, m :: waiting, [], bumped⟩ =>
      { w with membershipTx := some ⟨old, new, waiting, selectPrincipal w.db m, bumped⟩ }
    | _ => w
  | .bumpRow k =>
    match w.membershipTx with
    | some tx =>
      if k ∈ tx.selected ∧ ¬w.lockedByGroupMember k then
        { w with
          membershipTx := some
            { tx with selected := tx.selected.filter (· ≠ k), bumped := k :: tx.bumped } }
      else w
    | none => w
  | .endMembership commit =>
    match w.membershipTx with
    | some tx =>
      if commit = false then { w with membershipTx := none }
      else if tx.waiting = [] ∧ tx.selected = [] then
        { w.setDb (tx.commit w.db) with membershipTx := none }
      else w
    | none => w
  | .writeGroupMember op =>
    match w.groupMemberTx with
    | none => { w with groupMemberTx := op.start w.db }
    | some _ => w
  | .bumpMember =>
    match w.groupMemberTx with
    | some tx =>
      if w.lockedByMembership (tx.write.row.companyId, tx.write.row.userId) then w
      else { w with groupMemberTx := some { tx with bumped := true } }
    | none => w
  | .endGroupMember commit =>
    match w.groupMemberTx with
    | some tx =>
      if commit = false then { w with groupMemberTx := none }
      else if tx.bumped = true then
        { w.setDb (tx.commit w.db) with groupMemberTx := none }
      else w
    | none => w

def init (db : AclDb) (clock : Nat) : RaceWorld := ⟨CacheWorld.init db clock, none, none⟩

end RaceWorld

/-! ### Users that the trigger has missed -/

/-- The trigger has bumped the user, is about to, or will find the user when it runs. -/
def MembershipTx.Covers (tx : MembershipTx) (db : AclDb) (c u : Uuid) : Prop :=
  (c, u) ∈ tx.bumped ∨ (c, u) ∈ tx.selected ∨ ∃ m ∈ tx.waiting, Counts db m c u

/-- The user has come into the group of an uncommitted row after the trigger read
`group_members`. -/
def RaceWorld.Missed (w : RaceWorld) (c u : Uuid) : Prop :=
  ∃ tx ∈ w.membershipTx, (∃ m ∈ tx.rows, Counts w.db m c u) ∧ ¬tx.Covers w.db c u

theorem mem_selectPrincipal {db : AclDb} {m : Membership} {c u : Uuid}
    (h : m.userId.isSome ≠ m.groupId.isSome) (hc : Counts db m c u) :
    (c, u) ∈ selectPrincipal db m := by
  obtain ⟨rfl, hu | ⟨g, hg, hgm⟩⟩ := hc
  · simp [selectPrincipal, hu]
  · have hu : m.userId = none := by
      cases hu : m.userId with
      | none => rfl
      | some v => simp [hu, hg] at h
    have hin : u ∈ groupUsers db m.companyId g := by
      refine List.mem_map.mpr ⟨⟨m.companyId, g, u⟩, List.mem_filter.mpr ⟨hgm, ?_⟩, rfl⟩
      simp
    simp [selectPrincipal, hu, hg, hin]

theorem mem_writeRow_of_new {old new : Option Membership} {rows : List Membership} {x : Membership}
    (hx : x ∈ writeRow old new rows) : x ∈ rows ∨ x ∈ new.toList := by
  unfold writeRow at hx
  split at hx
  · exact .inl hx
  · simpa using hx
  · exact .inl (List.mem_filter.mp hx).1
  · obtain ⟨o, ho, rfl⟩ := List.mem_map.mp hx
    split
    · simp
    · exact .inl ho

theorem mem_writeRow {old new : Option Membership} {rows : List Membership} {x : Membership}
    (hx : x ∉ old.toList ++ new.toList) : x ∈ writeRow old new rows ↔ x ∈ rows := by
  simp only [List.mem_append, Option.mem_toList, not_or] at hx
  obtain ⟨hold, hnew⟩ := hx
  constructor
  · intro hmem
    rcases mem_writeRow_of_new hmem with h | h
    · exact h
    · exact absurd (Option.mem_toList.mp h) hnew
  · intro hmem
    unfold writeRow
    split
    · exact hmem
    · exact List.mem_append_left _ hmem
    · refine List.mem_filter.mpr ⟨hmem, ?_⟩
      simpa using fun heq => hold (by simp [heq])
    · refine List.mem_map.mpr ⟨x, hmem, if_neg ?_⟩
      exact fun heq => hold (by simp [heq])

theorem MembershipTx.commit_bumped (tx : MembershipTx) (db : AclDb) :
    Bumped (fun c u => (c, u) ∈ tx.bumped)
      { db with memberships := writeRow tx.old tx.new db.memberships } (tx.commit db) := by
  refine (foldl_bumped (T := fun k c u => c = k.1 ∧ u = k.2) fun k _ d _ => ?_).mono ?_
  · exact (bumpScopeEpoch_bumped (fun c u => c = k.1 ∧ u = k.2) d).mono fun c u h => by simpa using h
  · exact fun c u h => ⟨(c, u), h, rfl, rfl⟩

theorem GroupMemberTx.commit_bumped (tx : GroupMemberTx) (db : AclDb) :
    ∃ gms, Bumped (fun c u => tx.write.row.companyId = c ∧ tx.write.row.userId = u)
      { db with groupMembers := gms } (tx.commit db) ∧
      ∀ gm, gm ≠ tx.write.row → (gm ∈ db.groupMembers ↔ gm ∈ gms) := by
  unfold GroupMemberTx.commit
  split
  next gm hw =>
    rw [hw]
    refine ⟨_, bumpGroupMember_bumped gm _, fun x hx => ?_⟩
    simp [show x ≠ gm from hx]
  next gm hw =>
    rw [hw]
    refine ⟨_, bumpGroupMember_bumped gm _, fun x hx => ?_⟩
    simp [show x ≠ gm from hx]

namespace RaceWorld

variable {w w' : RaceWorld} {c u : Uuid}

/-- While the user's epochs stay the same, the inputs of the scope of a user that was not missed stay
the same, and the user is not missed. -/
abbrev RaceGuard (c u : Uuid) : RaceWorld → RaceWorld → Prop :=
  Guarded (fun w => epochs w.db c u)
    (fun w w' => ¬w.Missed c u → SameInputs c u w.db w'.db ∧ ¬w'.Missed c u)

theorem RaceGuard.trans {w'' : RaceWorld} (h1 : RaceGuard c u w w') (h2 : RaceGuard c u w' w'') :
    RaceGuard c u w w'' := by
  refine Guarded.trans (fun hs hs' hm => ?_) h1 h2
  obtain ⟨hin, hm'⟩ := hs hm
  obtain ⟨hin', hm''⟩ := hs' hm'
  exact ⟨hin.trans hin', hm''⟩

theorem RaceGuard.of_db_eq (hdb : w'.db = w.db) (hmissed : w'.Missed c u → w.Missed c u) :
    RaceGuard c u w w' := by
  refine Guarded.of_same (by simp only [hdb]) fun hm => ⟨?_, fun hm' => hm (hmissed hm')⟩
  rw [hdb]
  exact SameInputs.refl c u w.db

/-- The rows of an open transaction meet the check on principals. -/
structure TxOk (w : RaceWorld) : Prop where
  principalOk : w.db.PrincipalOk
  rows : ∀ tx ∈ w.membershipTx, ∀ m ∈ tx.rows, m.userId.isSome ≠ m.groupId.isSome
  waiting : ∀ tx ∈ w.membershipTx, ∀ m ∈ tx.waiting, m ∈ tx.rows

theorem TxOk.of_none (h : w.db.PrincipalOk) (hnone : w.membershipTx = none) : w.TxOk := by
  refine ⟨h, ?_, ?_⟩
  · intro tx htx
    rw [hnone] at htx
    cases htx
  · intro tx htx
    rw [hnone] at htx
    cases htx

theorem not_missed_of_none (hnone : w.membershipTx = none) : ¬w.Missed c u := by
  rintro ⟨tx, htx, -⟩
  rw [hnone] at htx
  cases htx

/-- What `start` opens: a transaction that still has to bump the principals of all its rows. -/
theorem start_ok {db : AclDb} (h : db.PrincipalOk) {op : MembershipWrite} {tx : MembershipTx}
    (hs : op.start db = some tx) :
    tx.waiting = tx.rows ∧ ∀ m ∈ tx.rows, m.userId.isSome ≠ m.groupId.isSome := by
  cases op with
  | insert m =>
    simp only [MembershipWrite.start] at hs
    split at hs
    next hok =>
      cases hs
      refine ⟨rfl, fun x hx => ?_⟩
      obtain rfl : x = m := by simpa [MembershipTx.rows] using hx
      exact (checkMembership_ok hok).1
    next => cases hs
  | update x m =>
    simp only [MembershipWrite.start] at hs
    split at hs
    next => cases hs
    next old hfind =>
      split at hs
      next hok =>
        cases hs
        refine ⟨rfl, fun y hy => ?_⟩
        rcases (by simpa [MembershipTx.rows] using hy : y = old ∨ y = m) with rfl | rfl
        · exact h y (List.mem_of_find?_eq_some hfind)
        · exact (checkMembership_ok hok).1
      next => cases hs
  | delete x =>
    simp only [MembershipWrite.start] at hs
    split at hs
    next => cases hs
    next old hfind =>
      cases hs
      refine ⟨rfl, fun y hy => ?_⟩
      obtain rfl : y = old := by simpa [MembershipTx.rows] using hy
      exact h y (List.mem_of_find?_eq_some hfind)

/-- A step that the epochs guard for every user who was not missed. -/
structure Safe (w w' : RaceWorld) : Prop where
  txOk : w'.TxOk
  guard : ∀ c u, RaceGuard c u w w'

theorem Safe.refl (h : w.TxOk) : Safe w w :=
  ⟨h, fun _ _ => .of_db_eq rfl id⟩

/-- Only the cache, the calls and the clock move. -/
theorem safe_cacheWorld (h : w.TxOk) {cw : CacheWorld} (hdb : cw.db = w.db) :
    Safe w { w with cacheWorld := cw } := by
  have hdb' : ({ w with cacheWorld := cw } : RaceWorld).db = w.db := hdb
  refine ⟨⟨hdb' ▸ h.principalOk, h.rows, h.waiting⟩, fun c u => .of_db_eq hdb' ?_⟩
  rintro ⟨tx, htx, hm⟩
  rw [hdb'] at hm
  exact ⟨tx, htx, hm⟩

theorem safe_commit (h : w.TxOk) (hnone : w.membershipTx = none) (ops : List AclOp) :
    Safe w { w with cacheWorld := w.cacheWorld.step (.commit ops) } := by
  have htrack : Tracked w.db (w.cacheWorld.step (.commit ops)).db :=
    CacheWorld.step_tracked h.principalOk _
  refine ⟨⟨htrack.principalOk, h.rows, h.waiting⟩, fun c u e' he' => ?_⟩
  obtain ⟨e, he, hle, hsame⟩ := htrack.guard c u e' he'
  exact ⟨e, he, hle, fun heq _ => ⟨hsame heq, not_missed_of_none hnone⟩⟩

theorem safe_cacheStep (h : w.TxOk) (a : CacheAction) : Safe w (w.cacheStep a) := by
  cases a with
  | commit ops =>
    simp only [cacheStep]
    split
    next hnone => exact safe_commit h hnone.1 ops
    next => exact Safe.refl h
  | redisSet i ok =>
    refine safe_cacheWorld h ?_
    simp only [CacheWorld.step, CacheWorld.store]
    (repeat' split) <;> rfl
  | _ =>
    refine safe_cacheWorld h ?_
    simp only [CacheWorld.step]
    (repeat' split) <;> rfl

/-- The open transaction on `memberships` changes, and covers whom it has covered before. -/
theorem safe_membershipTx (h : w.TxOk) {tx' : MembershipTx}
    (hrows : ∀ m ∈ tx'.rows, m.userId.isSome ≠ m.groupId.isSome)
    (hwaiting : ∀ m ∈ tx'.waiting, m ∈ tx'.rows)
    (hcovers : ∀ c u, (∃ m ∈ tx'.rows, Counts w.db m c u) → ¬w.Missed c u → tx'.Covers w.db c u) :
    Safe w { w with membershipTx := some tx' } := by
  refine ⟨⟨h.principalOk, ?_, ?_⟩, fun c u => .of_db_eq rfl ?_⟩
  · intro tx htx
    cases htx
    exact hrows
  · intro tx htx
    cases htx
    exact hwaiting
  · rintro ⟨tx, htx, hcounts, hnot⟩
    cases htx
    by_contra hm
    exact hnot (hcovers c u hcounts hm)

theorem covers_of_not_missed {tx : MembershipTx} (htx : w.membershipTx = some tx)
    (hcounts : ∃ m ∈ tx.rows, Counts w.db m c u) (hm : ¬w.Missed c u) : tx.Covers w.db c u := by
  by_contra hnot
  exact hm ⟨tx, htx, hcounts, hnot⟩

theorem safe_writeMembership (h : w.TxOk) (op : MembershipWrite) :
    Safe w (w.step (.writeMembership op)) := by
  simp only [step]
  split
  next =>
    cases hs : op.start w.db with
    | none =>
      refine ⟨.of_none h.principalOk rfl, fun c u => .of_db_eq rfl fun hm => ?_⟩
      exact absurd hm (not_missed_of_none rfl)
    | some tx =>
      obtain ⟨hwaiting, hrows⟩ := start_ok h.principalOk hs
      refine safe_membershipTx h hrows (fun m hm => hwaiting ▸ hm) fun c u hcounts _ => ?_
      exact .inr (.inr (hwaiting ▸ hcounts))
  next => exact Safe.refl h

theorem safe_bumpPrincipal (h : w.TxOk) : Safe w (w.step .bumpPrincipal) := by
  simp only [step]
  split
  next old new m waiting bumped htx =>
    have hrows := h.rows _ htx
    have hwait := h.waiting _ htx
    refine safe_membershipTx h hrows (fun x hx => hwait x (List.mem_cons_of_mem m hx)) ?_
    intro c u hcounts hm
    rcases covers_of_not_missed htx hcounts hm with hb | hs | ⟨x, hx, hc⟩
    · exact .inl hb
    · cases hs
    · rcases List.mem_cons.mp hx with rfl | hx
      · refine .inr (.inl (mem_selectPrincipal (hrows x (hwait x ?_)) hc))
        exact List.mem_cons_self
      · exact .inr (.inr ⟨x, hx, hc⟩)
  next => exact Safe.refl h

theorem safe_bumpRow (h : w.TxOk) (k : Uuid × Uuid) : Safe w (w.step (.bumpRow k)) := by
  simp only [step]
  split
  next tx htx =>
    split
    next hk =>
      refine safe_membershipTx h (h.rows tx htx) (h.waiting tx htx) fun c u hcounts hm => ?_
      rcases covers_of_not_missed htx hcounts hm with hb | hs | hw
      · exact .inl (List.mem_cons_of_mem k hb)
      · by_cases hck : (c, u) = k
        · exact .inl (hck ▸ List.mem_cons_self)
        · exact .inr (.inl (List.mem_filter.mpr ⟨hs, by simpa using hck⟩))
      · exact .inr (.inr hw)
    next => exact Safe.refl h
  next => exact Safe.refl h

/-- The commit of a transaction whose trigger has run: a user that is not missed was bumped or has
nothing to do with the row. -/
theorem safe_endMembership (h : w.TxOk) (commit : Bool) :
    Safe w (w.step (.endMembership commit)) := by
  simp only [step]
  split
  next tx htx =>
    split
    next =>
      refine ⟨.of_none h.principalOk rfl, fun c u => .of_db_eq rfl fun hm => ?_⟩
      exact absurd hm (not_missed_of_none rfl)
    next =>
      split
      next hdone =>
        have hb := tx.commit_bumped w.db
        refine ⟨.of_none ?_ rfl, ?_⟩
        · intro m hm
          have hm' : m ∈ (tx.commit w.db).memberships := hm
          rw [hb.memberships] at hm'
          rcases mem_writeRow_of_new hm' with hold | hnew
          · exact h.principalOk m hold
          · exact h.rows tx htx m (List.mem_append_right _ hnew)
        · intro c u e' he'
          obtain ⟨e, he, hle, hfresh⟩ := hb.epochs w.db rfl (fun _ hx => hx) he'
          refine ⟨e, he, hle, fun heq hm => ⟨?_, not_missed_of_none rfl⟩⟩
          have hrow : ∀ m ∈ tx.rows, ¬Counts w.db m c u := by
            intro m hmem hcounts
            rcases covers_of_not_missed htx ⟨m, hmem, hcounts⟩ hm with hin | hin | ⟨_, hin, -⟩
            · exact (hfresh heq).1 hin
            · rw [hdone.2] at hin
              cases hin
            · rw [hdone.1] at hin
              cases hin
          have h1 : SameInputs c u w.db
              { w.db with memberships := writeRow tx.old tx.new w.db.memberships } := by
            refine ⟨readerMemberships_congr (fun _ => Iff.rfl) fun m hc => ?_, fun _ _ => Iff.rfl⟩
            exact (mem_writeRow fun hmem => hrow m hmem hc).symm
          exact h1.trans (hb.sameInputs c u)
      next => exact Safe.refl h
  next => exact Safe.refl h

/-- Only the transaction on `group_members` moves. -/
theorem safe_groupMemberTx (h : w.TxOk) (tx : Option GroupMemberTx) :
    Safe w { w with groupMemberTx := tx } :=
  ⟨⟨h.principalOk, h.rows, h.waiting⟩, fun _ _ => .of_db_eq rfl id⟩

/-- The commit on `group_members` bumps the one user whose groups change. -/
theorem safe_endGroupMember (h : w.TxOk) (commit : Bool) :
    Safe w (w.step (.endGroupMember commit)) := by
  simp only [step]
  split
  next tx htx =>
    split
    next => exact safe_groupMemberTx h none
    next =>
      split
      next =>
        obtain ⟨gms, hb, hgms⟩ := tx.commit_bumped w.db
        refine ⟨⟨?_, h.rows, h.waiting⟩, ?_⟩
        · intro m hm
          have hm' : m ∈ (tx.commit w.db).memberships := hm
          rw [hb.memberships] at hm'
          exact h.principalOk m hm'
        · intro c u e' he'
          obtain ⟨e, he, hle, hfresh⟩ := hb.epochs w.db rfl (fun _ hx => hx) he'
          refine ⟨e, he, hle, fun heq hm => ?_⟩
          have hg : ∀ g, (⟨c, g, u⟩ ∈ w.db.groupMembers ↔ ⟨c, g, u⟩ ∈ gms) := by
            intro g
            refine hgms _ fun hrow => (hfresh heq).1 ?_
            rw [← hrow]
            exact ⟨rfl, rfl⟩
          have hcounts : ∀ m, Counts (tx.commit w.db) m c u ↔ Counts w.db m c u := by
            intro m
            rw [Counts.congr hb.groupMembers]
            simp only [Counts, hg]
          have h1 : SameInputs c u w.db { w.db with groupMembers := gms } :=
            ⟨readerMemberships_congr hg fun _ _ => Iff.rfl, fun _ _ => Iff.rfl⟩
          refine ⟨h1.trans (hb.sameInputs c u), ?_⟩
          rintro ⟨mtx, hmtx, ⟨m, hmem, hc⟩, hnot⟩
          refine hm ⟨mtx, hmtx, ⟨m, hmem, (hcounts m).mp hc⟩, fun hcov => hnot ?_⟩
          refine hcov.imp_right (Or.imp_right ?_)
          rintro ⟨x, hx, hcx⟩
          exact ⟨x, hx, (hcounts x).mpr hcx⟩
      next => exact Safe.refl h
  next => exact Safe.refl h

theorem safe_step (h : w.TxOk) (a : RaceAction) : Safe w (w.step a) := by
  cases a with
  | cache a => exact safe_cacheStep h a
  | writeMembership op => exact safe_writeMembership h op
  | bumpPrincipal => exact safe_bumpPrincipal h
  | bumpRow k => exact safe_bumpRow h k
  | endMembership commit => exact safe_endMembership h commit
  | writeGroupMember op =>
    simp only [step]
    split
    · exact safe_groupMemberTx h (op.start w.db)
    · exact Safe.refl h
  | bumpMember =>
    simp only [step]
    split
    next tx _ =>
      split
      · exact Safe.refl h
      · exact safe_groupMemberTx h (some { tx with bumped := true })
    next => exact Safe.refl h
  | endGroupMember commit => exact safe_endGroupMember h commit

/-! ### Runs -/

/-- The resolver's query is not run for a user that an open transaction has missed. -/
def QueriesUnmissed (w : RaceWorld) : RaceAction → Prop
  | .cache (.resolve i _ _) =>
    ∀ call ∈ w.cacheWorld.calls[i]?, ¬w.Missed call.key.company call.key.user
  | _ => True

theorem holds_step {a : RaceAction} {h : HeldScope} (hh : (w.step a).cacheWorld.Holds h) :
    (∃ h0, w.cacheWorld.Holds h0 ∧ h.Shortens h0) ∨
      ∃ i pgNow ok call rows, a = .cache (.resolve i pgNow ok) ∧
        w.cacheWorld.calls[i]? = some call ∧ pgNow ≤ w.cacheWorld.clock ∧
        resolveQuery w.db pgNow call.key.company call.key.user call.key.unit = some rows ∧
        h = rows.held call.key := by
  cases a with
  | cache a =>
    cases a with
    | commit ops =>
      simp only [step, cacheStep] at hh
      split at hh
      · exact .inl ⟨h, hh, .refl h⟩
      · exact .inl ⟨h, hh, .refl h⟩
    | resolve i pgNow ok =>
      rcases CacheWorld.Holds.of_step hh with hold | ⟨_, _, _, call, rows, ha, hi, hle, hq, rfl⟩
      · exact .inl hold
      · cases ha
        exact .inr ⟨i, pgNow, ok, call, rows, rfl, hi, hle, hq, rfl⟩
    | _ =>
      rcases CacheWorld.Holds.of_step hh with hold | ⟨_, _, _, _, _, ha, -⟩
      · exact .inl hold
      · cases ha
  | _ =>
    simp only [step, setDb] at hh
    (repeat' split at hh) <;> exact .inl ⟨h, hh, .refl h⟩

theorem le_clock_step (a : RaceAction) : w.cacheWorld.clock ≤ (w.step a).cacheWorld.clock := by
  cases a with
  | cache a =>
    cases a with
    | commit ops =>
      simp only [step, cacheStep]
      split <;> exact Nat.le_refl _
    | _ => exact CacheWorld.le_clock_step _
  | _ =>
    simp only [step, setDb]
    (repeat' split) <;> exact Nat.le_refl _

/-- The scope was computed for a user who was not missed, on a state that `w` has developed
from. -/
def Provenance (w : RaceWorld) (h : HeldScope) : Prop :=
  ∃ w0 t, ComputedOn h w0.db t ∧ t ≤ w.cacheWorld.clock ∧
    ¬w0.Missed h.key.company h.key.user ∧ RaceGuard h.key.company h.key.user w0 w

structure Inv (w : RaceWorld) : Prop where
  txOk : w.TxOk
  held : ∀ h, w.cacheWorld.Holds h → w.Provenance h

theorem Inv.step (h : w.Inv) {a : RaceAction} (ha : w.QueriesUnmissed a) : (w.step a).Inv := by
  have hsafe := safe_step h.txOk a
  have hclock := le_clock_step (w := w) a
  refine ⟨hsafe.txOk, fun x hx => ?_⟩
  rcases holds_step hx with ⟨x0, hx0, hs⟩ | ⟨i, pgNow, ok, call, rows, rfl, hi, hle, hq, rfl⟩
  · obtain ⟨w0, t, hcomp, ht, hm, hguard⟩ := h.held x0 hx0
    rw [← hs.key] at hm hguard
    exact ⟨w0, t, hcomp.shorten hs, Nat.le_trans ht hclock, hm, hguard.trans (hsafe.guard _ _)⟩
  · exact ⟨w, pgNow, .of_query hq, Nat.le_trans hle hclock, ha call hi, hsafe.guard _ _⟩

theorem Inv.init {db : AclDb} (h : db.PrincipalOk) (clock : Nat) : (init db clock).Inv :=
  ⟨.of_none h rfl, fun _ hx => absurd hx CacheWorld.not_holds_init⟩

theorem Provenance.current {h : HeldScope} (hp : w.Provenance h)
    (he : epochs w.db h.key.company h.key.user = some (h.accessEpoch, h.scopeEpoch)) :
    ∃ t, t ≤ w.cacheWorld.clock ∧ ∀ x, x ∈ h.orgUnitIds ↔
      x ∈ scopeIds w.db t h.key.company h.key.user h.key.unit := by
  obtain ⟨w0, t, hcomp, ht, hm, hguard⟩ := hp
  have hsame := hguard.same_of_eq (he.trans hcomp.epochs.symm) hcomp.epochs
  refine ⟨t, ht, fun x => (hcomp.ids x).trans ?_⟩
  exact scopeIds_congr (hsame hm).1 (fun _ _ => Iff.rfl) h.key.unit x

end RaceWorld

/-- In every run in which the resolver's query is never run for a user that an open transaction has
missed, an entry that carries the user's current epochs holds the scope that the resolver computes,
unless a membership has expired since. -/
theorem scopeCache_exact_of_unmissed {db : AclDb} (h : db.PrincipalOk) (clock : Nat)
    (acts : List RaceAction)
    (hrun : Along RaceWorld.step RaceWorld.QueriesUnmissed (RaceWorld.init db clock) acts) :
    let w := run RaceWorld.step (RaceWorld.init db clock) acts
    ∀ e ∈ w.cacheWorld.cache,
      epochs w.db e.1.company e.1.user = some (e.2.accessEpoch, e.2.scopeEpoch) →
      ∃ t, t ≤ w.cacheWorld.clock ∧
        (∀ x, x ∈ e.2.orgUnitIds ↔ x ∈ scopeIds w.db t e.1.company e.1.user e.1.unit) ∧
        ((∀ m ∈ readerMemberships w.db e.1.company e.1.user, ∀ exp, m.expiresAt = some exp →
            t < exp → w.cacheWorld.clock < exp) →
          ∀ x, x ∈ e.2.orgUnitIds ↔
            x ∈ scopeIds w.db w.cacheWorld.clock e.1.company e.1.user e.1.unit) := by
  intro w e he hepochs
  have hw : w.Inv :=
    run_invariant_of (RaceWorld.Inv.init h clock) hrun fun _ _ hw ha => hw.step ha
  obtain ⟨t, ht, hids⟩ := (hw.held _ (.inl ⟨e, he, rfl⟩)).current hepochs
  exact ⟨t, ht, hids, fun hexp x => (hids x).trans (scopeIds_unexpired ht hexp e.1.unit x)⟩

/-- A group that reads one unit, with the members `members`. -/
def groupReads (members : List GroupMember) : AclDb where
  org := ⟨[{ id := 1, name := "Acme", slug := "acme" }], [⟨10, 1, none, .root, "hq", "HQ"⟩],
    [⟨1, 10, 10, 0⟩], false⟩
  users := [{ id := 100, companyId := 1 }]
  groups := [⟨300, 1⟩]
  groupMembers := members
  memberships := [⟨200, 1, none, some 300, 10, .viewer, .selfOnly, none, 0, none⟩]

/-- The group loses its membership while a user joins; the resolver reads between the commits. -/
def joinWhileRevoked : List RaceAction :=
  [.writeGroupMember (.insert ⟨1, 300, 100⟩), .bumpMember, .writeMembership (.delete 200),
    .bumpPrincipal, .endGroupMember true, .cache (.call ⟨1, 100, 10⟩), .cache (.redisGet 0 true),
    .cache (.resolve 0 0 true), .cache (.stamp 0), .cache (.redisSet 0 true), .endMembership true]

theorem revoked_scope_stays_cached :
    let w := run RaceWorld.step (RaceWorld.init (groupReads []) 0) joinWhileRevoked
    w.membershipTx = none ∧ w.groupMemberTx = none ∧ ∃ e ∈ w.cacheWorld.cache,
      epochs w.db e.1.company e.1.user = some (e.2.accessEpoch, e.2.scopeEpoch) ∧
      10 ∈ e.2.orgUnitIds ∧ ∀ t, 10 ∉ scopeIds w.db t e.1.company e.1.user e.1.unit := by
  refine ⟨by decide, by decide, (⟨1, 100, 10⟩, ⟨[10], 1, 2, 300000⟩),
    by decide, by decide, by decide, fun t hmem => ?_⟩
  obtain ⟨m, hm, -⟩ := mem_scopeIds.mp hmem
  have hnone : (run RaceWorld.step (RaceWorld.init (groupReads []) 0) joinWhileRevoked).db.memberships
      = [] := by decide
  have hin := (mem_readerMemberships.mp hm).1
  rw [hnone] at hin
  cases hin

/-- The same revocation for a user who was a member before: the trigger bumps the user. -/
def memberRevoked : List RaceAction :=
  [.writeMembership (.delete 200), .bumpPrincipal, .cache (.call ⟨1, 100, 10⟩),
    .cache (.redisGet 0 true), .cache (.resolve 0 0 true), .cache (.stamp 0),
    .cache (.redisSet 0 true), .bumpRow (1, 100), .endMembership true,
    .cache (.call ⟨1, 100, 10⟩), .cache (.redisGet 1 true), .cache (.validate 1 true),
    .cache (.resolve 1 0 true), .cache (.stamp 1), .cache (.redisSet 1 true)]

theorem memberRevoked_unmissed :
    Along RaceWorld.step RaceWorld.QueriesUnmissed (RaceWorld.init (groupReads [⟨1, 300, 100⟩]) 0)
      memberRevoked := by
  refine ⟨trivial, trivial, trivial, trivial, ?_, trivial, trivial, trivial, trivial, trivial,
    trivial, trivial, ?_, trivial, trivial, trivial⟩
  · rintro call hcall ⟨tx, htx, -, hnot⟩
    cases hcall
    cases htx
    exact hnot (.inr (.inl (by decide)))
  · rintro call - ⟨tx, htx, -⟩
    cases htx

theorem member_scope_revoked :
    let w := run RaceWorld.step (RaceWorld.init (groupReads [⟨1, 300, 100⟩]) 0) memberRevoked
    (⟨1, 100, 10⟩, ⟨[], 1, 2, 300000⟩) ∈ w.cacheWorld.cache ∧
      ∃ t, t ≤ w.cacheWorld.clock ∧ ∀ x, x ∈ ([] : List Uuid) ↔ x ∈ scopeIds w.db t 1 100 10 := by
  have hok : (groupReads [⟨1, 300, 100⟩]).PrincipalOk := by
    intro m hm
    obtain rfl := List.mem_singleton.mp hm
    decide
  have hmem : ((⟨1, 100, 10⟩, ⟨[], 1, 2, 300000⟩) : ScopeKey × CachedScopeDto) ∈
      (run RaceWorld.step (RaceWorld.init (groupReads [⟨1, 300, 100⟩]) 0)
        memberRevoked).cacheWorld.cache := by decide
  obtain ⟨t, ht, hids, -⟩ := scopeCache_exact_of_unmissed hok 0 memberRevoked memberRevoked_unmissed
    _ hmem (by decide)
  exact ⟨hmem, t, ht, hids⟩

end Wikore
