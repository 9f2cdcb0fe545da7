import Wikore.Access.Visibility
import Wikore.Lib.Stamp

/-! The tables behind a reader's scope, the transactions that change them with the triggers of V032
that bump the epochs, and the query of `PostgresAccessResolver::resolve`. -/

namespace Wikore

open Statement

/-- A row of `users`; `scope_epoch` is the column V032 adds. -/
structure User where
  id : Uuid
  companyId : Uuid
  scopeEpoch : Nat := 1
deriving DecidableEq, Repr

structure Group where
  id : Uuid
  companyId : Uuid
deriving DecidableEq, Repr

structure GroupMember where
  companyId : Uuid
  groupId : Uuid
  userId : Uuid
deriving DecidableEq, Repr

structure Membership where
  id : Uuid
  companyId : Uuid
  userId : Option Uuid
  groupId : Option Uuid
  orgUnitId : Uuid
  role : Role
  appliesTo : AppliesTo
  grantedBy : Option Uuid
  grantedAt : Nat
  expiresAt : Option Nat
deriving DecidableEq, Repr

structure AclDb where
  org : OrgDb
  users : List User
  groups : List Group
  groupMembers : List GroupMember
  memberships : List Membership
deriving DecidableEq, Repr

abbrev AclStmt := EStateM PgError AclDb

/-! ### The epoch triggers -/

/-- `UPDATE users SET scope_epoch = scope_epoch + 1 WHERE p`. -/
def bumpScopeEpoch (p : User → Bool) (db : AclDb) : AclDb :=
  { db with
    users := db.users.map fun u => if p u then { u with scopeEpoch := u.scopeEpoch + 1 } else u }

def groupUsers (db : AclDb) (c g : Uuid) : List Uuid :=
  (db.groupMembers.filter fun gm => gm.companyId = c ∧ gm.groupId = g).map GroupMember.userId

/-- `wikore_bump_membership_principal(p_company, p_user, p_group)`. -/
def bumpMembershipPrincipal (c : Uuid) (user group : Option Uuid) (db : AclDb) : AclDb :=
  match user, group with
  | some u, _ => bumpScopeEpoch (fun x => x.companyId = c ∧ x.id = u) db
  | none, some g => bumpScopeEpoch (fun x => x.companyId = c ∧ x.id ∈ groupUsers db c g) db
  | none, none => db

def bumpMembership (m : Membership) (db : AclDb) : AclDb :=
  bumpMembershipPrincipal m.companyId m.userId m.groupId db

def bumpGroupMember (gm : GroupMember) (db : AclDb) : AclDb :=
  bumpScopeEpoch (fun x => x.companyId = gm.companyId ∧ x.id = gm.userId) db

/-! ### Statements -/

namespace AclDb

def HasUser (db : AclDb) (c u : Uuid) : Prop := ∃ x ∈ db.users, x.companyId = c ∧ x.id = u

def HasGroup (db : AclDb) (c g : Uuid) : Prop := ∃ x ∈ db.groups, x.companyId = c ∧ x.id = g

instance (db : AclDb) (c u : Uuid) : Decidable (db.HasUser c u) :=
  inferInstanceAs (Decidable (∃ x ∈ db.users, _))

instance (db : AclDb) (c g : Uuid) : Decidable (db.HasGroup c g) :=
  inferInstanceAs (Decidable (∃ x ∈ db.groups, _))

end AclDb

/-- The checks on a row that is written to `memberships`, beside the rows `others`. -/
def checkMembership (m : Membership) (others : List Membership) : AclStmt Unit := do
  let db ← get
  raiseIf (∃ a ∈ m.grantedBy, ¬db.HasUser m.companyId a)
    (.raised ("actor field \"granted_by\" user " ++ (m.grantedBy.map Uuid.text).getD "" ++
      " does not belong to company " ++ Uuid.text m.companyId))
  raiseIf (m.userId.isSome = m.groupId.isSome) (.checkViolation "memberships_exactly_one_principal")
  raiseIf (∃ e ∈ m.expiresAt, e ≤ m.grantedAt)
    (.checkViolation "memberships_expires_after_granted_chk")
  raiseIf (∃ x ∈ others, x.id = m.id) (.uniqueViolation "memberships_pkey")
  raiseIf (m.userId.isSome ∧ ∃ x ∈ others, x.companyId = m.companyId ∧ x.userId = m.userId ∧
    x.orgUnitId = m.orgUnitId) (.uniqueViolation "memberships_user_org_uidx")
  raiseIf (m.groupId.isSome ∧ ∃ x ∈ others, x.companyId = m.companyId ∧ x.groupId = m.groupId ∧
    x.orgUnitId = m.orgUnitId) (.uniqueViolation "memberships_group_org_uidx")
  raiseIf (∃ u ∈ m.userId, ¬db.HasUser m.companyId u)
    (.foreignKeyViolation "memberships_user_same_company_fk")
  raiseIf (∃ g ∈ m.groupId, ¬db.HasGroup m.companyId g)
    (.foreignKeyViolation "memberships_group_same_company_fk")
  raiseIf (¬db.org.HasUnit m.companyId m.orgUnitId)
    (.foreignKeyViolation "memberships_org_unit_same_company_fk")

def insertMembership (m : Membership) : AclStmt Unit := do
  let db ← get
  checkMembership m db.memberships
  modify fun db => { db with memberships := db.memberships ++ [m] }
  modify (bumpMembership m)

/-- `UPDATE memberships SET ... WHERE id = x`; `m` is the new row. -/
def updateMembership (x : Uuid) (m : Membership) : AclStmt Unit := do
  let db ← get
  match db.memberships.find? fun o => o.id = x with
  | none => pure ()
  | some old =>
    checkMembership m (db.memberships.filter (· ≠ old))
    modify fun db =>
      { db with memberships := db.memberships.map fun o => if o = old then m else o }
    modify (bumpMembership old)
    modify (bumpMembership m)

def deleteMembership (x : Uuid) : AclStmt Unit := do
  let db ← get
  match db.memberships.find? fun o => o.id = x with
  | none => pure ()
  | some old =>
    modify fun db => { db with memberships := db.memberships.filter (· ≠ old) }
    modify (bumpMembership old)

/-- The checks on a row that is written to `group_members`, beside the rows `others`. -/
def checkGroupMember (gm : GroupMember) (others : List GroupMember) : AclStmt Unit := do
  let db ← get
  raiseIf (gm ∈ others) (.uniqueViolation "group_members_pkey")
  raiseIf (¬db.HasGroup gm.companyId gm.groupId)
    (.foreignKeyViolation "group_members_group_same_company_fk")
  raiseIf (¬db.HasUser gm.companyId gm.userId)
    (.foreignKeyViolation "group_members_user_same_company_fk")

def insertGroupMember (gm : GroupMember) : AclStmt Unit := do
  let db ← get
  checkGroupMember gm db.groupMembers
  modify fun db => { db with groupMembers := db.groupMembers ++ [gm] }
  modify (bumpGroupMember gm)

def updateGroupMember (old new : GroupMember) : AclStmt Unit := do
  let db ← get
  if old ∈ db.groupMembers then
    checkGroupMember new (db.groupMembers.filter (· ≠ old))
    modify fun db =>
      { db with groupMembers := db.groupMembers.map fun o => if o = old then new else o }
    modify (bumpGroupMember old)
    modify (bumpGroupMember new)
  else pure ()

def deleteGroupMember (gm : GroupMember) : AclStmt Unit := do
  let db ← get
  if gm ∈ db.groupMembers then
    modify fun db => { db with groupMembers := db.groupMembers.filter (· ≠ gm) }
    modify (bumpGroupMember gm)
  else pure ()

/-- Deletes rows of `group_members`, as a cascade does, with the trigger of each row. -/
def cascadeGroupMembers (p : GroupMember → Bool) (db : AclDb) : AclDb :=
  (db.groupMembers.filter p).foldl (fun db gm => bumpGroupMember gm db)
    { db with groupMembers := db.groupMembers.filter fun gm => !p gm }

/-- Deletes rows of `memberships`, as a cascade does, with the trigger of each row. -/
def cascadeMemberships (p : Membership → Bool) (db : AclDb) : AclDb :=
  (db.memberships.filter p).foldl (fun db m => bumpMembership m db)
    { db with memberships := db.memberships.filter fun m => !p m }

/-- `DELETE FROM groups WHERE company_id = c AND id = g`.  The cascade to `group_members` comes
first, so the triggers of the memberships find no member left. -/
def deleteGroup (c g : Uuid) : AclStmt Unit := do
  modify fun db => { db with groups := db.groups.filter fun x => ¬(x.companyId = c ∧ x.id = g) }
  modify (cascadeGroupMembers fun gm => gm.companyId = c ∧ gm.groupId = g)
  modify (cascadeMemberships fun m => m.companyId = c ∧ m.groupId = some g)

/-- `ON DELETE SET NULL` of `memberships.granted_by`, an update with the trigger of each row. -/
def clearGrantedBy (u : Uuid) (db : AclDb) : AclDb :=
  (db.memberships.filter fun m => m.grantedBy = some u).foldl
    (fun db m => bumpMembership { m with grantedBy := none } (bumpMembership m db))
    { db with memberships := db.memberships.map fun m =>
        if m.grantedBy = some u then { m with grantedBy := none } else m }

/-- `DELETE FROM users WHERE company_id = c AND id = u`.  `restricted` says that a row of another
table refers to the user without a cascade. -/
def deleteUser (c u : Uuid) (restricted : Bool) : AclStmt Unit := do
  raiseIf (restricted = true) (.foreignKeyViolation "knowledge_edges_created_by_same_company_fk")
  modify fun db => { db with users := db.users.filter fun x => ¬(x.companyId = c ∧ x.id = u) }
  modify (cascadeGroupMembers fun gm => gm.companyId = c ∧ gm.userId = u)
  modify (cascadeMemberships fun m => m.companyId = c ∧ m.userId = some u)
  modify (clearGrantedBy u)

/-- A statement on the organisation tables. -/
def onOrg (m : OrgStmt Unit) : AclStmt Unit := fun db =>
  match m db.org with
  | .ok _ org => .ok () { db with org }
  | .error e org => .error e { db with org }

/-- Deletes a unit; the memberships of the units that go are deleted with them. -/
def deleteUnit (c x : Uuid) (restricted : List Uuid) : AclStmt Unit := do
  let before ← get
  onOrg (deleteOrgUnit c x restricted)
  let after ← get
  modify (cascadeMemberships fun m => before.org.HasUnit m.companyId m.orgUnitId ∧
    ¬after.org.HasUnit m.companyId m.orgUnitId)

inductive AclOp
  | insertMembership (m : Membership)
  | updateMembership (x : Uuid) (m : Membership)
  | deleteMembership (x : Uuid)
  | insertGroupMember (gm : GroupMember)
  | updateGroupMember (old new : GroupMember)
  | deleteGroupMember (gm : GroupMember)
  | deleteGroup (c g : Uuid)
  | deleteUser (c u : Uuid) (restricted : Bool)
  | insertOrgUnit (u : OrgUnit)
  | deleteOrgUnit (c x : Uuid) (restricted : List Uuid)
  | moveOrgUnit (c n q : Uuid)
deriving DecidableEq, Repr

def AclOp.statement : AclOp → AclStmt Unit
  | .insertMembership m => Wikore.insertMembership m
  | .updateMembership x m => Wikore.updateMembership x m
  | .deleteMembership x => Wikore.deleteMembership x
  | .insertGroupMember gm => Wikore.insertGroupMember gm
  | .updateGroupMember old new => Wikore.updateGroupMember old new
  | .deleteGroupMember gm => Wikore.deleteGroupMember gm
  | .deleteGroup c g => Wikore.deleteGroup c g
  | .deleteUser c u restricted => Wikore.deleteUser c u restricted
  | .insertOrgUnit u => onOrg (Wikore.insertOrgUnit u)
  | .deleteOrgUnit c x restricted => deleteUnit c x restricted
  | .moveOrgUnit c n q => onOrg (Wikore.moveOrgUnit c n q)

/-- A transaction: its statements in order, and the end of the transaction-local setting. -/
def transaction (ops : List AclOp) : AclStmt Unit := do
  forEach AclOp.statement ops
  modify fun db => { db with org := { db.org with allowMove := false } }

/-! ### The resolver -/

/-- The rows of `memberships` that count for a user: the user's own, and those of the user's
groups. -/
def readerMemberships (db : AclDb) (c u : Uuid) : List Membership :=
  (db.memberships.filter fun m => m.companyId = c ∧ m.userId = some u) ++
    (db.groupMembers.filter fun gm => gm.companyId = c ∧ gm.userId = u).flatMap fun gm =>
      db.memberships.filter fun m => m.companyId = gm.companyId ∧ m.groupId = some gm.groupId

/-- The subquery `base`. -/
def liveMemberships (db : AclDb) (now : Nat) (c u : Uuid) : List Membership :=
  (readerMemberships db c u).filter fun m => unexpired now m.expiresAt

/-- The subquery `scope`: what the memberships cover, below the unit `unit`. -/
def scopeIds (db : AclDb) (now : Nat) (c u unit : Uuid) : List Uuid :=
  ((liveMemberships db now c u).flatMap fun base =>
    (db.org.closure.filter fun sub => sub.companyId = c ∧ sub.ancestorId = base.orgUnitId ∧
      (base.appliesTo = .selfAndDescendants ∨ sub.depth = 0)).flatMap fun sub =>
        (db.org.closure.filter fun scope => scope.companyId = c ∧ scope.ancestorId = unit ∧
          scope.descendantId = sub.descendantId).map fun _ => sub.descendantId).dedup

/-- The subquery `epochs`, which is also the query that validates a cache entry. -/
def epochs (db : AclDb) (c u : Uuid) : Option (Nat × Nat) :=
  match db.org.companies.find? (fun x => x.id = c),
    db.users.find? (fun x => x.companyId = c ∧ x.id = u) with
  | some company, some user => some (company.aclEpoch, user.scopeEpoch)
  | _, _ => none

/-- `min(e)` over a column that may hold `NULL`. -/
def minExpiry : List (Option Nat) → Option Nat
  | [] => none
  | none :: rest => minExpiry rest
  | some e :: rest => some ((minExpiry rest).elim e (min e))

/-- The rows of the resolver's query, with `min_expiry_ms` floored to the millisecond. -/
structure ResolvedRows where
  orgUnitIds : List Uuid
  accessEpoch : Nat
  scopeEpoch : Nat
  minExpiryMs : Option Nat
deriving DecidableEq, Repr

/-- The query of `PostgresAccessResolver::resolve`; no row means that the tenant has no such
user. -/
def resolveQuery (db : AclDb) (now : Nat) (c u unit : Uuid) : Option ResolvedRows :=
  (epochs db c u).map fun e =>
    ⟨scopeIds db now c u unit, e.1, e.2,
      (minExpiry ((liveMemberships db now c u).map Membership.expiresAt)).map (· / 1000)⟩

end Wikore
