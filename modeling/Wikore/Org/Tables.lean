import Wikore.Schema.Types
import Wikore.Lib.Statement

/-! The tables `companies`, `org_units` and `org_unit_closure`, and the statements that change
them: creating a company, inserting, deleting and moving a unit, with the constraints, foreign-key
cascades and triggers of V001, V012 and V032 that read or write these tables. -/

namespace Wikore

open Statement

/-- An error that PostgreSQL reports for a statement. -/
inductive PgError
  | uniqueViolation (constraint : String)
  | checkViolation (constraint : String)
  | foreignKeyViolation (constraint : String)
  | numericValueOutOfRange
  | raised (message : String)
deriving DecidableEq, Repr

/-- A row of `companies`; `acl_epoch` is the column V032 adds. -/
structure Company where
  id : Uuid
  name : String
  slug : String
  aclEpoch : Nat := 1
deriving DecidableEq, Repr

/-- A row of `org_units`. -/
structure OrgUnit where
  id : Uuid
  companyId : Uuid
  parentId : Option Uuid
  type : OrgUnitType
  slug : String
  name : String
deriving DecidableEq, Repr

/-- A row of `org_unit_closure`. -/
structure ClosureRow where
  companyId : Uuid
  ancestorId : Uuid
  descendantId : Uuid
  depth : Nat
deriving DecidableEq, Repr

/-- The organisation tables, and the transaction-local setting `wikore.allow_org_unit_move`. -/
structure OrgDb where
  companies : List Company
  orgUnits : List OrgUnit
  closure : List ClosureRow
  allowMove : Bool
deriving DecidableEq, Repr

namespace OrgDb

/-- A company's row exists. -/
def HasCompany (db : OrgDb) (c : Uuid) : Prop := ∃ co ∈ db.companies, co.id = c

/-- The unit `x` exists in company `c`. -/
def HasUnit (db : OrgDb) (c x : Uuid) : Prop := ∃ u ∈ db.orgUnits, u.companyId = c ∧ u.id = x

instance (db : OrgDb) (c : Uuid) : Decidable (db.HasCompany c) :=
  inferInstanceAs (Decidable (∃ co ∈ db.companies, co.id = c))

instance (db : OrgDb) (c x : Uuid) : Decidable (db.HasUnit c x) :=
  inferInstanceAs (Decidable (∃ u ∈ db.orgUnits, u.companyId = c ∧ u.id = x))

/-- The reference `parent` of a unit of company `c` meets `org_units_parent_same_company_fk`. -/
def ParentExists (db : OrgDb) (c : Uuid) : Option Uuid → Prop
  | none => True
  | some p => db.HasUnit c p

instance (db : OrgDb) (c : Uuid) : (parent : Option Uuid) → Decidable (db.ParentExists c parent)
  | none => inferInstanceAs (Decidable True)
  | some p => inferInstanceAs (Decidable (db.HasUnit c p))

/-- `SELECT ... FROM org_units WHERE company_id = c AND id = x`. -/
def findUnit (db : OrgDb) (c x : Uuid) : Option OrgUnit :=
  db.orgUnits.find? fun u => u.companyId = c ∧ u.id = x

/-- The `parent_id` of the unit `x` of company `c`. -/
def parentOf (db : OrgDb) (c x : Uuid) : Option Uuid := (db.findUnit c x).bind OrgUnit.parentId

end OrgDb

/-- Statements on the organisation tables. -/
abbrev OrgStmt := EStateM PgError OrgDb

/-- The key of `org_units_parent_slug_uidx`; the zero UUID stands for no parent. -/
def slugKey (u : OrgUnit) : Uuid × Uuid × String := (u.companyId, u.parentId.getD 0, u.slug)

/-- `CHECK org_units_root_parent_shape_chk`. -/
def rootParentShape (u : OrgUnit) : Prop :=
  (u.type = .root ∧ u.parentId = none) ∨ (u.type ≠ .root ∧ u.parentId ≠ none)

instance (u : OrgUnit) : Decidable (rootParentShape u) :=
  inferInstanceAs
    (Decidable ((u.type = .root ∧ u.parentId = none) ∨ (u.type ≠ .root ∧ u.parentId ≠ none)))

/-- The largest `INT`. -/
def int4Max : Nat := 2147483647

/-- The primary key of `org_unit_closure`. -/
def ClosureRow.key (r : ClosureRow) : Uuid × Uuid × Uuid :=
  (r.companyId, r.ancestorId, r.descendantId)

/-- Inserts one row into `org_unit_closure`. -/
def insertClosure (r : ClosureRow) : OrgStmt Unit := do
  raiseIf (int4Max < r.depth) .numericValueOutOfRange
  let db ← get
  raiseIf (∃ x ∈ db.closure, x.key = r.key) (.uniqueViolation "org_unit_closure_pkey")
  raiseIf (¬db.HasUnit r.companyId r.ancestorId)
    (.foreignKeyViolation "closure_ancestor_same_company_fk")
  raiseIf (¬db.HasUnit r.companyId r.descendantId)
    (.foreignKeyViolation "closure_descendant_same_company_fk")
  modify fun db => { db with closure := db.closure ++ [r] }

/-- `SELECT ... FROM org_unit_closure WHERE company_id = c AND descendant_id = x`. -/
def ancestorRows (db : OrgDb) (c x : Uuid) : List ClosureRow :=
  db.closure.filter fun r => r.companyId = c ∧ r.descendantId = x

/-- `SELECT ... FROM org_unit_closure WHERE company_id = c AND ancestor_id = x`. -/
def descendantRows (db : OrgDb) (c x : Uuid) : List ClosureRow :=
  db.closure.filter fun r => r.companyId = c ∧ r.ancestorId = x

/-- The trigger function `org_unit_closure_on_insert`. -/
def orgUnitClosureOnInsert (u : OrgUnit) : OrgStmt Unit := do
  insertClosure ⟨u.companyId, u.id, u.id, 0⟩
  match u.parentId with
  | none => pure ()
  | some p =>
    let db ← get
    forEach insertClosure ((ancestorRows db u.companyId p).map fun r =>
      ⟨u.companyId, r.ancestorId, u.id, r.depth + 1⟩)

/-- `UPDATE companies SET acl_epoch = acl_epoch + 1 WHERE id = c`, once per changed unit. -/
def bumpAclEpoch (c : Uuid) (times : Nat) (db : OrgDb) : OrgDb :=
  { db with companies := db.companies.map fun co =>
      if co.id = c then { co with aclEpoch := co.aclEpoch + times } else co }

/-- `INSERT INTO org_units`.  The foreign key on the parent is checked after the row is in the
table, so a row that names itself as its parent passes it. -/
def insertOrgUnit (u : OrgUnit) : OrgStmt Unit := do
  let db ← get
  raiseIf (¬rootParentShape u) (.checkViolation "org_units_root_parent_shape_chk")
  raiseIf (∃ v ∈ db.orgUnits, v.id = u.id) (.uniqueViolation "org_units_pkey")
  raiseIf (∃ v ∈ db.orgUnits, slugKey v = slugKey u) (.uniqueViolation "org_units_parent_slug_uidx")
  raiseIf (u.type = .root ∧ ∃ v ∈ db.orgUnits, v.companyId = u.companyId ∧ v.type = .root)
    (.uniqueViolation "org_units_one_root_per_company_uidx")
  raiseIf (¬db.HasCompany u.companyId) (.foreignKeyViolation "org_units_company_id_fkey")
  modify fun db => { db with orgUnits := db.orgUnits ++ [u] }
  let db ← get
  raiseIf (¬db.ParentExists u.companyId u.parentId)
    (.foreignKeyViolation "org_units_parent_same_company_fk")
  modify (bumpAclEpoch u.companyId 1)
  orgUnitClosureOnInsert u

/-- `INSERT INTO companies`, whose trigger `create_root_org_unit_for_company` inserts the root unit
under the generated id `rootId`. -/
def createCompany (id : Uuid) (name slug : String) (rootId : Uuid) : OrgStmt Unit := do
  let db ← get
  raiseIf (∃ co ∈ db.companies, co.id = id) (.uniqueViolation "companies_pkey")
  raiseIf (∃ co ∈ db.companies, co.slug = slug) (.uniqueViolation "companies_slug_key")
  modify fun db => { db with companies := db.companies ++ [{ id, name, slug }] }
  insertOrgUnit ⟨rootId, id, none, .root, "root", name⟩

/-- The rows that `ON DELETE CASCADE` of `org_units_parent_same_company_fk` deletes after the units
`gone` of company `c`: the rows hung under them, the rows hung under those, and so on. -/
def cascade (c : Uuid) : Nat → List Uuid → List OrgUnit → List OrgUnit
  | 0, _, _ => []
  | fuel + 1, gone, units =>
    let hit := units.filter fun u => u.companyId = c ∧ u.parentId ∈ gone.map some
    if hit = [] then []
    else hit ++ cascade c fuel (hit.map OrgUnit.id) (units.filter fun u => u ∉ hit)

/-- `DELETE FROM org_units WHERE company_id = c AND id = x`.  `restricted` holds the units that
rows of other tables reference without `ON DELETE CASCADE`. -/
def deleteOrgUnit (c x : Uuid) (restricted : List Uuid) : OrgStmt Unit := do
  let db ← get
  match db.findUnit c x with
  | none => pure ()
  | some u =>
    raiseIf (u.type = .root ∧ db.HasCompany u.companyId)
      (.raised ("Cannot delete root org_unit for company " ++ Uuid.text u.companyId))
    let others := db.orgUnits.filter (· ≠ u)
    let deleted := u :: cascade c others.length [x] others
    raiseIf (∃ v ∈ deleted, v.id ∈ restricted)
      (.foreignKeyViolation "documents_owner_same_company_fk")
    modify fun db =>
      { db with
        orgUnits := db.orgUnits.filter (· ∉ deleted)
        closure := db.closure.filter fun r =>
          ¬∃ v ∈ deleted, v.companyId = r.companyId ∧ (v.id = r.ancestorId ∨ v.id = r.descendantId) }
    modify (bumpAclEpoch c deleted.length)

/-- `UPDATE org_units SET parent_id = parent WHERE company_id = c AND id = x`, with the guard
trigger `prevent_org_unit_parent_update` of V012 and the epoch trigger of V032. -/
def updateParentId (c x : Uuid) (parent : Option Uuid) : OrgStmt Unit := do
  let db ← get
  match db.findUnit c x with
  | none => pure ()
  | some u =>
    let v := { u with parentId := parent }
    raiseIf (u.parentId ≠ parent ∧ db.allowMove = false)
      (.raised "org_unit parent_id cannot be updated directly; use move_org_unit()")
    raiseIf (¬rootParentShape v) (.checkViolation "org_units_root_parent_shape_chk")
    raiseIf (∃ w ∈ db.orgUnits, w ≠ u ∧ slugKey w = slugKey v)
      (.uniqueViolation "org_units_parent_slug_uidx")
    raiseIf (¬db.ParentExists c parent)
      (.foreignKeyViolation "org_units_parent_same_company_fk")
    modify fun db => { db with orgUnits := db.orgUnits.map fun w => if w = u then v else w }
    if u.parentId = parent then pure () else modify (bumpAclEpoch c 1)

/-- Step 1 of `move_org_unit`: the links from outside the subtree of `n` into it go. -/
def deleteOldLinks (c n : Uuid) (db : OrgDb) : OrgDb :=
  let subtree := (descendantRows db c n).map ClosureRow.descendantId
  { db with closure := db.closure.filter fun r =>
      ¬(r.companyId = c ∧ r.descendantId ∈ subtree ∧ r.ancestorId ∉ subtree) }

/-- Step 2 of `move_org_unit`: the ancestors of the new parent crossed with the subtree of `n`. -/
def newLinks (db : OrgDb) (c n q : Uuid) : List ClosureRow :=
  (ancestorRows db c q).flatMap fun a =>
    (descendantRows db c n).map fun d => ⟨c, a.ancestorId, d.descendantId, a.depth + d.depth + 1⟩

/-- `move_org_unit(p_company_id, p_node_id, p_new_parent_id)`. -/
def moveOrgUnit (c n q : Uuid) : OrgStmt Unit := do
  let db ← get
  match db.findUnit c n with
  | none => throw (.raised ("org_unit " ++ Uuid.text n ++ " not found in company " ++ Uuid.text c))
  | some node =>
    raiseIf (node.type = .root)
      (.raised ("cannot move root org_unit (company_id=" ++ Uuid.text c ++ ")"))
    raiseIf (¬db.HasUnit c q)
      (.raised ("new parent " ++ Uuid.text q ++ " not found in company " ++ Uuid.text c ++
        " (cross-company moves are not allowed)"))
    raiseIf (n = q) (.raised ("org_unit cannot be moved under itself (" ++ Uuid.text n ++ ")"))
    if node.parentId = some q then pure ()
    else
      raiseIf (∃ r ∈ db.closure,
          r.companyId = c ∧ r.ancestorId = n ∧ r.descendantId = q ∧ 0 < r.depth)
        (.raised ("cycle: " ++ Uuid.text q ++ " is a descendant of " ++ Uuid.text n ++
          " and cannot become its parent"))
      modify (deleteOldLinks c n)
      let db ← get
      forEach insertClosure (newLinks db c n q)
      modify fun db => { db with allowMove := true }
      updateParentId c n (some q)

/-- The statements on the organisation tables, each a transaction of its own. -/
inductive OrgOp
  | createCompany (id : Uuid) (name slug : String) (rootId : Uuid)
  | insertOrgUnit (u : OrgUnit)
  | deleteOrgUnit (c x : Uuid) (restricted : List Uuid)
  | moveOrgUnit (c n q : Uuid)

/-- The statement of an operation; its commit clears the transaction-local setting. -/
def OrgOp.transaction (op : OrgOp) : OrgStmt Unit := do
  match op with
  | .createCompany id name slug rootId => Wikore.createCompany id name slug rootId
  | .insertOrgUnit u => Wikore.insertOrgUnit u
  | .deleteOrgUnit c x restricted => Wikore.deleteOrgUnit c x restricted
  | .moveOrgUnit c n q => Wikore.moveOrgUnit c n q
  modify fun db => { db with allowMove := false }

/-- The tables of a fresh schema. -/
def OrgDb.empty : OrgDb := ⟨[], [], [], false⟩

/-- The tables after a sequence of operations, whether each succeeds or raises. -/
def OrgDb.run (db : OrgDb) (ops : List OrgOp) : OrgDb := execAll db (ops.map OrgOp.transaction)

end Wikore
