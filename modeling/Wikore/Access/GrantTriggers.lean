import Wikore.Access.Visibility
import Wikore.Lib.Query

/-! The changes of `resource_grants` and of the owners of documents, with the triggers of V032 that
bump `acl_version` and enqueue the events for the resync worker. -/

namespace Wikore

open Statement Query

/-- A row of `documents` with the columns that V032 adds. -/
structure DocumentRow extends Document where
  aclVersion : Nat := 1
  qdrantSyncedVersion : Nat := 0
deriving DecidableEq, Repr

structure ResyncPayload where
  documentId : Uuid
  aclVersion : Nat
  reason : String
deriving DecidableEq, Repr

/-- A row of `outbox_events` with the job type `qdrant_resync_chunk_acl`. -/
structure ResyncEvent where
  companyId : Uuid
  aggregateId : Uuid
  payload : ResyncPayload
  idempotencyKey : String
  claimed : Bool := false
  completed : Bool := false
deriving DecidableEq, Repr

structure ResyncDb where
  org : OrgDb
  documents : List DocumentRow
  resourceGrants : List ResourceGrant
  outbox : List ResyncEvent
deriving DecidableEq, Repr

abbrev ResyncStmt := EStateM PgError ResyncDb

namespace ResyncDb

/-- What the queries about access read. -/
def access (db : ResyncDb) : AccessDb :=
  ⟨db.org, db.documents.map DocumentRow.toDocument, db.resourceGrants⟩

def findDocument (db : ResyncDb) (c d : Uuid) : Option DocumentRow :=
  db.documents.find? fun x => x.companyId = c ∧ x.id = d

def HasDocument (db : ResyncDb) (c d : Uuid) : Prop :=
  ∃ x ∈ db.documents, x.companyId = c ∧ x.id = d

instance (db : ResyncDb) (c d : Uuid) : Decidable (db.HasDocument c d) :=
  inferInstanceAs (Decidable (∃ x ∈ db.documents, _))

end ResyncDb

/-! ### The triggers -/

/-- `'resync:' || id || ':' || acl_version`. -/
def resyncKey (document : Uuid) (version : Nat) : String :=
  "resync:" ++ Uuid.text document ++ ":" ++ Nat.repr version

/-- The event that is enqueued for a document with its new version. -/
def resyncEvent (d : DocumentRow) : ResyncEvent :=
  { companyId := d.companyId
    aggregateId := d.id
    payload := ⟨d.id, d.aclVersion, "acl_change"⟩
    idempotencyKey := resyncKey d.id d.aclVersion }

def DocumentRow.bump (d : DocumentRow) : DocumentRow := { d with aclVersion := d.aclVersion + 1 }

/-- The columns of `UNIQUE (company_id, job_type, idempotency_key)` that tell the events apart. -/
def ResyncEvent.uniqueKey (e : ResyncEvent) : Uuid × String := (e.companyId, e.idempotencyKey)

/-- `wikore_bump_docs_and_enqueue(p_company_id, p_document_ids)`. -/
def bumpDocsAndEnqueue (c : Uuid) (ids : Option (List Uuid)) (db : ResyncDb) : ResyncDb :=
  match ids with
  | none | some [] => db
  | some ids =>
    let hit := fun d : DocumentRow => decide (d.companyId = c ∧ d.id ∈ ids)
    { db with
      documents := db.documents.map fun d => if hit d then d.bump else d
      outbox := insertNew ResyncEvent.uniqueKey db.outbox
        ((db.documents.filter hit).map fun d => resyncEvent d.bump) }

/-- `array_agg`, which is `NULL` without rows. -/
def arrayAgg (ids : List Uuid) : Option (List Uuid) := if ids = [] then none else some ids

/-- `wikore_grant_affected_docs(p_company, p_rtype, p_rid, p_applies)`. -/
def grantAffectedDocs (db : ResyncDb) (g : ResourceGrant) : Option (List Uuid) :=
  match g.resourceType with
  | .document => some [g.resourceId]
  | .orgUnit =>
    let subtree := (db.org.closure.filter fun c => c.companyId = g.companyId ∧
      c.ancestorId = g.resourceId ∧
      (g.resourceAppliesTo = .selfAndDescendants ∨ c.depth = 0)).map ClosureRow.descendantId
    arrayAgg ((db.documents.filter fun d => d.companyId = g.companyId ∧
      d.ownerOrgUnitId ∈ subtree).map fun d => d.id)
  | .wikiPage => none

/-- `wikore_grant_acl_bump` for an `INSERT` or a `DELETE` of the grant. -/
def grantAclBump (g : ResourceGrant) (db : ResyncDb) : ResyncDb :=
  bumpDocsAndEnqueue g.companyId (grantAffectedDocs db g) db

/-- `wikore_grant_acl_bump` for an `UPDATE`. -/
def grantAclBumpUpdate (old new : ResourceGrant) (db : ResyncDb) : ResyncDb :=
  if old.companyId = new.companyId then
    bumpDocsAndEnqueue new.companyId (arrayAgg
      (((grantAffectedDocs db old).getD [] ++ (grantAffectedDocs db new).getD []).dedup)) db
  else grantAclBump new (grantAclBump old db)

/-! ### Statements -/

/-- `UNIQUE (company_id, resource_type, resource_id, principal_type, principal_id)`. -/
def ResourceGrant.uniqueKey (g : ResourceGrant) :
    Uuid × ResourceType × Uuid × PrincipalType × Uuid :=
  (g.companyId, g.resourceType, g.resourceId, g.principalType, g.principalId)

/-- `validate_resource_grant_same_company`; `wikiPages` holds the pages with their companies. -/
def validateGrant (wikiPages : List (Uuid × Uuid)) (g : ResourceGrant) : ResyncStmt Unit := do
  let db ← get
  raiseIf (¬db.org.HasUnit g.companyId g.principalId)
    (.raised ("resource_grants: org_unit " ++ Uuid.text g.principalId ++ " not found in company " ++
      Uuid.text g.companyId))
  match g.resourceType with
  | .orgUnit =>
    raiseIf (¬db.org.HasUnit g.companyId g.resourceId)
      (.raised ("resource_grants: org_unit resource " ++ Uuid.text g.resourceId ++
        " not found in company " ++ Uuid.text g.companyId))
  | .document =>
    raiseIf (¬db.HasDocument g.companyId g.resourceId)
      (.raised ("resource_grants: document " ++ Uuid.text g.resourceId ++
        " not found in company " ++ Uuid.text g.companyId))
  | .wikiPage =>
    raiseIf ((g.companyId, g.resourceId) ∉ wikiPages)
      (.raised ("resource_grants: wiki_page " ++ Uuid.text g.resourceId ++
        " not found in company " ++ Uuid.text g.companyId))

/-- The checks on a row that is written to `resource_grants`, beside the rows `others`.  Those on
`granted_by` and `granted_at` are left out: no query here reads these columns. -/
def checkGrant (wikiPages : List (Uuid × Uuid)) (g : ResourceGrant) (others : List ResourceGrant) :
    ResyncStmt Unit := do
  validateGrant wikiPages g
  raiseIf (¬(g.resourceAppliesTo = .selfOnly ∨ g.resourceType = .orgUnit))
    (.checkViolation "rg_resource_applies_to_valid")
  raiseIf (∃ x ∈ others, x.id = g.id) (.uniqueViolation "resource_grants_pkey")
  raiseIf (∃ x ∈ others, x.uniqueKey = g.uniqueKey)
    (.uniqueViolation "resource_grants_company_id_resource_type_resource_id_princi_key")
  let db ← get
  raiseIf (¬db.org.HasCompany g.companyId) (.foreignKeyViolation "resource_grants_company_id_fkey")

def insertGrant (wikiPages : List (Uuid × Uuid)) (g : ResourceGrant) : ResyncStmt Unit := do
  let db ← get
  checkGrant wikiPages g db.resourceGrants
  modify fun db => { db with resourceGrants := db.resourceGrants ++ [g] }
  modify (grantAclBump g)

/-- `UPDATE resource_grants SET ... WHERE id = x`; `g` is the new row. -/
def updateGrant (wikiPages : List (Uuid × Uuid)) (x : Uuid) (g : ResourceGrant) :
    ResyncStmt Unit := do
  let db ← get
  match db.resourceGrants.find? fun o => o.id = x with
  | none => pure ()
  | some old =>
    checkGrant wikiPages g (db.resourceGrants.filter (· ≠ old))
    modify fun db =>
      { db with resourceGrants := db.resourceGrants.map fun o => if o = old then g else o }
    modify (grantAclBumpUpdate old g)

def deleteGrant (x : Uuid) : ResyncStmt Unit := do
  let db ← get
  match db.resourceGrants.find? fun o => o.id = x with
  | none => pure ()
  | some old =>
    modify fun db => { db with resourceGrants := db.resourceGrants.filter (· ≠ old) }
    modify (grantAclBump old)

/-- The row `d` after another owner is set for `old`. -/
def DocumentRow.reassign (old : DocumentRow) (owner : Uuid) (d : DocumentRow) : DocumentRow :=
  if d = old then { d with ownerOrgUnitId := owner } else d

def ResyncDb.setOwner (old : DocumentRow) (owner : Uuid) (db : ResyncDb) : ResyncDb :=
  { db with documents := db.documents.map (DocumentRow.reassign old owner) }

/-- `UPDATE documents SET owner_org_unit_id = owner WHERE company_id = c AND id = x`, with the
trigger `documents_owner_change_acl_bump`. -/
def updateOwner (c x owner : Uuid) : ResyncStmt Unit := do
  let db ← get
  match db.findDocument c x with
  | none => pure ()
  | some old =>
    raiseIf (¬db.org.HasUnit c owner) (.foreignKeyViolation "documents_owner_same_company_fk")
    modify (ResyncDb.setOwner old owner)
    if old.ownerOrgUnitId = owner then pure ()
    else modify (bumpDocsAndEnqueue c (some [x]))

/-- A statement that changes one row. -/
inductive AclChange
  | insertGrant (wikiPages : List (Uuid × Uuid)) (g : ResourceGrant)
  | updateGrant (wikiPages : List (Uuid × Uuid)) (x : Uuid) (g : ResourceGrant)
  | deleteGrant (x : Uuid)
  | updateOwner (c x owner : Uuid)
deriving DecidableEq, Repr

def AclChange.statement : AclChange → ResyncStmt Unit
  | .insertGrant wikiPages g => Wikore.insertGrant wikiPages g
  | .updateGrant wikiPages x g => Wikore.updateGrant wikiPages x g
  | .deleteGrant x => Wikore.deleteGrant x
  | .updateOwner c x owner => Wikore.updateOwner c x owner

end Wikore
