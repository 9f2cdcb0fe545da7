import Wikore.Org.Closure
import Wikore.Lib.Transition
import Mathlib.Data.Fintype.Basic

/-! Concurrent transactions on the tree of one company under READ COMMITTED, each of which inserts a
unit or calls `move_org_unit`.  A transaction takes its steps between those of the others: it sees the
committed tables at the start of each statement, with its own changes, and waits for the row locks,
foreign-key locks, index entries and deleted rows that the others hold. -/

namespace Wikore

inductive TreeEdit
  | insertOrgUnit (id : Uuid) (parentId : Option Uuid) (type : OrgUnitType) (slug name : String)
  | moveOrgUnit (node newParent : Uuid)
deriving DecidableEq, Repr

/-- How far a transaction is.  `deleting` holds the rows that step 1 of `move_org_unit` found and has
not yet deleted, `linking` the rows that an `INSERT INTO org_unit_closure` is about to add, and
`referencing` the units whose foreign keys are not yet checked for the rows added.  `returned` is a
move with nothing to do. -/
inductive EditPhase
  | started
  | nodeLocked | parentLocked | compared | checked | deleting (rest : List ClosureRow)
  | unitInserted | parentReferenced | bumped | selfLinked
  | linking (rows : List ClosureRow)
  | referencing (rest : List Uuid)
  | reparented
  | returned | ready | committed | aborted
deriving DecidableEq, Repr

/-- A transaction with its locks on rows of `org_units`, its lock on the row of the company, and the
changes that it has made. -/
structure Edit where
  op : TreeEdit
  phase : EditPhase
  forUpdate : List Uuid
  keyShare : List Uuid
  epoch : Bool
  deleted : List ClosureRow
  inserted : List ClosureRow
  added : Option OrgUnit
  reparented : Bool
deriving DecidableEq, Repr

/-- A transaction without locks and changes. -/
def Edit.blank (op : TreeEdit) (phase : EditPhase) : Edit :=
  ⟨op, phase, [], [], false, [], [], none, false⟩

/-- The rows that step 1 of `move_org_unit` deletes. -/
def oldLinks (db : OrgDb) (c n : Uuid) : List ClosureRow :=
  let subtree := (descendantRows db c n).map ClosureRow.descendantId
  db.closure.filter fun r => r.companyId = c ∧ r.descendantId ∈ subtree ∧ r.ancestorId ∉ subtree

/-- The tables with the unit `n` hung under `q`. -/
def reparentUnit (c n q : Uuid) (db : OrgDb) : OrgDb :=
  match db.findUnit c n with
  | some u => reparent u q db
  | none => db

/-- What the transaction sees of the committed tables `db`. -/
def Edit.view (c : Uuid) (db : OrgDb) (t : Edit) : OrgDb :=
  let db1 := { db with orgUnits := db.orgUnits ++ t.added.toList }
  let db2 :=
    match t.op with
    | .moveOrgUnit n q => if t.reparented then reparentUnit c n q db1 else db1
    | .insertOrgUnit .. => db1
  let db3 := if t.epoch then bumpAclEpoch c 1 db2 else db2
  { db3 with closure := db.closure.filter (· ∉ t.deleted) ++ t.inserted }

structure EditWorld (ι : Type) where
  db : OrgDb
  tx : ι → Edit

/-- `advance` takes the next step of a transaction; `k` picks the row where it has a choice. -/
inductive EditAction (ι : Type)
  | advance (i : ι) (k : Nat)
  | commit (i : ι)
  | abort (i : ι)
deriving DecidableEq, Repr

namespace EditWorld

variable {ι : Type} [DecidableEq ι] [Fintype ι] (c : Uuid) (w : EditWorld ι) (i : ι)

/-! ### What the others hold -/

/-- Another transaction has the row locked for update. -/
def HeldForUpdate (x : Uuid) : Prop := ∃ j, j ≠ i ∧ x ∈ (w.tx j).forUpdate

/-- Another transaction has the row locked in any mode. -/
def Held (x : Uuid) : Prop := ∃ j, j ≠ i ∧ (x ∈ (w.tx j).forUpdate ∨ x ∈ (w.tx j).keyShare)

/-- Another transaction has updated the row of the company. -/
def EpochHeld : Prop := ∃ j, j ≠ i ∧ (w.tx j).epoch = true

/-- Another transaction has deleted the row. -/
def RowDeleted (r : ClosureRow) : Prop := ∃ j, j ≠ i ∧ r ∈ (w.tx j).deleted

/-- Another transaction has deleted or added a row with the key of `r`. -/
def LinkPending (r : ClosureRow) : Prop :=
  ∃ j, j ≠ i ∧ ∃ s ∈ (w.tx j).deleted ++ (w.tx j).inserted, s.key = r.key

/-- Another transaction has added or changed a row of `org_units` which meets `p` before or after. -/
def UnitPending (p : OrgUnit → Bool) : Prop :=
  ∃ j, j ≠ i ∧
    ((∃ u ∈ ((w.tx j).view c w.db).orgUnits, u ∉ w.db.orgUnits ∧ p u = true) ∨
      ∃ u ∈ w.db.orgUnits, u ∉ ((w.tx j).view c w.db).orgUnits ∧ p u = true)

instance (x : Uuid) : Decidable (w.HeldForUpdate i x) :=
  inferInstanceAs (Decidable (∃ j, j ≠ i ∧ _))

instance (x : Uuid) : Decidable (w.Held i x) := inferInstanceAs (Decidable (∃ j, j ≠ i ∧ _))

instance : Decidable (w.EpochHeld i) := inferInstanceAs (Decidable (∃ j, j ≠ i ∧ _))

instance (r : ClosureRow) : Decidable (w.RowDeleted i r) :=
  inferInstanceAs (Decidable (∃ j, j ≠ i ∧ _))

instance (r : ClosureRow) : Decidable (w.LinkPending i r) :=
  inferInstanceAs (Decidable (∃ j, j ≠ i ∧ ∃ s ∈ _, _))

instance (p : OrgUnit → Bool) : Decidable (w.UnitPending c i p) :=
  inferInstanceAs (Decidable (∃ j, j ≠ i ∧ _))

/-! ### The steps of a transaction

Each gives the transaction afterwards: itself where it has to wait, an aborted one where it raises. -/

/-- The foreign-key check of a reference to the unit `x`. -/
def reference (x : Uuid) (next : EditPhase) : Edit :=
  let t := w.tx i
  if ¬(t.view c w.db).HasUnit c x then .blank t.op .aborted
  else if w.HeldForUpdate i x then t
  else { t with keyShare := x :: t.keyShare, phase := next }

/-- The trigger `org_units_acl_epoch_bump`. -/
def bumpEpoch (next : EditPhase) : Edit :=
  let t := w.tx i
  if w.EpochHeld i then t else { t with epoch := true, phase := next }

/-- The rows of an `INSERT INTO org_unit_closure` go in, and their references are to be checked. -/
def link (rows : List ClosureRow) : Edit :=
  let t := w.tx i
  if ∃ r ∈ rows, w.LinkPending i r then t
  else if ∃ r ∈ rows, int4Max < r.depth ∨ ∃ s ∈ (t.view c w.db).closure, s.key = r.key then
    .blank t.op .aborted
  else
    { t with
      inserted := t.inserted ++ rows
      phase := .referencing (rows.flatMap fun r => [r.ancestorId, r.descendantId]) }

/-- `INSERT INTO org_units`: the row, the foreign key on the parent, the epoch, the closure. -/
def advanceInsert (u : OrgUnit) (k : Nat) : Edit :=
  let t := w.tx i
  match t.phase with
  | .started =>
    let clashes := fun v : OrgUnit => v.id = u.id ∨ slugKey v = slugKey u ∨
      (u.type = .root ∧ v.companyId = u.companyId ∧ v.type = .root)
    if w.UnitPending c i clashes then t
    else if ¬rootParentShape u ∨ (∃ v ∈ w.db.orgUnits, clashes v) ∨ ¬w.db.HasCompany c then
      .blank t.op .aborted
    else { t with added := some u, phase := .unitInserted }
  | .unitInserted =>
    match u.parentId with
    | none => { t with phase := .parentReferenced }
    | some p => w.reference c i p .parentReferenced
  | .parentReferenced => w.bumpEpoch i .bumped
  | .bumped =>
    -- the self-entry refers to the new row, which no other transaction sees
    { t with inserted := [⟨c, u.id, u.id, 0⟩], phase := .selfLinked }
  | .selfLinked =>
    match u.parentId with
    | none => { t with phase := .ready }
    | some p => { t with phase := .linking ((ancestorRows (t.view c w.db) c p).map fun r =>
        ⟨c, r.ancestorId, u.id, r.depth + 1⟩) }
  | .linking rows => w.link c i rows
  | .referencing rest =>
    match rest[k]? with
    | some x => w.reference c i x (.referencing (rest.eraseIdx k))
    | none => if rest = [] then { t with phase := .ready } else t
  | _ => t

/-- `move_org_unit`. -/
def advanceMove (n q : Uuid) (k : Nat) : Edit :=
  let t := w.tx i
  match t.phase with
  | .started =>
    match w.db.findUnit c n with
    | none => .blank t.op .aborted
    | some u =>
      if w.Held i n then t
      else if u.type = .root then .blank t.op .aborted
      else { t with forUpdate := n :: t.forUpdate, phase := .nodeLocked }
  | .nodeLocked =>
    if ¬w.db.HasUnit c q then .blank t.op .aborted
    else if w.Held i q then t
    else if n = q then .blank t.op .aborted
    else { t with forUpdate := q :: t.forUpdate, phase := .parentLocked }
  | .parentLocked =>
    { t with phase := if w.db.parentOf c n = some q then .returned else .compared }
  | .compared =>
    if ∃ r ∈ w.db.closure, r.companyId = c ∧ r.ancestorId = n ∧ r.descendantId = q ∧ 0 < r.depth then
      .blank t.op .aborted
    else { t with phase := .checked }
  | .checked => { t with phase := .deleting (oldLinks w.db c n) }
  | .deleting rest =>
    match rest[k]? with
    | some r =>
      if w.RowDeleted i r then t
      else { t with deleted := r :: t.deleted, phase := .deleting (rest.eraseIdx k) }
    | none =>
      if rest = [] then { t with phase := .linking (newLinks (t.view c w.db) c n q) } else t
  | .linking rows => w.link c i rows
  | .referencing rest =>
    match rest[k]? with
    | some x => w.reference c i x (.referencing (rest.eraseIdx k))
    | none =>
      if rest ≠ [] then t
      else
        match w.db.findUnit c n with
        | none => .blank t.op .aborted
        | some u =>
          let v := { u with parentId := some q }
          if w.UnitPending c i fun x => slugKey x = slugKey v then t
          else if ∃ x ∈ w.db.orgUnits, x ≠ u ∧ slugKey x = slugKey v then .blank t.op .aborted
          else { t with reparented := true, phase := .reparented }
  | .reparented => w.bumpEpoch i .ready
  | _ => t

def advance (k : Nat) : Edit :=
  match (w.tx i).op with
  | .insertOrgUnit id parentId type slug name =>
    w.advanceInsert c i ⟨id, c, parentId, type, slug, name⟩ k
  | .moveOrgUnit n q => w.advanceMove c i n q k

/-- A `DELETE` skips the rows that another transaction has deleted and committed. -/
def skipDeleted (t : Edit) (gone : List ClosureRow) : Edit :=
  match t.phase with
  | .deleting rest => { t with phase := .deleting (rest.filter (· ∉ gone)) }
  | _ => t

def commit : EditWorld ι :=
  let t := w.tx i
  if t.phase = .ready ∨ t.phase = .returned then
    { db := t.view c w.db
      tx := fun j => if j = i then .blank t.op .committed else skipDeleted (w.tx j) t.deleted }
  else w

/-- A failed statement, a deadlock, a rollback. -/
def abort : EditWorld ι :=
  if (w.tx i).phase = .committed then w
  else { w with tx := Function.update w.tx i (.blank (w.tx i).op .aborted) }

def step (w : EditWorld ι) : EditAction ι → EditWorld ι
  | .advance i k => { w with tx := Function.update w.tx i (w.advance c i k) }
  | .commit i => w.commit c i
  | .abort i => w.abort i

/-- The transactions begin on the tables `db`. -/
def init (db : OrgDb) (edits : ι → TreeEdit) : EditWorld ι :=
  ⟨db, fun i => .blank (edits i) .started⟩

end EditWorld

end Wikore
