import Wikore.Org.EditLinks
import Wikore.Lib.Select

/-! Concurrent tree edits are isolated: at every moment each transaction has read, deleted and added
what it would have, had it run on the tables that are committed now.  Its own steps keep this because
a statement sees the committed tables.  A commit of another keeps it because of the locks: the new
links of a move refer to the ancestors of the new parent and to the moved subtree, so a move that has
locked its nodes, and an insertion that has the lock on the company, are not affected. -/

namespace Wikore

open Transition ParentForest OrgDb

namespace Edit

/-- No changes. -/
structure Clean (t : Edit) : Prop where
  deleted : t.deleted = []
  inserted : t.inserted = []
  added : t.added = none
  reparented : t.reparented = false
  epoch : t.epoch = false

/-- The reference to the unit is checked, or among those to be checked. -/
def References (t : Edit) (rest : List Uuid) (x : Uuid) : Prop := x ∈ t.keyShare ∨ x ∈ rest

/-- The rows added refer to units that are locked, or whose locks are still to be taken. -/
def Referenced (t : Edit) (rest : List Uuid) : Prop :=
  ∀ r ∈ t.inserted, t.References rest r.ancestorId ∧ t.References rest r.descendantId

/-! ### What a move has done -/

structure NodeLocked (c n : Uuid) (db : OrgDb) (t : Edit) : Prop where
  locked : n ∈ t.forUpdate
  unit : ∃ u ∈ db.orgUnits, u.companyId = c ∧ u.id = n ∧ u.type ≠ .root
  added : t.added = none

structure ParentLocked (c n q : Uuid) (db : OrgDb) (t : Edit) : Prop extends
    NodeLocked c n db t where
  parentLocked : q ∈ t.forUpdate
  parent : db.HasUnit c q
  notSelf : n ≠ q

structure Checked (c n q : Uuid) (db : OrgDb) (t : Edit) : Prop extends
    ParentLocked c n q db t where
  notBelow : ¬Below (db.parentOf c) n q

structure Unlinked (c n q : Uuid) (db : OrgDb) (t : Edit) : Prop extends Checked c n q db t where
  deleted : ∀ r, r ∈ oldLinks db c n ↔ r ∈ t.deleted

structure Linked (c n q : Uuid) (db : OrgDb) (t : Edit) (rest : List Uuid) : Prop extends
    Unlinked c n q db t where
  linked : ∀ r, r ∈ t.inserted ↔ db.NewLink c n q r
  referenced : t.Referenced rest

/-- What a `move_org_unit` has done of its work on `db`. -/
def MoveOk (c n q : Uuid) (db : OrgDb) (t : Edit) : Prop :=
  match t.phase with
  | .started | .returned | .committed | .aborted => t.Clean
  | .nodeLocked => NodeLocked c n db t ∧ t.Clean
  | .parentLocked | .compared => ParentLocked c n q db t ∧ t.Clean
  | .checked => Checked c n q db t ∧ t.Clean
  | .deleting rest => Checked c n q db t ∧ (∀ r, r ∈ oldLinks db c n ↔ r ∈ t.deleted ∨ r ∈ rest) ∧
    t.inserted = [] ∧ t.reparented = false
  | .linking rows => Unlinked c n q db t ∧ (∀ r, r ∈ rows ↔ db.NewLink c n q r) ∧
    t.inserted = [] ∧ t.reparented = false
  | .referencing rest => Linked c n q db t rest ∧ t.reparented = false
  | .reparented => Linked c n q db t [] ∧ t.reparented = true
  | .ready => Linked c n q db t [] ∧ t.reparented = true ∧ t.epoch = true
  | _ => False

/-! ### What an insertion has done -/

structure UnitInserted (u : OrgUnit) (db : OrgDb) (t : Edit) : Prop where
  added : t.added = some u
  deleted : t.deleted = []
  reparented : t.reparented = false
  shape : rootParentShape u
  idFresh : ∀ v ∈ db.orgUnits, v.id ≠ u.id
  rootFresh : u.type = .root → ∀ v ∈ db.orgUnits, v.companyId = u.companyId → v.type ≠ .root
  companyKnown : db.HasCompany u.companyId

structure ParentReferenced (u : OrgUnit) (db : OrgDb) (t : Edit) : Prop extends
    UnitInserted u db t where
  parent : ∀ p ∈ u.parentId, p = u.id ∨ db.HasUnit u.companyId p

structure InsertLinked (u : OrgUnit) (db : OrgDb) (t : Edit) (rest : List Uuid) : Prop extends
    ParentReferenced u db t where
  epoch : t.epoch = true
  notSelf : u.parentId ≠ some u.id
  linked : t.inserted = insertedRows db u
  referenced : ∀ r ∈ t.inserted, r.ancestorId = u.id ∨ t.References rest r.ancestorId

/-- The self-entry. -/
def selfLink (u : OrgUnit) : ClosureRow := ⟨u.companyId, u.id, u.id, 0⟩

/-- What an `INSERT INTO org_units` has done of its work on `db`. -/
def InsertOk (u : OrgUnit) (db : OrgDb) (t : Edit) : Prop :=
  match t.phase with
  | .started | .returned | .committed | .aborted => t.Clean
  | .unitInserted => UnitInserted u db t ∧ t.inserted = []
  | .parentReferenced => ParentReferenced u db t ∧ t.inserted = []
  | .bumped => ParentReferenced u db t ∧ t.inserted = [] ∧ t.epoch = true
  | .selfLinked => ParentReferenced u db t ∧ t.inserted = [selfLink u] ∧ t.epoch = true
  | .linking rows => ParentReferenced u db t ∧ t.inserted = [selfLink u] ∧ t.epoch = true ∧
    ∃ p, u.parentId = some p ∧
      rows = (ancestorRows (t.view u.companyId db) u.companyId p).map fun r =>
        ⟨u.companyId, r.ancestorId, u.id, r.depth + 1⟩
  | .referencing rest => InsertLinked u db t rest
  | .ready => InsertLinked u db t []
  | _ => False

def Ok (c : Uuid) (db : OrgDb) (t : Edit) : Prop :=
  match t.op with
  | .moveOrgUnit n q => MoveOk c n q db t
  | .insertOrgUnit id parentId type slug name =>
    InsertOk ⟨id, c, parentId, type, slug, name⟩ db t

/-- Two transactions hold no conflicting locks and have not written the same rows. -/
structure Compatible (s t : Edit) : Prop where
  update : ∀ x ∈ s.forUpdate, x ∉ t.forUpdate
  share : ∀ x ∈ s.forUpdate, x ∉ t.keyShare
  share' : ∀ x ∈ t.forUpdate, x ∉ s.keyShare
  epoch : s.epoch = true → t.epoch = false
  deleted : ∀ r ∈ s.deleted, r ∉ t.deleted
  added : ∀ u ∈ s.added, ∀ v ∈ t.added, u.id ≠ v.id ∧ (u.type = .root → v.type ≠ .root)

/-! ### What a transaction sees -/

section View

variable {c : Uuid} {db : OrgDb} {t : Edit} {u : OrgUnit}

theorem view_closure : (t.view c db).closure = db.closure.filter (· ∉ t.deleted) ++ t.inserted := rfl

theorem view_orgUnits (h : t.reparented = false) :
    (t.view c db).orgUnits = db.orgUnits ++ t.added.toList := by
  rw [view]
  cases t.op <;> cases t.epoch <;> simp [h]

theorem Clean.view_eq (h : t.Clean) : t.view c db = db := by
  rw [view, h.deleted, h.inserted, h.added, h.reparented, h.epoch]
  cases t.op <;> simp

theorem UnitInserted.view_hasUnit (h : UnitInserted u db t) {x : Uuid} :
    (t.view c db).HasUnit c x ↔ db.HasUnit c x ∨ (u.companyId = c ∧ u.id = x) := by
  rw [HasUnit, view_orgUnits h.reparented, h.added]
  exact addUnit_hasUnit

theorem Unlinked.movable {n q : Uuid} (h : Unlinked c n q db t) (htree : db.TreeOk) :
    ∃ u, u.companyId = c ∧ u.id = n ∧ db.Movable u q := by
  obtain ⟨u, hu, rfl, rfl, hroot⟩ := h.unit
  refine ⟨u, rfl, rfl, hu, hroot, h.parent, h.notSelf, ?_⟩
  rintro ⟨rc, ra, rd, k⟩ hr rfl rfl rfl
  exact absurd ⟨k, ((htree.closureExact ..).mp hr).2⟩ h.notBelow

/-- With the old links deleted, the rows of step 2 are the new links. -/
theorem Unlinked.mem_newLinks {n q : Uuid} (h : Unlinked c n q db t) (htree : db.TreeOk)
    (hins : t.inserted = []) {r : ClosureRow} :
    r ∈ newLinks (t.view c db) c n q ↔ db.NewLink c n q r := by
  obtain ⟨u, rfl, rfl, hm⟩ := h.movable htree
  rw [← mem_newLinks_iff htree hm]
  apply mem_newLinks_congr
  intro s
  rw [view_closure, hins, List.append_nil, mem_deleteOldLinks_iff, List.mem_filter, h.deleted]
  simp

end View

/-! ### References -/

section References

variable {c : Uuid}

theorem clean_blank (op : TreeEdit) (phase : EditPhase) : (Edit.blank op phase).Clean :=
  ⟨rfl, rfl, rfl, rfl, rfl⟩

/-- A checked reference is locked, the others are still to be checked. -/
theorem references_cons {t : Edit} {rest : List Uuid} {k : Nat} {x y : Uuid}
    (hk : rest[k]? = some x) (h : t.References rest y) (next : EditPhase) :
    ({ t with keyShare := x :: t.keyShare, phase := next } : Edit).References (rest.eraseIdx k) y := by
  rcases h with hy | hy
  · exact .inl (List.mem_cons_of_mem x hy)
  · rcases (Select.mem_iff_of_getElem? hk).mp hy with rfl | hy
    · exact .inl List.mem_cons_self
    · exact .inr hy

theorem Linked.reference {n q : Uuid} {t : Edit} {db : OrgDb} {rest : List Uuid} {k : Nat} {x : Uuid}
    (h : Linked c n q db t rest) (hk : rest[k]? = some x) (next : EditPhase) :
    Linked c n q db { t with keyShare := x :: t.keyShare, phase := next } (rest.eraseIdx k) where
  locked := h.locked
  unit := h.unit
  added := h.added
  parentLocked := h.parentLocked
  parent := h.parent
  notSelf := h.notSelf
  notBelow := h.notBelow
  deleted := h.deleted
  linked := h.linked
  referenced r hr := ⟨references_cons hk (h.referenced r hr).1 next,
    references_cons hk (h.referenced r hr).2 next⟩

theorem referenced_flatMap {t : Edit} {rows : List ClosureRow} (hins : t.inserted = rows) :
    t.Referenced (rows.flatMap fun r => [r.ancestorId, r.descendantId]) := by
  intro r hr
  rw [hins] at hr
  constructor
  · exact .inr (List.mem_flatMap.mpr ⟨r, hr, List.mem_cons_self⟩)
  · exact .inr (List.mem_flatMap.mpr ⟨r, hr, List.mem_cons_of_mem _ (List.mem_singleton.mpr rfl)⟩)

theorem InsertLinked.reference {u : OrgUnit} {t : Edit} {db : OrgDb} {rest : List Uuid} {k : Nat}
    {x : Uuid} (h : InsertLinked u db t rest) (hk : rest[k]? = some x) (next : EditPhase) :
    InsertLinked u db { t with keyShare := x :: t.keyShare, phase := next } (rest.eraseIdx k) :=
  { h with
    referenced := fun r hr => (h.referenced r hr).imp_right fun hx => references_cons hk hx next }

/-- The rows that the trigger adds after the self-entry.  Had the unit been its own parent, its
self-entry would be among the rows of its parent, and its key taken. -/
theorem linked_rows {u : OrgUnit} {t : Edit} {db : OrgDb} {p : Uuid} (hdel : t.deleted = [])
    (hins : t.inserted = [selfLink u]) (hpar : u.parentId = some p)
    (hkeys : ∀ r ∈ (ancestorRows (t.view u.companyId db) u.companyId p).map (fun r =>
        (⟨u.companyId, r.ancestorId, u.id, r.depth + 1⟩ : ClosureRow)),
      ∀ s ∈ (t.view u.companyId db).closure, s.key ≠ r.key) :
    p ≠ u.id ∧ t.inserted ++ (ancestorRows (t.view u.companyId db) u.companyId p).map (fun r =>
      (⟨u.companyId, r.ancestorId, u.id, r.depth + 1⟩ : ClosureRow)) = insertedRows db u := by
  have hcl : (t.view u.companyId db).closure = db.closure ++ [selfLink u] := by
    rw [view_closure, hdel, hins]
    simp
  have hself : selfLink u ∈ (t.view u.companyId db).closure := by
    rw [hcl]
    exact List.mem_append_right _ (List.mem_singleton.mpr rfl)
  have hne : p ≠ u.id := by
    rintro rfl
    refine hkeys ⟨u.companyId, u.id, u.id, 1⟩ (List.mem_map.mpr ⟨selfLink u, ?_, rfl⟩) _ hself rfl
    exact List.mem_filter.mpr ⟨hself, by simp [selfLink]⟩
  refine ⟨hne, ?_⟩
  have hrows : ancestorRows (t.view u.companyId db) u.companyId p =
      ancestorRows db u.companyId p := by
    simp [ancestorRows, hcl, selfLink, hne.symm]
  rw [hins, hrows, insertedRows, hpar]
  rfl

end References

/-! ### Locks -/

section Locks

variable {c : Uuid}

theorem moveOk_added {n q : Uuid} {db : OrgDb} {t : Edit} (h : MoveOk c n q db t) :
    t.added = none := by
  rw [MoveOk] at h
  split at h
  case h_1 | h_2 | h_3 | h_4 => exact h.added
  case h_5 | h_6 | h_7 | h_8 => exact h.1.added
  case h_9 | h_10 | h_11 | h_12 | h_13 => exact h.1.added
  case h_14 => exact h.elim

theorem insertOk_added {u v : OrgUnit} {db : OrgDb} {t : Edit} (h : InsertOk u db t)
    (hv : v ∈ t.added) : UnitInserted u db t := by
  rw [InsertOk] at h
  split at h
  case h_1 | h_2 | h_3 | h_4 =>
    rw [h.added] at hv
    cases hv
  case h_5 => exact h.1
  case h_6 | h_7 | h_8 | h_9 => exact h.1.toUnitInserted
  case h_10 | h_11 => exact h.toUnitInserted
  case h_12 => exact h.elim

/-- A unit that a transaction has added is new, and of the company. -/
theorem added_new {db : OrgDb} {t : Edit} (h : t.Ok c db) {v : OrgUnit} (hv : v ∈ t.added) :
    v.companyId = c ∧ v ∈ (t.view c db).orgUnits ∧ v ∉ db.orgUnits := by
  rw [Edit.Ok] at h
  split at h
  next =>
    rw [moveOk_added h] at hv
    cases hv
  next =>
    have hins := insertOk_added h hv
    rw [hins.added] at hv
    cases hv
    refine ⟨rfl, ?_, fun hmem => hins.idFresh _ hmem rfl⟩
    rw [view_orgUnits hins.reparented, hins.added]
    exact List.mem_append_right _ (List.mem_singleton.mpr rfl)

theorem Compatible.symm {s t : Edit} (h : Compatible s t) : Compatible t s where
  update x hx hs := h.update x hs hx
  share := h.share'
  share' := h.share
  epoch ht := by
    by_contra hs
    rw [h.epoch (Bool.not_eq_false _ ▸ hs)] at ht
    cases ht
  deleted r hr hs := h.deleted r hs hr
  added u hu v hv :=
    ⟨fun heq => (h.added v hv u hu).1 heq.symm, fun hr hv' => (h.added v hv u hu).2 hv' hr⟩

theorem Compatible.blank (op : TreeEdit) (phase : EditPhase) (t : Edit) :
    Compatible (.blank op phase) t :=
  ⟨nofun, nofun, fun _ _ => nofun, nofun, nofun, nofun⟩

section Acquire

variable {s t : Edit}

/-- The transaction takes no lock and writes no row that others could. -/
theorem Compatible.of_eq {s' : Edit} (h : Compatible s t) (hu : s'.forUpdate = s.forUpdate)
    (hk : s'.keyShare = s.keyShare) (he : s'.epoch = s.epoch) (hd : s'.deleted = s.deleted)
    (ha : s'.added = s.added) : Compatible s' t := by
  obtain ⟨h1, h2, h3, h4, h5, h6⟩ := h
  rw [← hu] at h1 h2
  rw [← hk] at h3
  rw [← he] at h4
  rw [← hd] at h5
  rw [← ha] at h6
  exact ⟨h1, h2, h3, h4, h5, h6⟩

theorem Compatible.lockForUpdate (h : Compatible s t) {x : Uuid} {next : EditPhase}
    (hu : x ∉ t.forUpdate) (hk : x ∉ t.keyShare) :
    Compatible { s with forUpdate := x :: s.forUpdate, phase := next } t where
  update y hy := by
    rcases List.mem_cons.mp hy with rfl | hy
    · exact hu
    · exact h.update y hy
  share y hy := by
    rcases List.mem_cons.mp hy with rfl | hy
    · exact hk
    · exact h.share y hy
  share' := h.share'
  epoch := h.epoch
  deleted := h.deleted
  added := h.added

theorem Compatible.lockKeyShare (h : Compatible s t) {x : Uuid} {next : EditPhase}
    (hu : x ∉ t.forUpdate) :
    Compatible { s with keyShare := x :: s.keyShare, phase := next } t where
  update := h.update
  share := h.share
  share' y hy := by
    rw [List.mem_cons, not_or]
    exact ⟨fun heq => hu (heq ▸ hy), h.share' y hy⟩
  epoch := h.epoch
  deleted := h.deleted
  added := h.added

end Acquire

end Locks

/-! ### Commits -/

/-- What the tables `db'` that `s` commits are to the others: a unit was moved or inserted, and the
units that its new links refer to are locked. -/
inductive Landed (c : Uuid) (db db' : OrgDb) (s : Edit) : Prop
  | moved {u : OrgUnit} {p : Uuid} (hc : u.companyId = c) (hm : db.Movable u p)
      (hu : db'.orgUnits = (reparent u p db).orgUnits)
      (hdel : ∀ r, r ∈ oldLinks db c u.id ↔ r ∈ s.deleted)
      (hkey : ∀ r, db.NewLink c u.id p r → r.ancestorId ∈ s.keyShare ∧ r.descendantId ∈ s.keyShare)
  | inserted {u : OrgUnit} (hc : u.companyId = c) (hi : db.Insertable u)
      (hu : db'.orgUnits = (addUnit u db).orgUnits) (hadd : u ∈ s.added) (hdel : s.deleted = [])
      (hkey : ∀ p ∈ u.parentId, ∀ k a, db.Reaches c p k a → a ∈ s.keyShare)

structure Lands (c : Uuid) (db db' : OrgDb) (s : Edit) : Prop where
  tree : db'.TreeOk
  company : ∀ c, db.HasCompany c → db'.HasCompany c
  epoch : s.epoch = true
  landed : Landed c db db' s

section Commit

variable {c n q : Uuid} {u : OrgUnit} {db db' : OrgDb} {s t : Edit}

theorem view_hasCompany {x : Uuid} (h : db.HasCompany x) : (t.view c db).HasCompany x := by
  have hrep : ∀ n q (db : OrgDb), (reparentUnit c n q db).companies = db.companies := by
    intro n q db
    rw [reparentUnit]
    split <;> rfl
  have hview : ∀ db' : OrgDb, db'.companies = db.companies →
      (if t.epoch then bumpAclEpoch c 1 db' else db').HasCompany x := by
    intro db' heq
    have h' : db'.HasCompany x := by rwa [HasCompany, heq]
    split
    next => exact (bumpAclEpoch_hasCompany ..).mpr h'
    next => exact h'
  rw [view]
  cases t.op with
  | moveOrgUnit n q =>
    refine hview _ ?_
    dsimp only
    split
    next => rw [hrep]
    next => rfl
  | insertOrgUnit => exact hview _ rfl

/-- A move that commits. -/
theorem Linked.lands (h : Linked c n q db t []) (htree : db.TreeOk) (hop : t.op = .moveOrgUnit n q)
    (hrep : t.reparented = true) (hepoch : t.epoch = true) : Lands c db (t.view c db) t := by
  obtain ⟨u, rfl, rfl, hm⟩ := h.movable htree
  have hunits : (t.view u.companyId db).orgUnits = (reparent u q db).orgUnits := by
    rw [view, hop, hrep, h.added]
    simp [reparentUnit, htree.findUnit_of_mem hm.mem, hepoch]
  refine ⟨?_, fun x => view_hasCompany, hepoch, .moved rfl hm hunits h.deleted fun r hr => ?_⟩
  · refine (htree.move hm).congr_mem hunits (fun r => ?_)
      fun x (hx : db.HasCompany x) => view_hasCompany hx
    rw [view_closure, List.mem_append, movedClosure, List.mem_append, mem_newLinks_iff htree hm,
      mem_deleteOldLinks_iff, List.mem_filter, h.linked, h.deleted]
    simp
  · have href := h.referenced r ((h.linked r).mpr hr)
    exact ⟨href.1.resolve_right List.not_mem_nil, href.2.resolve_right List.not_mem_nil⟩

theorem InsertLinked.insertable (h : InsertLinked u db t []) : db.Insertable u := by
  refine ⟨h.shape, h.idFresh, h.rootFresh, h.companyKnown, ?_⟩
  cases hp : u.parentId with
  | none => trivial
  | some p =>
    rcases h.parent p hp with rfl | hunit
    · exact absurd hp h.notSelf
    · exact hunit

/-- An insertion that commits. -/
theorem InsertLinked.lands (h : InsertLinked u db t []) (htree : db.TreeOk) :
    Lands u.companyId db (t.view u.companyId db) t := by
  have hi := h.insertable
  have hunits : (t.view u.companyId db).orgUnits = (addUnit u db).orgUnits := by
    rw [view_orgUnits h.reparented, h.added]
    rfl
  refine ⟨?_, fun x => view_hasCompany, h.epoch,
    .inserted rfl hi hunits (by rw [h.added]; rfl) h.deleted fun p hp k a hr => ?_⟩
  · refine (htree.insert hi).congr_mem hunits (fun r => ?_)
      fun x (hx : db.HasCompany x) => view_hasCompany hx
    rw [view_closure, h.deleted, h.linked]
    simp
  · have hrow : ⟨u.companyId, a, u.id, k + 1⟩ ∈ t.inserted := by
      rw [h.linked]
      refine mem_insertedRows.mpr ⟨rfl, rfl, .inr ⟨p, k, hp, rfl, ?_⟩⟩
      exact (htree.closureExact ..).mpr hr
    rcases h.referenced _ hrow with hself | href
    · obtain ⟨v, hv, -, hid⟩ := htree.hasUnit_ancestor hr.1 hr.2
      exact absurd (hid.trans hself) (h.idFresh v hv)
    · exact href.resolve_right List.not_mem_nil

/-! ### The commit of another -/

theorem Landed.unit (hl : Landed c db db' s) {v : OrgUnit} (hv : v ∈ db.orgUnits) :
    ∃ v' ∈ db'.orgUnits, v'.companyId = v.companyId ∧ v'.id = v.id ∧ v'.type = v.type := by
  cases hl with
  | @moved u p hc hm hu =>
    rw [hu]
    by_cases hvu : v = u
    · exact ⟨_, (mem_reparent hm.mem).mpr (.inr rfl), by rw [hvu], by rw [hvu], by rw [hvu]⟩
    · exact ⟨v, (mem_reparent hm.mem).mpr (.inl ⟨hv, hvu⟩), rfl, rfl, rfl⟩
  | inserted _ _ hu =>
    rw [hu]
    exact ⟨v, List.mem_append_left _ hv, rfl, rfl, rfl⟩

theorem Landed.hasUnit (hl : Landed c db db' s) {x y : Uuid} (h : db.HasUnit x y) :
    db'.HasUnit x y := by
  obtain ⟨v, hv, hc, hid⟩ := h
  obtain ⟨v', hv', hc', hid', -⟩ := hl.unit hv
  exact ⟨v', hv', hc'.trans hc, hid'.trans hid⟩

theorem NodeLocked.landed (h : NodeLocked c n db t) (hl : Landed c db db' s) :
    NodeLocked c n db' t := by
  obtain ⟨v, hv, hc, hid, hroot⟩ := h.unit
  obtain ⟨v', hv', hc', hid', htype⟩ := hl.unit hv
  exact { h with unit := ⟨v', hv', hc'.trans hc, hid'.trans hid, by rwa [htype]⟩ }

theorem ParentLocked.landed (h : ParentLocked c n q db t) (hl : Landed c db db' s) :
    ParentLocked c n q db' t :=
  { h with
    toNodeLocked := h.toNodeLocked.landed hl
    parent := hl.hasUnit h.parent }

/-- A unit that another transaction has locked for update is not in the moved subtree. -/
theorem not_below_of_free (hc : u.companyId = c) {p x : Uuid} (hm : db.Movable u p)
    (hkey : ∀ r, db.NewLink c u.id p r → r.ancestorId ∈ s.keyShare ∧ r.descendantId ∈ s.keyShare)
    (hx : db.HasUnit c x) (hfree : x ∉ s.keyShare) : ¬Below (db.parentOf c) u.id x := by
  subst hc
  rintro ⟨j, hj⟩
  refine hfree (hkey ⟨u.companyId, p, x, 0 + j + 1⟩ ⟨rfl, 0, j, ?_, ⟨hx, hj⟩, rfl⟩).2
  exact ⟨hm.parentKnown, rfl⟩

/-- Nor is it above the new parent. -/
theorem not_above_of_free (hc : u.companyId = c) {p x : Uuid} (hm : db.Movable u p)
    (hkey : ∀ r, db.NewLink c u.id p r → r.ancestorId ∈ s.keyShare ∧ r.descendantId ∈ s.keyShare)
    (hfree : x ∉ s.keyShare) : ¬Below (db.parentOf c) x p := by
  subst hc
  rintro ⟨i, hi⟩
  refine hfree (hkey ⟨u.companyId, x, u.id, i + 0 + 1⟩ ⟨rfl, i, 0, ⟨hm.parentKnown, hi⟩, ?_, rfl⟩).1
  exact ⟨hasUnit_of_mem hm.mem, rfl⟩

theorem NodeLocked.hasUnit (h : NodeLocked c n db t) : db.HasUnit c n := by
  obtain ⟨v, hv, hc, hid, -⟩ := h.unit
  exact ⟨v, hv, hc, hid⟩

/-- A unit that is not in the tree's root has a parent. -/
theorem NodeLocked.exists_parent (h : NodeLocked c n db t) (htree : db.TreeOk) :
    ∃ x, db.parentOf c n = some x := by
  obtain ⟨v, hv, rfl, rfl, hroot⟩ := h.unit
  rw [htree.parentOf_of_mem hv]
  rcases htree.shape v hv with ⟨hr, -⟩ | ⟨-, hne⟩
  · exact absurd hr hroot
  · exact Option.ne_none_iff_exists'.mp hne

/-- The parent of an inserted unit is not below a unit that is locked for update. -/
theorem parent_not_below {x : Uuid} (hi : db.Insertable u)
    (hkey : ∀ p ∈ u.parentId, ∀ k a, db.Reaches u.companyId p k a → a ∈ s.keyShare)
    (hfree : x ∉ s.keyShare) : ∀ p ∈ u.parentId, ¬Below (db.parentOf u.companyId) x p := by
  rintro p hp ⟨k, hk⟩
  have hunit : db.ParentExists u.companyId u.parentId := hi.parentKnown
  rw [hp] at hunit
  exact hfree (hkey p hp k x ⟨hunit, hk⟩)

theorem Checked.landed (h : Checked c n q db t) (htree : db.TreeOk) (hl : Lands c db db' s)
    (hcomp : Compatible s t) : Checked c n q db' t := by
  refine { h with toParentLocked := h.toParentLocked.landed hl.landed, notBelow := ?_ }
  have hq := hcomp.share' q h.parentLocked
  rcases hl.landed with ⟨rfl, hm, hu, hdel, hkey⟩ | ⟨rfl, hi, hu, -, -, hkey⟩
  · have huq := not_below_of_free rfl hm hkey h.parent hq
    rintro ⟨k, hk⟩
    have hr := (moved_reaches htree hm hu huq).mp ⟨hl.landed.hasUnit h.parent, hk⟩
    exact h.notBelow ⟨k, hr.2⟩
  · rw [inserted_below htree hi hu h.parent]
    exact h.notBelow

/-- What a move has to delete, after the commit of another. -/
theorem Checked.oldLinks_landed (h : Checked c n q db t) (htree : db.TreeOk)
    (hl : Lands c db db' s) (hcomp : Compatible s t) (r : ClosureRow) :
    r ∈ oldLinks db' c n ↔ r ∈ oldLinks db c n ∧ r ∉ s.deleted := by
  have hn := hcomp.share' n h.locked
  rcases hl.landed with ⟨rfl, hm, hu, hdel, hkey⟩ | ⟨rfl, hi, hu, -, hdel, hkey⟩
  · rw [moved_oldLinks htree hm hu hl.tree (not_below_of_free rfl hm hkey h.hasUnit hn)
      (not_above_of_free rfl hm hkey hn), hdel]
  · rw [inserted_oldLinks htree hi hu hl.tree h.hasUnit (parent_not_below hi hkey hn), hdel]
    simp

/-- A move that has deleted its old links next to the other has its subtree apart from that of the
other, so what it has to add is the same. -/
theorem Unlinked.newLink_landed (h : Unlinked c n q db t) (htree : db.TreeOk)
    (hl : Lands c db db' s) (hcomp : Compatible s t) (r : ClosureRow) :
    db'.NewLink c n q r ↔ db.NewLink c n q r := by
  have hn := hcomp.share' n h.locked
  have hq := hcomp.share' q h.parentLocked
  rcases hl.landed with ⟨rfl, hm, hu, hdel, hkey⟩ | ⟨rfl, hi, hu, -, hdel, hkey⟩
  · have hun := not_below_of_free rfl hm hkey h.hasUnit hn
    obtain ⟨x, hx⟩ := h.exists_parent htree
    have hnu := not_below_of_disjoint htree (hasUnit_of_mem hm.mem) hx hun fun r hr hr' =>
      hcomp.deleted r ((hdel r).mp hr) ((h.deleted r).mp hr')
    exact moved_newLink htree hm hu hun hnu (not_above_of_free rfl hm hkey hn)
      (not_below_of_free rfl hm hkey h.parent hq) r
  · exact inserted_newLink htree hi hu h.hasUnit h.parent (parent_not_below hi hkey hn) r

theorem Unlinked.landed (h : Unlinked c n q db t) (htree : db.TreeOk) (hl : Lands c db db' s)
    (hcomp : Compatible s t) : Unlinked c n q db' t := by
  refine ⟨h.toChecked.landed htree hl hcomp, fun r => ?_⟩
  rw [h.toChecked.oldLinks_landed htree hl hcomp, h.deleted]
  exact ⟨fun hr => hr.1, fun hr => ⟨hr, fun hs => hcomp.deleted r hs hr⟩⟩

theorem Linked.landed {rest : List Uuid} (h : Linked c n q db t rest) (htree : db.TreeOk)
    (hl : Lands c db db' s) (hcomp : Compatible s t) : Linked c n q db' t rest := by
  refine { h with toUnlinked := h.toUnlinked.landed htree hl hcomp, linked := fun r => ?_ }
  rw [h.linked, h.toUnlinked.newLink_landed htree hl hcomp]

/-- A unit of the committed tables is one from before, or the unit that the other has added. -/
theorem Landed.mem (hl : Landed c db db' s) {v : OrgUnit} (hv : v ∈ db'.orgUnits) :
    (∃ x ∈ db.orgUnits, x.companyId = v.companyId ∧ x.id = v.id ∧ x.type = v.type) ∨
      v ∈ s.added := by
  cases hl with
  | @moved u p hc hm hu =>
    rw [hu, mem_reparent hm.mem] at hv
    rcases hv with ⟨hv, -⟩ | rfl
    · exact .inl ⟨v, hv, rfl, rfl, rfl⟩
    · exact .inl ⟨u, hm.mem, rfl, rfl, rfl⟩
  | inserted _ _ hu hadd =>
    rw [hu] at hv
    rcases List.mem_append.mp hv with hv | hv
    · exact .inl ⟨v, hv, rfl, rfl, rfl⟩
    · rw [List.mem_singleton.mp hv]
      exact .inr hadd

theorem UnitInserted.landed (h : UnitInserted u db t) (hl : Lands u.companyId db db' s)
    (hcomp : Compatible s t) : UnitInserted u db' t := by
  have hu : u ∈ t.added := by rw [h.added]; rfl
  refine { h with idFresh := ?_, rootFresh := ?_, companyKnown := hl.company _ h.companyKnown }
  · intro v hv
    rcases hl.landed.mem hv with ⟨x, hx, -, hid, -⟩ | hadd
    · rw [← hid]
      exact h.idFresh x hx
    · exact (hcomp.added v hadd u hu).1
  · intro hroot v hv hc
    rcases hl.landed.mem hv with ⟨x, hx, hxc, -, htype⟩ | hadd
    · rw [← htype]
      exact h.rootFresh hroot x hx (hxc.trans hc)
    · exact fun hv' => (hcomp.added v hadd u hu).2 hv' hroot

theorem ParentReferenced.landed (h : ParentReferenced u db t) (hl : Lands u.companyId db db' s)
    (hcomp : Compatible s t) : ParentReferenced u db' t where
  toUnitInserted := h.toUnitInserted.landed hl hcomp
  parent p hp := (h.parent p hp).imp_right hl.landed.hasUnit

/-- The old links of a move that is deleting them are those it has deleted and those that it has
found and the other has not deleted. -/
theorem Checked.deleting_landed (h : Checked c n q db t) (htree : db.TreeOk)
    (hl : Lands c db db' s) (hcomp : Compatible s t) {rest : List ClosureRow}
    (hrows : ∀ r, r ∈ oldLinks db c n ↔ r ∈ t.deleted ∨ r ∈ rest) (r : ClosureRow) :
    r ∈ oldLinks db' c n ↔ r ∈ t.deleted ∨ r ∈ rest.filter (· ∉ s.deleted) := by
  rw [h.oldLinks_landed htree hl hcomp, hrows, List.mem_filter, decide_eq_true_eq]
  constructor
  · rintro ⟨hr | hr, hs⟩
    · exact .inl hr
    · exact .inr ⟨hr, hs⟩
  · rintro (hr | hr)
    · exact ⟨.inl hr, fun hs => hcomp.deleted r hs hr⟩
    · exact ⟨.inr hr.1, hr.2⟩

theorem MoveOk.landed (h : MoveOk c n q db t) (htree : db.TreeOk) (hl : Lands c db db' s)
    (hcomp : Compatible s t) : MoveOk c n q db' (EditWorld.skipDeleted t s.deleted) := by
  rw [MoveOk] at h
  split at h
  case h_1 hp | h_2 hp | h_3 hp | h_4 hp => simpa only [EditWorld.skipDeleted, MoveOk, hp] using h
  case h_5 hp =>
    simp only [EditWorld.skipDeleted, MoveOk, hp]
    exact ⟨h.1.landed hl.landed, h.2⟩
  case h_6 hp | h_7 hp =>
    simp only [EditWorld.skipDeleted, MoveOk, hp]
    exact ⟨h.1.landed hl.landed, h.2⟩
  case h_8 hp =>
    simp only [EditWorld.skipDeleted, MoveOk, hp]
    exact ⟨h.1.landed htree hl hcomp, h.2⟩
  case h_9 rest hp =>
    simp only [EditWorld.skipDeleted, MoveOk, hp]
    obtain ⟨hch, hrows, hins, hrep⟩ := h
    exact ⟨{ hch.landed htree hl hcomp with }, hch.deleting_landed htree hl hcomp hrows, hins, hrep⟩
  case h_10 rows hp =>
    simp only [EditWorld.skipDeleted, MoveOk, hp]
    obtain ⟨hun, hrows, hins, hrep⟩ := h
    refine ⟨hun.landed htree hl hcomp, fun r => ?_, hins, hrep⟩
    rw [hrows, hun.newLink_landed htree hl hcomp]
  case h_11 hp | h_12 hp | h_13 hp =>
    simp only [EditWorld.skipDeleted, MoveOk, hp]
    exact ⟨h.1.landed htree hl hcomp, h.2⟩
  case h_14 => exact h.elim

/-- An insertion that has the lock on the company sees no other commit. -/
theorem InsertOk.landed (h : InsertOk u db t) (hl : Lands u.companyId db db' s)
    (hcomp : Compatible s t) : InsertOk u db' (EditWorld.skipDeleted t s.deleted) := by
  have hno : t.epoch ≠ true := by
    rw [hcomp.epoch hl.epoch]
    nofun
  rw [InsertOk] at h
  split at h
  case h_1 hp | h_2 hp | h_3 hp | h_4 hp => simpa only [EditWorld.skipDeleted, InsertOk, hp] using h
  case h_5 hp | h_6 hp =>
    simp only [EditWorld.skipDeleted, InsertOk, hp]
    exact ⟨h.1.landed hl hcomp, h.2⟩
  case h_7 | h_8 => exact absurd h.2.2 hno
  case h_9 => exact absurd h.2.2.1 hno
  case h_10 | h_11 => exact absurd h.epoch hno
  case h_12 => exact h.elim

theorem skipDeleted_op (t : Edit) (gone : List ClosureRow) :
    (EditWorld.skipDeleted t gone).op = t.op := by
  rw [EditWorld.skipDeleted]
  split <;> rfl

theorem skipDeleted_nil (t : Edit) : EditWorld.skipDeleted t [] = t := by
  rw [EditWorld.skipDeleted]
  split
  next hp => simp [← hp]
  next => rfl

/-- A transaction that has done its work on the tables before the commit of another has done it on
the tables afterwards. -/
theorem Ok.landed (h : t.Ok c db) (htree : db.TreeOk) (hl : Lands c db db' s)
    (hcomp : Compatible s t) : (EditWorld.skipDeleted t s.deleted).Ok c db' := by
  rw [Ok, skipDeleted_op]
  rw [Ok] at h
  split at h
  next => exact MoveOk.landed h htree hl hcomp
  next => exact InsertOk.landed h hl hcomp

theorem Compatible.skipDeleted (h : Compatible s t) (gone : List ClosureRow) :
    Compatible (EditWorld.skipDeleted s gone) t := by
  rw [EditWorld.skipDeleted]
  split
  next => exact h.of_eq rfl rfl rfl rfl rfl
  next => exact h

end Commit

end Edit

namespace EditWorld

open Edit

variable {ι : Type} [DecidableEq ι] [Fintype ι] {c : Uuid} {w : EditWorld ι} {i : ι}

/-! ### The steps of a transaction -/

/-- A foreign-key check that succeeds. -/
theorem reference_cases (x : Uuid) (next : EditPhase) :
    w.reference c i x next = .blank (w.tx i).op .aborted ∨ w.reference c i x next = w.tx i ∨
      (¬w.HeldForUpdate i x ∧ ((w.tx i).view c w.db).HasUnit c x ∧ w.reference c i x next =
        { w.tx i with keyShare := x :: (w.tx i).keyShare, phase := next }) := by
  rw [reference]
  split
  next => exact .inl rfl
  next hunit =>
    split
    next => exact .inr (.inl rfl)
    next hheld => exact .inr (.inr ⟨hheld, not_not.mp hunit, rfl⟩)

theorem bumpEpoch_cases (next : EditPhase) :
    w.bumpEpoch i next = w.tx i ∨
      (¬w.EpochHeld i ∧ w.bumpEpoch i next = { w.tx i with epoch := true, phase := next }) := by
  rw [bumpEpoch]
  split
  next => exact .inl rfl
  next hheld => exact .inr ⟨hheld, rfl⟩

theorem link_cases (rows : List ClosureRow) :
    w.link c i rows = .blank (w.tx i).op .aborted ∨ w.link c i rows = w.tx i ∨
      ((∀ r ∈ rows, ∀ s ∈ ((w.tx i).view c w.db).closure, s.key ≠ r.key) ∧ w.link c i rows =
        { w.tx i with
          inserted := (w.tx i).inserted ++ rows
          phase := .referencing (rows.flatMap fun r => [r.ancestorId, r.descendantId]) }) := by
  rw [link]
  split
  next => exact .inr (.inl rfl)
  next =>
    split
    next => exact .inl rfl
    next hfresh =>
      refine .inr (.inr ⟨fun r hr s hs hkey => hfresh ⟨r, hr, .inr ⟨s, hs, hkey⟩⟩, rfl⟩)

/-- What a step of `move_org_unit` makes of its transaction. -/
inductive MoveStep (c n q : Uuid) (w : EditWorld ι) (i : ι) : Edit → Prop
  | aborted : MoveStep c n q w i (.blank (w.tx i).op .aborted)
  | waits : MoveStep c n q w i (w.tx i)
  | nodeLocked {u : OrgUnit} (hp : (w.tx i).phase = .started) (hu : w.db.findUnit c n = some u)
      (hroot : u.type ≠ .root) (hfree : ¬w.Held i n) : MoveStep c n q w i
      { w.tx i with forUpdate := n :: (w.tx i).forUpdate, phase := .nodeLocked }
  | parentLocked (hp : (w.tx i).phase = .nodeLocked) (hunit : w.db.HasUnit c q) (hself : n ≠ q)
      (hfree : ¬w.Held i q) : MoveStep c n q w i
      { w.tx i with forUpdate := q :: (w.tx i).forUpdate, phase := .parentLocked }
  | returned (hp : (w.tx i).phase = .parentLocked) : MoveStep c n q w i
      { w.tx i with phase := .returned }
  | compared (hp : (w.tx i).phase = .parentLocked) : MoveStep c n q w i
      { w.tx i with phase := .compared }
  | checked (hp : (w.tx i).phase = .compared) (hrow : ∀ r ∈ w.db.closure, r.companyId = c →
      r.ancestorId = n → r.descendantId = q → r.depth = 0) : MoveStep c n q w i
      { w.tx i with phase := .checked }
  | deleting (hp : (w.tx i).phase = .checked) : MoveStep c n q w i
      { w.tx i with phase := .deleting (oldLinks w.db c n) }
  | deleted {rest : List ClosureRow} {k : Nat} {r : ClosureRow}
      (hp : (w.tx i).phase = .deleting rest) (hk : rest[k]? = some r) (hfree : ¬w.RowDeleted i r) :
      MoveStep c n q w i
      { w.tx i with deleted := r :: (w.tx i).deleted, phase := .deleting (rest.eraseIdx k) }
  | linking (hp : (w.tx i).phase = .deleting []) : MoveStep c n q w i
      { w.tx i with phase := .linking (newLinks ((w.tx i).view c w.db) c n q) }
  | linked {rows : List ClosureRow} (hp : (w.tx i).phase = .linking rows) : MoveStep c n q w i
      { w.tx i with
        inserted := (w.tx i).inserted ++ rows
        phase := .referencing (rows.flatMap fun r => [r.ancestorId, r.descendantId]) }
  | referenced {rest : List Uuid} {k : Nat} {x : Uuid} (hp : (w.tx i).phase = .referencing rest)
      (hk : rest[k]? = some x) (hfree : ¬w.HeldForUpdate i x) : MoveStep c n q w i
      { w.tx i with keyShare := x :: (w.tx i).keyShare, phase := .referencing (rest.eraseIdx k) }
  | reparented (hp : (w.tx i).phase = .referencing []) : MoveStep c n q w i
      { w.tx i with reparented := true, phase := .reparented }
  | bumped (hp : (w.tx i).phase = .reparented) (hfree : ¬w.EpochHeld i) : MoveStep c n q w i
      { w.tx i with epoch := true, phase := .ready }

theorem move_step (n q : Uuid) (k : Nat) : MoveStep c n q w i (w.advanceMove c i n q k) := by
  rw [advanceMove]
  cases hp : (w.tx i).phase with
  | started =>
    dsimp only
    split
    next => exact .aborted
    next u hu =>
      split
      next => exact .waits
      next hfree =>
        split
        next => exact .aborted
        next hroot => exact .nodeLocked hp hu hroot hfree
  | nodeLocked =>
    dsimp only
    split
    next => exact .aborted
    next hunit =>
      split
      next => exact .waits
      next hfree =>
        split
        next => exact .aborted
        next hself => exact .parentLocked hp (not_not.mp hunit) hself hfree
  | parentLocked =>
    dsimp only
    split
    next => exact .returned hp
    next => exact .compared hp
  | compared =>
    dsimp only
    split
    next => exact .aborted
    next hrow =>
      refine .checked hp fun r hr hc ha hd => Nat.eq_zero_of_not_pos fun hpos => ?_
      exact hrow ⟨r, hr, hc, ha, hd, hpos⟩
  | checked => exact .deleting hp
  | deleting rest =>
    dsimp only
    split
    next r hk =>
      split
      next => exact .waits
      next hfree => exact .deleted hp hk hfree
    next =>
      split
      next hrest => exact .linking (hrest ▸ hp)
      next => exact .waits
  | linking rows =>
    dsimp only
    rcases link_cases (c := c) (w := w) (i := i) rows with heq | heq | ⟨-, heq⟩
    · rw [heq]
      exact .aborted
    · rw [heq]
      exact .waits
    · rw [heq]
      exact .linked hp
  | referencing rest =>
    dsimp only
    split
    next x hk =>
      rcases reference_cases (c := c) (w := w) (i := i) x (.referencing (rest.eraseIdx k)) with
        heq | heq | ⟨hfree, -, heq⟩
      · rw [heq]
        exact .aborted
      · rw [heq]
        exact .waits
      · rw [heq]
        exact .referenced hp hk hfree
    next =>
      split
      next => exact .waits
      next hrest =>
        split
        next => exact .aborted
        next =>
          split
          next => exact .waits
          next =>
            split
            next => exact .aborted
            next => exact .reparented (not_not.mp hrest ▸ hp)
  | reparented =>
    dsimp only
    rcases bumpEpoch_cases (w := w) (i := i) .ready with heq | ⟨hfree, heq⟩
    · rw [heq]
      exact .waits
    · rw [heq]
      exact .bumped hp hfree
  | returned | committed | aborted | ready | unitInserted | parentReferenced | bumped
  | selfLinked => exact .waits

omit [DecidableEq ι] [Fintype ι] in
/-- A move that does its next step on the committed tables is where it should be. -/
theorem moveOk_step {n q : Uuid} {t' : Edit} (htree : w.db.TreeOk)
    (h : MoveOk c n q w.db (w.tx i)) (hs : MoveStep c n q w i t') : MoveOk c n q w.db t' := by
  cases hs with
  | aborted => exact clean_blank _ .aborted
  | waits => exact h
  | nodeLocked hp hu hroot =>
    simp only [MoveOk, hp] at h
    obtain ⟨hmem, hcu, hid⟩ := findUnit_some hu
    exact ⟨⟨List.mem_cons_self, ⟨_, hmem, hcu, hid, hroot⟩, h.added⟩, { h with }⟩
  | parentLocked hp hunit hself =>
    simp only [MoveOk, hp] at h
    exact ⟨⟨⟨List.mem_cons_of_mem q h.1.locked, h.1.unit, h.1.added⟩, List.mem_cons_self, hunit,
      hself⟩, { h.2 with }⟩
  | returned hp =>
    simp only [MoveOk, hp] at h
    exact { h.2 with }
  | compared hp =>
    simp only [MoveOk, hp] at h
    exact ⟨{ h.1 with }, { h.2 with }⟩
  | checked hp hrow =>
    simp only [MoveOk, hp] at h
    refine ⟨{ h.1 with notBelow := ?_ }, { h.2 with }⟩
    rintro ⟨k, hk⟩
    have hk0 : k = 0 := hrow ⟨c, n, q, k⟩ ((htree.closureExact ..).mpr ⟨h.1.parent, hk⟩) rfl rfl rfl
    subst hk0
    exact h.1.notSelf (Option.some.inj hk).symm
  | deleting hp =>
    simp only [MoveOk, hp] at h
    refine ⟨{ h.1 with }, fun r => ?_, h.2.inserted, h.2.reparented⟩
    rw [h.2.deleted]
    simp
  | @deleted rest k r hp hk =>
    simp only [MoveOk, hp] at h
    obtain ⟨hch, hrows, hins, hrep⟩ := h
    refine ⟨{ hch with }, fun s => ?_, hins, hrep⟩
    rw [hrows s, List.mem_cons, Select.mem_iff_of_getElem? hk, or_left_comm, or_assoc]
  | linking hp =>
    simp only [MoveOk, hp] at h
    obtain ⟨hch, hrows, hins, hrep⟩ := h
    have hun : Unlinked c n q w.db (w.tx i) := ⟨hch, fun r => by rw [hrows r]; simp⟩
    exact ⟨{ hun with }, fun r => hun.mem_newLinks htree hins, hins, hrep⟩
  | linked hp =>
    simp only [MoveOk, hp] at h
    obtain ⟨hun, hrows, hins, hrep⟩ := h
    refine ⟨{ hun with linked := fun r => ?_, referenced := ?_ }, hrep⟩
    · rw [hins, List.nil_append]
      exact hrows r
    · exact referenced_flatMap (by rw [hins, List.nil_append])
  | referenced hp hk =>
    simp only [MoveOk, hp] at h
    exact ⟨h.1.reference hk _, h.2⟩
  | reparented hp =>
    simp only [MoveOk, hp] at h
    exact ⟨{ h.1 with }, rfl⟩
  | bumped hp =>
    simp only [MoveOk, hp] at h
    exact ⟨{ h.1 with }, h.2, rfl⟩

/-- What a step of `INSERT INTO org_units` makes of its transaction. -/
inductive InsertStep (c : Uuid) (u : OrgUnit) (w : EditWorld ι) (i : ι) : Edit → Prop
  | aborted : InsertStep c u w i (.blank (w.tx i).op .aborted)
  | waits : InsertStep c u w i (w.tx i)
  | unitInserted (hp : (w.tx i).phase = .started) (hshape : rootParentShape u)
      (hid : ∀ v ∈ w.db.orgUnits, v.id ≠ u.id)
      (hroot : u.type = .root → ∀ v ∈ w.db.orgUnits, v.companyId = u.companyId → v.type ≠ .root)
      (hco : w.db.HasCompany c)
      (hfree : ∀ j, j ≠ i → ∀ v ∈ ((w.tx j).view c w.db).orgUnits, v ∉ w.db.orgUnits →
        v.id ≠ u.id ∧ (u.type = .root → v.companyId = u.companyId → v.type ≠ .root)) :
      InsertStep c u w i { w.tx i with added := some u, phase := .unitInserted }
  | rootInserted (hp : (w.tx i).phase = .unitInserted) (hroot : u.parentId = none) :
      InsertStep c u w i { w.tx i with phase := .parentReferenced }
  | parentReferenced {p : Uuid} (hp : (w.tx i).phase = .unitInserted) (hpar : u.parentId = some p)
      (hunit : ((w.tx i).view c w.db).HasUnit c p) (hfree : ¬w.HeldForUpdate i p) :
      InsertStep c u w i
      { w.tx i with keyShare := p :: (w.tx i).keyShare, phase := .parentReferenced }
  | bumped (hp : (w.tx i).phase = .parentReferenced) (hfree : ¬w.EpochHeld i) :
      InsertStep c u w i { w.tx i with epoch := true, phase := .bumped }
  | selfLinked (hp : (w.tx i).phase = .bumped) : InsertStep c u w i
      { w.tx i with inserted := [⟨c, u.id, u.id, 0⟩], phase := .selfLinked }
  | rootLinked (hp : (w.tx i).phase = .selfLinked) (hroot : u.parentId = none) :
      InsertStep c u w i { w.tx i with phase := .ready }
  | linking {p : Uuid} (hp : (w.tx i).phase = .selfLinked) (hpar : u.parentId = some p) :
      InsertStep c u w i
      { w.tx i with phase := .linking ((ancestorRows ((w.tx i).view c w.db) c p).map fun r =>
          ⟨c, r.ancestorId, u.id, r.depth + 1⟩) }
  | linked {rows : List ClosureRow} (hp : (w.tx i).phase = .linking rows)
      (hkeys : ∀ r ∈ rows, ∀ s ∈ ((w.tx i).view c w.db).closure, s.key ≠ r.key) :
      InsertStep c u w i
      { w.tx i with
        inserted := (w.tx i).inserted ++ rows
        phase := .referencing (rows.flatMap fun r => [r.ancestorId, r.descendantId]) }
  | referenced {rest : List Uuid} {k : Nat} {x : Uuid} (hp : (w.tx i).phase = .referencing rest)
      (hk : rest[k]? = some x) (hfree : ¬w.HeldForUpdate i x) : InsertStep c u w i
      { w.tx i with keyShare := x :: (w.tx i).keyShare, phase := .referencing (rest.eraseIdx k) }
  | done (hp : (w.tx i).phase = .referencing []) : InsertStep c u w i
      { w.tx i with phase := .ready }

theorem insert_step (u : OrgUnit) (k : Nat) : InsertStep c u w i (w.advanceInsert c i u k) := by
  rw [advanceInsert]
  cases hp : (w.tx i).phase with
  | started =>
    dsimp only
    split
    next => exact .waits
    next hpend =>
      split
      next => exact .aborted
      next hok =>
        simp only [not_or, not_not, not_exists, not_and] at hok
        obtain ⟨hshape, hclash, hco⟩ := hok
        refine .unitInserted hp hshape (fun v hv => (hclash v hv).1)
          (fun hr v hv hc => (hclash v hv).2.2 hr hc) hco fun j hj v hv hnew => ?_
        have hno : ¬(v.id = u.id ∨ slugKey v = slugKey u ∨
            (u.type = .root ∧ v.companyId = u.companyId ∧ v.type = .root)) := by
          intro hcl
          exact hpend ⟨j, hj, .inl ⟨v, hv, hnew, by simpa using hcl⟩⟩
        simp only [not_or, not_and] at hno
        exact ⟨hno.1, hno.2.2⟩
  | unitInserted =>
    dsimp only
    split
    next hroot => exact .rootInserted hp hroot
    next p hpar =>
      rcases reference_cases (c := c) (w := w) (i := i) p .parentReferenced with
        heq | heq | ⟨hfree, hunit, heq⟩
      · rw [heq]
        exact .aborted
      · rw [heq]
        exact .waits
      · rw [heq]
        exact .parentReferenced hp hpar hunit hfree
  | parentReferenced =>
    dsimp only
    rcases bumpEpoch_cases (w := w) (i := i) .bumped with heq | ⟨hfree, heq⟩
    · rw [heq]
      exact .waits
    · rw [heq]
      exact .bumped hp hfree
  | bumped => exact .selfLinked hp
  | selfLinked =>
    dsimp only
    split
    next hroot => exact .rootLinked hp hroot
    next p hpar => exact .linking hp hpar
  | linking rows =>
    dsimp only
    rcases link_cases (c := c) (w := w) (i := i) rows with heq | heq | ⟨hkeys, heq⟩
    · rw [heq]
      exact .aborted
    · rw [heq]
      exact .waits
    · rw [heq]
      exact .linked hp hkeys
  | referencing rest =>
    dsimp only
    split
    next x hk =>
      rcases reference_cases (c := c) (w := w) (i := i) x (.referencing (rest.eraseIdx k)) with
        heq | heq | ⟨hfree, -, heq⟩
      · rw [heq]
        exact .aborted
      · rw [heq]
        exact .waits
      · rw [heq]
        exact .referenced hp hk hfree
    next =>
      split
      next hrest => exact .done (hrest ▸ hp)
      next => exact .waits
  | returned | committed | aborted | ready | reparented | nodeLocked | parentLocked | compared
  | checked | deleting _ => exact .waits

omit [DecidableEq ι] [Fintype ι] in
/-- The same for an insertion. -/
theorem insertOk_step {u : OrgUnit} {t' : Edit} (h : InsertOk u w.db (w.tx i))
    (hs : InsertStep u.companyId u w i t') : InsertOk u w.db t' := by
  cases hs with
  | aborted => exact clean_blank _ .aborted
  | waits => exact h
  | unitInserted hp hshape hid hroot hco =>
    simp only [InsertOk, hp] at h
    exact ⟨⟨rfl, h.deleted, h.reparented, hshape, hid, hroot, hco⟩, h.inserted⟩
  | rootInserted hp hroot =>
    simp only [InsertOk, hp] at h
    refine ⟨{ h.1 with parent := ?_ }, h.2⟩
    rw [hroot]
    nofun
  | parentReferenced hp hpar hunit =>
    simp only [InsertOk, hp] at h
    refine ⟨{ h.1 with parent := ?_ }, h.2⟩
    rw [hpar]
    intro p hp
    cases hp
    rcases h.1.view_hasUnit.mp hunit with hunit | ⟨-, hid⟩
    · exact .inr hunit
    · exact .inl hid.symm
  | bumped hp =>
    simp only [InsertOk, hp] at h
    exact ⟨{ h.1 with }, h.2, rfl⟩
  | selfLinked hp =>
    simp only [InsertOk, hp] at h
    exact ⟨{ h.1 with }, rfl, h.2.2⟩
  | rootLinked hp hroot =>
    simp only [InsertOk, hp] at h
    obtain ⟨hpar, hins, hepoch⟩ := h
    refine { hpar with epoch := hepoch, notSelf := ?_, linked := ?_, referenced := ?_ }
    · rw [hroot]
      nofun
    · show (w.tx i).inserted = _
      rw [hins, insertedRows, hroot]
      rfl
    · intro r hr
      rw [show r = selfLink u from List.mem_singleton.mp (hins ▸ hr)]
      exact .inl rfl
  | linking hp hpar =>
    simp only [InsertOk, hp] at h
    obtain ⟨hok, hins, hepoch⟩ := h
    exact ⟨{ hok with }, hins, hepoch, _, hpar, rfl⟩
  | linked hp hkeys =>
    simp only [InsertOk, hp] at h
    obtain ⟨hok, hins, hepoch, p, hpar, rfl⟩ := h
    obtain ⟨hne, hrows⟩ := linked_rows hok.deleted hins hpar hkeys
    refine { hok with epoch := hepoch, notSelf := ?_, linked := hrows, referenced := ?_ }
    · rw [hpar]
      exact fun heq => hne (Option.some.inj heq)
    · intro r hr
      rcases List.mem_append.mp hr with hr | hr
      · rw [show r = selfLink u from List.mem_singleton.mp (hins ▸ hr)]
        exact .inl rfl
      · exact .inr (.inr (List.mem_flatMap.mpr ⟨r, hr, List.mem_cons_self⟩))
  | referenced hp hk =>
    simp only [InsertOk, hp] at h
    exact h.reference hk _
  | done hp =>
    simp only [InsertOk, hp] at h
    exact { h with }

/-! ### Locks -/

omit [DecidableEq ι] [Fintype ι] in
theorem compatible_moveStep {n q : Uuid} {t' : Edit} {j : ι} (hj : j ≠ i)
    (h : Compatible (w.tx i) (w.tx j)) (hs : MoveStep c n q w i t') : Compatible t' (w.tx j) := by
  cases hs with
  | aborted => exact .blank _ .aborted _
  | waits => exact h
  | nodeLocked _ _ _ hfree | parentLocked _ _ _ hfree =>
    exact h.lockForUpdate (fun hx => hfree ⟨j, hj, .inl hx⟩) fun hx => hfree ⟨j, hj, .inr hx⟩
  | returned | compared | checked | deleting | linking | linked | reparented =>
    exact h.of_eq rfl rfl rfl rfl rfl
  | @deleted rest k r hp hk hfree =>
    refine { h with deleted := fun s hs => ?_ }
    rcases List.mem_cons.mp hs with rfl | hs
    · exact fun hx => hfree ⟨j, hj, hx⟩
    · exact h.deleted s hs
  | referenced _ _ hfree => exact h.lockKeyShare fun hx => hfree ⟨j, hj, hx⟩
  | bumped _ hfree =>
    refine { h with epoch := fun _ => ?_ }
    exact Bool.eq_false_iff.mpr fun hx => hfree ⟨j, hj, hx⟩

omit [DecidableEq ι] [Fintype ι] in
theorem compatible_insertStep {u : OrgUnit} {t' : Edit} {j : ι} (hj : j ≠ i)
    (h : Compatible (w.tx i) (w.tx j)) (hok : (w.tx j).Ok u.companyId w.db)
    (hs : InsertStep u.companyId u w i t') : Compatible t' (w.tx j) := by
  cases hs with
  | aborted => exact .blank _ .aborted _
  | waits => exact h
  | unitInserted _ _ _ _ _ hfree =>
    refine { h with added := fun v hv x hx => ?_ }
    cases hv
    obtain ⟨hc, hview, hnew⟩ := added_new hok hx
    obtain ⟨hid, hroot⟩ := hfree j hj x hview hnew
    exact ⟨fun heq => hid heq.symm, fun hr => hroot hr hc⟩
  | rootInserted | selfLinked | rootLinked | linking | linked | done =>
    exact h.of_eq rfl rfl rfl rfl rfl
  | parentReferenced _ _ _ hfree | referenced _ _ hfree =>
    exact h.lockKeyShare fun hx => hfree ⟨j, hj, hx⟩
  | bumped _ hfree =>
    refine { h with epoch := fun _ => ?_ }
    exact Bool.eq_false_iff.mpr fun hx => hfree ⟨j, hj, hx⟩

end EditWorld

end Wikore
