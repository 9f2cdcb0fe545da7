import Wikore.Org.Tables
import Wikore.Lib.Forest
import Mathlib.Logic.ExistsUnique
import Mathlib.Tactic.ByContra

/-! The closure table is exact: after every sequence of company creations, unit insertions,
deletions and moves, `org_unit_closure` holds a row for `a` above `d` at depth `k` exactly when `k`
steps along `parent_id` lead from `d` to `a`. -/

namespace Wikore

open Statement ParentForest

namespace OrgDb

/-- The unit `d` of company `c` reaches `a` by exactly `k` steps along `parent_id`. -/
def Reaches (db : OrgDb) (c d : Uuid) (k : Nat) (a : Uuid) : Prop :=
  db.HasUnit c d ∧ ancestor (db.parentOf c) k d = some a

/-- What the constraints keep in `org_units` alone. -/
structure UnitsOk (db : OrgDb) : Prop where
  idUnique : ∀ u ∈ db.orgUnits, ∀ v ∈ db.orgUnits, u.id = v.id → u = v
  companyKnown : ∀ u ∈ db.orgUnits, db.HasCompany u.companyId
  parentKnown : ∀ u ∈ db.orgUnits, db.ParentExists u.companyId u.parentId
  shape : ∀ u ∈ db.orgUnits, rootParentShape u
  rootUnique : ∀ u ∈ db.orgUnits, ∀ v ∈ db.orgUnits, u.companyId = v.companyId →
    u.parentId = none → v.parentId = none → u = v

/-- The parent graph has no cycle and the closure table is its closure. -/
structure TreeOk (db : OrgDb) : Prop extends UnitsOk db where
  acyclic : ∀ c, Acyclic (db.parentOf c)
  closureExact : ∀ c a d k, ⟨c, a, d, k⟩ ∈ db.closure ↔ db.Reaches c d k a

/-- `org_unit_closure` holds the tree of `org_units`. -/
def ClosureExact (db : OrgDb) : Prop :=
  ∀ c a d k, ⟨c, a, d, k⟩ ∈ db.closure ↔ db.Reaches c d k a

/-- Every company has a root unit. -/
def RootExists (db : OrgDb) : Prop :=
  ∀ c, db.HasCompany c → ∃ u ∈ db.orgUnits, u.companyId = c ∧ u.parentId = none

/-- The invariant of the organisation tables. -/
structure Consistent (db : OrgDb) : Prop extends TreeOk db where
  rootExists : db.RootExists

theorem empty_consistent : Consistent empty where
  idUnique := by simp [empty]
  companyKnown := by simp [empty]
  parentKnown := by simp [empty]
  shape := by simp [empty]
  rootUnique := by simp [empty]
  rootExists := by simp [RootExists, empty, HasCompany]
  acyclic := by
    intro c d k
    simp [ancestor_succ, parentOf, findUnit, empty]
  closureExact := by simp [empty, Reaches, HasUnit]

theorem hasUnit_of_mem {db : OrgDb} {u : OrgUnit} (h : u ∈ db.orgUnits) :
    db.HasUnit u.companyId u.id := ⟨u, h, rfl, rfl⟩

theorem type_of_parent_none {u : OrgUnit} (h : rootParentShape u) (hp : u.parentId = none) :
    u.type = .root := by
  rcases h with ⟨ht, -⟩ | ⟨-, hne⟩
  · exact ht
  · exact absurd hp hne

theorem findUnit_some {db : OrgDb} {c x : Uuid} {u : OrgUnit} (h : db.findUnit c x = some u) :
    u ∈ db.orgUnits ∧ u.companyId = c ∧ u.id = x := by
  refine ⟨List.mem_of_find?_eq_some h, ?_⟩
  simpa using List.find?_some h

theorem parentOf_of_not_hasUnit {db : OrgDb} {c x : Uuid} (h : ¬db.HasUnit c x) :
    db.parentOf c x = none := by
  unfold parentOf
  cases hf : db.findUnit c x with
  | none => rfl
  | some u => exact absurd ⟨u, findUnit_some hf⟩ h

namespace UnitsOk

variable {db : OrgDb} {c d x : Uuid} {u : OrgUnit} {k : Nat} {a : Uuid}

theorem findUnit_of_mem (h : UnitsOk db) (hu : u ∈ db.orgUnits) :
    db.findUnit u.companyId u.id = some u := by
  cases hf : db.findUnit u.companyId u.id with
  | none =>
    have := List.find?_eq_none.mp hf u hu
    simp at this
  | some v =>
    obtain ⟨hv, -, hid⟩ := findUnit_some hf
    rw [h.idUnique v hv u hu hid]

theorem parentOf_of_mem (h : UnitsOk db) (hu : u ∈ db.orgUnits) :
    db.parentOf u.companyId u.id = u.parentId := by
  rw [parentOf, h.findUnit_of_mem hu, Option.bind_some]

theorem hasUnit_parent (h : UnitsOk db) (hp : db.parentOf c d = some x) : db.HasUnit c x := by
  unfold parentOf at hp
  cases hf : db.findUnit c d with
  | none => simp [hf] at hp
  | some u =>
    obtain ⟨hu, rfl, -⟩ := findUnit_some hf
    have hk := h.parentKnown u hu
    rw [hf, Option.bind_some] at hp
    rwa [hp] at hk

/-- Every ancestor of a unit is a unit of its company. -/
theorem hasUnit_ancestor (h : UnitsOk db) (hd : db.HasUnit c d)
    (ha : ancestor (db.parentOf c) k d = some a) : db.HasUnit c a := by
  cases k with
  | zero =>
    obtain rfl : d = a := by simpa using ha
    exact hd
  | succ k =>
    rw [ancestor_succ_last] at ha
    obtain ⟨b, -, hb⟩ := Option.bind_eq_some_iff.mp ha
    exact h.hasUnit_parent hb

end UnitsOk

end OrgDb

/-! ### Insertion into the closure table -/

theorem insertClosure_ok {r : ClosureRow} {db db' : OrgDb} (h : insertClosure r db = .ok () db') :
    (∀ x ∈ db.closure, x.key ≠ r.key) ∧ db' = { db with closure := db.closure ++ [r] } := by
  simp only [insertClosure, bind_ok, raiseIf_ok, get_ok, modify_ok] at h
  obtain ⟨_, _, ⟨-, rfl⟩, _, _, ⟨rfl, rfl⟩, _, _, ⟨hkey, rfl⟩, _, _, ⟨-, rfl⟩, _, _, ⟨-, rfl⟩, rfl⟩ := h
  exact ⟨fun x hx he => hkey ⟨x, hx, he⟩, rfl⟩

theorem forEach_insertClosure_ok {rows : List ClosureRow} {db db' : OrgDb}
    (h : forEach insertClosure rows db = .ok () db') :
    (∀ r ∈ rows, ∀ x ∈ db.closure, x.key ≠ r.key) ∧
      db' = { db with closure := db.closure ++ rows } := by
  let P : List ClosureRow → OrgDb → Prop := fun done t =>
    (∀ r ∈ done, ∀ x ∈ db.closure, x.key ≠ r.key) ∧ t = { db with closure := db.closure ++ done }
  have hP : P ([] ++ rows) db' := by
    refine forEach_ok (P := P) ?_ h ⟨by simp, by simp⟩
    rintro r - done t t' ⟨hdone, rfl⟩ hr
    obtain ⟨hfresh, rfl⟩ := insertClosure_ok hr
    refine ⟨fun s hs x hx => ?_, by simp⟩
    rcases List.mem_append.mp hs with hs | hs
    · exact hdone s hs x hx
    · obtain rfl : s = r := by simpa using hs
      exact hfresh x (by simp [hx])
  simpa [P] using hP

@[simp] theorem bumpAclEpoch_orgUnits (c : Uuid) (n : Nat) (db : OrgDb) :
    (bumpAclEpoch c n db).orgUnits = db.orgUnits := rfl

@[simp] theorem bumpAclEpoch_closure (c : Uuid) (n : Nat) (db : OrgDb) :
    (bumpAclEpoch c n db).closure = db.closure := rfl

theorem bumpAclEpoch_hasCompany (c x : Uuid) (n : Nat) (db : OrgDb) :
    (bumpAclEpoch c n db).HasCompany x ↔ db.HasCompany x := by
  have hid : ∀ co : Company,
      (if co.id = c then { co with aclEpoch := co.aclEpoch + n } else co).id = co.id := by
    intro co
    split <;> rfl
  simp [OrgDb.HasCompany, bumpAclEpoch, hid]

namespace OrgDb

/-- `TreeOk` is about the units and the closure. -/
theorem TreeOk.congr {db db' : OrgDb} (h : db.TreeOk) (hu : db'.orgUnits = db.orgUnits)
    (hcl : db'.closure = db.closure) (hco : ∀ c, db.HasCompany c → db'.HasCompany c) :
    db'.TreeOk := by
  obtain ⟨companies, units, closure, allow⟩ := db
  obtain ⟨companies', units', closure', allow'⟩ := db'
  obtain rfl : units' = units := hu
  obtain rfl : closure' = closure := hcl
  exact
    { idUnique := h.idUnique
      companyKnown := fun u hu => hco _ (h.companyKnown u hu)
      parentKnown := h.parentKnown
      shape := h.shape
      rootUnique := h.rootUnique
      acyclic := h.acyclic
      closureExact := h.closureExact }

end OrgDb

/-! ### Insertion of a unit -/

/-- The closure rows that `org_unit_closure_on_insert` adds for `u`. -/
def insertedRows (db : OrgDb) (u : OrgUnit) : List ClosureRow :=
  ⟨u.companyId, u.id, u.id, 0⟩ :: match u.parentId with
    | none => []
    | some p => (ancestorRows db u.companyId p).map fun r =>
        ⟨u.companyId, r.ancestorId, u.id, r.depth + 1⟩

/-- The tables with the row of `u` added to `org_units`. -/
def addUnit (u : OrgUnit) (db : OrgDb) : OrgDb := { db with orgUnits := db.orgUnits ++ [u] }

theorem addUnit_hasUnit {db : OrgDb} {u : OrgUnit} {c x : Uuid} :
    (addUnit u db).HasUnit c x ↔ db.HasUnit c x ∨ (u.companyId = c ∧ u.id = x) := by
  simp only [OrgDb.HasUnit, addUnit, List.mem_append, List.mem_singleton]
  constructor
  · rintro ⟨v, hv | rfl, h⟩
    · exact .inl ⟨v, hv, h⟩
    · exact .inr h
  · rintro (⟨v, hv, h⟩ | h)
    · exact ⟨v, .inl hv, h⟩
    · exact ⟨u, .inr rfl, h⟩

/-- What a successful `org_unit_closure_on_insert` did.  A unit that is its own parent would have
its self-entry twice, which the primary key refuses. -/
theorem orgUnitClosureOnInsert_ok {u : OrgUnit} {db db' : OrgDb}
    (h : orgUnitClosureOnInsert u db = .ok () db') :
    u.parentId ≠ some u.id ∧ db' = { db with closure := db.closure ++ insertedRows db u } := by
  obtain ⟨_, db1, h1, h2⟩ := bind_ok.mp h
  obtain ⟨-, rfl⟩ := insertClosure_ok h1
  cases hp : u.parentId with
  | none =>
    rw [hp] at h2
    obtain ⟨-, rfl⟩ := pure_ok.mp h2
    exact ⟨by simp, by simp [insertedRows, hp]⟩
  | some p =>
    rw [hp] at h2
    simp only [bind_ok, get_ok] at h2
    obtain ⟨_, _, ⟨rfl, rfl⟩, h3⟩ := h2
    obtain ⟨hfresh, rfl⟩ := forEach_insertClosure_ok h3
    have hne : p ≠ u.id := by
      rintro rfl
      refine hfresh ⟨u.companyId, u.id, u.id, 1⟩ ?_ ⟨u.companyId, u.id, u.id, 0⟩ (by simp) rfl
      exact List.mem_map.mpr ⟨⟨u.companyId, u.id, u.id, 0⟩, by simp [ancestorRows], rfl⟩
    refine ⟨by simpa using hne, ?_⟩
    have hrows : ancestorRows { db with closure := db.closure ++ [⟨u.companyId, u.id, u.id, 0⟩] }
        u.companyId p = ancestorRows db u.companyId p := by
      simp [ancestorRows, hne.symm]
    simp [insertedRows, hp, hrows]

/-- What `INSERT INTO org_units` checks of the row `u`. -/
structure OrgDb.Insertable (db : OrgDb) (u : OrgUnit) : Prop where
  shape : rootParentShape u
  idFresh : ∀ v ∈ db.orgUnits, v.id ≠ u.id
  rootFresh : u.type = .root → ∀ v ∈ db.orgUnits, v.companyId = u.companyId → v.type ≠ .root
  companyKnown : db.HasCompany u.companyId
  parentKnown : db.ParentExists u.companyId u.parentId

/-- What a successful `INSERT INTO org_units` checked and did. -/
theorem insertOrgUnit_ok {u : OrgUnit} {db db' : OrgDb} (h : insertOrgUnit u db = .ok () db') :
    db.Insertable u ∧
      db' = { bumpAclEpoch u.companyId 1 (addUnit u db) with
        closure := db.closure ++ insertedRows db u } := by
  simp only [insertOrgUnit, bind_ok, raiseIf_ok, get_ok, modify_ok] at h
  obtain ⟨_, _, ⟨rfl, rfl⟩, _, _, ⟨hshape, rfl⟩, _, _, ⟨hid, rfl⟩, _, _, ⟨-, rfl⟩, _, _, ⟨hroot, rfl⟩,
    _, _, ⟨hco, rfl⟩, _, _, rfl, _, _, ⟨rfl, rfl⟩, _, _, ⟨hpar, rfl⟩, _, _, rfl, htrig⟩ := h
  obtain ⟨hself, rfl⟩ := orgUnitClosureOnInsert_ok htrig
  have hknown : db.ParentExists u.companyId u.parentId := by
    cases hp : u.parentId with
    | none => trivial
    | some p =>
      rw [hp] at hpar hself
      rcases addUnit_hasUnit.mp (not_not.mp hpar) with h | ⟨-, h⟩
      · exact h
      · exact absurd (congrArg some h.symm) hself
  exact ⟨⟨not_not.mp hshape, fun v hv he => hid ⟨v, hv, he⟩,
    fun hr v hv hc ht => hroot ⟨hr, v, hv, hc, ht⟩, not_not.mp hco, hknown⟩, rfl⟩

namespace OrgDb

section Insert

variable {db : OrgDb} {u : OrgUnit}

theorem UnitsOk.addUnit (h : UnitsOk db) (hi : db.Insertable u) :
    UnitsOk (Wikore.addUnit u db) := by
  have hmem : ∀ v, v ∈ (Wikore.addUnit u db).orgUnits ↔ v ∈ db.orgUnits ∨ v = u := by
    simp [Wikore.addUnit]
  have hmono : ∀ {c parent}, db.ParentExists c parent →
      (Wikore.addUnit u db).ParentExists c parent := by
    rintro c (_ | p) hp
    · trivial
    · exact addUnit_hasUnit.mpr (.inl hp)
  constructor
  · intro v hv w hw he
    rcases (hmem v).mp hv with hv' | hv' <;> rcases (hmem w).mp hw with hw' | hw'
    · exact h.idUnique v hv' w hw' he
    · exact absurd (hw' ▸ he) (hi.idFresh v hv')
    · exact absurd (hv' ▸ he).symm (hi.idFresh w hw')
    · rw [hv', hw']
  · intro v hv
    rcases (hmem v).mp hv with hv' | rfl
    · exact h.companyKnown v hv'
    · exact hi.companyKnown
  · intro v hv
    rcases (hmem v).mp hv with hv' | rfl
    · exact hmono (h.parentKnown v hv')
    · exact hmono hi.parentKnown
  · intro v hv
    rcases (hmem v).mp hv with hv' | rfl
    · exact h.shape v hv'
    · exact hi.shape
  · intro v hv w hw hc hvp hwp
    rcases (hmem v).mp hv with hv' | hv' <;> rcases (hmem w).mp hw with hw' | hw'
    · exact h.rootUnique v hv' w hw' hc hvp hwp
    · subst hw'
      exact absurd (type_of_parent_none (h.shape v hv') hvp) (hi.rootFresh (type_of_parent_none hi.shape hwp) v hv' hc)
    · subst hv'
      exact absurd (type_of_parent_none (h.shape w hw') hwp) (hi.rootFresh (type_of_parent_none hi.shape hvp) w hw' hc.symm)
    · rw [hv', hw']

theorem addUnit_parentOf_of_ne {c x : Uuid} (h : ¬(u.companyId = c ∧ u.id = x)) :
    (Wikore.addUnit u db).parentOf c x = db.parentOf c x := by
  have hf : (Wikore.addUnit u db).findUnit c x = db.findUnit c x := by
    simp only [findUnit, Wikore.addUnit, List.find?_append, List.find?_singleton]
    rw [if_neg (by simpa using h), Option.or_none]
  rw [parentOf, hf, parentOf]

/-- A unit that exists before the insertion is not below the new one. -/
theorem Insertable.not_below (hi : db.Insertable u) (h : UnitsOk db) {d : Uuid}
    (hd : db.HasUnit u.companyId d) : ¬Below (db.parentOf u.companyId) u.id d := by
  rintro ⟨k, hk⟩
  obtain ⟨v, hv, -, hid⟩ := h.hasUnit_ancestor hd hk
  exact hi.idFresh v hv hid

/-- The new unit reaches itself, and its parent's ancestors one step further; the others reach what
they reached. -/
theorem Insertable.reaches_iff (hi : db.Insertable u) (h : UnitsOk db) {c d a : Uuid} {k : Nat} :
    (Wikore.addUnit u db).Reaches c d k a ↔
      db.Reaches c d k a ∨ (u.companyId = c ∧ u.id = d ∧
        ((k = 0 ∧ a = d) ∨ ∃ p j, u.parentId = some p ∧ k = j + 1 ∧ db.Reaches c p j a)) := by
  have hnew : (Wikore.addUnit u db).parentOf u.companyId u.id = u.parentId :=
    (h.addUnit hi).parentOf_of_mem (by simp [Wikore.addUnit])
  have hold : ∀ {x j}, db.HasUnit c x →
      ancestor ((Wikore.addUnit u db).parentOf c) j x = ancestor (db.parentOf c) j x := by
    intro x j hx
    refine ancestor_congr fun i _ b hb => addUnit_parentOf_of_ne ?_
    rintro ⟨rfl, rfl⟩
    exact hi.not_below h hx ⟨i, hb⟩
  by_cases hd : db.HasUnit c d
  · have hne : ¬(u.companyId = c ∧ u.id = d) := by
      rintro ⟨rfl, rfl⟩
      obtain ⟨v, hv, -, hid⟩ := hd
      exact hi.idFresh v hv hid
    simp only [Reaches, addUnit_hasUnit, hd, true_or, hold hd, true_and]
    constructor
    · exact .inl
    · rintro (h | ⟨hc, he, -⟩)
      · exact h
      · exact absurd ⟨hc, he⟩ hne
  · simp only [Reaches, addUnit_hasUnit, hd, false_or, false_and]
    constructor
    · rintro ⟨⟨rfl, rfl⟩, ha⟩
      refine ⟨rfl, rfl, ?_⟩
      cases k with
      | zero => exact .inl ⟨rfl, by simpa using ha.symm⟩
      | succ j =>
        rw [ancestor_succ, hnew] at ha
        obtain ⟨p, hp, ha⟩ := Option.bind_eq_some_iff.mp ha
        have hpk := hi.parentKnown
        rw [hp] at hpk
        exact .inr ⟨p, j, hp, rfl, hpk, by rwa [hold hpk] at ha⟩
    · rintro ⟨rfl, rfl, ⟨rfl, rfl⟩ | ⟨p, j, hp, rfl, hpk, ha⟩⟩
      · exact ⟨⟨rfl, rfl⟩, rfl⟩
      · refine ⟨⟨rfl, rfl⟩, ?_⟩
        rw [ancestor_succ_of_parent (hnew.trans hp), hold hpk, ha]

theorem mem_insertedRows {c a d : Uuid} {k : Nat} :
    ⟨c, a, d, k⟩ ∈ insertedRows db u ↔ u.companyId = c ∧ u.id = d ∧
      ((k = 0 ∧ a = d) ∨
        ∃ p j, u.parentId = some p ∧ k = j + 1 ∧ ⟨c, a, p, j⟩ ∈ db.closure) := by
  unfold insertedRows
  cases u.parentId with
  | none =>
    simp only [List.mem_singleton, ClosureRow.mk.injEq]
    grind
  | some p =>
    simp only [List.mem_cons, ClosureRow.mk.injEq, List.mem_map, ancestorRows, List.mem_filter]
    constructor
    · rintro (⟨rfl, rfl, rfl, rfl⟩ | ⟨⟨rc, ra, rd, rk⟩, ⟨hr, hrc⟩, rfl, rfl, rfl, rfl⟩)
      · exact ⟨rfl, rfl, .inl ⟨rfl, rfl⟩⟩
      · obtain ⟨rfl, rfl⟩ : rc = u.companyId ∧ rd = p := by simpa using hrc
        exact ⟨rfl, rfl, .inr ⟨_, _, rfl, rfl, hr⟩⟩
    · rintro ⟨rfl, rfl, ⟨rfl, rfl⟩ | ⟨q, j, he, rfl, hr⟩⟩
      · exact .inl ⟨rfl, rfl, rfl, rfl⟩
      · obtain rfl : p = q := by simpa using he
        exact .inr ⟨_, ⟨hr, by simp⟩, rfl, rfl, rfl, rfl⟩

theorem Insertable.acyclic (hi : db.Insertable u) (h : TreeOk db) (c : Uuid) :
    Acyclic ((Wikore.addUnit u db).parentOf c) := by
  by_cases hc : u.companyId = c
  · subst hc
    have hoff : ∀ x, x ≠ u.id → (Wikore.addUnit u db).parentOf u.companyId x =
        db.parentOf u.companyId x :=
      fun x hx => addUnit_parentOf_of_ne fun he => hx he.2.symm
    have hnew : (Wikore.addUnit u db).parentOf u.companyId u.id = u.parentId :=
      (h.toUnitsOk.addUnit hi).parentOf_of_mem (by simp [Wikore.addUnit])
    cases hp : u.parentId with
    | none =>
      refine (h.acyclic u.companyId).mono fun x p hx => ?_
      rwa [hoff x (by rintro rfl; simp [hnew, hp] at hx)] at hx
    | some p =>
      have hpk := hi.parentKnown
      rw [hp] at hpk
      exact (h.acyclic u.companyId).hang (hnew.trans hp) hoff (hi.not_below h.toUnitsOk hpk)
  · have : (Wikore.addUnit u db).parentOf c = db.parentOf c := by
      funext x
      exact addUnit_parentOf_of_ne fun he => hc he.1
    rw [this]
    exact h.acyclic c

theorem TreeOk.insert (h : TreeOk db) (hi : db.Insertable u) :
    TreeOk { Wikore.addUnit u db with closure := db.closure ++ insertedRows db u } where
  toUnitsOk := by
    obtain ⟨h1, h2, h3, h4, h5⟩ := h.toUnitsOk.addUnit hi
    exact ⟨h1, h2, h3, h4, h5⟩
  acyclic := hi.acyclic h
  closureExact := by
    intro c a d k
    refine Iff.trans ?_ (hi.reaches_iff h.toUnitsOk).symm
    simp only [List.mem_append, mem_insertedRows, h.closureExact]

end Insert

/-- A successful insertion keeps the tree. -/
theorem TreeOk.insertOrgUnit {db db' : OrgDb} {u : OrgUnit} (h : TreeOk db)
    (hok : Wikore.insertOrgUnit u db = .ok () db') : TreeOk db' := by
  obtain ⟨hi, rfl⟩ := insertOrgUnit_ok hok
  exact (h.insert hi).congr rfl rfl fun c hc => (bumpAclEpoch_hasCompany ..).mpr hc

end OrgDb

/-! ### Moving a unit -/

/-- The tables with the row of `u` hung under `q`. -/
def reparent (u : OrgUnit) (q : Uuid) (db : OrgDb) : OrgDb :=
  { db with orgUnits := db.orgUnits.map fun w =>
      if w = u then { u with parentId := some q } else w }

/-- What `move_org_unit` checks before it moves `u` under `q`. -/
structure OrgDb.Movable (db : OrgDb) (u : OrgUnit) (q : Uuid) : Prop where
  mem : u ∈ db.orgUnits
  notRoot : u.type ≠ .root
  parentKnown : db.HasUnit u.companyId q
  notSelf : u.id ≠ q
  noCycle : ∀ r ∈ db.closure, r.companyId = u.companyId → r.ancestorId = u.id →
    r.descendantId = q → r.depth = 0

/-- The closure table after a move. -/
def movedClosure (db : OrgDb) (c n q : Uuid) : List ClosureRow :=
  (deleteOldLinks c n db).closure ++ newLinks (deleteOldLinks c n db) c n q

/-- What a successful `UPDATE org_units SET parent_id` did to a row with another parent. -/
theorem updateParentId_ok {c n q : Uuid} {u : OrgUnit} {db db' : OrgDb}
    (hf : db.findUnit c n = some u) (hne : u.parentId ≠ some q)
    (h : updateParentId c n (some q) db = .ok () db') :
    db' = bumpAclEpoch c 1 (reparent u q db) := by
  simp only [updateParentId, bind_ok, get_ok] at h
  obtain ⟨_, _, ⟨rfl, rfl⟩, h⟩ := h
  simp only [hf, bind_ok, raiseIf_ok, modify_ok, if_neg hne] at h
  obtain ⟨_, _, ⟨-, rfl⟩, _, _, ⟨-, rfl⟩, _, _, ⟨-, rfl⟩, _, _, ⟨-, rfl⟩, _, _, rfl, rfl⟩ := h
  rfl

/-- What a successful `move_org_unit` checked and did. -/
theorem moveOrgUnit_ok {c n q : Uuid} {db db' : OrgDb} (h : moveOrgUnit c n q db = .ok () db') :
    db' = db ∨ ∃ u, u.companyId = c ∧ u.id = n ∧ db.Movable u q ∧
      db' = { bumpAclEpoch c 1 (reparent u q db) with
        closure := movedClosure db c n q
        allowMove := true } := by
  simp only [moveOrgUnit, bind_ok, get_ok] at h
  obtain ⟨_, _, ⟨rfl, rfl⟩, h⟩ := h
  cases hf : db.findUnit c n with
  | none => simp [hf, throw_ok] at h
  | some u =>
    obtain ⟨hu, hc, hid⟩ := OrgDb.findUnit_some hf
    simp only [hf, bind_ok, raiseIf_ok, ite_ok, pure_ok, get_ok, modify_ok] at h
    obtain ⟨_, _, ⟨hroot, rfl⟩, _, _, ⟨hq, rfl⟩, _, _, ⟨hself, rfl⟩, h⟩ := h
    obtain ⟨-, -, rfl⟩ | ⟨hne, _, _, ⟨hcyc, rfl⟩, _, _, rfl, _, _, ⟨rfl, rfl⟩, _, _, hins, _, _, rfl, hupd⟩
      := h
    · exact .inl rfl
    · obtain ⟨-, rfl⟩ := forEach_insertClosure_ok hins
      refine .inr ⟨u, hc, hid, ⟨hu, hroot, hc ▸ not_not.mp hq, hid ▸ hself, ?_⟩, ?_⟩
      · intro r hr hrc hra hrd
        rcases Nat.eq_zero_or_pos r.depth with h0 | hpos
        · exact h0
        · exact absurd ⟨r, hr, hrc.trans hc, hra.trans hid, hrd, hpos⟩ hcyc
      · refine (updateParentId_ok ?_ hne hupd).trans rfl
        exact hf

namespace OrgDb

section Move

variable {db : OrgDb} {u : OrgUnit} {q : Uuid}

theorem mem_reparent {w : OrgUnit} (hu : u ∈ db.orgUnits) :
    w ∈ (reparent u q db).orgUnits ↔
      (w ∈ db.orgUnits ∧ w ≠ u) ∨ w = { u with parentId := some q } := by
  simp only [reparent, List.mem_map]
  constructor
  · rintro ⟨x, hx, rfl⟩
    by_cases he : x = u
    · simp [he]
    · simp [he, hx]
  · rintro (⟨hw, hne⟩ | rfl)
    · exact ⟨w, hw, if_neg hne⟩
    · exact ⟨u, hu, if_pos rfl⟩

theorem reparent_hasUnit {c x : Uuid} : (reparent u q db).HasUnit c x ↔ db.HasUnit c x := by
  have he : ∀ w : OrgUnit,
      (if w = u then { u with parentId := some q } else w).companyId = w.companyId ∧
        (if w = u then { u with parentId := some q } else w).id = w.id := by
    intro w
    by_cases h : w = u
    · subst h
      simp
    · simp [h]
  simp [HasUnit, reparent, he]

theorem UnitsOk.move (h : UnitsOk db) (hm : db.Movable u q) :
    UnitsOk (reparent u q db) := by
  have hmem := fun w => mem_reparent (q := q) (w := w) hm.mem
  have hpar : ∀ {c parent}, db.ParentExists c parent →
      (reparent u q db).ParentExists c parent := by
    rintro c (_ | p) hp
    · trivial
    · exact reparent_hasUnit.mpr hp
  constructor
  · intro v hv w hw he
    rcases (hmem v).mp hv with ⟨hv, hvu⟩ | rfl <;> rcases (hmem w).mp hw with ⟨hw, hwu⟩ | rfl
    · exact h.idUnique v hv w hw he
    · exact absurd (h.idUnique v hv u hm.mem he) hvu
    · exact absurd (h.idUnique u hm.mem w hw he).symm hwu
    · rfl
  · intro v hv
    rcases (hmem v).mp hv with ⟨hv, -⟩ | rfl
    · exact h.companyKnown v hv
    · exact h.companyKnown u hm.mem
  · intro v hv
    rcases (hmem v).mp hv with ⟨hv, -⟩ | rfl
    · exact hpar (h.parentKnown v hv)
    · exact hpar hm.parentKnown
  · intro v hv
    rcases (hmem v).mp hv with ⟨hv, -⟩ | rfl
    · exact h.shape v hv
    · exact .inr ⟨hm.notRoot, by simp⟩
  · intro v hv w hw hc hvp hwp
    rcases (hmem v).mp hv with ⟨hv, -⟩ | rfl <;> rcases (hmem w).mp hw with ⟨hw, -⟩ | rfl
    · exact h.rootUnique v hv w hw hc hvp hwp
    · simp at hwp
    · simp at hvp
    · rfl

/-- After the move the unit hangs under its new parent. -/
theorem move_parentOf (h : UnitsOk db) (hm : db.Movable u q) :
    (reparent u q db).parentOf u.companyId u.id = some q :=
  (h.move hm).parentOf_of_mem (u := { u with parentId := some q })
    ((mem_reparent hm.mem).mpr (.inr rfl))

/-- The other units keep their parents. -/
theorem move_parentOf_of_ne (h : UnitsOk db) (hm : db.Movable u q) {c x : Uuid}
    (hx : ¬(u.companyId = c ∧ u.id = x)) :
    (reparent u q db).parentOf c x = db.parentOf c x := by
  by_cases hux : db.HasUnit c x
  · obtain ⟨w, hw, rfl, rfl⟩ := hux
    have hwu : w ≠ u := by
      rintro rfl
      exact hx ⟨rfl, rfl⟩
    have hw' : w ∈ (reparent u q db).orgUnits := (mem_reparent hm.mem).mpr (.inl ⟨hw, hwu⟩)
    rw [h.parentOf_of_mem hw, (h.move hm).parentOf_of_mem hw']
  · rw [parentOf_of_not_hasUnit hux,
      parentOf_of_not_hasUnit fun h' => hux (reparent_hasUnit.mp h')]

/-- The new parent is not in the moved subtree: that is what the guard read in the closure table. -/
theorem Movable.not_below (hm : db.Movable u q) (h : TreeOk db) :
    ¬Below (db.parentOf u.companyId) u.id q := by
  rintro ⟨k, hk⟩
  have hrow := (h.closureExact u.companyId u.id q k).mpr ⟨hm.parentKnown, hk⟩
  obtain rfl : k = 0 := hm.noCycle _ hrow rfl rfl rfl
  exact hm.notSelf (by simpa using hk.symm)

/-- The subtree read from the closure table is the set of units below the moved one. -/
theorem mem_subtree (h : TreeOk db) {c n x : Uuid} :
    x ∈ (descendantRows db c n).map ClosureRow.descendantId ↔
      db.HasUnit c x ∧ Below (db.parentOf c) n x := by
  simp only [descendantRows, List.mem_map, List.mem_filter, decide_eq_true_eq]
  constructor
  · rintro ⟨⟨rc, ra, rd, k⟩, ⟨hr, rfl, rfl⟩, rfl⟩
    obtain ⟨hx, ha⟩ := (h.closureExact ..).mp hr
    exact ⟨hx, k, ha⟩
  · rintro ⟨hx, k, ha⟩
    exact ⟨⟨c, n, x, k⟩, ⟨(h.closureExact ..).mpr ⟨hx, ha⟩, rfl, rfl⟩, rfl⟩

theorem mem_deleteOldLinks (h : TreeOk db) {c n c' a d : Uuid} {k : Nat} :
    ⟨c', a, d, k⟩ ∈ (deleteOldLinks c n db).closure ↔ db.Reaches c' d k a ∧
      (c' = c → Below (db.parentOf c) n d → Below (db.parentOf c) n a) := by
  simp only [deleteOldLinks, List.mem_filter, decide_eq_true_eq, mem_subtree h, h.closureExact]
  refine and_congr_right fun hr => ?_
  constructor
  · rintro hn rfl hd
    by_contra ha
    exact hn ⟨rfl, ⟨hr.1, hd⟩, fun h' => ha h'.2⟩
  · rintro himp ⟨rfl, ⟨-, hd⟩, hna⟩
    exact hna ⟨h.hasUnit_ancestor hr.1 hr.2, himp rfl hd⟩

theorem mem_newLinks (h : TreeOk db) (hm : db.Movable u q) {c a d : Uuid} {k : Nat} :
    ⟨c, a, d, k⟩ ∈ newLinks (deleteOldLinks u.companyId u.id db) u.companyId u.id q ↔
      c = u.companyId ∧ ∃ i j, db.Reaches c q i a ∧ db.Reaches c d j u.id ∧ k = i + j + 1 := by
  simp only [newLinks, ancestorRows, descendantRows, List.mem_flatMap, List.mem_filter,
    List.mem_map, decide_eq_true_eq, ClosureRow.mk.injEq]
  constructor
  · rintro ⟨⟨_, _, _, i⟩, ⟨ha, rfl, rfl⟩, ⟨_, _, _, j⟩, ⟨hd, rfl, he⟩, rfl, rfl, rfl, rfl⟩
    simp only at he
    subst he
    exact ⟨rfl, i, j, ((mem_deleteOldLinks h).mp ha).1, ((mem_deleteOldLinks h).mp hd).1, rfl⟩
  · rintro ⟨rfl, i, j, ha, hd, rfl⟩
    refine ⟨⟨_, a, q, i⟩, ⟨(mem_deleteOldLinks h).mpr ⟨ha, ?_⟩, rfl, rfl⟩,
      ⟨_, u.id, d, j⟩, ⟨(mem_deleteOldLinks h).mpr ⟨hd, ?_⟩, rfl, rfl⟩, rfl, rfl, rfl, rfl⟩
    · exact fun _ hq => absurd hq (hm.not_below h)
    · exact fun _ _ => Below.refl

/-- The rows of the closure table after a move are the paths of the moved tree. -/
theorem mem_movedClosure (h : TreeOk db) (hm : db.Movable u q) {c a d : Uuid} {k : Nat} :
    ⟨c, a, d, k⟩ ∈ movedClosure db u.companyId u.id q ↔
      (reparent u q db).Reaches c d k a := by
  have hreach : (reparent u q db).Reaches c d k a ↔
      db.HasUnit c d ∧ ancestor ((reparent u q db).parentOf c) k d = some a := by
    rw [Reaches, reparent_hasUnit]
  rw [movedClosure, List.mem_append, mem_deleteOldLinks h, mem_newLinks h hm, hreach]
  by_cases hc : u.companyId = c
  · subst hc
    have hac := h.acyclic u.companyId
    have hq := hm.not_below h
    have hn := move_parentOf h.toUnitsOk hm
    have hoff : ∀ x, x ≠ u.id → (reparent u q db).parentOf
        u.companyId x = db.parentOf u.companyId x :=
      fun x hx => move_parentOf_of_ne h.toUnitsOk hm fun he => hx he.2.symm
    by_cases hd : Below (db.parentOf u.companyId) u.id d
    · obtain ⟨j, hj⟩ := hd
      by_cases hk : k ≤ j
      · -- up to the moved unit the path is the old one, and it stays inside the subtree
        obtain ⟨i, rfl⟩ := Nat.exists_eq_add_of_le hk
        rw [ancestor_hang_of_le hoff hac hj hk]
        constructor
        · rintro (⟨hr, -⟩ | ⟨-, i', j', -, hr, he⟩)
          · exact hr
          · have := hac.depth_unique hr.2 hj
            omega
        · intro hr
          exact .inl ⟨hr, fun _ _ => ⟨i, ancestor_sub hr.2 hj⟩⟩
      · -- past the moved unit it is the path of the new parent
        obtain ⟨i, rfl⟩ : ∃ i, k = j + 1 + i := ⟨k - j - 1, by omega⟩
        rw [ancestor_hang_beyond hn hoff hq hac hj]
        constructor
        · rintro (⟨hr, hin⟩ | ⟨-, i', j', hra, hrd, he⟩)
          · obtain ⟨i', hi'⟩ := hin rfl ⟨j, hj⟩
            have hji : ancestor (db.parentOf u.companyId) (j + 1 + i + i') d = some u.id := by
              rw [ancestor_add_of hr.2, hi']
            have := hac.depth_unique hji hj
            omega
          · obtain rfl := hac.depth_unique hrd.2 hj
            obtain rfl : i = i' := by omega
            exact ⟨hrd.1, hra.2⟩
        · rintro ⟨hd, ha⟩
          exact .inr ⟨rfl, i, j, ⟨hm.parentKnown, ha⟩, ⟨hd, hj⟩, by omega⟩
    · -- outside the subtree nothing changes
      rw [ancestor_hang_of_not_below hoff hd]
      constructor
      · rintro (⟨hr, -⟩ | ⟨-, i, j, -, hr, -⟩)
        · exact hr
        · exact absurd ⟨j, hr.2⟩ hd
      · exact fun hr => .inl ⟨hr, fun _ hb => absurd hb hd⟩
  · have hp : (reparent u q db).parentOf c = db.parentOf c := by
      funext x
      exact move_parentOf_of_ne h.toUnitsOk hm fun he => hc he.1
    rw [hp]
    constructor
    · rintro (⟨hr, -⟩ | ⟨he, -⟩)
      · exact hr
      · exact absurd he.symm hc
    · exact fun hr => .inl ⟨hr, fun he => absurd he.symm hc⟩

theorem Movable.acyclic (hm : db.Movable u q) (h : TreeOk db) (c : Uuid) :
    Acyclic ((reparent u q db).parentOf c) := by
  by_cases hc : u.companyId = c
  · subst hc
    exact (h.acyclic u.companyId).hang (move_parentOf h.toUnitsOk hm)
      (fun x hx => move_parentOf_of_ne h.toUnitsOk hm fun he => hx he.2.symm) (hm.not_below h)
  · have hp : (reparent u q db).parentOf c = db.parentOf c := by
      funext x
      exact move_parentOf_of_ne h.toUnitsOk hm fun he => hc he.1
    rw [hp]
    exact h.acyclic c

theorem TreeOk.move (h : TreeOk db) (hm : db.Movable u q) :
    TreeOk { reparent u q db with
      closure := movedClosure db u.companyId u.id q } where
  toUnitsOk := by
    obtain ⟨h1, h2, h3, h4, h5⟩ := h.toUnitsOk.move hm
    exact ⟨h1, h2, h3, h4, h5⟩
  acyclic := hm.acyclic h
  closureExact := fun _ _ _ _ => mem_movedClosure h hm

end Move

/-- A successful move keeps the tree. -/
theorem TreeOk.moveOrgUnit {db db' : OrgDb} {c n q : Uuid} (h : TreeOk db)
    (hok : Wikore.moveOrgUnit c n q db = .ok () db') : TreeOk db' := by
  obtain rfl | ⟨u, rfl, rfl, hm, rfl⟩ := moveOrgUnit_ok hok
  · exact h
  · exact (h.move hm).congr rfl rfl fun c hc => (bumpAclEpoch_hasCompany ..).mpr hc

end OrgDb

/-! ### Deleting a unit -/

/-- A set of units that can go together: it holds the children of its members and no root. -/
structure OrgDb.Removable (db : OrgDb) (gone : List OrgUnit) : Prop where
  mem : ∀ v ∈ gone, v ∈ db.orgUnits
  children : ∀ v ∈ gone, ∀ w ∈ db.orgUnits, w.companyId = v.companyId →
    w.parentId = some v.id → w ∈ gone
  notRoot : ∀ v ∈ gone, v.parentId ≠ none

/-- The tables without the units `gone` and without the closure rows that mention them. -/
def removeUnits (gone : List OrgUnit) (db : OrgDb) : OrgDb :=
  { db with
    orgUnits := db.orgUnits.filter (· ∉ gone)
    closure := db.closure.filter fun r =>
      ¬∃ v ∈ gone, v.companyId = r.companyId ∧ (v.id = r.ancestorId ∨ v.id = r.descendantId) }

theorem mem_cascade {c : Uuid} {fuel : Nat} {gone : List Uuid} {units : List OrgUnit} {v : OrgUnit}
    (h : v ∈ cascade c fuel gone units) : v ∈ units ∧ v.companyId = c ∧ v.parentId ≠ none := by
  induction fuel generalizing gone units with
  | zero => simp [cascade] at h
  | succ fuel ih =>
    simp only [cascade] at h
    split at h
    · simp at h
    · rcases List.mem_append.mp h with h | h
      · simp only [List.mem_filter, decide_eq_true_eq] at h
        refine ⟨h.1, h.2.1, fun hn => ?_⟩
        simp [hn] at h
      · obtain ⟨hv, hrest⟩ := ih h
        exact ⟨(List.mem_filter.mp hv).1, hrest⟩

/-- With as much fuel as there are units, the cascade reaches every unit under a deleted one. -/
theorem cascade_children {c p : Uuid} {fuel : Nat} {gone : List Uuid} {units : List OrgUnit}
    (hfuel : units.length ≤ fuel) {w : OrgUnit} (hw : w ∈ units) (hc : w.companyId = c)
    (hp : w.parentId = some p)
    (hgone : p ∈ gone ∨ ∃ v ∈ cascade c fuel gone units, v.id = p) :
    w ∈ cascade c fuel gone units := by
  induction fuel generalizing gone units with
  | zero =>
    obtain rfl : units = [] := List.eq_nil_of_length_eq_zero (by omega)
    simp at hw
  | succ fuel ih =>
    simp only [cascade] at hgone ⊢
    split
    · rename_i hnil
      rw [if_pos hnil] at hgone
      rcases hgone with hgone | ⟨v, hv, -⟩
      · have hhit : w ∈ units.filter fun u => u.companyId = c ∧ u.parentId ∈ gone.map some := by
          simp [hw, hc, hp, hgone]
        rw [hnil] at hhit
        simp at hhit
      · simp at hv
    · rename_i hcons
      rw [if_neg hcons] at hgone
      generalize hhit : (units.filter fun u =>
        decide (u.companyId = c ∧ u.parentId ∈ gone.map some)) = hit at hcons hgone ⊢
      by_cases hin : w ∈ hit
      · exact List.mem_append.mpr (.inl hin)
      · refine List.mem_append.mpr (.inr (ih ?_ (by simp [hw, hin]) ?_))
        · obtain ⟨y, hy⟩ := List.exists_mem_of_ne_nil hit hcons
          have hyu : y ∈ units := by
            rw [← hhit] at hy
            exact (List.mem_filter.mp hy).1
          have : (units.filter fun u => decide (u ∉ hit)).length < units.length :=
            List.length_filter_lt_length_iff_exists.mpr ⟨y, hyu, by simp [hy]⟩
          omega
        · rcases hgone with hgone | ⟨v, hv, rfl⟩
          · refine absurd ?_ hin
            rw [← hhit]
            simp [hw, hc, hp, hgone]
          · rcases List.mem_append.mp hv with hv | hv
            · exact .inl (List.mem_map.mpr ⟨v, hv, rfl⟩)
            · exact .inr ⟨v, hv, rfl⟩

/-- The unit and the units that the cascade deletes after it. -/
def deletedUnits (db : OrgDb) (u : OrgUnit) : List OrgUnit :=
  u :: cascade u.companyId (db.orgUnits.filter (· ≠ u)).length [u.id] (db.orgUnits.filter (· ≠ u))

theorem mem_deletedUnits {db : OrgDb} {u v : OrgUnit} (hu : u ∈ db.orgUnits)
    (hv : v ∈ deletedUnits db u) : v ∈ db.orgUnits ∧ v.companyId = u.companyId := by
  rcases List.mem_cons.mp hv with rfl | hv
  · exact ⟨hu, rfl⟩
  · obtain ⟨hmem, hc, -⟩ := mem_cascade hv
    exact ⟨(List.mem_filter.mp hmem).1, hc⟩

/-- What a successful `DELETE FROM org_units` did. -/
theorem deleteOrgUnit_ok {c x : Uuid} {restricted : List Uuid} {db db' : OrgDb}
    (h : deleteOrgUnit c x restricted db = .ok () db') :
    db' = db ∨ ∃ u ∈ db.orgUnits, u.companyId = c ∧ ¬(u.type = .root ∧ db.HasCompany c) ∧
      db' = bumpAclEpoch c (deletedUnits db u).length (removeUnits (deletedUnits db u) db) := by
  simp only [deleteOrgUnit, bind_ok, get_ok] at h
  obtain ⟨_, _, ⟨rfl, rfl⟩, h⟩ := h
  cases hf : db.findUnit c x with
  | none =>
    simp only [hf, pure_ok] at h
    exact .inl h.2.symm
  | some u =>
    obtain ⟨hu, rfl, rfl⟩ := OrgDb.findUnit_some hf
    simp only [hf, bind_ok, raiseIf_ok, modify_ok] at h
    obtain ⟨_, _, ⟨hroot, rfl⟩, _, _, ⟨-, rfl⟩, _, _, rfl, rfl⟩ := h
    exact .inr ⟨u, hu, rfl, hroot, rfl⟩

theorem OrgDb.UnitsOk.deletedUnits_removable {db : OrgDb} (h : db.UnitsOk) {u : OrgUnit}
    (hu : u ∈ db.orgUnits) (hroot : ¬(u.type = .root ∧ db.HasCompany u.companyId)) :
    db.Removable (deletedUnits db u) := by
  refine ⟨fun v hv => (mem_deletedUnits hu hv).1, ?_, ?_⟩
  · intro v hv w hw hc hp
    by_cases hwu : w = u
    · exact List.mem_cons.mpr (.inl hwu)
    · refine List.mem_cons.mpr (.inr (cascade_children (Nat.le_refl _) (by simp [hw, hwu])
        (hc.trans (mem_deletedUnits hu hv).2) hp ?_))
      rcases List.mem_cons.mp hv with rfl | hv
      · exact .inl (by simp)
      · exact .inr ⟨v, hv, rfl⟩
  · intro v hv
    rcases List.mem_cons.mp hv with rfl | hv
    · exact fun hn => hroot ⟨OrgDb.type_of_parent_none (h.shape v hu) hn, h.companyKnown v hu⟩
    · exact (mem_cascade hv).2.2

namespace OrgDb

section Remove

variable {db : OrgDb} {gone : List OrgUnit}

theorem mem_removeUnits {w : OrgUnit} :
    w ∈ (removeUnits gone db).orgUnits ↔ w ∈ db.orgUnits ∧ w ∉ gone := by
  simp [removeUnits]

/-- The parent of a unit that stays, stays. -/
theorem Removable.parent_stays (hr : db.Removable gone) {w : OrgUnit} (hw : w ∈ db.orgUnits)
    (hstay : w ∉ gone) (h : db.ParentExists w.companyId w.parentId) :
    (removeUnits gone db).ParentExists w.companyId w.parentId := by
  cases hp : w.parentId with
  | none => trivial
  | some p =>
    rw [hp] at h
    obtain ⟨v, hv, hc, rfl⟩ := h
    exact ⟨v, mem_removeUnits.mpr ⟨hv, fun hg => hstay (hr.children v hg w hw hc.symm hp)⟩, hc, rfl⟩

theorem UnitsOk.remove (h : UnitsOk db) (hr : db.Removable gone) :
    UnitsOk (removeUnits gone db) where
  idUnique := fun v hv w hw =>
    h.idUnique v (mem_removeUnits.mp hv).1 w (mem_removeUnits.mp hw).1
  companyKnown := fun v hv => h.companyKnown v (mem_removeUnits.mp hv).1
  parentKnown := fun v hv => by
    obtain ⟨hv, hstay⟩ := mem_removeUnits.mp hv
    exact hr.parent_stays hv hstay (h.parentKnown v hv)
  shape := fun v hv => h.shape v (mem_removeUnits.mp hv).1
  rootUnique := fun v hv w hw =>
    h.rootUnique v (mem_removeUnits.mp hv).1 w (mem_removeUnits.mp hw).1

theorem removeUnits_parentOf (h : UnitsOk db) (hr : db.Removable gone) {c x : Uuid}
    (hx : (removeUnits gone db).HasUnit c x) :
    (removeUnits gone db).parentOf c x = db.parentOf c x := by
  obtain ⟨v, hv, rfl, rfl⟩ := hx
  rw [(h.remove hr).parentOf_of_mem hv, h.parentOf_of_mem (mem_removeUnits.mp hv).1]

theorem removeUnits_ancestor (h : UnitsOk db) (hr : db.Removable gone) {c d : Uuid} {k : Nat}
    (hd : (removeUnits gone db).HasUnit c d) :
    ancestor ((removeUnits gone db).parentOf c) k d = ancestor (db.parentOf c) k d := by
  refine (ancestor_congr fun i _ b hb => ?_).symm
  exact (removeUnits_parentOf h hr ((h.remove hr).hasUnit_ancestor hd hb)).symm

theorem removeUnits_acyclic (h : TreeOk db) (hr : db.Removable gone) (c : Uuid) :
    Acyclic ((removeUnits gone db).parentOf c) := by
  refine (h.acyclic c).mono fun x p hp => ?_
  by_cases hx : (removeUnits gone db).HasUnit c x
  · rwa [removeUnits_parentOf h.toUnitsOk hr hx] at hp
  · simp [parentOf_of_not_hasUnit hx] at hp

/-- A unit stays when it existed and no deleted row is its own. -/
theorem removeUnits_hasUnit (h : UnitsOk db) (hr : db.Removable gone) {c x : Uuid} :
    (removeUnits gone db).HasUnit c x ↔
      db.HasUnit c x ∧ ¬∃ v ∈ gone, v.companyId = c ∧ v.id = x := by
  constructor
  · rintro ⟨w, hw, rfl, rfl⟩
    obtain ⟨hw, hstay⟩ := mem_removeUnits.mp hw
    refine ⟨⟨w, hw, rfl, rfl⟩, ?_⟩
    rintro ⟨v, hv, -, hid⟩
    exact hstay (h.idUnique v (hr.mem v hv) w hw hid ▸ hv)
  · rintro ⟨⟨w, hw, rfl, rfl⟩, hn⟩
    exact ⟨w, mem_removeUnits.mpr ⟨hw, fun hg => hn ⟨w, hg, rfl, rfl⟩⟩, rfl, rfl⟩

theorem TreeOk.remove (h : TreeOk db) (hr : db.Removable gone) :
    TreeOk (removeUnits gone db) where
  toUnitsOk := h.toUnitsOk.remove hr
  acyclic := removeUnits_acyclic h hr
  closureExact := by
    intro c a d k
    have hrow : ⟨c, a, d, k⟩ ∈ (removeUnits gone db).closure ↔ db.Reaches c d k a ∧
        ¬∃ v ∈ gone, v.companyId = c ∧ (v.id = a ∨ v.id = d) := by
      simp [removeUnits, h.closureExact]
    rw [hrow, Reaches, Reaches]
    constructor
    · rintro ⟨⟨hd, ha⟩, hn⟩
      have hd' : (removeUnits gone db).HasUnit c d :=
        (removeUnits_hasUnit h.toUnitsOk hr).mpr ⟨hd, fun ⟨v, hv, hc, hid⟩ => hn ⟨v, hv, hc, .inr hid⟩⟩
      exact ⟨hd', by rw [removeUnits_ancestor h.toUnitsOk hr hd', ha]⟩
    · rintro ⟨hd', ha'⟩
      have ha := (h.toUnitsOk.remove hr).hasUnit_ancestor hd' ha'
      obtain ⟨hd, hnd⟩ := (removeUnits_hasUnit h.toUnitsOk hr).mp hd'
      obtain ⟨-, hna⟩ := (removeUnits_hasUnit h.toUnitsOk hr).mp ha
      rw [removeUnits_ancestor h.toUnitsOk hr hd'] at ha'
      refine ⟨⟨hd, ha'⟩, ?_⟩
      rintro ⟨v, hv, hc, hid | hid⟩
      · exact hna ⟨v, hv, hc, hid⟩
      · exact hnd ⟨v, hv, hc, hid⟩

end Remove

/-! ### Every run -/

section Run

variable {db db' : OrgDb}

/-- The invariant does not read the transaction-local setting. -/
theorem Consistent.setAllowMove (h : Consistent db) (b : Bool) :
    Consistent { db with allowMove := b } :=
  { toTreeOk := h.toTreeOk.congr rfl rfl fun _ hc => hc, rootExists := h.rootExists }

/-- Roots that stay, in companies that existed. -/
theorem RootExists.mono (h : RootExists db) (hco : ∀ c, db'.HasCompany c → db.HasCompany c)
    (hu : ∀ u ∈ db.orgUnits, u.parentId = none → u ∈ db'.orgUnits) : RootExists db' := by
  intro c hc
  obtain ⟨u, hmem, huc, hp⟩ := h c (hco c hc)
  exact ⟨u, hu u hmem hp, huc, hp⟩

theorem Consistent.insertOrgUnit {u : OrgUnit} (h : Consistent db)
    (hok : Wikore.insertOrgUnit u db = .ok () db') : Consistent db' := by
  refine ⟨h.toTreeOk.insertOrgUnit hok, ?_⟩
  obtain ⟨-, rfl⟩ := insertOrgUnit_ok hok
  refine h.rootExists.mono (fun c hc => (bumpAclEpoch_hasCompany ..).mp hc) fun v hv _ => ?_
  exact List.mem_append.mpr (.inl hv)

theorem Consistent.moveOrgUnit {c n q : Uuid} (h : Consistent db)
    (hok : Wikore.moveOrgUnit c n q db = .ok () db') : Consistent db' := by
  refine ⟨h.toTreeOk.moveOrgUnit hok, ?_⟩
  obtain rfl | ⟨u, rfl, rfl, hm, rfl⟩ := moveOrgUnit_ok hok
  · exact h.rootExists
  · refine h.rootExists.mono (fun c hc => (bumpAclEpoch_hasCompany ..).mp hc) fun v hv hp => ?_
    refine (mem_reparent hm.mem).mpr (.inl ⟨hv, ?_⟩)
    rintro rfl
    exact hm.notRoot (type_of_parent_none (h.shape v hv) hp)

theorem Consistent.deleteOrgUnit {c x : Uuid} {restricted : List Uuid} (h : Consistent db)
    (hok : Wikore.deleteOrgUnit c x restricted db = .ok () db') : Consistent db' := by
  obtain rfl | ⟨u, hu, rfl, hroot, rfl⟩ := deleteOrgUnit_ok hok
  · exact h
  · have hr := h.toUnitsOk.deletedUnits_removable hu hroot
    refine ⟨(h.toTreeOk.remove hr).congr rfl rfl fun c hc => (bumpAclEpoch_hasCompany ..).mpr hc, ?_⟩
    refine h.rootExists.mono (fun c hc => (bumpAclEpoch_hasCompany ..).mp hc) fun v hv hp => ?_
    exact mem_removeUnits.mpr ⟨hv, fun hg => hr.notRoot v hg hp⟩

/-- A new company comes with its root unit, by the trigger. -/
theorem Consistent.createCompany {id rootId : Uuid} {name slug : String} (h : Consistent db)
    (hok : Wikore.createCompany id name slug rootId db = .ok () db') : Consistent db' := by
  simp only [Wikore.createCompany, bind_ok, get_ok, raiseIf_ok, modify_ok] at hok
  obtain ⟨_, _, ⟨rfl, rfl⟩, _, _, ⟨-, rfl⟩, _, _, ⟨-, rfl⟩, _, _, rfl, hins⟩ := hok
  have htree : TreeOk { db with companies := db.companies ++ [{ id, name, slug }] } := by
    refine h.toTreeOk.congr rfl rfl ?_
    rintro c ⟨co, hco, hid⟩
    exact ⟨co, List.mem_append.mpr (.inl hco), hid⟩
  refine ⟨htree.insertOrgUnit hins, ?_⟩
  obtain ⟨-, rfl⟩ := insertOrgUnit_ok hins
  intro c hc
  obtain ⟨co, hco, rfl⟩ := (bumpAclEpoch_hasCompany ..).mp hc
  rcases List.mem_append.mp hco with hco | hco
  · obtain ⟨v, hv, hvc⟩ := h.rootExists co.id ⟨co, hco, rfl⟩
    exact ⟨v, List.mem_append.mpr (.inl hv), hvc⟩
  · obtain rfl : co = { id, name, slug } := by simpa using hco
    exact ⟨_, List.mem_append.mpr (.inr (List.mem_singleton.mpr rfl)), rfl, rfl⟩

/-- Every operation keeps the invariant. -/
theorem Consistent.transaction {op : OrgOp} (h : Consistent db)
    (hok : op.transaction db = .ok () db') : Consistent db' := by
  cases op with
  | createCompany id name slug rootId =>
    obtain ⟨_, db1, h1, h2⟩ := bind_ok.mp hok
    rw [← modify_ok.mp h2]
    exact (h.createCompany h1).setAllowMove false
  | insertOrgUnit u =>
    obtain ⟨_, db1, h1, h2⟩ := bind_ok.mp hok
    rw [← modify_ok.mp h2]
    exact (h.insertOrgUnit h1).setAllowMove false
  | deleteOrgUnit c x restricted =>
    obtain ⟨_, db1, h1, h2⟩ := bind_ok.mp hok
    rw [← modify_ok.mp h2]
    exact (h.deleteOrgUnit h1).setAllowMove false
  | moveOrgUnit c n q =>
    obtain ⟨_, db1, h1, h2⟩ := bind_ok.mp hok
    rw [← modify_ok.mp h2]
    exact (h.moveOrgUnit h1).setAllowMove false

theorem Consistent.run (h : Consistent db) (ops : List OrgOp) : Consistent (db.run ops) := by
  refine execAll_preserves h fun m hm t t' ht hok => ?_
  obtain ⟨op, -, rfl⟩ := List.mem_map.mp hm
  exact ht.transaction hok

end Run

end OrgDb

/-- After every sequence of operations on a fresh schema: the closure table holds exactly the paths
along `parent_id`, with their lengths; no company's parent graph has a cycle; every company has
exactly one root; and a `move_org_unit` that raises leaves both tables as they were. -/
theorem orgTree_exact (ops : List OrgOp) :
    (∀ c a d k, ⟨c, a, d, k⟩ ∈ (OrgDb.empty.run ops).closure ↔
        (OrgDb.empty.run ops).Reaches c d k a) ∧
      (∀ c, Acyclic ((OrgDb.empty.run ops).parentOf c)) ∧
      (∀ c, (OrgDb.empty.run ops).HasCompany c →
        ∃! u, u ∈ (OrgDb.empty.run ops).orgUnits ∧ u.companyId = c ∧ u.parentId = none) ∧
      ∀ c n q e, (exec (OrgOp.moveOrgUnit c n q).transaction (OrgDb.empty.run ops)).2 = some e →
        (exec (OrgOp.moveOrgUnit c n q).transaction (OrgDb.empty.run ops)).1.orgUnits =
            (OrgDb.empty.run ops).orgUnits ∧
          (exec (OrgOp.moveOrgUnit c n q).transaction (OrgDb.empty.run ops)).1.closure =
            (OrgDb.empty.run ops).closure := by
  have h := OrgDb.empty_consistent.run ops
  refine ⟨h.closureExact, h.acyclic, fun c hc => ?_, fun c n q e he => ?_⟩
  · obtain ⟨u, hu, rfl, hp⟩ := h.rootExists c hc
    exact ⟨u, ⟨hu, rfl, hp⟩, fun v ⟨hv, hvc, hvp⟩ => h.rootUnique v hv u hu hvc hvp hp⟩
  · rw [exec_raised he]
    exact ⟨rfl, rfl⟩

/-- A project under a team, moved to the root. -/
example :
    ancestorRows (OrgDb.empty.run [.createCompany 1 "Acme" "acme" 10,
        .insertOrgUnit ⟨11, 1, some 10, .team, "team", "Team"⟩,
        .insertOrgUnit ⟨12, 1, some 11, .project, "project", "Project"⟩,
        .moveOrgUnit 1 12 10]) 1 12 =
      [⟨1, 12, 12, 0⟩, ⟨1, 10, 12, 1⟩] := by
  decide

end Wikore
