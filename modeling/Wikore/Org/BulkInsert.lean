import Wikore.Org.Closure
import Mathlib.Data.List.Nodup

/-! An `INSERT INTO org_units` of several rows: all of them are in the table before the triggers of
the first one fire.  The closure table stays exact where no row stands before the row of its parent,
and only there. -/

namespace Wikore

open Statement ParentForest

/-- One row of an `INSERT INTO org_units`, before its triggers. -/
def insertOrgUnitRow (u : OrgUnit) : OrgStmt Unit := do
  let db ← get
  raiseIf (¬rootParentShape u) (.checkViolation "org_units_root_parent_shape_chk")
  raiseIf (∃ v ∈ db.orgUnits, v.id = u.id) (.uniqueViolation "org_units_pkey")
  raiseIf (∃ v ∈ db.orgUnits, slugKey v = slugKey u) (.uniqueViolation "org_units_parent_slug_uidx")
  raiseIf (u.type = .root ∧ ∃ v ∈ db.orgUnits, v.companyId = u.companyId ∧ v.type = .root)
    (.uniqueViolation "org_units_one_root_per_company_uidx")
  modify fun db => { db with orgUnits := db.orgUnits ++ [u] }

/-- The triggers after the row, those of its foreign keys first. -/
def afterOrgUnitInsert (u : OrgUnit) : OrgStmt Unit := do
  let db ← get
  raiseIf (¬db.HasCompany u.companyId) (.foreignKeyViolation "org_units_company_id_fkey")
  raiseIf (¬db.ParentExists u.companyId u.parentId)
    (.foreignKeyViolation "org_units_parent_same_company_fk")
  modify (bumpAclEpoch u.companyId 1)
  orgUnitClosureOnInsert u

/-- `INSERT INTO org_units VALUES ...`. -/
def insertOrgUnits (us : List OrgUnit) : OrgStmt Unit := do
  forEach insertOrgUnitRow us
  forEach afterOrgUnitInsert us

/-- No row stands before the row of its parent. -/
def ParentFirst (us : List OrgUnit) : Prop := us.Pairwise fun u v => u.parentId ≠ some v.id

instance (us : List OrgUnit) : Decidable (ParentFirst us) := inferInstanceAs (Decidable (us.Pairwise _))

/-! ### The rows -/

/-- The checks of the rows, each in the table with those before it. -/
def RowsChecked (db : OrgDb) : List OrgUnit → Prop
  | [] => True
  | u :: us => (rootParentShape u ∧ (∀ v ∈ db.orgUnits, v.id ≠ u.id) ∧
      (u.type = .root → ∀ v ∈ db.orgUnits, v.companyId = u.companyId → v.type ≠ .root)) ∧
    RowsChecked (addUnit u db) us

section Rows

variable {db db' : OrgDb} {u : OrgUnit} {us : List OrgUnit}

/-- The checks read the units. -/
theorem RowsChecked.congr (h : RowsChecked db us) (hu : db'.orgUnits = db.orgUnits) :
    RowsChecked db' us := by
  induction us generalizing db db' with
  | nil => trivial
  | cons u us ih =>
    refine ⟨by rw [hu]; exact h.1, ih h.2 ?_⟩
    rw [addUnit, addUnit, hu]

theorem forEach_insertOrgUnitRow_ok (h : forEach insertOrgUnitRow us db = .ok () db') :
    RowsChecked db us ∧ db' = { db with orgUnits := db.orgUnits ++ us } := by
  induction us generalizing db with
  | nil =>
    obtain ⟨-, rfl⟩ := pure_ok.mp h
    exact ⟨trivial, by rw [List.append_nil]⟩
  | cons u us ih =>
    obtain ⟨_, db1, h1, h2⟩ := bind_ok.mp h
    simp only [insertOrgUnitRow, get_bind_ok, raiseIf_bind_ok, modify_ok] at h1
    obtain ⟨hshape, hid, -, hroot, rfl⟩ := h1
    obtain ⟨hrest, rfl⟩ := ih h2
    refine ⟨⟨⟨not_not.mp hshape, fun v hv he => hid ⟨v, hv, he⟩,
      fun hr v hv hc ht => hroot ⟨hr, v, hv, hc, ht⟩⟩, hrest⟩, ?_⟩
    simp

/-- The ids of the rows are new, and differ. -/
theorem RowsChecked.ids (h : RowsChecked db us) :
    (us.map OrgUnit.id).Nodup ∧ ∀ u ∈ us, ∀ v ∈ db.orgUnits, v.id ≠ u.id := by
  induction us generalizing db with
  | nil => exact ⟨List.nodup_nil, nofun⟩
  | cons u us ih =>
    obtain ⟨⟨-, hfresh, -⟩, hrest⟩ := h
    obtain ⟨hnodup, hold⟩ := ih hrest
    have hlast : u ∈ (addUnit u db).orgUnits := List.mem_append_right _ List.mem_cons_self
    refine ⟨List.nodup_cons.mpr ⟨fun hmem => ?_, hnodup⟩, List.forall_mem_cons.mpr ⟨hfresh, ?_⟩⟩
    · obtain ⟨v, hv, he⟩ := List.mem_map.mp hmem
      exact hold v hv u hlast he.symm
    · exact fun v hv w hw => hold v hv w (List.mem_append_left _ hw)

theorem RowsChecked.idUnique (h : RowsChecked db us)
    (hdb : ∀ u ∈ db.orgUnits, ∀ v ∈ db.orgUnits, u.id = v.id → u = v) :
    ∀ u ∈ db.orgUnits ++ us, ∀ v ∈ db.orgUnits ++ us, u.id = v.id → u = v := by
  obtain ⟨hnodup, hold⟩ := h.ids
  intro u hu v hv he
  rcases List.mem_append.mp hu with hu | hu <;> rcases List.mem_append.mp hv with hv | hv
  · exact hdb u hu v hv he
  · exact absurd he (hold v hv u hu)
  · exact absurd he.symm (hold u hu v hv)
  · exact List.inj_on_of_nodup_map hnodup hu hv he

end Rows

/-! ### The triggers -/

section Triggers

variable {db db' t t' : OrgDb} {u : OrgUnit} {us : List OrgUnit}

/-- What the triggers of one row checked and did. -/
theorem afterOrgUnitInsert_ok (h : afterOrgUnitInsert u t = .ok () t') :
    t.HasCompany u.companyId ∧ t.ParentExists u.companyId u.parentId ∧ u.parentId ≠ some u.id ∧
      t' = { bumpAclEpoch u.companyId 1 t with closure := t.closure ++ insertedRows t u } := by
  simp only [afterOrgUnitInsert, get_bind_ok, raiseIf_bind_ok, modify_bind_ok, not_not] at h
  obtain ⟨hcompany, hparent, htrigger⟩ := h
  obtain ⟨hself, rfl⟩ := orgUnitClosureOnInsert_ok htrigger
  exact ⟨hcompany, hparent, hself, rfl⟩

/-- A statement with one row is the insertion of that unit. -/
theorem insertOrgUnits_singleton :
    insertOrgUnits [u] db = .ok () db' ↔ insertOrgUnit u db = .ok () db' := by
  have hafter : ∀ s, forEach afterOrgUnitInsert [u] s = .ok () db' ↔
      afterOrgUnitInsert u s = .ok () db' := by
    intro s
    simp only [forEach, bind_ok, pure_ok]
    constructor
    · rintro ⟨_, _, h, -, rfl⟩
      exact h
    · exact fun h => ⟨_, _, h, trivial, rfl⟩
  have hrow : ∀ s, forEach insertOrgUnitRow [u] db = .ok () s ↔
      insertOrgUnitRow u db = .ok () s := by
    intro s
    simp only [forEach, bind_ok, pure_ok]
    constructor
    · rintro ⟨_, _, h, -, rfl⟩
      exact h
    · exact fun h => ⟨_, _, h, trivial, rfl⟩
  simp only [insertOrgUnits, bind_ok (m := forEach insertOrgUnitRow [u]), hafter, hrow, insertOrgUnit,
    insertOrgUnitRow, afterOrgUnitInsert, get_bind_ok, raiseIf_bind_ok, modify_bind_ok, modify_ok]
  constructor
  · rintro ⟨_, s, ⟨hshape, hid, hslug, hroot, rfl⟩, hcompany, hparent, htrigger⟩
    exact ⟨hshape, hid, hslug, hroot, hcompany, hparent, htrigger⟩
  · rintro ⟨hshape, hid, hslug, hroot, hcompany, hparent, htrigger⟩
    exact ⟨(), _, ⟨hshape, hid, hslug, hroot, rfl⟩, hcompany, hparent, htrigger⟩

/-- The triggers leave the units, and the closure rows of other descendants. -/
theorem forEach_afterOrgUnitInsert_ok (h : forEach afterOrgUnitInsert us t = .ok () t') :
    t'.orgUnits = t.orgUnits ∧ t'.allowMove = t.allowMove ∧
      ∀ r ∈ t'.closure, r ∈ t.closure ∨ r.descendantId ∈ us.map OrgUnit.id := by
  let P : List OrgUnit → OrgDb → Prop := fun done s =>
    s.orgUnits = t.orgUnits ∧ s.allowMove = t.allowMove ∧
      ∀ r ∈ s.closure, r ∈ t.closure ∨ r.descendantId ∈ done.map OrgUnit.id
  have hP : P ([] ++ us) t' := by
    refine forEach_ok (P := P) ?_ h ⟨rfl, rfl, fun r hr => .inl hr⟩
    rintro u - done s s' ⟨hunits, hallow, hrows⟩ hu
    obtain ⟨-, -, -, rfl⟩ := afterOrgUnitInsert_ok hu
    refine ⟨hunits, hallow, fun r hr => ?_⟩
    rcases List.mem_append.mp hr with hr | hr
    · exact (hrows r hr).imp_right fun hmem => by simp [List.mem_map.mp hmem]
    · obtain ⟨c, a, d, k⟩ := r
      obtain ⟨-, hd, -⟩ := OrgDb.mem_insertedRows.mp hr
      exact .inr (by simp [hd])
  simpa [P] using hP

/-- In a table with the rows already in it, the triggers build the tree of the rows one by one, as
long as no row stands before the row of its parent. -/
theorem TreeOk.triggers (hdb : db.TreeOk) (hrows : RowsChecked db us) (hfirst : ParentFirst us)
    (h : forEach afterOrgUnitInsert us { db with orgUnits := db.orgUnits ++ us } = .ok () t') :
    t'.TreeOk ∧ ∀ c, t'.HasCompany c → db.HasCompany c := by
  induction us generalizing db with
  | nil =>
    obtain ⟨-, rfl⟩ := pure_ok.mp h
    exact ⟨hdb.congr (List.append_nil _) rfl fun _ hc => hc, fun _ hc => hc⟩
  | cons u us ih =>
    obtain ⟨⟨hshape, hfresh, hroot⟩, hrest⟩ := hrows
    obtain ⟨hlater, hfirst⟩ := List.pairwise_cons.mp hfirst
    obtain ⟨_, t1, h1, h2⟩ := bind_ok.mp h
    obtain ⟨hcompany, hparent, hself, rfl⟩ := afterOrgUnitInsert_ok h1
    have hknown : db.ParentExists u.companyId u.parentId := by
      cases hp : u.parentId with
      | none => trivial
      | some p =>
        rw [hp] at hparent hself
        obtain ⟨v, hv, hc, hid⟩ := hparent
        rcases List.mem_append.mp hv with hv | hv
        · exact ⟨v, hv, hc, hid⟩
        rcases List.mem_cons.mp hv with rfl | hv
        · exact absurd (congrArg some hid.symm) hself
        · exact absurd (hp.trans (congrArg some hid.symm)) (hlater v hv)
    have hins : db.Insertable u := ⟨hshape, hfresh, hroot, hcompany, hknown⟩
    have hnext : OrgDb.TreeOk { bumpAclEpoch u.companyId 1 (addUnit u db) with
        closure := db.closure ++ insertedRows db u } :=
      (hdb.insert hins).congr rfl rfl fun c hc => (bumpAclEpoch_hasCompany ..).mpr hc
    have hrows' : RowsChecked { bumpAclEpoch u.companyId 1 (addUnit u db) with
        closure := db.closure ++ insertedRows db u } us := hrest.congr rfl
    have hsame : ({ bumpAclEpoch u.companyId 1 { db with orgUnits := db.orgUnits ++ u :: us } with
          closure := db.closure ++ insertedRows { db with orgUnits := db.orgUnits ++ u :: us } u } :
            OrgDb) =
        { bumpAclEpoch u.companyId 1 (addUnit u db) with
          closure := db.closure ++ insertedRows db u
          orgUnits := (addUnit u db).orgUnits ++ us } := by
      simp [bumpAclEpoch, addUnit, insertedRows, ancestorRows]
    obtain ⟨htree, hcompanies⟩ := ih hnext hrows' hfirst (hsame ▸ h2)
    exact ⟨htree, fun c hc => (bumpAclEpoch_hasCompany ..).mp (hcompanies c hc)⟩

/-- A row before the row of its parent gets no closure row for it. -/
theorem missing_of_not_parentFirst (hfirst : ¬ParentFirst us) (hnodup : (us.map OrgUnit.id).Nodup)
    (hnew : ∀ r ∈ t.closure, r.descendantId ∉ us.map OrgUnit.id)
    (h : forEach afterOrgUnitInsert us t = .ok () t') :
    ∃ u ∈ us, ∃ p, u.parentId = some p ∧ ∀ k, ⟨u.companyId, p, u.id, k⟩ ∉ t'.closure := by
  induction us generalizing t with
  | nil => exact absurd List.Pairwise.nil hfirst
  | cons u us ih =>
    obtain ⟨_, t1, h1, h2⟩ := bind_ok.mp h
    obtain ⟨-, -, -, rfl⟩ := afterOrgUnitInsert_ok h1
    obtain ⟨hu, hnodup⟩ := List.nodup_cons.mp hnodup
    by_cases hlater : ∀ v ∈ us, u.parentId ≠ some v.id
    · have hrest : ¬ParentFirst us := fun hus => hfirst (List.pairwise_cons.mpr ⟨hlater, hus⟩)
      have hnew' : ∀ r ∈ t.closure ++ insertedRows t u, r.descendantId ∉ us.map OrgUnit.id := by
        rintro ⟨c, a, d, k⟩ hr hmem
        rcases List.mem_append.mp hr with hr | hr
        · exact hnew _ hr (List.mem_cons_of_mem _ hmem)
        · obtain ⟨-, hd, -⟩ := OrgDb.mem_insertedRows.mp hr
          exact hu (hd ▸ hmem)
      obtain ⟨w, hw, hmissing⟩ := ih hrest hnodup hnew' h2
      exact ⟨w, List.mem_cons_of_mem u hw, hmissing⟩
    · push Not at hlater
      obtain ⟨v, hv, hparent⟩ := hlater
      refine ⟨u, List.mem_cons_self, v.id, hparent, fun k hmem => ?_⟩
      have hvmem : v.id ∈ us.map OrgUnit.id := List.mem_map_of_mem hv
      rcases (forEach_afterOrgUnitInsert_ok h2).2.2 _ hmem with hmem | hlate
      · rcases List.mem_append.mp hmem with hold | hmem
        · exact hnew _ hold List.mem_cons_self
        · obtain ⟨-, -, ⟨-, he⟩ | ⟨p, j, hp, -, hrow⟩⟩ := OrgDb.mem_insertedRows.mp hmem
          · exact hu (he ▸ hvmem)
          · obtain rfl : v.id = p := Option.some.inj (hparent.symm.trans hp)
            exact hnew _ hrow (List.mem_cons_of_mem _ hvmem)
      · exact hu hlate

end Triggers

/-! ### The statement -/

namespace OrgDb

variable {db db' : OrgDb} {us : List OrgUnit}

/-- What a statement of several rows did to the units. -/
theorem insertOrgUnits_ok (h : insertOrgUnits us db = .ok () db') :
    db'.orgUnits = db.orgUnits ++ us ∧ db'.allowMove = db.allowMove := by
  obtain ⟨_, t, hrows, htriggers⟩ := bind_ok.mp h
  obtain ⟨-, rfl⟩ := forEach_insertOrgUnitRow_ok hrows
  obtain ⟨hunits, hallow, -⟩ := forEach_afterOrgUnitInsert_ok htriggers
  exact ⟨hunits, hallow⟩

theorem Consistent.insertOrgUnits (hdb : db.Consistent) (hfirst : ParentFirst us)
    (h : Wikore.insertOrgUnits us db = .ok () db') : db'.Consistent := by
  have hunits := (insertOrgUnits_ok h).1
  obtain ⟨_, t, hrows, htriggers⟩ := bind_ok.mp h
  obtain ⟨hchecked, rfl⟩ := forEach_insertOrgUnitRow_ok hrows
  obtain ⟨htree, hcompanies⟩ := TreeOk.triggers hdb.toTreeOk hchecked hfirst htriggers
  refine ⟨htree, hdb.rootExists.mono hcompanies fun u hu _ => ?_⟩
  rw [hunits]
  exact List.mem_append_left _ hu

/-- A statement that returns with a row before the row of its parent leaves the closure stale. -/
theorem Consistent.insertOrgUnits_stale (hdb : db.Consistent) (hfirst : ¬ParentFirst us)
    (h : Wikore.insertOrgUnits us db = .ok () db') : ¬db'.ClosureExact := by
  have hunits := (insertOrgUnits_ok h).1
  obtain ⟨_, t, hrows, htriggers⟩ := bind_ok.mp h
  obtain ⟨hchecked, rfl⟩ := forEach_insertOrgUnitRow_ok hrows
  obtain ⟨hnodup, hfresh⟩ := hchecked.ids
  have hnew : ∀ r ∈ ({ db with orgUnits := db.orgUnits ++ us } : OrgDb).closure,
      r.descendantId ∉ us.map OrgUnit.id := by
    rintro ⟨c, a, d, k⟩ hr hmem
    obtain ⟨u, hu, he⟩ := List.mem_map.mp hmem
    obtain ⟨⟨v, hv, -, hid⟩, -⟩ := (hdb.closureExact c a d k).mp hr
    exact hfresh u hu v hv (hid.trans he.symm)
  obtain ⟨u, hu, p, hparent, hmissing⟩ := missing_of_not_parentFirst hfirst hnodup hnew htriggers
  intro hexact
  have huniq := hchecked.idUnique hdb.idUnique
  rw [← hunits] at huniq
  have hmem : u ∈ db'.orgUnits := hunits ▸ List.mem_append_right _ hu
  have hfind : db'.findUnit u.companyId u.id = some u := by
    cases hf : db'.findUnit u.companyId u.id with
    | none => simpa using List.find?_eq_none.mp hf u hmem
    | some v =>
      obtain ⟨hv, -, hid⟩ := findUnit_some hf
      rw [huniq v hv u hmem hid]
  refine hmissing 1 ((hexact _ _ _ _).mpr ⟨hasUnit_of_mem hmem, ?_⟩)
  rw [ancestor_succ, parentOf, hfind, Option.bind_some, hparent]
  rfl

end OrgDb

end Wikore
