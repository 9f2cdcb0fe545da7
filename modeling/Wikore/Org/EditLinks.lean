import Wikore.Org.TreeEdits

/-! The closure rows that a move deletes and adds, and how they change when another transaction
commits a move or an insertion elsewhere in the tree. -/

namespace Wikore

open ParentForest

namespace OrgDb

variable {db db' : OrgDb} {u : OrgUnit} {c n p q : Uuid}

/-- A row that step 2 of `move_org_unit` adds: from `q` and its ancestors to `n` and what is below. -/
def NewLink (db : OrgDb) (c n q : Uuid) (r : ClosureRow) : Prop :=
  r.companyId = c ∧ ∃ i j, db.Reaches c q i r.ancestorId ∧ db.Reaches c r.descendantId j n ∧
    r.depth = i + j + 1

theorem mem_oldLinks (h : TreeOk db) {c' a d : Uuid} {k : Nat} :
    ⟨c', a, d, k⟩ ∈ oldLinks db c n ↔ c' = c ∧ db.Reaches c d k a ∧
      Below (db.parentOf c) n d ∧ ¬Below (db.parentOf c) n a := by
  simp only [oldLinks, List.mem_filter, decide_eq_true_eq, mem_subtree h, h.closureExact]
  constructor
  · rintro ⟨hr, rfl, ⟨hd, hbelow⟩, hna⟩
    exact ⟨rfl, hr, hbelow, fun hb => hna ⟨h.hasUnit_ancestor hr.1 hr.2, hb⟩⟩
  · rintro ⟨rfl, hr, hbelow, hna⟩
    exact ⟨hr, rfl, ⟨hr.1, hbelow⟩, fun hb => hna hb.2⟩

theorem mem_deleteOldLinks_iff {r : ClosureRow} :
    r ∈ (deleteOldLinks c n db).closure ↔ r ∈ db.closure ∧ r ∉ oldLinks db c n := by
  simp only [deleteOldLinks, oldLinks, List.mem_filter, decide_eq_true_eq]
  constructor
  · rintro ⟨hr, hn⟩
    exact ⟨hr, fun h => hn h.2⟩
  · rintro ⟨hr, hn⟩
    exact ⟨hr, fun h => hn ⟨hr, h⟩⟩

/-- The rows of step 2 depend on the members of the closure table only. -/
theorem mem_newLinks_congr (h : ∀ r, r ∈ db'.closure ↔ r ∈ db.closure) {r : ClosureRow} :
    r ∈ newLinks db' c n q ↔ r ∈ newLinks db c n q := by
  simp only [newLinks, ancestorRows, descendantRows, List.mem_flatMap, List.mem_map,
    List.mem_filter, h]

/-- The rows of step 2 after step 1 are those that the move has to add. -/
theorem mem_newLinks_iff (h : TreeOk db) (hm : db.Movable u q) {r : ClosureRow} :
    r ∈ newLinks (deleteOldLinks u.companyId u.id db) u.companyId u.id q ↔
      db.NewLink u.companyId u.id q r := by
  obtain ⟨rc, ra, rd, rk⟩ := r
  rw [mem_newLinks h hm, NewLink]
  constructor
  · rintro ⟨rfl, hlink⟩
    exact ⟨rfl, hlink⟩
  · rintro ⟨rfl, hlink⟩
    exact ⟨rfl, hlink⟩

/-- `TreeOk` is about the units and the members of the closure table. -/
theorem TreeOk.congr_mem (h : db.TreeOk) (hu : db'.orgUnits = db.orgUnits)
    (hcl : ∀ r, r ∈ db'.closure ↔ r ∈ db.closure) (hco : ∀ c, db.HasCompany c → db'.HasCompany c) :
    db'.TreeOk := by
  have hunits : ({ db' with closure := db.closure } : OrgDb).TreeOk := h.congr hu rfl hco
  exact { hunits with closureExact := fun c a d k => (hcl _).trans (hunits.closureExact c a d k) }

/-! ### After another move -/

theorem reaches_congr (hu : db'.orgUnits = db.orgUnits) {d a : Uuid} {k : Nat} :
    db'.Reaches c d k a ↔ db.Reaches c d k a := by
  have hp : db'.parentOf c = db.parentOf c := by
    funext x
    rw [parentOf, parentOf, findUnit, findUnit, hu]
  rw [Reaches, Reaches, HasUnit, HasUnit, hu, hp]

section Moved

/-! `db'` is `db` with `u` hung under `p`. -/

variable (h : TreeOk db) (hm : db.Movable u p) (hu : db'.orgUnits = (reparent u p db).orgUnits)

include h hm hu

theorem moved_parentOf : db'.parentOf u.companyId u.id = some p := by
  rw [parentOf, findUnit, hu]
  exact move_parentOf h.toUnitsOk hm

theorem moved_parentOf_of_ne {x : Uuid} (hx : x ≠ u.id) :
    db'.parentOf u.companyId x = db.parentOf u.companyId x := by
  rw [parentOf, findUnit, hu]
  exact move_parentOf_of_ne h.toUnitsOk hm fun he => hx he.2.symm

omit h hm in
theorem moved_hasUnit {x : Uuid} : db'.HasUnit c x ↔ db.HasUnit c x := by
  rw [HasUnit, hu]
  exact reparent_hasUnit

/-- Outside the moved subtree the paths are the old ones. -/
theorem moved_reaches {d a : Uuid} {k : Nat} (hd : ¬Below (db.parentOf u.companyId) u.id d) :
    db'.Reaches u.companyId d k a ↔ db.Reaches u.companyId d k a := by
  rw [Reaches, Reaches, moved_hasUnit hu,
    ancestor_hang_of_not_below (fun x hx => moved_parentOf_of_ne h hm hu hx) hd]

theorem moved_below (hn : ¬Below (db.parentOf u.companyId) u.id n)
    (hnp : ¬Below (db.parentOf u.companyId) n p) {d : Uuid} :
    Below (db'.parentOf u.companyId) n d ↔
      Below (db.parentOf u.companyId) n d ∧ ¬Below (db.parentOf u.companyId) u.id d :=
  below_hang_iff (moved_parentOf h hm hu) (fun _ hx => moved_parentOf_of_ne h hm hu hx)
    (hm.not_below h) (h.acyclic u.companyId) hn hnp

/-- What a move of `n` has to delete is what it had to delete before, less what the other move has
deleted. -/
theorem moved_oldLinks (h' : TreeOk db') (hn : ¬Below (db.parentOf u.companyId) u.id n)
    (hnp : ¬Below (db.parentOf u.companyId) n p) (r : ClosureRow) :
    r ∈ oldLinks db' u.companyId n ↔
      r ∈ oldLinks db u.companyId n ∧ r ∉ oldLinks db u.companyId u.id := by
  obtain ⟨rc, a, d, k⟩ := r
  rw [mem_oldLinks h', mem_oldLinks h, mem_oldLinks h, moved_below h hm hu hn hnp,
    moved_below h hm hu hn hnp]
  constructor
  · rintro ⟨rfl, hr, ⟨hd, hud⟩, hna⟩
    have hr' := (moved_reaches h hm hu hud).mp hr
    have hua : ¬Below (db.parentOf u.companyId) u.id a := fun hb => hud (hb.trans ⟨k, hr'.2⟩)
    exact ⟨⟨rfl, hr', hd, fun hb => hna ⟨hb, hua⟩⟩, fun hold => hud hold.2.2.1⟩
  · rintro ⟨⟨rfl, hr, hd, hna⟩, hnot⟩
    have hud : ¬Below (db.parentOf u.companyId) u.id d := by
      intro hud
      -- `u` and `n` are above `d`, so `u` is below `n` and its subtree is in that of `n`
      rcases hud.total hd with hb | hb
      · exact hn hb
      · exact hnot ⟨rfl, hr, hud, fun hua => hna (hb.trans hua)⟩
    exact ⟨rfl, (moved_reaches h hm hu hud).mpr hr, ⟨hd, hud⟩, fun hb => hna hb.1⟩

/-- What it has to add is the same, if the subtrees are apart and the new parent is in neither. -/
theorem moved_newLink (hn : ¬Below (db.parentOf u.companyId) u.id n)
    (hnu : ¬Below (db.parentOf u.companyId) n u.id) (hnp : ¬Below (db.parentOf u.companyId) n p)
    (hq : ¬Below (db.parentOf u.companyId) u.id q) (r : ClosureRow) :
    db'.NewLink u.companyId n q r ↔ db.NewLink u.companyId n q r := by
  have hdesc : ∀ {d j}, db'.Reaches u.companyId d j n ↔ db.Reaches u.companyId d j n := by
    intro d j
    by_cases hud : Below (db.parentOf u.companyId) u.id d
    · constructor
      · exact fun hr => absurd hud ((moved_below h hm hu hn hnp).mp ⟨j, hr.2⟩).2
      · intro hr
        rcases hud.total ⟨j, hr.2⟩ with hb | hb
        · exact absurd hb hn
        · exact absurd hb hnu
    · exact moved_reaches h hm hu hud
  simp only [NewLink, moved_reaches h hm hu hq, hdesc]

end Moved

/-- Two moves whose old links have no row in common have their subtrees apart, or the other way
round: the links from above both nodes to the lower one are in both. -/
theorem not_below_of_disjoint (h : TreeOk db) {m x : Uuid} (hm : db.HasUnit c m)
    (hx : db.parentOf c n = some x) (hmn : ¬Below (db.parentOf c) m n)
    (hdisj : ∀ r ∈ oldLinks db c m, r ∉ oldLinks db c n) : ¬Below (db.parentOf c) n m := by
  rintro ⟨j, hj⟩
  have hr : db.Reaches c m (j + 1) x := ⟨hm, by rw [ancestor_succ_last, hj, Option.bind_some, hx]⟩
  have hmx : ¬Below (db.parentOf c) m x := fun hb => hmn (hb.trans (.of_parent hx))
  have hnx : ¬Below (db.parentOf c) n x := by
    rintro ⟨k, hk⟩
    refine h.acyclic c n k ?_
    rw [ancestor_succ_of_parent hx, hk]
  refine hdisj ⟨c, x, m, j + 1⟩ ((mem_oldLinks h).mpr ⟨rfl, hr, .refl, hmx⟩) ?_
  exact (mem_oldLinks h).mpr ⟨rfl, hr, ⟨j, hj⟩, hnx⟩

/-! ### After an insertion -/

section Inserted

/-! `db'` is `db` with the unit `u`, whose parent is not below `n`. -/

variable (h : TreeOk db) (hi : db.Insertable u) (hu : db'.orgUnits = (addUnit u db).orgUnits)

include h hi hu

/-- Units that existed keep their paths. -/
theorem inserted_reaches {d a : Uuid} {k : Nat} (hd : db.HasUnit u.companyId d) :
    db'.Reaches u.companyId d k a ↔ db.Reaches u.companyId d k a := by
  rw [reaches_congr hu, hi.reaches_iff h.toUnitsOk]
  refine ⟨fun hr => ?_, .inl⟩
  rcases hr with hr | ⟨-, rfl, -⟩
  · exact hr
  · obtain ⟨v, hv, -, hid⟩ := hd
    exact absurd hid (hi.idFresh v hv)

/-- The new unit is not below `n`. -/
theorem inserted_reaches_node (hn : db.HasUnit u.companyId n)
    (hpar : ∀ p ∈ u.parentId, ¬Below (db.parentOf u.companyId) n p) {d : Uuid} {k : Nat} :
    db'.Reaches u.companyId d k n ↔ db.Reaches u.companyId d k n := by
  rw [reaches_congr hu, hi.reaches_iff h.toUnitsOk]
  refine ⟨fun hr => ?_, .inl⟩
  rcases hr with hr | ⟨-, rfl, ⟨-, rfl⟩ | ⟨p, j, hp, -, hr⟩⟩
  · exact hr
  · obtain ⟨v, hv, -, hid⟩ := hn
    exact absurd hid (hi.idFresh v hv)
  · exact absurd ⟨j, hr.2⟩ (hpar p hp)

theorem inserted_newLink (hn : db.HasUnit u.companyId n) (hq : db.HasUnit u.companyId q)
    (hpar : ∀ p ∈ u.parentId, ¬Below (db.parentOf u.companyId) n p) (r : ClosureRow) :
    db'.NewLink u.companyId n q r ↔ db.NewLink u.companyId n q r := by
  simp only [NewLink, inserted_reaches h hi hu hq, inserted_reaches_node h hi hu hn hpar]

/-- Between units that existed, being below is as it was. -/
theorem inserted_below {d : Uuid} (hd : db.HasUnit u.companyId d) :
    Below (db'.parentOf u.companyId) n d ↔ Below (db.parentOf u.companyId) n d := by
  have hd' : db'.HasUnit u.companyId d := by
    rw [HasUnit, hu]
    exact addUnit_hasUnit.mpr (.inl hd)
  constructor
  · rintro ⟨k, hk⟩
    exact ⟨k, ((inserted_reaches h hi hu hd).mp ⟨hd', hk⟩).2⟩
  · rintro ⟨k, hk⟩
    exact ⟨k, ((inserted_reaches h hi hu hd).mpr ⟨hd, hk⟩).2⟩

theorem inserted_oldLinks (h' : TreeOk db') (hn : db.HasUnit u.companyId n)
    (hpar : ∀ p ∈ u.parentId, ¬Below (db.parentOf u.companyId) n p) (r : ClosureRow) :
    r ∈ oldLinks db' u.companyId n ↔ r ∈ oldLinks db u.companyId n := by
  obtain ⟨rc, a, d, k⟩ := r
  rw [mem_oldLinks h', mem_oldLinks h]
  constructor
  · rintro ⟨rfl, hr, ⟨j, hj⟩, hna⟩
    have hd := ((inserted_reaches_node h hi hu hn hpar).mp ⟨hr.1, hj⟩)
    have hr' := (inserted_reaches h hi hu hd.1).mp hr
    have ha := h.hasUnit_ancestor hr'.1 hr'.2
    exact ⟨rfl, hr', ⟨j, hd.2⟩, fun hb => hna ((inserted_below h hi hu ha).mpr hb)⟩
  · rintro ⟨rfl, hr, hd, hna⟩
    have ha := h.hasUnit_ancestor hr.1 hr.2
    exact ⟨rfl, (inserted_reaches h hi hu hr.1).mpr hr, (inserted_below h hi hu hr.1).mpr hd,
      fun hb => hna ((inserted_below h hi hu ha).mp hb)⟩

end Inserted

end OrgDb

end Wikore
