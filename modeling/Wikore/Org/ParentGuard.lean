import Wikore.Org.BulkInsert
import Wikore.Lib.Transition

/-! Transactions of several statements, direct updates of `parent_id` among them.  The setting that
lets `move_org_unit` pass its guard stays on to the end of the transaction, and a direct update that
comes after the move passes the guard too.  The setting can also be set by hand, and an insertion of
several rows can leave the closure stale. -/

namespace Wikore

open Statement Transition ParentForest

/-- The statements on the organisation tables, direct updates of `parent_id` and insertions of several
rows included, and `SET` of `wikore.allow_org_unit_move`, with `LOCAL` or without. -/
inductive OrgStatement
  | createCompany (id : Uuid) (name slug : String) (rootId : Uuid)
  | insertOrgUnits (us : List OrgUnit)
  | deleteOrgUnit (c x : Uuid) (restricted : List Uuid)
  | moveOrgUnit (c n q : Uuid)
  | updateParentId (c x : Uuid) (parent : Option Uuid)
  | setAllowMove (isLocal : Bool) (value : String)
deriving DecidableEq, Repr

def OrgStatement.body : OrgStatement → OrgStmt Unit
  | .createCompany id name slug rootId => Wikore.createCompany id name slug rootId
  | .insertOrgUnits us => Wikore.insertOrgUnits us
  | .deleteOrgUnit c x restricted => Wikore.deleteOrgUnit c x restricted
  | .moveOrgUnit c n q => Wikore.moveOrgUnit c n q
  | .updateParentId c x parent => Wikore.updateParentId c x parent
  | .setAllowMove _ value => modify fun db => { db with allowMove := value = "on" }

/-- What the setting of the session is after the statement: only `SET` without `LOCAL` outlives the
transaction. -/
def OrgStatement.session (s : OrgStatement) (before : Bool) : Bool :=
  match s with
  | .setAllowMove false value => value = "on"
  | _ => before

/-- The tables as the last commit left them and as the open transaction has them, and the setting
that its commit leaves.  After an error the transaction accepts no statement until it ends. -/
structure OrgSession where
  committed : OrgDb
  current : OrgDb
  session : Bool
  failed : Bool
deriving DecidableEq, Repr

inductive OrgEvent
  | statement (s : OrgStatement)
  | commit
  | rollback
deriving DecidableEq, Repr

namespace OrgSession

def init : OrgSession := ⟨OrgDb.empty, OrgDb.empty, false, false⟩

def rollback (w : OrgSession) : OrgSession :=
  ⟨w.committed, w.committed, w.committed.allowMove, false⟩

/-- The end of the transaction takes the local setting back. -/
def commit (w : OrgSession) : OrgSession :=
  if w.failed then w.rollback
  else
    let db := { w.current with allowMove := w.session }
    ⟨db, db, w.session, false⟩

def execute (w : OrgSession) (s : OrgStatement) : OrgSession :=
  if w.failed then w
  else match s.body w.current with
    | .ok _ db => { w with current := db, session := s.session w.session }
    | .error _ _ => { w with failed := true }

def step (w : OrgSession) : OrgEvent → OrgSession
  | .statement s => w.execute s
  | .commit => w.commit
  | .rollback => w.rollback

end OrgSession

/-- A unit of both tables that has another parent in the second is the one that `s` moves there. -/
def OnlyMoveReparents (db : OrgDb) (s : OrgStatement) (db' : OrgDb) : Prop :=
  ∀ u ∈ db.orgUnits, ∀ u' ∈ db'.orgUnits, u'.id = u.id → u'.parentId ≠ u.parentId →
    ∃ q, u'.parentId = some q ∧ s = .moveOrgUnit u.companyId u.id q

/-- After a statement the closure is exact, and only a move gave a unit another parent. -/
def Guards (w : OrgSession) : OrgEvent → Prop
  | .statement s =>
    (w.execute s).current.ClosureExact ∧ OnlyMoveReparents w.current s (w.execute s).current
  | _ => True

/-- The setting is on, and the update gives the unit another parent that the constraints of the
table allow. -/
def Reparentable (db : OrgDb) (c x : Uuid) (parent : Option Uuid) : Prop :=
  db.allowMove = true ∧ ∃ u, db.findUnit c x = some u ∧ u.parentId ≠ parent ∧
    rootParentShape { u with parentId := parent } ∧
    (∀ w ∈ db.orgUnits, w ≠ u → slugKey w ≠ slugKey { u with parentId := parent }) ∧
    db.ParentExists c parent

/-- A direct update slips through the guard, or an insertion has a row before the row of its
parent and returns. -/
def SlipsThrough (w : OrgSession) : OrgEvent → Prop
  | .statement (.updateParentId c x parent) =>
    w.failed = false ∧ Reparentable w.current c x parent
  | .statement (.insertOrgUnits us) =>
    w.failed = false ∧ ¬ParentFirst us ∧ ∃ db', insertOrgUnits us w.current = .ok () db'
  | _ => False

/-! ### A direct update -/

section Update

variable {db db' : OrgDb} {c x : Uuid} {parent : Option Uuid}

/-- A direct update that returns changed nothing, or it slipped through. -/
theorem updateParentId_cases (h : updateParentId c x parent db = .ok () db') :
    db' = db ∨ Reparentable db c x parent := by
  simp only [updateParentId, bind_ok, get_ok] at h
  obtain ⟨_, _, ⟨rfl, rfl⟩, h⟩ := h
  cases hf : db.findUnit c x with
  | none =>
    simp only [hf, pure_ok] at h
    exact .inl h.2.symm
  | some u =>
    simp only [hf, bind_ok, raiseIf_ok, modify_ok, ite_ok, pure_ok] at h
    obtain ⟨_, _, ⟨hguard, rfl⟩, _, _, ⟨hshape, rfl⟩, _, _, ⟨hslug, rfl⟩, _, _, ⟨hpar, rfl⟩, _, _, rfl,
      h⟩ := h
    by_cases hsame : u.parentId = parent
    · subst hsame
      have hid : (fun w : OrgUnit => if w = u then u else w) = id := by
        funext w
        split
        · next he => exact he.symm
        · rfl
      simp only [hid, List.map_id, true_and, not_true_eq_false, false_and, or_false] at h
      exact .inl h.symm
    · refine .inr ⟨?_, u, hf, hsame, not_not.mp hshape, ?_, not_not.mp hpar⟩
      · cases hallow : db.allowMove with
        | true => rfl
        | false => exact absurd ⟨hsame, hallow⟩ hguard
      · exact fun w hw hne he => hslug ⟨w, hw, hne, he⟩

/-- An update that the guard and the constraints let through, and what it leaves. -/
theorem Reparentable.runs (h : Reparentable db c x parent) :
    ∃ db', updateParentId c x parent db = .ok () db' ∧ db'.closure = db.closure ∧
      db.HasUnit c x ∧ db'.HasUnit c x ∧ db'.parentOf c x ≠ db.parentOf c x := by
  obtain ⟨hallow, u, hf, hne, hshape, hslug, hpar⟩ := h
  obtain ⟨hu, hc, hid⟩ := OrgDb.findUnit_some hf
  have hok : updateParentId c x parent db = .ok () (bumpAclEpoch c 1
      { db with orgUnits := db.orgUnits.map fun w =>
          if w = u then { u with parentId := parent } else w }) := by
    simp only [updateParentId, get_bind_ok, hf, raiseIf_bind_ok, modify_bind_ok, if_neg hne,
      modify_ok]
    refine ⟨?_, not_not.mpr hshape, ?_, not_not.mpr hpar, trivial⟩
    · rintro ⟨-, hoff⟩
      rw [hallow] at hoff
      cases hoff
    · rintro ⟨w, hw, hwu, he⟩
      exact hslug w hw hwu he
  have hkey : ∀ w : OrgUnit,
      (if w = u then { u with parentId := parent } else w).companyId = w.companyId ∧
        (if w = u then { u with parentId := parent } else w).id = w.id := by
    intro w
    by_cases hw : w = u
    · subst hw
      simp
    · simp [hw]
  refine ⟨_, hok, rfl, ⟨u, hu, hc, hid⟩, ⟨_, List.mem_map.mpr ⟨u, hu, rfl⟩, ?_⟩, ?_⟩
  · exact ⟨(hkey u).1.trans hc, (hkey u).2.trans hid⟩
  · have hbefore : db.parentOf c x = u.parentId := by
      rw [OrgDb.parentOf, hf, Option.bind_some]
    rw [hbefore, OrgDb.parentOf, OrgDb.findUnit, bumpAclEpoch_orgUnits]
    simp only [List.find?_map, Function.comp_def, hkey]
    rw [OrgDb.findUnit] at hf
    rw [hf, Option.map_some, if_pos rfl, Option.bind_some]
    exact fun he => hne he.symm

/-- Two trees with one closure table have the same parents. -/
theorem OrgDb.ClosureExact.parentOf_eq (h : db.ClosureExact) (h' : db'.ClosureExact)
    (hclosure : db'.closure = db.closure) (hx : db.HasUnit c x) (hx' : db'.HasUnit c x) :
    db'.parentOf c x = db.parentOf c x := by
  have hone : ∀ d : OrgDb, d.ClosureExact → d.HasUnit c x → ∀ a,
      ⟨c, a, x, 1⟩ ∈ d.closure ↔ d.parentOf c x = some a := by
    intro d hd hdx a
    rw [hd c a x 1, OrgDb.Reaches, ancestor_succ]
    cases hp : d.parentOf c x <;> simp [hdx]
  apply Option.ext
  intro a
  rw [← hone db' h' hx' a, ← hone db h hx a, hclosure]

end Update

/-! ### Runs -/

namespace OrgSession

/-- The tables are consistent at the last commit and in the open transaction. -/
structure Consistent (w : OrgSession) : Prop where
  committed : w.committed.Consistent
  current : w.current.Consistent

/-- What a statement does to the session. -/
theorem execute_cases (w : OrgSession) (s : OrgStatement) :
    (w.execute s).current = w.current ∧ (w.execute s).committed = w.committed ∨
      ∃ db', w.failed = false ∧ s.body w.current = .ok () db' ∧
        w.execute s = { w with current := db', session := s.session w.session } := by
  unfold execute
  by_cases hfailed : w.failed = true
  · rw [if_pos hfailed]
    exact .inl ⟨rfl, rfl⟩
  · rw [if_neg hfailed]
    cases hok : s.body w.current with
    | error err db' => exact .inl ⟨rfl, rfl⟩
    | ok _ db' => exact .inr ⟨db', Bool.eq_false_iff.mpr hfailed, rfl, rfl⟩

theorem init_consistent : init.Consistent := ⟨OrgDb.empty_consistent, OrgDb.empty_consistent⟩

end OrgSession

section Parents

variable {db db' : OrgDb} {s : OrgStatement}

/-- Rows that both tables hold keep their parents. -/
theorem OnlyMoveReparents.of_mem (hunits : db'.UnitsOk)
    (hmem : ∀ u ∈ db.orgUnits, ∀ u' ∈ db'.orgUnits, u'.id = u.id → u ∈ db'.orgUnits) :
    OnlyMoveReparents db s db' := by
  intro u hu u' hu' hid hne
  rw [hunits.idUnique u' hu' u (hmem u hu u' hu' hid) hid] at hne
  exact absurd rfl hne

theorem OnlyMoveReparents.refl (hunits : db.UnitsOk) : OnlyMoveReparents db s db :=
  .of_mem hunits fun _ hu _ _ _ => hu

theorem OnlyMoveReparents.move {u : OrgUnit} {q : Uuid} (hunits : db.UnitsOk)
    (hm : db.Movable u q) (hdb' : db'.orgUnits = (reparent u q db).orgUnits) :
    OnlyMoveReparents db (.moveOrgUnit u.companyId u.id q) db' := by
  intro v hv v' hv' hid hne
  rw [hdb'] at hv'
  rcases (OrgDb.mem_reparent hm.mem).mp hv' with ⟨hv', -⟩ | rfl
  · rw [hunits.idUnique v' hv' v hv hid] at hne
    exact absurd rfl hne
  · rw [hunits.idUnique v hv u hm.mem hid.symm]
    exact ⟨q, rfl, rfl⟩

end Parents

/-- A statement that returned and did not slip through keeps the tables consistent, and only a move
gives a unit another parent. -/
theorem OrgStatement.keeps {s : OrgStatement} {db db' : OrgDb} (h : db.Consistent)
    (hok : s.body db = .ok () db')
    (hslip : ∀ c x parent, s = .updateParentId c x parent → ¬Reparentable db c x parent)
    (hfirst : ∀ us, s = .insertOrgUnits us → ParentFirst us) :
    db'.Consistent ∧ OnlyMoveReparents db s db' := by
  cases s with
  | createCompany id name slug rootId =>
    have h' := h.createCompany hok
    refine ⟨h', .of_mem h'.toUnitsOk fun u hu _ _ _ => ?_⟩
    simp only [OrgStatement.body, Wikore.createCompany, bind_ok, get_ok, raiseIf_ok, modify_ok] at hok
    obtain ⟨_, _, ⟨rfl, rfl⟩, _, _, ⟨-, rfl⟩, _, _, ⟨-, rfl⟩, _, _, rfl, hins⟩ := hok
    obtain ⟨-, rfl⟩ := insertOrgUnit_ok hins
    exact List.mem_append_left _ hu
  | insertOrgUnits us =>
    have h' := h.insertOrgUnits (hfirst us rfl) hok
    refine ⟨h', .of_mem h'.toUnitsOk fun u hu _ _ _ => ?_⟩
    rw [(OrgDb.insertOrgUnits_ok hok).1]
    exact List.mem_append_left _ hu
  | deleteOrgUnit c x restricted =>
    have h' := h.deleteOrgUnit hok
    refine ⟨h', .of_mem h'.toUnitsOk fun u hu u' hu' hid => ?_⟩
    obtain rfl | ⟨v, hv, rfl, -, rfl⟩ := deleteOrgUnit_ok hok
    · exact hu
    · rw [← h.idUnique u' (OrgDb.mem_removeUnits.mp hu').1 u hu hid]
      exact hu'
  | moveOrgUnit c n q =>
    refine ⟨h.moveOrgUnit hok, ?_⟩
    obtain rfl | ⟨u, rfl, rfl, hm, rfl⟩ := moveOrgUnit_ok hok
    · exact .refl h.toUnitsOk
    · exact .move h.toUnitsOk hm rfl
  | updateParentId c x parent =>
    obtain rfl | hre := updateParentId_cases hok
    · exact ⟨h, .refl h.toUnitsOk⟩
    · exact absurd hre (hslip c x parent rfl)
  | setAllowMove isLocal value =>
    obtain rfl := modify_ok.mp hok
    exact ⟨h.setAllowMove _, .of_mem (h.setAllowMove _).toUnitsOk fun u hu _ _ _ => hu⟩

/-- In a consistent session the guard holds at a step exactly when no direct update slips
through. -/
theorem guards_iff {w : OrgSession} (h : w.Consistent) (e : OrgEvent) :
    Guards w e ↔ ¬SlipsThrough w e := by
  cases e with
  | commit => simp [Guards, SlipsThrough]
  | rollback => simp [Guards, SlipsThrough]
  | statement s =>
    constructor
    · rintro ⟨hexact, -⟩ hslip
      cases s with
      | updateParentId c x parent =>
        obtain ⟨hfailed, hre⟩ := hslip
        obtain ⟨db', hok, hclosure, hx, hx', hne⟩ := hre.runs
        have hafter : (w.execute (.updateParentId c x parent)).current = db' := by
          simp [OrgSession.execute, hfailed, OrgStatement.body, hok]
        rw [hafter] at hexact
        exact hne (OrgDb.ClosureExact.parentOf_eq h.current.closureExact hexact hclosure hx hx')
      | insertOrgUnits us =>
        obtain ⟨hfailed, hfirst, db', hok⟩ := hslip
        have hafter : (w.execute (.insertOrgUnits us)).current = db' := by
          simp [OrgSession.execute, hfailed, OrgStatement.body, hok]
        rw [hafter] at hexact
        exact h.current.insertOrgUnits_stale hfirst hok hexact
      | _ => exact hslip
    · intro hslip
      show (w.execute s).current.ClosureExact ∧ OnlyMoveReparents w.current s (w.execute s).current
      obtain ⟨hcurrent, -⟩ | ⟨db', hfailed, hok, hstep⟩ := w.execute_cases s
      · rw [hcurrent]
        exact ⟨h.current.closureExact, .refl h.current.toUnitsOk⟩
      · rw [hstep]
        have hkeeps := s.keeps h.current hok (by
          rintro c x parent rfl hre
          exact hslip ⟨hfailed, hre⟩) (by
          rintro us rfl
          exact not_not.mp fun hfirst => hslip ⟨hfailed, hfirst, db', hok⟩)
        exact ⟨hkeeps.1.closureExact, hkeeps.2⟩

/-- A step at which the guard holds keeps the session consistent. -/
theorem OrgSession.Consistent.step {w : OrgSession} (h : w.Consistent) {e : OrgEvent}
    (hguard : Guards w e) : (w.step e).Consistent := by
  have hslip := (guards_iff h e).mp hguard
  cases e with
  | rollback => exact ⟨h.committed, h.committed⟩
  | commit =>
    show w.commit.Consistent
    unfold OrgSession.commit
    split
    · exact ⟨h.committed, h.committed⟩
    · exact ⟨h.current.setAllowMove w.session, h.current.setAllowMove w.session⟩
  | statement s =>
    show (w.execute s).Consistent
    obtain ⟨hcurrent, hcommitted⟩ | ⟨db', hfailed, hok, hstep⟩ := w.execute_cases s
    · exact ⟨hcommitted ▸ h.committed, hcurrent ▸ h.current⟩
    · rw [hstep]
      refine ⟨h.committed, (s.keeps h.current hok ?_ ?_).1⟩
      · rintro c x parent rfl hre
        exact hslip ⟨hfailed, hre⟩
      · rintro us rfl
        exact not_not.mp fun hfirst => hslip ⟨hfailed, hfirst, db', hok⟩

/-- Along every sequence of transactions: the guard holds after every statement exactly when no
direct update gives a unit another parent while the setting is on, and no insertion has a row before
the row of its parent. -/
theorem parentGuard_iff (events : List OrgEvent) :
    Along OrgSession.step Guards OrgSession.init events ↔
      Along OrgSession.step (fun w e => ¬SlipsThrough w e) OrgSession.init events :=
  along_congr_of_invariant OrgSession.init_consistent (fun _ _ h hguard => h.step hguard)
    fun _ e h => guards_iff h e

/-! ### How long the setting lasts -/

/-- A call of `move_org_unit` that gives the unit another parent. -/
def Moves (w : OrgSession) : OrgEvent → Prop
  | .statement (.moveOrgUnit c n q) =>
    w.failed = false ∧ w.current.parentOf c n ≠ some q ∧
      ∃ db', Wikore.moveOrgUnit c n q w.current = .ok () db'
  | _ => False

theorem updateParentId_allowMove {db db' : OrgDb} {c x : Uuid} {parent : Option Uuid}
    (h : updateParentId c x parent db = .ok () db') : db'.allowMove = db.allowMove := by
  simp only [updateParentId, bind_ok, get_ok] at h
  obtain ⟨_, _, ⟨rfl, rfl⟩, h⟩ := h
  cases hf : db.findUnit c x with
  | none =>
    simp only [hf, pure_ok] at h
    rw [← h.2]
  | some u =>
    simp only [hf, bind_ok, raiseIf_ok, modify_ok, ite_ok, pure_ok] at h
    obtain ⟨_, _, ⟨-, rfl⟩, _, _, ⟨-, rfl⟩, _, _, ⟨-, rfl⟩, _, _, ⟨-, rfl⟩, _, _, rfl,
      ⟨-, -, rfl⟩ | ⟨-, rfl⟩⟩ := h
    · rfl
    · rfl

/-- The early exit of a move leaves the tables and the setting; any other way to the end sets it. -/
theorem moveOrgUnit_allowMove {db db' : OrgDb} {c n q : Uuid}
    (h : moveOrgUnit c n q db = .ok () db') :
    db.parentOf c n = some q ∧ db' = db ∨ db.parentOf c n ≠ some q ∧ db'.allowMove = true := by
  simp only [moveOrgUnit, bind_ok, get_ok] at h
  obtain ⟨_, _, ⟨rfl, rfl⟩, h⟩ := h
  cases hf : db.findUnit c n with
  | none => simp [hf, throw_ok] at h
  | some u =>
    have hparent : db.parentOf c n = u.parentId := by
      rw [OrgDb.parentOf, hf, Option.bind_some]
    rw [hparent]
    simp only [hf, bind_ok, raiseIf_ok, ite_ok, pure_ok, get_ok, modify_ok] at h
    obtain ⟨_, _, ⟨-, rfl⟩, _, _, ⟨-, rfl⟩, _, _, ⟨-, rfl⟩, ⟨hsame, -, rfl⟩ | ⟨hne, _, _, ⟨-, rfl⟩,
      _, _, rfl, _, _, ⟨rfl, rfl⟩, _, _, -, _, _, rfl, hupd⟩⟩ := h
    · exact .inl ⟨hsame, rfl⟩
    · exact .inr ⟨hne, updateParentId_allowMove hupd⟩

/-- The setting is set by hand. -/
def SetsByHand : OrgEvent → Prop
  | .statement (.setAllowMove _ _) => True
  | _ => False

/-- A statement that is no move and no `SET` leaves the setting. -/
theorem OrgStatement.allowMove {s : OrgStatement} {db db' : OrgDb} (h : s.body db = .ok () db')
    (hmove : ∀ c n q, s ≠ .moveOrgUnit c n q) (hset : ¬SetsByHand (.statement s)) :
    db'.allowMove = db.allowMove := by
  cases s with
  | createCompany id name slug rootId =>
    simp only [OrgStatement.body, Wikore.createCompany, bind_ok, get_ok, raiseIf_ok, modify_ok] at h
    obtain ⟨_, _, ⟨rfl, rfl⟩, _, _, ⟨-, rfl⟩, _, _, ⟨-, rfl⟩, _, _, rfl, hins⟩ := h
    obtain ⟨-, rfl⟩ := insertOrgUnit_ok hins
    rfl
  | insertOrgUnits us => exact (OrgDb.insertOrgUnits_ok h).2
  | deleteOrgUnit c x restricted =>
    obtain rfl | ⟨v, hv, rfl, -, rfl⟩ := deleteOrgUnit_ok h
    · rfl
    · rfl
  | moveOrgUnit c n q => exact absurd rfl (hmove c n q)
  | updateParentId c x parent => exact updateParentId_allowMove h
  | setAllowMove isLocal value => exact absurd trivial hset

theorem OrgStatement.session_eq {s : OrgStatement} (hset : ¬SetsByHand (.statement s))
    (before : Bool) : s.session before = before := by
  cases s with
  | setAllowMove isLocal value => exact absurd trivial hset
  | _ => rfl

theorem execute_allowMove (w : OrgSession) {s : OrgStatement} (hset : ¬SetsByHand (.statement s)) :
    (w.execute s).current.allowMove = true ↔
      w.current.allowMove = true ∨ Moves w (.statement s) := by
  by_cases hmove : ∃ c n q, s = .moveOrgUnit c n q
  · obtain ⟨c, n, q, rfl⟩ := hmove
    obtain ⟨hcurrent, -⟩ | ⟨db', hfailed, hok, hstep⟩ := w.execute_cases (.moveOrgUnit c n q)
    · rw [hcurrent]
      refine ⟨.inl, fun h => h.elim id ?_⟩
      rintro ⟨hfailed, hne, db', hok⟩
      have hdb' : db' = w.current := by
        rw [← hcurrent]
        simp [OrgSession.execute, hfailed, OrgStatement.body, hok]
      obtain ⟨hsame, -⟩ | ⟨-, hon⟩ := moveOrgUnit_allowMove hok
      · exact absurd hsame hne
      · rwa [hdb'] at hon
    · rw [hstep]
      obtain ⟨hsame, hdb'⟩ | ⟨hne, hon⟩ := moveOrgUnit_allowMove hok
      · simp only [hdb', Moves, hsame, ne_eq, not_true_eq_false, false_and, and_false, or_false]
      · exact ⟨fun _ => .inr ⟨hfailed, hne, db', hok⟩, fun _ => hon⟩
  · have hnot : ¬Moves w (.statement s) := by
      cases s with
      | moveOrgUnit c n q => exact absurd ⟨c, n, q, rfl⟩ hmove
      | _ => exact id
    simp only [hnot, or_false]
    obtain ⟨hcurrent, -⟩ | ⟨db', -, hok, hstep⟩ := w.execute_cases s
    · rw [hcurrent]
    · rw [hstep]
      simp only
      rw [OrgStatement.allowMove hok (fun c n q he => hmove ⟨c, n, q, he⟩) hset]

/-- Nothing outlives a transaction. -/
structure OffOutside (w : OrgSession) : Prop where
  committed : w.committed.allowMove = false
  session : w.session = false

/-- Without a `SET`, the end of a transaction clears the setting, whatever it ends in. -/
theorem OffOutside.step {w : OrgSession} (h : OffOutside w) {e : OrgEvent} (hset : ¬SetsByHand e) :
    OffOutside (w.step e) ∧ ((w.step e).current.allowMove = true ↔
      Moves w e ∨ (∃ s, e = .statement s) ∧ w.current.allowMove = true) := by
  cases e with
  | statement s =>
    refine ⟨?_, (execute_allowMove w hset).trans ?_⟩
    · show OffOutside (w.execute s)
      unfold OrgSession.execute
      split
      · exact h
      · split
        · exact ⟨h.committed, (OrgStatement.session_eq hset w.session).trans h.session⟩
        · exact ⟨h.committed, h.session⟩
    · simp [or_comm]
  | rollback =>
    refine ⟨⟨h.committed, h.committed⟩, ?_⟩
    simp [OrgSession.step, OrgSession.rollback, Moves, h.committed]
  | commit =>
    show OffOutside w.commit ∧ (w.commit.current.allowMove = true ↔ _)
    unfold OrgSession.commit
    split
    · exact ⟨⟨h.committed, h.committed⟩, by simp [OrgSession.rollback, Moves, h.committed]⟩
    · exact ⟨⟨h.session, h.session⟩, by simp [Moves, h.session]⟩

theorem OffOutside.run {w : OrgSession} (h : OffOutside w) {events : List OrgEvent}
    (hset : ∀ e ∈ events, ¬SetsByHand e) : OffOutside (run OrgSession.step w events) := by
  induction events generalizing w with
  | nil => exact h
  | cons e events ih =>
    exact ih (h.step (hset e List.mem_cons_self)).1 fun e' he' => hset e' (List.mem_cons_of_mem e he')

/-- Where nobody sets it by hand, the setting is on exactly when a unit was moved earlier in the open
transaction. -/
theorem allowMove_iff {events : List OrgEvent} (hset : ∀ e ∈ events, ¬SetsByHand e) :
    (run OrgSession.step OrgSession.init events).current.allowMove = true ↔
      ∃ pre e suf, events = pre ++ e :: suf ∧ Moves (run OrgSession.step OrgSession.init pre) e ∧
        ∀ e' ∈ suf, ∃ s, e' = .statement s := by
  induction events using List.reverseRecOn with
  | nil => simp [run, OrgSession.init, OrgDb.empty]
  | append_singleton es e ih =>
    have hes : ∀ e' ∈ es, ¬SetsByHand e' := fun e' he' => hset e' (List.mem_append_left _ he')
    have he : ¬SetsByHand e := hset e (List.mem_append_right _ (List.mem_singleton.mpr rfl))
    have hoff : OffOutside (run OrgSession.step OrgSession.init es) :=
      OffOutside.run ⟨rfl, rfl⟩ hes
    rw [run_append, exists_split_concat (P := fun pre e =>
      Moves (run OrgSession.step OrgSession.init pre) e)]
    exact (hoff.step he).2.trans (or_congr_right (and_congr_right fun _ => ih hes))

/-- A team with a project below it; the project moves to the root, and a direct update in the same
transaction puts the team below the project. -/
def updateAfterMove : List OrgEvent :=
  [.statement (.createCompany 1 "Acme" "acme" 10),
    .statement (.insertOrgUnits [⟨11, 1, some 10, .team, "team", "Team"⟩,
      ⟨12, 1, some 11, .project, "project", "Project"⟩]),
    .commit,
    .statement (.moveOrgUnit 1 12 10),
    .statement (.updateParentId 1 11 (some 12))]

theorem updateAfterMove_unguarded :
    ¬Along OrgSession.step Guards OrgSession.init updateAfterMove := by
  rintro ⟨-, -, -, -, ⟨hexact, -⟩, -⟩
  have hreaches : ⟨1, 12, 11, 1⟩ ∈
      (run OrgSession.step OrgSession.init updateAfterMove).current.closure :=
    (hexact 1 12 11 1).mpr ⟨by decide, by decide⟩
  exact absurd hreaches (by decide)

end Wikore
