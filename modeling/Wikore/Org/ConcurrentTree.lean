import Wikore.Org.EditIsolation
import Mathlib.Algebra.Order.BigOperators.Group.List
import Mathlib.Algebra.Order.Group.Nat

/-! Concurrent insertions and moves keep the tree: whatever the order of the steps, the tables that
are committed hold a tree and its closure. -/

namespace Wikore

open Transition ParentForest

/-- Every unit of a tree has a path to a unit without a parent. -/
theorem OrgDb.TreeOk.exists_root {db : OrgDb} (h : db.TreeOk) {u : OrgUnit}
    (hu : u ∈ db.orgUnits) :
    ∃ r ∈ db.orgUnits, r.companyId = u.companyId ∧ r.parentId = none ∧
      ∃ k, db.Reaches u.companyId u.id k r.id := by
  have hunit := OrgDb.hasUnit_of_mem hu
  have hbound : ∀ k a, ancestor (db.parentOf u.companyId) k u.id = some a →
      k ≤ (db.closure.map ClosureRow.depth).sum := by
    intro k a ha
    have hrow := (h.closureExact u.companyId a u.id k).mpr ⟨hunit, ha⟩
    exact List.le_sum_of_mem (List.mem_map_of_mem hrow)
  obtain ⟨k, x, hk, hx⟩ := ParentForest.exists_root hbound
  obtain ⟨r, hr, hc, rfl⟩ := h.hasUnit_ancestor hunit hk
  rw [← hc, h.parentOf_of_mem hr] at hx
  exact ⟨r, hr, hc, hx, k, hunit, hk⟩

namespace EditWorld

open Edit

variable {ι : Type} {c : Uuid} {w : EditWorld ι} {i : ι}

/-- What holds between any two steps. -/
structure EditsOk (c : Uuid) (w : EditWorld ι) : Prop where
  tree : w.db.TreeOk
  ok : ∀ i, (w.tx i).Ok c w.db
  compatible : ∀ i j, i ≠ j → Compatible (w.tx i) (w.tx j)

theorem MoveStep.op_eq {n q : Uuid} {t : Edit} (hs : MoveStep c n q w i t) : t.op = (w.tx i).op := by
  cases hs <;> rfl

theorem InsertStep.op_eq {u : OrgUnit} {t : Edit} (hs : InsertStep c u w i t) :
    t.op = (w.tx i).op := by
  cases hs <;> rfl

theorem ok_blank (op : TreeEdit) (db : OrgDb) {phase : EditPhase}
    (hp : phase = .started ∨ phase = .committed ∨ phase = .aborted) :
    (Edit.blank op phase).Ok c db := by
  rcases hp with rfl | rfl | rfl
  all_goals
    cases op with
    | moveOrgUnit n q => exact clean_blank _ _
    | insertOrgUnit id parentId type slug name => exact clean_blank _ _

theorem editsOk_init {db : OrgDb} (h : db.TreeOk) (edits : ι → TreeEdit) :
    (init db edits).EditsOk c :=
  ⟨h, fun i => ok_blank (edits i) db (.inl rfl), fun _ _ _ => .blank _ _ _⟩

/-- A transaction that is ready to commit leaves the tables as one that runs alone. -/
theorem EditsOk.lands (h : w.EditsOk c) (hp : (w.tx i).phase = .ready) :
    Lands c w.db ((w.tx i).view c w.db) (w.tx i) := by
  have hok := h.ok i
  rw [Edit.Ok] at hok
  cases hop : (w.tx i).op with
  | moveOrgUnit n q =>
    simp only [hop, MoveOk, hp] at hok
    exact hok.1.lands h.tree hop hok.2.1 hok.2.2
  | insertOrgUnit id parentId type slug name =>
    simp only [hop, InsertOk, hp] at hok
    exact hok.lands h.tree

theorem EditsOk.clean_of_returned (h : w.EditsOk c) (hp : (w.tx i).phase = .returned) :
    (w.tx i).Clean := by
  have hok := h.ok i
  rw [Edit.Ok] at hok
  cases hop : (w.tx i).op with
  | moveOrgUnit n q => simpa only [hop, MoveOk, hp] using hok
  | insertOrgUnit id parentId type slug name => simpa only [hop, InsertOk, hp] using hok

variable [DecidableEq ι]

/-- A transaction may be replaced by one that is as far as it should be and clear of the others. -/
theorem EditsOk.update (h : w.EditsOk c) {t : Edit} (hok : t.Ok c w.db)
    (hcomp : ∀ j, j ≠ i → Compatible t (w.tx j)) :
    EditsOk c { w with tx := Function.update w.tx i t } where
  tree := h.tree
  ok j := by
    show (Function.update w.tx i t j).Ok c w.db
    by_cases hj : j = i
    · subst hj
      rwa [Function.update_self]
    · rw [Function.update_of_ne hj]
      exact h.ok j
  compatible j k hjk := by
    show Compatible (Function.update w.tx i t j) (Function.update w.tx i t k)
    by_cases hj : j = i
    · subst hj
      rw [Function.update_self, Function.update_of_ne hjk.symm]
      exact hcomp k hjk.symm
    · by_cases hk : k = i
      · subst hk
        rw [Function.update_self, Function.update_of_ne hj]
        exact (hcomp j hj).symm
      · rw [Function.update_of_ne hj, Function.update_of_ne hk]
        exact h.compatible j k hjk

theorem EditsOk.abort (h : w.EditsOk c) (i : ι) : (w.abort i).EditsOk c := by
  rw [EditWorld.abort]
  split
  next => exact h
  next => exact h.update (ok_blank _ _ (.inr (.inr rfl))) fun j _ => .blank _ _ _

/-- The other transactions after a commit. -/
theorem EditsOk.committed (h : w.EditsOk c) {db : OrgDb} (htree : db.TreeOk)
    (hok : ∀ j, j ≠ i → (skipDeleted (w.tx j) (w.tx i).deleted).Ok c db) :
    EditsOk c
      { db := db
        tx := fun j => if j = i then .blank (w.tx i).op .committed
          else skipDeleted (w.tx j) (w.tx i).deleted } where
  tree := htree
  ok j := by
    dsimp only
    split
    next => exact ok_blank _ _ (.inr (.inl rfl))
    next hj => exact hok j hj
  compatible j k hjk := by
    dsimp only
    split
    next => exact .blank _ _ _
    next =>
      split
      next => exact (Compatible.blank _ _ _).symm
      next => exact (((h.compatible j k hjk).skipDeleted _).symm.skipDeleted _).symm

theorem EditsOk.commit (h : w.EditsOk c) (i : ι) : (w.commit c i).EditsOk c := by
  rw [EditWorld.commit]
  split
  next hp =>
    rcases hp with hp | hp
    · have hl := h.lands hp
      refine h.committed hl.tree fun j hj => ?_
      exact Edit.Ok.landed (h.ok j) h.tree hl (h.compatible i j hj.symm)
    · -- the transaction has changed nothing
      have hclean := h.clean_of_returned hp
      rw [hclean.view_eq]
      refine h.committed h.tree fun j _ => ?_
      rw [hclean.deleted, skipDeleted_nil]
      exact h.ok j
  next => exact h

variable [Fintype ι]

/-- A step of a transaction keeps it on its way, and clear of the others. -/
theorem EditsOk.advanced (h : w.EditsOk c) (i : ι) (k : Nat) :
    (w.advance c i k).Ok c w.db ∧ ∀ j, j ≠ i → Compatible (w.advance c i k) (w.tx j) := by
  have hok := h.ok i
  rw [Edit.Ok] at hok
  cases hop : (w.tx i).op with
  | moveOrgUnit n q =>
    simp only [hop] at hok
    have hadv : w.advance c i k = w.advanceMove c i n q k := by rw [advance, hop]
    have hs : MoveStep c n q w i (w.advance c i k) := hadv ▸ move_step n q k
    refine ⟨?_, fun j hj => compatible_moveStep hj (h.compatible i j hj.symm) hs⟩
    rw [Edit.Ok, hs.op_eq, hop]
    exact moveOk_step h.tree hok hs
  | insertOrgUnit id parentId type slug name =>
    simp only [hop] at hok
    have hadv : w.advance c i k = w.advanceInsert c i ⟨id, c, parentId, type, slug, name⟩ k := by
      rw [advance, hop]
    have hs : InsertStep c ⟨id, c, parentId, type, slug, name⟩ w i (w.advance c i k) :=
      hadv ▸ insert_step _ k
    refine ⟨?_, fun j hj => ?_⟩
    · rw [Edit.Ok, hs.op_eq, hop]
      exact insertOk_step hok hs
    · have hcomp := h.compatible i j hj.symm
      exact compatible_insertStep (u := ⟨id, c, parentId, type, slug, name⟩) hj hcomp (h.ok j) hs

theorem EditsOk.step (h : w.EditsOk c) (a : EditAction ι) : (w.step c a).EditsOk c := by
  cases a with
  | advance i k =>
    obtain ⟨hok, hcomp⟩ := h.advanced i k
    exact h.update hok hcomp
  | commit i => exact h.commit i
  | abort i => exact h.abort i

/-- The committed tables after a run. -/
theorem run_tree {db : OrgDb} (h : db.TreeOk) (c : Uuid) (edits : ι → TreeEdit)
    (as : List (EditAction ι)) : (run (EditWorld.step c) (init db edits) as).db.TreeOk := by
  have hrun : (run (EditWorld.step c) (init db edits) as).EditsOk c :=
    run_invariant (editsOk_init h edits) fun w a hw => hw.step a
  exact hrun.tree

end EditWorld

/-- Transactions of one company, each an insertion or a `move_org_unit`, take their steps in any order
on a schema after any operations.  The tables that are committed at any moment, by whichever of them
have committed, hold a tree: no company's parent graph has a cycle, every unit has a path to a root,
and the closure table holds exactly the paths along `parent_id`, with their lengths. -/
theorem concurrentEdits_keep_tree {ι : Type} [DecidableEq ι] [Fintype ι] (ops : List OrgOp)
    (c : Uuid) (edits : ι → TreeEdit) (as : List (EditAction ι)) :
    let db := (run (EditWorld.step c) (.init (OrgDb.empty.run ops) edits) as).db
    (∀ c', Acyclic (db.parentOf c')) ∧
      (∀ u ∈ db.orgUnits, ∃ r ∈ db.orgUnits, r.companyId = u.companyId ∧ r.parentId = none ∧
        ∃ k, db.Reaches u.companyId u.id k r.id) ∧
      ∀ c' a d k, ⟨c', a, d, k⟩ ∈ db.closure ↔ db.Reaches c' d k a := by
  intro db
  have h : db.TreeOk := EditWorld.run_tree (OrgDb.empty_consistent.run ops).toTreeOk c edits as
  exact ⟨h.acyclic, fun u hu => h.exists_root hu, h.closureExact⟩

/-- The team 11 moves under the team 12 while a project is inserted under the root: each takes a step
in turn, one waits for the other with its change of the epoch, and both commit. -/
example :
    let db := OrgDb.empty.run [.createCompany 1 "Acme" "acme" 10,
      .insertOrgUnit ⟨11, 1, some 10, .team, "a", "A"⟩,
      .insertOrgUnit ⟨12, 1, some 10, .team, "b", "B"⟩]
    let edits : Bool → TreeEdit := fun b =>
      if b then .moveOrgUnit 11 12 else .insertOrgUnit 13 (some 10) .project "p" "P"
    let turns := (List.replicate 12 [.advance true 0, .advance false 0]).flatten
    let w := run (EditWorld.step 1) (.init db edits)
      (turns ++ [.commit true, .commit false] ++ turns ++ [.commit true, .commit false])
    (∀ b, (w.tx b).phase = .committed) ∧
      w.db.parentOf 1 11 = some 12 ∧ w.db.parentOf 1 13 = some 10 := by
  decide +kernel

end Wikore
