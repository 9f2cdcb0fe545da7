import Wikore.Scheduler.ScopeSync

/-! The version protocol of the resync workers.  A worker holds the lock on the document from the
read of `acl_version` to its commit, so `qdrant_synced_version` does not change under it, and the
version that it read is not ahead of the one at which it computes the scopes.  An event is completed
by a worker only when a newer one is enqueued or its version is synced. -/

namespace Wikore

open Transition Query ResyncDb

/-- The transaction of the worker holds the lock on the document. -/
def SyncWorker.Holds : SyncWorker → Prop
  | .resync _ _ (.locked ..) | .resync _ _ (.fetched _) | .resync _ _ (.patching ..)
  | .resync _ _ (.refreshed ..) | .upsert _ _ _ (.locked _)
  | .upsert _ _ _ (.upserted _) => True
  | _ => False

/-- The two events are about the same job. -/
structure ResyncEvent.SameJob (e e' : ResyncEvent) : Prop where
  companyId : e'.companyId = e.companyId
  aggregateId : e'.aggregateId = e.aggregateId
  payload : e'.payload = e.payload
  idempotencyKey : e'.idempotencyKey = e.idempotencyKey

namespace SyncWorld

/-- The event `k` is an event of the document with the version `v`. -/
def EventAt (company document : Uuid) (w : SyncWorld) (k v : Nat) : Prop :=
  ∃ e, w.db.outbox[k]? = some e ∧ e.companyId = company ∧ e.aggregateId = document ∧
    e.payload.aclVersion = v

/-- What a patch of a worker with an event of version `v` is to the row `x` of the document. -/
structure PatchOk (v : Nat) (x : DocumentRow) (patch : PayloadPatch) : Prop where
  event : v ≤ patch.aclVersion
  synced : x.qdrantSyncedVersion ≤ patch.aclVersion
  current : patch.aclVersion ≤ x.aclVersion
  computed : patch.aclVersion ≤ patch.computedAt

/-- What a resync worker with an event of version `v` has done, next to the row `x`.  The `points`
are points of the active version all along. -/
def PhaseOk (points : List PointKey) (v : Nat) (w : SyncWorld) (x : DocumentRow) : ResyncPhase → Prop
  | .claimed => True
  | .locked vCur _ => v ≤ vCur ∧ x.qdrantSyncedVersion ≤ vCur ∧ vCur ≤ x.aclVersion
  | .fetched patch => PatchOk v x patch
  | .patching patch _ rest => PatchOk v x patch ∧ ∀ p ∈ points,
      (∃ r ∈ rest, p.1 = r.1 ∧ p.2 ∈ r.2) ∨ w.patches p = some patch
  | .refreshed patch _ _ => PatchOk v x patch ∧ ∀ p ∈ points, w.patches p = some patch
  | .ended completed => completed = true → v < x.aclVersion ∨ x.aclVersion ≤ x.qdrantSyncedVersion

def WorkerOk (company document : Uuid) (points : List PointKey) (w : SyncWorld) (x : DocumentRow) :
    SyncWorker → Prop
  | .resync k v phase => w.EventAt company document k v ∧ PhaseOk points v w x phase
  | _ => True

structure VersionsOk (company document : Uuid) (points : List PointKey) (w : SyncWorld)
    (x : DocumentRow) : Prop where
  valid : w.db.Valid
  row : w.document? company document = some x
  synced : x.qdrantSyncedVersion ≤ x.aclVersion
  lock : ∀ i, (w.workers i).Holds → w.lock = some i
  active : ∀ p ∈ points, p ∈ w.activePoints
  patched : 0 < x.qdrantSyncedVersion → ∀ p ∈ points,
    ∃ patch, w.patches p = some patch ∧ x.qdrantSyncedVersion ≤ patch.computedAt
  pending : 1 < x.aclVersion → x.qdrantSyncedVersion < x.aclVersion → ∃ e ∈ w.db.outbox,
    e.companyId = company ∧ e.aggregateId = document ∧ e.payload.aclVersion = x.aclVersion ∧
      e.completed = false
  worker : ∀ i, WorkerOk company document points w x (w.workers i)

section Frame

variable {company document : Uuid} {points : List PointKey} {now : Nat} {w w' : SyncWorld}
  {x x' : DocumentRow} {i k v : Nat} {s : SyncWorker}

/-- The events of the first world are events of the second. -/
def KeepsEvents (w w' : SyncWorld) : Prop :=
  ∀ (k : Nat) (e : ResyncEvent), w.db.outbox[k]? = some e →
    ∃ e', w'.db.outbox[k]? = some e' ∧ e.SameJob e'

theorem KeepsEvents.refl (h : w'.db.outbox = w.db.outbox) : KeepsEvents w w' := by
  intro k e hk
  exact ⟨e, by rw [h, hk], rfl, rfl, rfl, rfl⟩

theorem EventAt.keeps (h : w.EventAt company document k v) (hk : KeepsEvents w w') :
    w'.EventAt company document k v := by
  obtain ⟨e, he, hc, hd, hv⟩ := h
  obtain ⟨e', he', hjob⟩ := hk k e he
  exact ⟨e', he', hjob.companyId.trans hc, hjob.aggregateId.trans hd, by rw [hjob.payload, hv]⟩

/-- An event is not ahead of the document. -/
theorem EventAt.le (h : w.EventAt company document k v) (hv : w.db.Valid)
    (hx : w.document? company document = some x) : v ≤ x.aclVersion := by
  obtain ⟨e, he, hc, hd, rfl⟩ := h
  obtain ⟨hmem, hxc, hxd⟩ := findDocument_some hx
  exact hv.notAhead e (List.mem_of_getElem? he) x hmem (hc.trans hxc.symm) (hd.trans hxd.symm)

/-- The patch of a document that is synced is of its version. -/
theorem PatchOk.of_synced {patch : PayloadPatch} (h : PatchOk v x patch)
    (heq : x.qdrantSyncedVersion = x.aclVersion) : patch.aclVersion = x.aclVersion :=
  Nat.le_antisymm h.current (heq ▸ h.synced)

theorem PatchOk.mono {patch : PayloadPatch} (h : PatchOk v x patch)
    (hacl : x.aclVersion ≤ x'.aclVersion)
    (hsync : x'.qdrantSyncedVersion = x.qdrantSyncedVersion) : PatchOk v x' patch :=
  ⟨h.event, hsync ▸ h.synced, Nat.le_trans h.current hacl, h.computed⟩

/-- What a worker has done stands when the version of the document grows. -/
theorem WorkerOk.mono (h : WorkerOk company document points w x s) (hle : ∀ k v,
    w.EventAt company document k v → v ≤ x.aclVersion) (hk : KeepsEvents w w')
    (hacl : x.aclVersion ≤ x'.aclVersion) (hsync : x'.qdrantSyncedVersion = x.qdrantSyncedVersion)
    (hpatch : w'.patches = w.patches) :
    WorkerOk company document points w' x' s := by
  cases s with
  | idle | upsert | ingest => trivial
  | resync k v phase =>
    refine ⟨h.1.keeps hk, ?_⟩
    have hphase := h.2
    cases phase with
    | claimed => trivial
    | locked vCur owner =>
      obtain ⟨h1, h2, h3⟩ := hphase
      exact ⟨h1, hsync ▸ h2, Nat.le_trans h3 hacl⟩
    | fetched patch => exact hphase.mono hacl hsync
    | patching patch collected rest =>
      refine ⟨hphase.1.mono hacl hsync, ?_⟩
      rw [hpatch]
      exact hphase.2
    | refreshed patch collected touched =>
      refine ⟨hphase.1.mono hacl hsync, ?_⟩
      rw [hpatch]
      exact hphase.2
    | ended completed =>
      intro hc
      have hv := hle k v h.1
      rcases hphase hc with hlt | hdone
      · exact .inl (Nat.lt_of_lt_of_le hlt hacl)
      · rw [hsync]
        omega

/-- What a worker without the lock has done stands when the holder of the lock patches points and
commits. -/
theorem WorkerOk.of_not_holds (h : WorkerOk company document points w x s) (hn : ¬s.Holds)
    (hk : KeepsEvents w w') (hacl : x'.aclVersion = x.aclVersion)
    (hsync : x.qdrantSyncedVersion ≤ x'.qdrantSyncedVersion) :
    WorkerOk company document points w' x' s := by
  cases s with
  | idle | upsert | ingest => trivial
  | resync k v phase =>
    refine ⟨h.1.keeps hk, ?_⟩
    cases phase with
    | claimed => trivial
    | locked | fetched | patching | refreshed => exact absurd trivial hn
    | ended completed =>
      intro hc
      rw [hacl]
      exact (h.2 hc).imp_right fun hle => Nat.le_trans hle hsync

end Frame

section Steps

variable {company document : Uuid} {points : List PointKey} {now : Nat} {w : SyncWorld}
  {x : DocumentRow} {i k v : Nat}

theorem VersionsOk.event_le (h : VersionsOk company document points w x)
    (he : w.EventAt company document k v) : v ≤ x.aclVersion :=
  he.le h.valid h.row

/-- A worker may be in any state that tells the truth about what it has done, and the lock may be
with anyone who says that it holds it. -/
theorem VersionsOk.replace (h : VersionsOk company document points w x) {s : SyncWorker}
    (hs : WorkerOk company document points w x s) (lock : Option Nat)
    (hself : s.Holds → lock = some i)
    (hothers : ∀ j, j ≠ i → (w.workers j).Holds → lock = some j) :
    VersionsOk company document points ({ w with lock }.setWorker i s) x :=
  { h with
    lock := fun j => by
      show (Function.update w.workers i s j).Holds → lock = some j
      by_cases hj : j = i
      · subst hj
        rw [Function.update_self]
        exact hself
      · rw [Function.update_of_ne hj]
        exact hothers j hj
    worker := fun j => by
      show WorkerOk company document points w x (Function.update w.workers i s j)
      by_cases hj : j = i
      · subst hj
        rwa [Function.update_self]
      · rw [Function.update_of_ne hj]
        exact h.worker j }

theorem VersionsOk.put (h : VersionsOk company document points w x) {s : SyncWorker}
    (hs : WorkerOk company document points w x s) (hlock : s.Holds → w.lock = some i) :
    VersionsOk company document points (w.setWorker i s) x :=
  h.replace hs w.lock hlock fun j _ => h.lock j

/-- A worker that leaves its transaction releases the lock. -/
theorem VersionsOk.leave (h : VersionsOk company document points w x) {s : SyncWorker}
    (hs : WorkerOk company document points w x s) (hfree : ¬s.Holds) :
    VersionsOk company document points ((w.unlock i).setWorker i s) x := by
  refine h.replace hs _ (fun hx => absurd hx hfree) fun j hj hx => ?_
  have hlock := h.lock j hx
  rw [hlock, if_neg fun heq => hj (Option.some.inj heq)]

/-- A worker takes the free lock. -/
theorem VersionsOk.acquire (h : VersionsOk company document points w x) {s : SyncWorker}
    (hfree : w.lock = none) (hs : WorkerOk company document points w x s) :
    VersionsOk company document points ({ w with lock := some i }.setWorker i s) x := by
  refine h.replace hs _ (fun _ => rfl) fun j _ hx => ?_
  rw [h.lock j hx] at hfree
  cases hfree

/-- Only one worker holds the lock. -/
theorem VersionsOk.others_free (h : VersionsOk company document points w x)
    (hi : (w.workers i).Holds) {j : Nat} (hj : j ≠ i) : ¬(w.workers j).Holds := by
  intro hx
  have hlock := h.lock i hi
  rw [h.lock j hx] at hlock
  exact hj (Option.some.inj hlock)

theorem VersionsOk.crash (h : VersionsOk company document points w x) :
    VersionsOk company document points (w.crash i) x :=
  h.leave trivial id

theorem VersionsOk.eventAt (h : VersionsOk company document points w x) {phase : ResyncPhase}
    (hw : w.workers i = .resync k v phase) : w.EventAt company document k v := by
  have hi := h.worker i
  rw [hw] at hi
  exact hi.1

theorem VersionsOk.phaseOk (h : VersionsOk company document points w x) {phase : ResyncPhase}
    (hw : w.workers i = .resync k v phase) : PhaseOk points v w x phase := by
  have hi := h.worker i
  rw [hw] at hi
  exact hi.2

/-! ### Events -/

theorem Valid.setEvent (h : w.db.Valid) {e e' : ResyncEvent} (hk : w.db.outbox[k]? = some e)
    (hjob : e.SameJob e') : (w.setEvent k e').db.Valid := by
  have hmem := List.mem_of_getElem? hk
  refine { h with eventKey := fun r hr => ?_, notAhead := fun r hr d hd hc hid => ?_ }
  · rcases List.mem_or_eq_of_mem_set hr with hr | rfl
    · exact h.eventKey r hr
    · rw [hjob.idempotencyKey, hjob.aggregateId, hjob.payload]
      exact h.eventKey e hmem
  · rcases List.mem_or_eq_of_mem_set hr with hr | rfl
    · exact h.notAhead r hr d hd hc hid
    · rw [hjob.payload]
      exact h.notAhead e hmem d hd (hjob.companyId ▸ hc) (hjob.aggregateId ▸ hid)

theorem KeepsEvents.setEvent {e e' : ResyncEvent} (hk : w.db.outbox[k]? = some e)
    (hjob : e.SameJob e') : KeepsEvents w (w.setEvent k e') := by
  intro j r hj
  by_cases hjk : j = k
  · subst hjk
    rw [hk] at hj
    cases hj
    refine ⟨e', ?_, hjob⟩
    exact List.getElem?_set_self (List.getElem?_eq_some_iff.mp hk).1
  · refine ⟨r, ?_, rfl, rfl, rfl, rfl⟩
    show (w.db.outbox.set k e')[j]? = some r
    rw [List.getElem?_set_ne (Ne.symm hjk), hj]

/-- The flags of an event change.  It is completed only when its version is not wanted any more. -/
theorem VersionsOk.setFlags (h : VersionsOk company document points w x) {e : ResyncEvent}
    (hk : w.db.outbox[k]? = some e) (claimed completed : Bool)
    (hdone : completed = true → e.completed = true ∨ e.payload.aclVersion ≠ x.aclVersion ∨
      x.aclVersion ≤ x.qdrantSyncedVersion) :
    VersionsOk company document points (w.setEvent k { e with claimed, completed }) x := by
  have hjob : e.SameJob { e with claimed, completed } := ⟨rfl, rfl, rfl, rfl⟩
  have hkeeps := KeepsEvents.setEvent hk hjob
  refine
    { h with
      valid := Valid.setEvent h.valid hk hjob
      pending := fun h1 hlt => ?_
      worker := fun j => ?_ }
  · obtain ⟨r, hr, hc, hd, hv, hopen⟩ := h.pending h1 hlt
    rcases mem_set_or_eq hk hr { e with claimed, completed } with hr' | rfl
    · exact ⟨r, hr', hc, hd, hv, hopen⟩
    · refine ⟨{ r with claimed, completed }, ?_, hc, hd, hv, ?_⟩
      · exact List.mem_set (List.getElem?_eq_some_iff.mp hk).1 _
      · cases completed with
        | false => rfl
        | true =>
          rcases hdone rfl with hx | hx | hx
          · rw [hopen] at hx
            cases hx
          · exact absurd hv hx
          · exact absurd hlt (Nat.not_lt.mpr hx)
  · exact (h.worker j).mono (fun k v he => h.event_le he) hkeeps (Nat.le_refl _) rfl rfl

/-! ### Changes -/

/-- The row of the document after a change: bumped with a new event, or as it was. -/
theorem VersionsOk.row_change (h : VersionsOk company document points w x) {op : AclChange}
    {db : ResyncDb} (hop : op.statement w.db = .ok () db) :
    ∃ x' new, db.Valid ∧ db.outbox = w.db.outbox ++ new ∧
      db.findDocument company document = some x' ∧
      x'.qdrantSyncedVersion = x.qdrantSyncedVersion ∧
      ((x'.aclVersion = x.aclVersion + 1 ∧ resyncEvent x' ∈ new) ∨
        (x'.aclVersion = x.aclVersion ∧ ∀ now s, db.access.Readable now x'.toDocument s ↔
          w.db.access.Readable now x.toDocument s)) := by
  obtain ⟨new, hch⟩ := h.valid.change hop
  obtain ⟨hmem, rfl, rfl⟩ := findDocument_some h.row
  obtain ⟨x', hx', hc, hid, hsync, hbump, hkeep⟩ := hch.document x hmem
  refine ⟨x', new, hch.valid, hch.outbox, ?_, hsync, ?_⟩
  · rw [← hc, ← hid]
    exact hch.valid.findDocument_of_mem hx'
  · by_cases ht : op.Touches w.db x
    · obtain ⟨hv, hnew⟩ := hbump ht
      refine .inl ⟨hv, ?_⟩
      have hone : resyncEvent x' ∈ new.filter (·.aggregateId = x.id) := by
        rw [hnew]
        exact List.mem_singleton.mpr rfl
      exact List.mem_of_mem_filter hone
    · exact .inr ⟨(hkeep ht).1, (hkeep ht).2.2⟩

theorem VersionsOk.change (h : VersionsOk company document points w x) {op : AclChange}
    {db : ResyncDb} (hop : op.statement w.db = .ok () db) :
    ∃ x', VersionsOk company document points { w with db := db } x' ∧ x.aclVersion ≤ x'.aclVersion ∧
      x.qdrantSyncedVersion ≤ x'.qdrantSyncedVersion := by
  obtain ⟨x', new, hvalid, hout, hrow, hsync, hver⟩ := h.row_change hop
  obtain ⟨-, hxc, hxd⟩ := findDocument_some hrow
  have hacl : x.aclVersion ≤ x'.aclVersion := by
    rcases hver with ⟨hv, -⟩ | ⟨hv, -⟩
    · omega
    · exact Nat.le_of_eq hv.symm
  have hkeeps : KeepsEvents w { w with db := db } := by
    intro k e hk
    refine ⟨e, ?_, rfl, rfl, rfl, rfl⟩
    show db.outbox[k]? = some e
    rw [hout, List.getElem?_append_left (List.getElem?_eq_some_iff.mp hk).1, hk]
  refine ⟨x', ?_, hacl, Nat.le_of_eq hsync.symm⟩
  exact
    { valid := hvalid
      row := hrow
      synced := hsync ▸ Nat.le_trans h.synced hacl
      lock := h.lock
      active := h.active
      patched := hsync ▸ h.patched
      pending := by
        intro h1 hlt
        show ∃ e ∈ db.outbox, _
        rw [hout]
        rcases hver with ⟨-, hnew⟩ | ⟨hv, -⟩
        · exact ⟨resyncEvent x', List.mem_append_right _ hnew, hxc, hxd, rfl, rfl⟩
        · rw [hv] at h1
          rw [hv, hsync] at hlt
          obtain ⟨e, he, hrest⟩ := h.pending h1 hlt
          exact ⟨e, List.mem_append_left _ he, hv ▸ hrest⟩
      worker := fun i =>
        (h.worker i).mono (fun k v he => h.event_le he) hkeeps hacl hsync rfl }

/-! ### Patches and commits -/

/-- The holder of the lock sends its patch to points. -/
theorem VersionsOk.applyPatch (h : VersionsOk company document points w x) {patch : PayloadPatch}
    {collected : List PointKey} {rest : List (String × List Uuid)}
    (hw : w.workers i = .resync k v (.patching patch collected rest)) (collection : String)
    (ids : List Uuid) : VersionsOk company document points (w.applyPatch patch collection ids) x := by
  have hok : PatchOk v x patch := (h.phaseOk hw).1
  have hholds : (w.workers i).Holds := hw ▸ trivial
  refine
    { h with
      patched := fun h0 p hp => ?_
      worker := fun j => ?_ }
  · show ∃ q, (if p.1 = collection ∧ p.2 ∈ ids then some patch else w.patches p) = some q ∧ _
    split
    · exact ⟨patch, rfl, Nat.le_trans hok.synced hok.computed⟩
    · exact h.patched h0 p hp
  · by_cases hj : j = i
    · subst hj
      rw [show (w.applyPatch patch collection ids).workers j = _ from hw]
      refine ⟨h.eventAt hw, hok, fun p hp => ?_⟩
      show _ ∨ (if p.1 = collection ∧ p.2 ∈ ids then some patch else w.patches p) = some patch
      split
      · exact .inr rfl
      · exact (h.phaseOk hw).2 p hp
    · have hfree := h.others_free hholds hj
      exact (h.worker j).of_not_holds hfree (.refl rfl) rfl (Nat.le_refl _)

@[simp] theorem casSynced_toDocument (d : DocumentRow) :
    (d.casSynced company document v).toDocument = d.toDocument := by
  rw [DocumentRow.casSynced]
  split <;> rfl

@[simp] theorem casSynced_aclVersion (d : DocumentRow) :
    (d.casSynced company document v).aclVersion = d.aclVersion := by
  rw [DocumentRow.casSynced]
  split <;> rfl

theorem casSynced_id (d : DocumentRow) : (d.casSynced company document v).id = d.id :=
  congrArg Document.id (casSynced_toDocument d)

theorem casSynced_companyId (d : DocumentRow) :
    (d.casSynced company document v).companyId = d.companyId :=
  congrArg Document.companyId (casSynced_toDocument d)

/-- The synced version is not read by the queries on access. -/
theorem access_casSyncedVersion (db : ResyncDb) (v : Nat) :
    (casSyncedVersion company document v db).access = db.access := by
  rw [ResyncDb.access, ResyncDb.access, SyncWorld.casSyncedVersion, List.map_map]
  simp [Function.comp_def]

theorem Valid.casSyncedVersion {db : ResyncDb} (h : db.Valid) (v : Nat) :
    (casSyncedVersion company document v db).Valid where
  documentIds := by
    rw [SyncWorld.casSyncedVersion, List.map_map]
    simpa [Function.comp_def, casSynced_id] using h.documentIds
  eventKey := h.eventKey
  notAhead e he d' hd' hc hid := by
    obtain ⟨d, hd, rfl⟩ := List.mem_map.mp hd'
    rw [casSynced_companyId] at hc
    rw [casSynced_id] at hid
    rw [casSynced_aclVersion]
    exact h.notAhead e he d hd hc hid
  access := by
    rw [access_casSyncedVersion]
    exact h.access

theorem findDocument_cas {db : ResyncDb} (h : db.Valid)
    (hx : db.findDocument company document = some x) :
    (casSyncedVersion company document v db).findDocument company document =
      some (x.casSynced company document v) := by
  obtain ⟨hmem, rfl, rfl⟩ := findDocument_some hx
  have hmem' := List.mem_map_of_mem (f := DocumentRow.casSynced x.companyId x.id v) hmem
  have hfind := (Valid.casSyncedVersion h v).findDocument_of_mem hmem'
  rwa [casSynced_companyId, casSynced_id] at hfind

/-- An update of the column leaves the points of the active version as they are. -/
theorem activePoints_refreshed (patch : PayloadPatch) (touched : List Uuid) :
    (w.refreshed company document patch touched).activePoints = w.activePoints := by
  simp only [activePoints, activeVectors, refreshed, List.filter_map, List.flatMap_map,
    Function.comp_def, refreshed_row]

/-- What the compare-and-set makes of the synced version. -/
theorem synced_cas (hx : w.document? company document = some x) (v : Nat) :
    (x.aclVersion = v ∧ (x.casSynced company document v).qdrantSyncedVersion = v) ∨
      (x.aclVersion ≠ v ∧ x.casSynced company document v = x) := by
  obtain ⟨-, hc, hd⟩ := findDocument_some hx
  by_cases hv : x.aclVersion = v
  · refine .inl ⟨hv, ?_⟩
    rw [DocumentRow.casSynced, if_pos ⟨hc, hd, hv⟩]
  · exact .inr ⟨hv, if_neg fun h => hv h.2.2⟩

/-- The holder of the lock commits: the document is synced to the version of the patch if that is
still its version. -/
theorem VersionsOk.refreshed (h : VersionsOk company document points w x) {patch : PayloadPatch}
    {collected : List PointKey} {touched : List Uuid}
    (hw : w.workers i = .resync k v (.refreshed patch collected touched)) :
    VersionsOk company document points (w.refreshed company document patch touched)
        (x.casSynced company document patch.aclVersion) ∧
      x.qdrantSyncedVersion ≤
        (x.casSynced company document patch.aclVersion).qdrantSyncedVersion := by
  obtain ⟨hok, hpatch⟩ := h.phaseOk hw
  have hholds : (w.workers i).Holds := hw ▸ trivial
  have hle : x.qdrantSyncedVersion ≤
      (x.casSynced company document patch.aclVersion).qdrantSyncedVersion := by
    rcases synced_cas h.row patch.aclVersion with ⟨-, hv⟩ | ⟨-, hv⟩
    · rw [hv]
      exact hok.synced
    · exact Nat.le_of_eq (congrArg _ hv.symm)
  have hbound : (x.casSynced company document patch.aclVersion).qdrantSyncedVersion ≤
      patch.aclVersion := by
    rcases synced_cas h.row patch.aclVersion with ⟨-, hv⟩ | ⟨-, hv⟩
    · exact Nat.le_of_eq hv
    · rw [hv]
      exact hok.synced
  refine ⟨?_, hle⟩
  exact
    { valid := Valid.casSyncedVersion h.valid patch.aclVersion
      row := findDocument_cas h.valid h.row
      synced := by
        rw [casSynced_aclVersion]
        exact Nat.le_trans hbound hok.current
      lock := h.lock
      active := by
        rw [activePoints_refreshed]
        exact h.active
      patched := by
        intro _ p hp
        exact ⟨patch, hpatch p hp, Nat.le_trans hbound hok.computed⟩
      pending := by
        rw [casSynced_aclVersion]
        intro h1 hlt
        rcases synced_cas h.row patch.aclVersion with ⟨heq, hv⟩ | ⟨-, hv⟩
        · omega
        · rw [hv] at hlt
          exact h.pending h1 hlt
      worker := by
        intro j
        by_cases hj : j = i
        · subst hj
          rw [show (w.refreshed company document patch touched).workers j = _ from hw]
          refine ⟨h.eventAt hw, ⟨hok.event, hbound, ?_, hok.computed⟩, ?_⟩
          · rw [casSynced_aclVersion]
            exact hok.current
          · exact hpatch
        · have hfree := h.others_free hholds hj
          exact (h.worker j).of_not_holds hfree (.refl rfl) (casSynced_aclVersion x) hle }

theorem VersionsOk.commit (h : VersionsOk company document points w x) {patch : PayloadPatch}
    {collected : List PointKey} {touched : List Uuid}
    (hw : w.workers i = .resync k v (.refreshed patch collected touched)) (ok : Bool) :
    VersionsOk company document points
      ((w.refreshed company document patch touched).endResync i k v ok)
      (x.casSynced company document patch.aclVersion) := by
  refine (h.refreshed hw).1.leave ⟨h.eventAt hw, fun _ => ?_⟩ id
  obtain ⟨hok, -⟩ := h.phaseOk hw
  have hevent := hok.event
  have hcur := hok.current
  rw [casSynced_aclVersion]
  rcases synced_cas h.row patch.aclVersion with ⟨heq, hv⟩ | ⟨hne, -⟩
  · omega
  · omega

/-! ### Steps and runs -/

theorem mem_pointsByCollection {points : List PointKey} {p : PointKey} (hp : p ∈ points) :
    ∃ r ∈ pointsByCollection points, p.1 = r.1 ∧ p.2 ∈ r.2 := by
  refine ⟨(p.1, (points.filter fun q => q.1 = p.1).map Prod.snd), ?_, rfl, ?_⟩
  · exact List.mem_map.mpr ⟨p.1, List.mem_dedup.mpr (List.mem_map_of_mem hp), rfl⟩
  · exact List.mem_map_of_mem (List.mem_filter.mpr ⟨hp, decide_eq_true rfl⟩)

theorem PatchOk.label {patch : PayloadPatch} (h : PatchOk v x patch) :
    PatchOk v x (w.labelPatch patch) := by
  rw [labelPatch]
  split
  · exact ⟨h.event, h.synced, h.current, h.computed⟩
  · exact h

/-- A step keeps what is known, and neither version goes back. -/
theorem VersionsOk.step {a : ResyncAction} {w' : SyncWorld}
    (h : VersionsOk company document points w x) (hs : ResyncStep company document now w a w') :
    ∃ x', VersionsOk company document points w' x' ∧ x.aclVersion ≤ x'.aclVersion ∧
      x.qdrantSyncedVersion ≤ x'.qdrantSyncedVersion := by
  have hstay : VersionsOk company document points w' x →
      ∃ x', VersionsOk company document points w' x' ∧ x.aclVersion ≤ x'.aclVersion ∧
        x.qdrantSyncedVersion ≤ x'.qdrantSyncedVersion :=
    fun h' => ⟨x, h', Nat.le_refl _, Nat.le_refl _⟩
  cases hs with
  | same => exact hstay h
  | changed hop => exact h.change hop
  | @claimed _ i k e hk hidle hc hd =>
    have h' := h.setFlags hk true e.completed .inl
    have hev : w.EventAt company document k e.payload.aclVersion := ⟨e, hk, hc, hd, rfl⟩
    have hkeeps : KeepsEvents w (w.setEvent k { e with claimed := true }) :=
      .setEvent hk ⟨rfl, rfl, rfl, rfl⟩
    exact hstay (h'.put ⟨hev.keeps hkeeps, trivial⟩ False.elim)
  | @released _ k e hk => exact hstay (h.setFlags hk false e.completed .inl)
  | failed hw => exact hstay (h.leave ⟨h.eventAt hw, nofun⟩ id)
  | gone hw hdoc =>
    rw [h.row] at hdoc
    cases hdoc
  | superseded hw hdoc hlt =>
    rw [h.row] at hdoc
    cases hdoc
    exact hstay (h.leave ⟨h.eventAt hw, fun _ => .inl hlt⟩ id)
  | @locked _ i k v d hw hfree hdoc =>
    rw [h.row] at hdoc
    cases hdoc
    refine hstay (h.acquire hfree ⟨h.eventAt hw, ?_⟩)
    exact ⟨h.event_le (h.eventAt hw), h.synced, Nat.le_refl _⟩
  | fetched hw =>
    obtain ⟨h1, h2, h3⟩ := h.phaseOk hw
    have hlock := h.lock _ (by rw [hw]; trivial)
    refine hstay (h.put ⟨h.eventAt hw, h1, h2, h3, ?_⟩ fun _ => hlock)
    rw [h.row]
    exact h3
  | collected hw =>
    have hok := h.phaseOk hw
    have hlock := h.lock _ (by rw [hw]; trivial)
    refine hstay (h.put ⟨h.eventAt hw, hok.label, fun p hp => .inl ?_⟩ fun _ => hlock)
    exact mem_pointsByCollection (h.active p hp)
  | @patched _ i k v patch collected collection ids rest hw =>
    have h' := h.applyPatch hw collection ids
    have hlock := h.lock i (by rw [hw]; trivial)
    obtain ⟨hok, hpatch⟩ := h.phaseOk hw
    refine hstay (h'.put ⟨h.eventAt hw, hok, fun p hp => ?_⟩ fun _ => hlock)
    show _ ∨ (if p.1 = collection ∧ p.2 ∈ ids then some patch else w.patches p) = some patch
    split
    next => exact .inr rfl
    next hno =>
      rcases hpatch p hp with ⟨r, hr, hin⟩ | hdone
      · rcases List.mem_cons.mp hr with rfl | hr
        · exact absurd hin hno
        · exact .inl ⟨r, hr, hin⟩
      · exact .inr hdone
  | patchLost hw => exact hstay ((h.applyPatch hw _ _).leave ⟨h.eventAt hw, nofun⟩ id)
  | refreshed hw =>
    have hlock := h.lock _ (by rw [hw]; trivial)
    obtain ⟨hok, hpatch⟩ := h.phaseOk hw
    refine hstay (h.put ⟨h.eventAt hw, hok, fun p hp => ?_⟩ fun _ => hlock)
    rcases hpatch p hp with ⟨r, hr, -⟩ | hdone
    · cases hr
    · exact hdone
  | @committed i k v patch collected touched reply ok _ hw =>
    refine ⟨_, h.commit hw ok, ?_, (h.refreshed hw).2⟩
    rw [casSynced_aclVersion]
  | @marked _ i k v completed e hw hk =>
    have h' : VersionsOk company document points (w.setWorker i .idle) x := h.put trivial False.elim
    refine hstay (h'.setFlags hk false (e.completed || completed) fun hdone => ?_)
    rcases Bool.or_eq_true .. ▸ hdone with hdone | hdone
    · exact .inl hdone
    · obtain ⟨e', he', -, -, rfl⟩ := h.eventAt hw
      rw [hk] at he'
      cases he'
      rcases h.phaseOk hw hdone with hlt | hsync
      · exact .inr (.inl (Nat.ne_of_lt hlt))
      · exact .inr (.inr hsync)
  | unmarked => exact hstay (h.put trivial False.elim)
  | crashed => exact hstay h.crash

end Steps

section Runs

variable {company document : Uuid} {w : SyncWorld}

/-- The document is as it was inserted, and no worker is at work on it.  There may be chunks, points
and vectors of it. -/
structure Inserted (company document : Uuid) (w : SyncWorld) : Prop where
  valid : w.db.Valid
  row : ∃ owner, w.document? company document =
    some { id := document, companyId := company, ownerOrgUnitId := owner }
  idle : ∀ i, w.workers i = .idle

theorem Inserted.versionsOk (h : Inserted company document w) {points : List PointKey}
    (hactive : ∀ p ∈ points, p ∈ w.activePoints) : ∃ x, VersionsOk company document points w x := by
  obtain ⟨owner, hrow⟩ := h.row
  refine ⟨_, h.valid, hrow, Nat.zero_le _, ?_, hactive, ?_, ?_, ?_⟩
  · intro i hi
    rw [h.idle i] at hi
    exact hi.elim
  · exact fun h0 => absurd h0 (Nat.lt_irrefl 0)
  · exact fun h1 => absurd h1 (Nat.lt_irrefl 1)
  · intro i
    rw [h.idle i]
    trivial

theorem ResyncStep.activePoints {now : Nat} {a : ResyncAction} {w' : SyncWorld}
    (hs : ResyncStep company document now w a w') : w'.activePoints = w.activePoints := by
  cases hs with
  | @committed i k v patch collected touched reply ok _ hw =>
    show (w.refreshed company document patch touched).activePoints = w.activePoints
    exact activePoints_refreshed patch touched
  | _ => rfl

end Runs

end SyncWorld

/-- The point of the chunk `00000000-0000-0000-0000-000000000190` under the model `bge-m3`. -/
def policyPoint : PointKey := ("wikore_docs_bge_m3", 0xa3fdfaaa4a9e5f28bfb963284bbbd896)

/-- The worker `i` processes the event `k` of a document with points in one collection. -/
def resyncRun (i k : Nat) : List ResyncAction :=
  [.claim i k, .lockDocument i .ok, .fetchAccessScopes i .ok, .collectPoints i .ok,
    .setPayload i .ok, .refreshColumn i .ok, .commit i .ok, .mark i .ok]

end Wikore
