import Wikore.Scheduler.ChunkPoints
import Wikore.Scheduler.ResyncVersions

/-! Whether the points agree with the grants.  A chunk gets its scopes from the ingest run that
wrote it or from a resync, a point from the chunk or from a resync, and once a version is synced
each of them is of that version, unless a run has written scopes that it fetched before, or a resync
has passed over a version that is not the active one. -/

namespace Wikore

open Transition Query ResyncDb

namespace SyncWorld

section Current

variable (company document : Uuid) (now : Nat) (w : SyncWorld)

/-- The scopes are those that `fetch_access_scopes` returns. -/
def Current (scopes : List Uuid) : Prop := ∀ s, s ∈ scopes ↔ s ∈ w.scopes company document now

/-- The point, if there is one, carries them. -/
def CurrentAt (p : PointKey) : Prop :=
  ∀ payload, w.points p = some payload → w.Current company document now payload.accessScopeIds

/-- What a worker with the lock has read and written, next to the row `x`. -/
def ScopeOk (pointKey : Uuid → String → PointKey) (x : DocumentRow) : SyncWorker → Prop
  | .resync _ _ (.fetched patch) => patch.aclVersion = x.aclVersion →
      w.Current company document now patch.accessScopeIds
  | .resync _ _ (.patching patch collected rest) => patch.aclVersion = x.aclVersion →
      w.Current company document now patch.accessScopeIds ∧ ∀ p ∈ collected,
        (∃ r ∈ rest, p.1 = r.1 ∧ p.2 ∈ r.2) ∨ w.CurrentAt company document now p
  | .resync _ _ (.refreshed patch collected touched) => patch.aclVersion = x.aclVersion →
      w.Current company document now patch.accessScopeIds ∧
        (∀ p ∈ collected, w.CurrentAt company document now p) ∧ ∀ ch ∈ w.chunks,
          ch.id ∈ touched ∨ w.Current company document now ch.qdrantPrefilterScopeIds
  | .upsert _ _ _ (.locked chunks) => x.qdrantSyncedVersion = x.aclVersion → ∀ row ∈ chunks,
      w.Current company document now row.2.accessScopeIds
  | .upsert _ _ model (.upserted chunks) => x.qdrantSyncedVersion = x.aclVersion → ∀ row ∈ chunks,
      w.CurrentAt company document now (pointKey row.1 model)
  | _ => True

/-- A document that is synced has the current scopes in its chunks and points. -/
structure ScopesOk (pointKey : Uuid → String → PointKey) (x : DocumentRow) : Prop where
  columns : x.qdrantSyncedVersion = x.aclVersion → ∀ ch ∈ w.chunks,
    w.Current company document now ch.qdrantPrefilterScopeIds
  registered : x.qdrantSyncedVersion = x.aclVersion → ∀ r ∈ w.vectors,
    w.CurrentAt company document now r.point
  worker : ∀ i, w.ScopeOk company document now pointKey x (w.workers i)

/-- An ingest run may write scopes that are not current only if a resync of the current version is
still to come to its update of the column, and a resync may set the synced version only if the
points that it did not patch carry the current scopes. -/
def KeepsScopes (w : SyncWorld) : SyncAction → Prop
  | .writeChunks i ids reply => ∀ x version model scopes, w.document? company document = some x →
      w.workers i = .ingest version model scopes → reply ≠ .failed → w.CanWrite version ids →
      w.Current company document now scopes ∨ x.qdrantSyncedVersion ≠ x.aclVersion ∧
        ∀ j k v patch collected touched,
          w.workers j = .resync k v (.refreshed patch collected touched) →
            patch.aclVersion ≠ x.aclVersion
  | .resync (.commit i reply) => ∀ x k v patch collected touched,
      w.document? company document = some x →
      w.workers i = .resync k v (.refreshed patch collected touched) → reply ≠ .failed →
      patch.aclVersion = x.aclVersion → ∀ r ∈ w.vectors,
        r.point ∈ collected ∨ w.CurrentAt company document now r.point
  | _ => True

end Current

section Frame

variable {pointKey : Uuid → String → PointKey} {company document : Uuid} {now : Nat}
  {w u : SyncWorld} {x x' : DocumentRow} {i k v : Nat} {s : SyncWorker}

theorem ScopeOk.of_not_holds (hn : ¬s.Holds) : w.ScopeOk company document now pointKey x s := by
  cases s with
  | idle | ingest => trivial
  | resync k v phase =>
    cases phase with
    | claimed | ended => trivial
    | locked | fetched | patching | refreshed => exact absurd trivial hn
  | upsert k version model phase =>
    cases phase with
    | claimed | read | ended => trivial
    | locked | upserted => exact absurd trivial hn

theorem ScopesOk.put (h : w.ScopesOk company document now pointKey x)
    (hs : w.ScopeOk company document now pointKey x s) :
    (w.setWorker i s).ScopesOk company document now pointKey x where
  columns := h.columns
  registered := h.registered
  worker j := by
    show w.ScopeOk company document now pointKey x ((w.setWorker i s).workers j)
    rcases setWorker_workers w i s j with hj | hj
    · rw [hj]
      exact h.worker j
    · rwa [hj]

/-- There is one row of the document. -/
theorem ScopesOk.of_row {points : List PointKey} (hv : VersionsOk company document points w x)
    (hv' : VersionsOk company document points u x')
    (hdoc : u.document? company document = w.document? company document)
    (h : u.ScopesOk company document now pointKey x) :
    u.ScopesOk company document now pointKey x' := by
  have hx : x = x' := Option.some.inj (hv.row.symm.trans (hdoc.symm.trans hv'.row))
  rwa [← hx]

/-- The lock plays no part in it. -/
theorem ScopesOk.setLock (h : w.ScopesOk company document now pointKey x) (lock : Option Nat) :
    { w with lock }.ScopesOk company document now pointKey x :=
  ⟨h.columns, h.registered, h.worker⟩

/-- The holder of the lock may change what it likes, as the others know nothing. -/
theorem ScopesOk.of_holder {points : List PointKey} (hv : VersionsOk company document points w x)
    (hi : (w.workers i).Holds) (hworkers : u.workers = w.workers)
    (hcol : x'.qdrantSyncedVersion = x'.aclVersion → ∀ ch ∈ u.chunks,
      u.Current company document now ch.qdrantPrefilterScopeIds)
    (hreg : x'.qdrantSyncedVersion = x'.aclVersion → ∀ r ∈ u.vectors,
      u.CurrentAt company document now r.point)
    (hs : u.ScopeOk company document now pointKey x' s) :
    (u.setWorker i s).ScopesOk company document now pointKey x' where
  columns := hcol
  registered := hreg
  worker j := by
    show u.ScopeOk company document now pointKey x' (Function.update u.workers i s j)
    by_cases hj : j = i
    · subst hj
      rwa [Function.update_self]
    · rw [Function.update_of_ne hj, hworkers]
      exact .of_not_holds (hv.others_free hi hj)

end Frame

/-! ### Changes -/

section Change

variable {pointKey : Uuid → String → PointKey} {company document : Uuid} {now : Nat} {w : SyncWorld}
  {x : DocumentRow}

theorem VersionsOk.mem_scopes {points : List PointKey} (hv : VersionsOk company document points w x)
    (s : Uuid) : s ∈ w.scopes company document now ↔ w.db.access.Readable now x.toDocument s := by
  obtain ⟨hmem, rfl, rfl⟩ := findDocument_some hv.row
  exact mem_fetchAccessScopes hv.valid.access (List.mem_map_of_mem hmem)

/-- A change that bumps the version leaves the document unsynced and the patches behind. -/
theorem ScopesOk.bumped {points : List PointKey} (hv : VersionsOk company document points w x)
    {db : ResyncDb} {x' : DocumentRow} (hacl : x'.aclVersion = x.aclVersion + 1)
    (hsync : x'.qdrantSyncedVersion = x.qdrantSyncedVersion) :
    { w with db := db }.ScopesOk company document now pointKey x' := by
  have hle := hv.synced
  have hstale : ∀ {P : Prop}, x'.qdrantSyncedVersion = x'.aclVersion → P := by
    intro P heq
    exact absurd heq (by omega)
  refine ⟨hstale, hstale, fun i => ?_⟩
  show { w with db := db }.ScopeOk company document now pointKey x' (w.workers i)
  have hi := hv.worker i
  have hpatch : ∀ {v : Nat} {patch : PayloadPatch} {P : Prop}, PatchOk v x patch →
      patch.aclVersion = x'.aclVersion → P := by
    intro v patch P hok heq
    have := hok.current
    exact absurd heq (by omega)
  cases hs : w.workers i with
  | idle | ingest => trivial
  | upsert k version model phase =>
    cases phase with
    | claimed | read | ended => trivial
    | locked | upserted => exact hstale
  | resync k v phase =>
    rw [hs] at hi
    have hphase := hi.2
    cases phase with
    | claimed | locked | ended => trivial
    | fetched patch => exact hpatch hphase
    | patching patch => exact hpatch hphase.1
    | refreshed patch => exact hpatch hphase.1

/-- Nothing changes for the workers if the scopes do not. -/
theorem ScopesOk.same_scopes (h : w.ScopesOk company document now pointKey x) {db : ResyncDb}
    {x' : DocumentRow} (hacl : x'.aclVersion = x.aclVersion)
    (hsync : x'.qdrantSyncedVersion = x.qdrantSyncedVersion)
    (hscopes : ∀ s, s ∈ { w with db := db }.scopes company document now ↔
      s ∈ w.scopes company document now) :
    { w with db := db }.ScopesOk company document now pointKey x' := by
  have hcur : ∀ l, { w with db := db }.Current company document now l ↔
      w.Current company document now l := by
    intro l
    simp only [Current, hscopes]
  have hat : ∀ p, { w with db := db }.CurrentAt company document now p ↔
      w.CurrentAt company document now p := by
    intro p
    simp only [CurrentAt, hcur]
  refine ⟨?_, ?_, fun i => ?_⟩
  · simp only [hacl, hsync, hcur]
    exact h.columns
  · simp only [hacl, hsync, hat]
    exact h.registered
  · have hi := h.worker i
    show { w with db := db }.ScopeOk company document now pointKey x' (w.workers i)
    revert hi
    cases w.workers i with
    | idle | ingest => exact id
    | upsert k version model phase =>
      cases phase <;> simp only [ScopeOk, hacl, hsync, hcur, hat, imp_self]
    | resync k v phase => cases phase <;> simp only [ScopeOk, hacl, hcur, hat, imp_self]

theorem ScopesOk.change {points : List PointKey} (hv : VersionsOk company document points w x)
    (h : w.ScopesOk company document now pointKey x) {op : AclChange} {db : ResyncDb}
    (hop : op.statement w.db = .ok () db) {x' : DocumentRow}
    (hv' : VersionsOk company document points { w with db := db } x') :
    { w with db := db }.ScopesOk company document now pointKey x' := by
  obtain ⟨y, new, -, -, hrow, hsync, hver⟩ := hv.row_change hop
  have hy : y = x' := Option.some.inj (hrow.symm.trans hv'.row)
  subst hy
  rcases hver with ⟨hacl, -⟩ | ⟨hacl, hread⟩
  · exact .bumped hv hacl hsync
  · refine h.same_scopes hacl hsync fun s => ?_
    rw [hv'.mem_scopes, hv.mem_scopes]
    exact hread now s

end Change

/-! ### Resync workers -/

section Resync

variable {pointKey : Uuid → String → PointKey} {company document : Uuid} {now : Nat} {w : SyncWorld}
  {x : DocumentRow} {i k v : Nat} {patch : PayloadPatch} {collected : List PointKey}

theorem ScopesOk.resyncOk (h : w.ScopesOk company document now pointKey x) {phase : ResyncPhase}
    (hw : w.workers i = .resync k v phase) :
    w.ScopeOk company document now pointKey x (.resync k v phase) :=
  hw ▸ h.worker i

theorem currentAt_applyPatch (hcur : w.Current company document now patch.accessScopeIds)
    {collection : String} {ids : List Uuid} {p : PointKey}
    (hp : (p.1 = collection ∧ p.2 ∈ ids) ∨ w.CurrentAt company document now p) :
    (w.applyPatch patch collection ids).CurrentAt company document now p := by
  intro payload hpay
  replace hpay : (if p.1 = collection ∧ p.2 ∈ ids then
      (w.points p).map fun _ => patch.toAclPayload else w.points p) = some payload := hpay
  show w.Current company document now payload.accessScopeIds
  split at hpay
  next =>
    obtain ⟨old, -, rfl⟩ := Option.map_eq_some_iff.mp hpay
    exact hcur
  next hno => exact hp.resolve_left hno payload hpay

/-- The patch does no harm to a synced document: it has the current scopes then. -/
theorem ScopesOk.applyPatch {points : List PointKey} (hv : VersionsOk company document points w x)
    (h : w.ScopesOk company document now pointKey x) {rest : List (String × List Uuid)}
    (hw : w.workers i = .resync k v (.patching patch collected rest)) {collection : String}
    {ids : List Uuid} {s : SyncWorker}
    (hs : (w.applyPatch patch collection ids).ScopeOk company document now pointKey x s) :
    ((w.applyPatch patch collection ids).setWorker i s).ScopesOk company document now pointKey x := by
  refine .of_holder hv (hw ▸ trivial) rfl h.columns (fun heq r hr => ?_) hs
  obtain ⟨hcur, -⟩ := h.resyncOk hw ((hv.phaseOk hw).1.of_synced heq)
  exact currentAt_applyPatch hcur (.inr (h.registered heq r hr))

theorem current_refreshed (touched l : List Uuid) :
    (w.refreshed company document patch touched).Current company document now l ↔
      w.Current company document now l := by
  simp only [Current, scopes, refreshed, access_casSyncedVersion]

/-- A resync that keeps the scopes leaves a synced document in agreement. -/
theorem ScopesOk.committed {points : List PointKey} (hv : VersionsOk company document points w x)
    (h : w.ScopesOk company document now pointKey x) {touched : List Uuid}
    (hw : w.workers i = .resync k v (.refreshed patch collected touched)) (ok : Bool)
    (hkeeps : patch.aclVersion = x.aclVersion → ∀ r ∈ w.vectors,
      r.point ∈ collected ∨ w.CurrentAt company document now r.point) :
    ((w.refreshed company document patch touched).endResync i k v ok).ScopesOk company document now
      pointKey (x.casSynced company document patch.aclVersion) := by
  -- the document is synced to the version of the patch, or it is not synced
  have hcase : (x.casSynced company document patch.aclVersion).qdrantSyncedVersion =
      (x.casSynced company document patch.aclVersion).aclVersion →
      patch.aclVersion = x.aclVersion := by
    intro heq
    rcases synced_cas hv.row patch.aclVersion with ⟨hacl, -⟩ | ⟨-, hsame⟩
    · exact hacl.symm
    · rw [hsame] at heq
      exact (hv.phaseOk hw).1.of_synced heq
  suffices h' : ((w.refreshed company document patch touched).setWorker i
      (.resync k v (.ended ok))).ScopesOk company document now pointKey
        (x.casSynced company document patch.aclVersion) from h'.setLock _
  refine .of_holder hv (hw ▸ trivial) rfl ?_ ?_ trivial
  · intro heq ch' hch'
    obtain ⟨ch, hch, rfl⟩ := List.mem_map.mp hch'
    obtain ⟨hcur, -, hcol⟩ := h.resyncOk hw (hcase heq)
    rw [current_refreshed]
    split
    next => exact hcur
    next hno => exact (hcol ch hch).resolve_left hno
  · intro heq r hr payload hpay
    rw [current_refreshed]
    obtain ⟨-, hat, -⟩ := h.resyncOk hw (hcase heq)
    rcases hkeeps (hcase heq) r hr with hmem | hcur
    · exact hat _ hmem payload hpay
    · exact hcur payload hpay

theorem ScopesOk.resync {a : ResyncAction} {w' : SyncWorld} {x' : DocumentRow}
    {points : List PointKey} (hv : VersionsOk company document points w x)
    (h : w.ScopesOk company document now pointKey x)
    (hkeeps : w.KeepsScopes company document now (.resync a))
    (hs : ResyncStep company document now w a w')
    (hv' : VersionsOk company document points w' x') :
    w'.ScopesOk company document now pointKey x' := by
  cases hs with
  | same => exact ScopesOk.of_row hv hv' rfl h
  | changed hop => exact h.change hv hop hv'
  | claimed =>
    refine ScopesOk.of_row hv hv' rfl (ScopesOk.put ?_ trivial)
    exact ⟨h.columns, h.registered, h.worker⟩
  | released => exact ScopesOk.of_row hv hv' rfl ⟨h.columns, h.registered, h.worker⟩
  | failed => exact ScopesOk.of_row hv hv' rfl ((h.setLock _).put trivial)
  | gone => exact ScopesOk.of_row hv hv' rfl ((h.setLock _).put trivial)
  | superseded => exact ScopesOk.of_row hv hv' rfl ((h.setLock _).put trivial)
  | locked => exact ScopesOk.of_row hv hv' rfl ((h.setLock _).put trivial)
  | fetched => exact ScopesOk.of_row hv hv' rfl (h.put fun _ _ => Iff.rfl)
  | @collected _ i k v patch hw =>
    refine ScopesOk.of_row hv hv' rfl (h.put fun hacl => ⟨?_, fun p hp => ?_⟩)
    · rw [labelPatch_aclVersion] at hacl
      rw [labelPatch_accessScopeIds]
      exact h.resyncOk hw hacl
    · exact .inl (mem_pointsByCollection hp)
  | @patched _ i k v patch collected collection ids rest hw =>
    refine ScopesOk.of_row hv hv' rfl (h.applyPatch hv hw fun hacl => ?_)
    obtain ⟨hcur, hat⟩ := h.resyncOk hw hacl
    refine ⟨hcur, fun p hp => ?_⟩
    rcases hat p hp with ⟨r, hr, hin⟩ | hdone
    · rcases List.mem_cons.mp hr with rfl | hr
      · exact .inr (currentAt_applyPatch hcur (.inl hin))
      · exact .inl ⟨r, hr, hin⟩
    · exact .inr (currentAt_applyPatch hcur (.inr hdone))
  | @patchLost _ i k v patch collected collection ids rest hw =>
    have h' : ((w.applyPatch patch collection ids).setWorker i
        (.resync k v (.ended false))).ScopesOk company document now pointKey x :=
      h.applyPatch hv hw trivial
    exact ScopesOk.of_row hv hv' rfl (h'.setLock _)
  | @refreshed _ i k v patch collected hw =>
    refine ScopesOk.of_row hv hv' rfl (h.put fun hacl => ?_)
    obtain ⟨hcur, hat⟩ := h.resyncOk hw hacl
    refine ⟨hcur, fun p hp => ?_, fun ch hch => .inl (List.mem_map_of_mem hch)⟩
    rcases hat p hp with ⟨r, hr, -⟩ | hdone
    · cases hr
    · exact hdone
  | @committed i k v patch collected touched reply ok hreply hw =>
    have hx : x.casSynced company document patch.aclVersion = x' :=
      Option.some.inj ((findDocument_cas hv.valid hv.row).symm.trans hv'.row)
    rw [← hx]
    refine h.committed hv hw ok fun hacl => ?_
    exact hkeeps x k v patch collected touched hv.row hw hreply hacl
  | @marked _ i k v completed e hw hk =>
    have h' : (w.setWorker i .idle).ScopesOk company document now pointKey x := h.put trivial
    exact ScopesOk.of_row hv hv' rfl ⟨h'.columns, h'.registered, h'.worker⟩
  | unmarked => exact ScopesOk.of_row hv hv' rfl (h.put trivial)
  | crashed => exact ScopesOk.of_row hv hv' rfl ((h.setLock _).put trivial)

end Resync

/-! ### Outbox workers and ingest runs -/

section Outbox

variable {pointKey : Uuid → String → PointKey} {company document : Uuid} {now : Nat} {w : SyncWorld}
  {x : DocumentRow} {i k : Nat} {version : Uuid} {model : String}
  {chunks : List (Uuid × AclPayload)}

theorem ScopesOk.upsertOk (h : w.ScopesOk company document now pointKey x) {phase : UpsertPhase}
    (hw : w.workers i = .upsert k version model phase) :
    w.ScopeOk company document now pointKey x (.upsert k version model phase) :=
  hw ▸ h.worker i

theorem mem_versionChunks {row : Uuid × AclPayload}
    (h : row ∈ w.versionChunks company document version) :
    ∃ ch ∈ w.chunks, row.2.accessScopeIds = ch.qdrantPrefilterScopeIds := by
  simp only [versionChunks] at h
  split at h
  next =>
    obtain ⟨ch, hch, rfl⟩ := List.mem_map.mp h
    exact ⟨ch, List.mem_of_mem_filter hch, rfl⟩
  next => cases h

/-- The payloads that were read again are those of the chunks. -/
theorem current_refreshPayloads
    (hcol : ∀ ch ∈ w.chunks, w.Current company document now ch.qdrantPrefilterScopeIds)
    (hids : ∀ row ∈ chunks, row.1 ∈ (w.versionChunks company document version).map Prod.fst) :
    ∀ row ∈ refreshPayloads (w.versionChunks company document version) chunks,
      w.Current company document now row.2.accessScopeIds := by
  intro row hrow
  obtain ⟨r, hr, rfl⟩ := List.mem_map.mp hrow
  cases hl : (w.versionChunks company document version).lookup r.1 with
  | none =>
    obtain ⟨q, hq, hfst⟩ := List.mem_map.mp (hids r hr)
    have hne := List.lookup_eq_none_iff.mp hl q hq
    rw [hfst] at hne
    simp at hne
  | some payload =>
    obtain ⟨l₁, l₂, heq, -⟩ := List.lookup_eq_some_iff.mp hl
    have hmem : (r.1, payload) ∈ w.versionChunks company document version := by
      rw [heq]
      exact List.mem_append_right l₁ List.mem_cons_self
    obtain ⟨ch, hch, hscopes⟩ := mem_versionChunks hmem
    rw [Option.getD_some, hscopes]
    exact hcol ch hch

theorem currentAt_withPoints
    (hrows : ∀ row ∈ chunks, w.Current company document now row.2.accessScopeIds) {p : PointKey}
    (hp : (∃ row ∈ chunks, pointKey row.1 model = p) ∨ w.CurrentAt company document now p) :
    (w.withPoints pointKey model chunks).CurrentAt company document now p := by
  intro payload hpay
  show w.Current company document now payload.accessScopeIds
  rcases withPoints_points pointKey model chunks w p with ⟨row, hrow, -, hnew⟩ | ⟨hne, hsame⟩
  · rw [hnew] at hpay
    cases hpay
    exact hrows row hrow
  · rw [hsame] at hpay
    rcases hp with ⟨row, hrow, hkey⟩ | hcur
    · exact absurd hkey (hne row hrow)
    · exact hcur payload hpay

theorem ScopesOk.withPoints {points : List PointKey} (hv : VersionsOk company document points w x)
    (h : w.ScopesOk company document now pointKey x)
    (hw : w.workers i = .upsert k version model (.locked chunks)) {s : SyncWorker}
    (hs : (w.withPoints pointKey model chunks).ScopeOk company document now pointKey x s) :
    ((w.withPoints pointKey model chunks).setWorker i s).ScopesOk company document now pointKey
      x := by
  refine .of_holder hv (hw ▸ trivial) rfl h.columns (fun heq r hr => ?_) hs
  exact currentAt_withPoints (h.upsertOk hw heq) (.inr (h.registered heq r hr))

theorem ScopesOk.withVectors {points : List PointKey} (hv : VersionsOk company document points w x)
    (h : w.ScopesOk company document now pointKey x)
    (hw : w.workers i = .upsert k version model (.upserted chunks)) (ok : Bool) :
    ((w.withVectors pointKey model chunks).endUpsert i k version model ok).ScopesOk company document
      now pointKey x := by
  suffices h' : ((w.withVectors pointKey model chunks).setWorker i
      (.upsert k version model (.ended ok))).ScopesOk company document now pointKey x from
    h'.setLock _
  refine .of_holder hv (hw ▸ trivial) rfl h.columns (fun heq r hr => ?_) trivial
  rcases mem_or_mem_of_mem_insertNew hr with hr | hr
  · exact h.registered heq r hr
  · obtain ⟨row, hrow, rfl⟩ := List.mem_map.mp hr
    exact h.upsertOk hw heq row hrow

/-- An ingest run that keeps the scopes adds chunks that are current or that a resync still updates.
-/
theorem ScopesOk.written (h : w.ScopesOk company document now pointKey x) {scopes ids : List Uuid}
    (hkeeps : w.Current company document now scopes ∨ x.qdrantSyncedVersion ≠ x.aclVersion ∧
      ∀ j k v patch collected touched,
        w.workers j = .resync k v (.refreshed patch collected touched) →
          patch.aclVersion ≠ x.aclVersion) :
    (w.written version model scopes ids).ScopesOk company document now pointKey x := by
  have hnew : ∀ ch ∈ (w.written version model scopes ids).chunks,
      ch ∈ w.chunks ∨ ch.qdrantPrefilterScopeIds = scopes := by
    intro ch hch
    refine (List.mem_append.mp hch).imp_right fun hch => ?_
    obtain ⟨id, -, rfl⟩ := List.mem_map.mp hch
    rfl
  refine ⟨fun heq ch hch => ?_, h.registered, fun j => ?_⟩
  · rcases hnew ch hch with hold | hscopes
    · exact h.columns heq ch hold
    · rw [hscopes]
      exact hkeeps.resolve_right fun hno => hno.1 heq
  · have hj := h.worker j
    show (w.written version model scopes ids).ScopeOk company document now pointKey x (w.workers j)
    cases hs : w.workers j with
    | idle | ingest => trivial
    | upsert k v m phase =>
      rw [hs] at hj
      cases phase <;> exact hj
    | resync k v phase =>
      rw [hs] at hj
      cases phase with
      | claimed | locked | fetched | patching | ended => exact hj
      | refreshed patch collected touched =>
        intro hacl
        obtain ⟨hcur, hat, hcol⟩ := hj hacl
        refine ⟨hcur, hat, fun ch hch => ?_⟩
        rcases hnew ch hch with hold | hscopes
        · exact hcol ch hold
        · rw [hscopes]
          refine .inr (hkeeps.resolve_right fun hno => ?_)
          exact hno.2 j k v patch collected touched hs hacl

end Outbox

section Steps

variable {pointKey : Uuid → String → PointKey} {company document : Uuid} {now : Nat}
  {w w' : SyncWorld} {x x' : DocumentRow} {a : SyncAction}

/-- The versions and the lock do not depend on the tables of the outbox workers. -/
theorem VersionsOk.tables (h : VersionsOk company document [] w x) (versions : List SyncVersion)
    (chunks : List SyncChunk) (vectors : List ChunkVector) (upserts : List SyncUpsert)
    (points : PointKey → Option AclPayload) :
    VersionsOk company document [] { w with versions, chunks, vectors, upserts, points } x :=
  { h with active := nofun }

theorem VersionsOk.sync (h : VersionsOk company document [] w x)
    (hs : SyncStep pointKey company document now w a w') :
    ∃ x', VersionsOk company document [] w' x' := by
  cases hs with
  | same => exact ⟨x, h⟩
  | resync hs =>
    obtain ⟨x', h', -⟩ := h.step hs
    exact ⟨x', h'⟩
  | claimed => exact ⟨x, (h.tables ..).put trivial False.elim⟩
  | released => exact ⟨x, h.tables ..⟩
  | failed => exact ⟨x, h.leave trivial id⟩
  | empty => exact ⟨x, h.leave trivial id⟩
  | read => exact ⟨x, h.put trivial False.elim⟩
  | locked hw hfree => exact ⟨x, h.acquire hfree trivial⟩
  | upserted hw => exact ⟨x, (h.tables ..).put trivial fun _ => h.lock _ (hw ▸ trivial)⟩
  | upsertLost => exact ⟨x, (h.tables ..).leave trivial id⟩
  | registered => exact ⟨x, (h.tables ..).leave trivial id⟩
  | @marked _ i =>
    have h' : VersionsOk company document [] (w.setWorker i .idle) x := h.put trivial False.elim
    exact ⟨x, h'.tables ..⟩
  | unmarked => exact ⟨x, h.put trivial False.elim⟩
  | fetched => exact ⟨x, h.put trivial False.elim⟩
  | unwritten => exact ⟨x, h.put trivial False.elim⟩
  | written => exact ⟨x, (h.tables ..).put trivial False.elim⟩
  | promoted => exact ⟨x, h.tables ..⟩

theorem ScopesOk.step (hv : VersionsOk company document [] w x) (hu : w.UpsertsOk pointKey)
    (h : w.ScopesOk company document now pointKey x)
    (hkeeps : w.KeepsScopes company document now a)
    (hs : SyncStep pointKey company document now w a w')
    (hv' : VersionsOk company document [] w' x') :
    w'.ScopesOk company document now pointKey x' := by
  cases hs with
  | same => exact ScopesOk.of_row hv hv' rfl h
  | resync hs => exact h.resync hv hkeeps hs hv'
  | @claimed _ i k e hk hidle =>
    have h' : (w.setUpsert k { e with claimed := true }).ScopesOk company document now pointKey x :=
      ⟨h.columns, h.registered, h.worker⟩
    exact ScopesOk.of_row hv hv' rfl (h'.put trivial)
  | released => exact ScopesOk.of_row hv hv' rfl ⟨h.columns, h.registered, h.worker⟩
  | failed => exact ScopesOk.of_row hv hv' rfl ((h.setLock _).put trivial)
  | empty => exact ScopesOk.of_row hv hv' rfl ((h.setLock _).put trivial)
  | read => exact ScopesOk.of_row hv hv' rfl (h.put trivial)
  | @locked _ i k version model chunks hw hfree =>
    refine ScopesOk.of_row hv hv' rfl ((h.setLock _).put fun heq => ?_)
    have hfst := versionChunks_fst (hu.done_of_eventAt hw) hv.row
    refine current_refreshPayloads (h.columns heq) fun row hrow => ?_
    rw [hfst, ← show chunks.map Prod.fst = w.chunkIds version from hu.phaseOk hw]
    exact List.mem_map_of_mem hrow
  | upserted hw =>
    refine ScopesOk.of_row hv hv' rfl (h.withPoints hv hw fun heq row hrow => ?_)
    exact currentAt_withPoints (h.upsertOk hw heq) (.inl ⟨row, hrow, rfl⟩)
  | @upsertLost _ i k version model chunks hw =>
    have h' : ((w.withPoints pointKey model chunks).setWorker i
        (.upsert k version model (.ended false))).ScopesOk company document now pointKey x :=
      h.withPoints hv hw trivial
    exact ScopesOk.of_row hv hv' rfl (h'.setLock _)
  | registered hw => exact ScopesOk.of_row hv hv' rfl (h.withVectors hv hw _)
  | @marked _ i =>
    have h' : (w.setWorker i .idle).ScopesOk company document now pointKey x := h.put trivial
    exact ScopesOk.of_row hv hv' rfl ⟨h'.columns, h'.registered, h'.worker⟩
  | unmarked => exact ScopesOk.of_row hv hv' rfl (h.put trivial)
  | fetched => exact ScopesOk.of_row hv hv' rfl (h.put trivial)
  | unwritten => exact ScopesOk.of_row hv hv' rfl (h.put trivial)
  | written hw hreply hcan =>
    exact ScopesOk.of_row hv hv' rfl ((h.written (hkeeps x _ _ _ hv.row hw hreply hcan)).put trivial)
  | promoted => exact ScopesOk.of_row hv hv' rfl ⟨h.columns, h.registered, h.worker⟩

end Steps

section Runs

variable {pointKey : Uuid → String → PointKey} {company document : Uuid} {now : Nat}
  {w : SyncWorld}

/-- The document is as it was inserted, and no version of it has been ingested. -/
structure Unwritten (company document : Uuid) (w : SyncWorld) : Prop
    extends Inserted company document w where
  chunks : w.chunks = []
  vectors : w.vectors = []
  upserts : w.upserts = []
  points : ∀ p, w.points p = none

theorem Unwritten.upsertsOk (h : Unwritten company document w) : w.UpsertsOk pointKey where
  done e he := by
    rw [h.upserts] at he
    cases he
  keyed r hr := by
    rw [h.vectors] at hr
    cases hr
  covered e he := by
    rw [h.upserts] at he
    cases he
  owed p hp := absurd (h.points p) hp
  worker i := by
    rw [h.idle i]
    trivial

theorem Unwritten.scopesOk (h : Unwritten company document w) (x : DocumentRow) :
    w.ScopesOk company document now pointKey x where
  columns _ ch hch := by
    rw [h.chunks] at hch
    cases hch
  registered _ r hr := by
    rw [h.vectors] at hr
    cases hr
  worker i := by
    rw [h.idle i]
    trivial

theorem run_scopesOk (h : Unwritten company document w) {as : List SyncAction}
    (hrun : Along (step pointKey company document now) (KeepsScopes company document now) w as) :
    let w := run (step pointKey company document now) w as
    ∃ x, VersionsOk company document [] w x ∧ w.UpsertsOk pointKey ∧
      w.ScopesOk company document now pointKey x := by
  refine run_invariant_of (P := fun w => ∃ x, VersionsOk company document [] w x ∧
    w.UpsertsOk pointKey ∧ w.ScopesOk company document now pointKey x) ?_ hrun ?_
  · have hnil : ∀ p ∈ ([] : List PointKey), p ∈ w.activePoints := nofun
    obtain ⟨x, hx⟩ := h.versionsOk hnil
    exact ⟨x, hx, h.upsertsOk, h.scopesOk x⟩
  · rintro w a ⟨x, hv, hu, hsc⟩ hkeeps
    have hs : SyncStep pointKey company document now w a _ := sync_step a
    obtain ⟨x', hv'⟩ := hv.sync hs
    exact ⟨x', hv', hu.step hv.row hs, hsc.step hv hu hkeeps hs hv'⟩

end Runs

end SyncWorld

/-- In every run that keeps the scopes: once the events of the document are completed and it is
synced, the points of its chunks carry the scopes that `fetch_access_scopes` returns. -/
theorem points_carry_scopes (pointKey : Uuid → String → PointKey) {company document : Uuid}
    (now : Nat) {w : SyncWorld} (h : w.Unwritten company document) (as : List SyncAction)
    (hrun : Along (SyncWorld.step pointKey company document now)
      (SyncWorld.KeepsScopes company document now) w as) :
    let w := run (SyncWorld.step pointKey company document now) w as
    ∃ x, w.document? company document = some x ∧
      ((∀ e ∈ w.upserts, e.completed = true) →
        (∀ e ∈ w.db.outbox, e.companyId = company → e.aggregateId = document →
          e.completed = true) →
        x.qdrantSyncedVersion = x.aclVersion →
        ∀ ch ∈ w.chunks, ∀ model payload, w.points (pointKey ch.id model) = some payload →
          ∀ s, s ∈ payload.accessScopeIds ↔ s ∈ w.scopes company document now) := by
  intro w
  obtain ⟨x, hv, hu, hsc⟩ := SyncWorld.run_scopesOk h hrun
  refine ⟨x, hv.row, fun hdone _ hsync ch _ model payload hpay => ?_⟩
  have hsome : w.points (pointKey ch.id model) ≠ none := by
    rw [hpay]
    nofun
  rcases hu.owed _ hsome with ⟨r, hr, hkey⟩ | ⟨e, he, hopen, -⟩
  · rw [← hkey] at hpay
    exact hsc.registered hsync r hr payload hpay
  · rw [hdone e he] at hopen
    cases hopen

/-- The policy 100 with a draft that is to be ingested. -/
def policyDraft : SyncWorld where
  db := policyDb
  versions := [⟨300, .draft, .internal, false⟩]
  chunks := []
  vectors := []
  upserts := []
  points _ := none
  patches _ := none
  lock := none
  workers _ := .idle

theorem policyDraft_unwritten : policyDraft.Unwritten 1 100 where
  valid := policyDb_valid
  row := ⟨11, rfl⟩
  idle _ := rfl
  chunks := rfl
  vectors := rfl
  upserts := rfl
  points _ := rfl

/-- The key of the point of its only chunk. -/
def policyKey (_ : Uuid) (_ : String) : PointKey := policyPoint

/-- The worker `i` processes the event `k`. -/
def upsertRun (i k : Nat) : List SyncAction :=
  [.claimUpsert i k, .readChunks i .ok, .lockChunks i .ok, .upsertPoints i .ok,
    .registerVectors i .ok, .markUpsert i .ok]

/-- The draft is ingested and promoted before the grant. -/
def policyPromoted : List SyncAction :=
  [.ingest 1 300 "bge-m3", .writeChunks 1 [400] .ok] ++ upsertRun 1 0 ++
    .promote 300 :: (.change (.insertGrant [] policyGrant) :: resyncRun 0 0).map .resync

/-- The write finds the scopes that it fetched, and the resync finds the only point. -/
theorem policyPromoted_keeps :
    Along (SyncWorld.step policyKey 1 100 0) (SyncWorld.KeepsScopes 1 100 0)
      policyDraft policyPromoted := by
  refine ⟨trivial, ?_, trivial, trivial, trivial, trivial, trivial, trivial, trivial, trivial,
    trivial, trivial, trivial, trivial, trivial, trivial, ?_, trivial, trivial⟩
  · intro x version model scopes hx hw hreply hcan
    cases hw
    exact .inl fun s => Iff.rfl
  · intro x k v patch collected touched hx hw hreply hacl r hr
    have hworker : (run (SyncWorld.step policyKey 1 100 0) policyDraft
        (policyPromoted.take 16)).workers 0 = .resync 0 2 (.refreshed
          ⟨⟨[11, 12], .internal, .active, 11, 2⟩, 2⟩ [policyPoint] [400]) := by decide
    have hvectors : (run (SyncWorld.step policyKey 1 100 0) policyDraft
        (policyPromoted.take 16)).vectors = [⟨400, "bge-m3", policyPoint⟩] := by decide
    cases hworker.symm.trans hw
    replace hr : r ∈ [⟨400, "bge-m3", policyPoint⟩] := hvectors ▸ hr
    rw [List.mem_singleton.mp hr]
    exact .inl List.mem_cons_self

theorem policy_promoted_agrees :
    let w := run (SyncWorld.step policyKey 1 100 0) policyDraft policyPromoted
    ∃ payload, w.points policyPoint = some payload ∧ payload.accessScopeIds = [11, 12] ∧
      ∀ s, s ∈ payload.accessScopeIds ↔ s ∈ w.scopes 1 100 0 := by
  intro w
  obtain ⟨x, hx, hagree⟩ :=
    points_carry_scopes policyKey 0 policyDraft_unwritten policyPromoted
      policyPromoted_keeps
  have hpoint : w.points policyPoint = some ⟨[11, 12], .internal, .active, 11, 2⟩ := by
    decide
  have hrow : w.document? 1 100 = some ⟨⟨100, 1, 11⟩, 2, 2⟩ := by decide
  have hsync : x.qdrantSyncedVersion = x.aclVersion := by
    cases hrow.symm.trans hx
    rfl
  refine ⟨_, hpoint, rfl, hagree ?_ ?_ hsync ⟨400, 300, [11, 12]⟩ ?_ "bge-m3" _ hpoint⟩
  · decide
  · decide
  · decide

/-- The grant is inserted and synced between the fetch of the ingest run and its write. -/
def policyLate : List SyncAction :=
  .ingest 1 300 "bge-m3" :: (.change (.insertGrant [] policyGrant) :: resyncRun 0 0).map .resync ++
    .writeChunks 1 [400] .ok :: upsertRun 1 0

theorem late_policy_disagrees :
    policyDraft.Unwritten 1 100 ∧
    let w := run (SyncWorld.step policyKey 1 100 0) policyDraft policyLate
    (∃ x, w.document? 1 100 = some x ∧ x.qdrantSyncedVersion = x.aclVersion) ∧
      (∀ e ∈ w.upserts, e.completed = true) ∧ (∀ e ∈ w.db.outbox, e.completed = true) ∧
      ¬∀ ch ∈ w.chunks, ∀ model payload, w.points (policyKey ch.id model) = some payload →
        ∀ s, s ∈ payload.accessScopeIds ↔ s ∈ w.scopes 1 100 0 := by
  refine ⟨policyDraft_unwritten, ⟨⟨⟨100, 1, 11⟩, 2, 2⟩, ?_, rfl⟩, ?_, ?_, fun h => ?_⟩
  · decide
  · decide
  · decide
  · have hread := (h ⟨400, 300, [11]⟩ (by decide) "bge-m3"
      ⟨[11], .internal, .draft, 11, 2⟩ (by decide) 12).mpr (by decide)
    revert hread
    decide

-- a resync passes over the points of a draft
example :
    let w := run (SyncWorld.step policyKey 1 100 0) policyDraft
      ([.ingest 1 300 "bge-m3", .writeChunks 1 [400] .ok] ++ upsertRun 1 0 ++
        (.change (.insertGrant [] policyGrant) :: resyncRun 0 0).map .resync)
    (w.document? 1 100).map DocumentRow.qdrantSyncedVersion = some 2 ∧
      (w.points policyPoint).map AclPayload.accessScopeIds = some [11] ∧
        w.scopes 1 100 0 = [11, 12] := by
  decide

end Wikore
