import Wikore.Scheduler.ChunkUpserts
import Wikore.Lib.Transition

/-! Which points there are.  A point in Qdrant is on record in `document_chunk_vectors`, or the
event of its version and model is not completed. -/

namespace Wikore

open Query

namespace SyncWorld

/-- The point is on record. -/
def Registered (w : SyncWorld) (p : PointKey) : Prop := ∃ r ∈ w.vectors, r.point = p

def chunkIds (w : SyncWorld) (version : Uuid) : List Uuid :=
  (w.chunks.filter fun ch => ch.documentVersionId = version).map SyncChunk.id

section Upserts

variable (pointKey : Uuid → String → PointKey) (w : SyncWorld)

/-- The points of the version under the model are on record. -/
def Covered (version : Uuid) (model : String) : Prop :=
  ∀ id ∈ w.chunkIds version, w.Registered (pointKey id model)

/-- What an outbox worker has done. -/
def UpsertPhaseOk (version : Uuid) (model : String) : UpsertPhase → Prop
  | .claimed => True
  | .read chunks | .locked chunks | .upserted chunks => chunks.map Prod.fst = w.chunkIds version
  | .ended completed => completed = true → w.Covered pointKey version model

def UpsertOk : SyncWorker → Prop
  | .upsert k version model phase =>
    (∃ e, w.upserts[k]? = some e ∧ e.documentVersionId = version ∧ e.embedModelId = model) ∧
      w.UpsertPhaseOk pointKey version model phase
  | _ => True

/-- The event is not completed, and the point is one of those that it is to upsert. -/
def Owes (e : SyncUpsert) (p : PointKey) : Prop :=
  e.completed = false ∧ ∃ id ∈ w.chunkIds e.documentVersionId, pointKey id e.embedModelId = p

structure UpsertsOk : Prop where
  done : ∀ e ∈ w.upserts, w.done? e.documentVersionId = some true
  keyed : ∀ r ∈ w.vectors, r.point = pointKey r.chunkId r.embedModelId
  covered : ∀ e ∈ w.upserts, e.completed = true →
    w.Covered pointKey e.documentVersionId e.embedModelId
  owed : ∀ p, w.points p ≠ none → w.Registered p ∨ ∃ e ∈ w.upserts, w.Owes pointKey e p
  worker : ∀ i, w.UpsertOk pointKey (w.workers i)

end Upserts

section Frame

variable {pointKey : Uuid → String → PointKey} {w w' : SyncWorld} {i k : Nat} {s : SyncWorker}
  {version : Uuid} {model : String}

/-- The tables of the outbox workers are the same in both worlds, and the second one has no more
points. -/
structure UpsertFrame (w w' : SyncWorld) : Prop where
  done : ∀ version, w'.done? version = w.done? version
  chunkIds : ∀ version, w'.chunkIds version = w.chunkIds version
  vectors : w'.vectors = w.vectors
  upserts : w'.upserts = w.upserts
  points : ∀ p, w'.points p ≠ none → w.points p ≠ none

/-- The lock and the workers play no part in it. -/
theorem UpsertFrame.workers (w : SyncWorld) (lock : Option Nat) (workers : Nat → SyncWorker) :
    UpsertFrame w { w with lock, workers } :=
  ⟨fun _ => rfl, fun _ => rfl, rfl, rfl, fun _ h => h⟩

theorem UpsertFrame.registered (hf : UpsertFrame w w') {p : PointKey} :
    w'.Registered p ↔ w.Registered p := by
  rw [Registered, Registered, hf.vectors]

theorem UpsertFrame.covered (hf : UpsertFrame w w') :
    w'.Covered pointKey version model ↔ w.Covered pointKey version model := by
  simp only [Covered, hf.chunkIds, hf.registered]

/-- What a worker has done stands when more points are on record. -/
theorem UpsertOk.of_registered (h : w.UpsertOk pointKey s)
    (hids : ∀ version, w'.chunkIds version = w.chunkIds version) (hupserts : w'.upserts = w.upserts)
    (hreg : ∀ p, w.Registered p → w'.Registered p) : w'.UpsertOk pointKey s := by
  cases s with
  | idle | resync | ingest => trivial
  | upsert k version model phase =>
    refine ⟨by rw [hupserts]; exact h.1, ?_⟩
    have hphase := h.2
    cases phase with
    | claimed => trivial
    | read chunks | locked chunks | upserted chunks => exact hphase.trans (hids version).symm
    | ended completed =>
      intro hc id hid
      rw [hids] at hid
      exact hreg _ (hphase hc id hid)

/-- The workers may be in any state that is true of the tables. -/
theorem UpsertsOk.frame (h : w.UpsertsOk pointKey) (hf : UpsertFrame w w')
    (hworkers : ∀ i, w'.workers i = w.workers i ∨ w.UpsertOk pointKey (w'.workers i)) :
    w'.UpsertsOk pointKey where
  done := by
    simp only [hf.upserts, hf.done]
    exact h.done
  keyed := hf.vectors ▸ h.keyed
  covered := by
    simp only [hf.upserts, hf.covered]
    exact h.covered
  owed p hp := by
    simp only [hf.registered, hf.upserts, Owes, hf.chunkIds]
    exact h.owed p (hf.points p hp)
  worker i := by
    refine UpsertOk.of_registered ?_ hf.chunkIds hf.upserts fun _ => hf.registered.mpr
    rcases hworkers i with hsame | hnew
    · rw [hsame]
      exact h.worker i
    · exact hnew

theorem setWorker_workers (w : SyncWorld) (i : Nat) (s : SyncWorker) (j : Nat) :
    (w.setWorker i s).workers j = w.workers j ∨ (w.setWorker i s).workers j = s := by
  by_cases hj : j = i
  · subst hj
    exact .inr (Function.update_self ..)
  · exact .inl (Function.update_of_ne hj ..)

theorem UpsertsOk.put (h : w.UpsertsOk pointKey) (hs : w.UpsertOk pointKey s) :
    (w.setWorker i s).UpsertsOk pointKey := by
  refine h.frame (.workers w ..) fun j => ?_
  exact (setWorker_workers w i s j).imp_right fun hj => by rwa [hj]

theorem UpsertsOk.setLock (h : w.UpsertsOk pointKey) (lock : Option Nat) :
    { w with lock }.UpsertsOk pointKey :=
  ⟨h.done, h.keyed, h.covered, h.owed, h.worker⟩

theorem UpsertsOk.leave (h : w.UpsertsOk pointKey) (hs : w.UpsertOk pointKey s) :
    ((w.unlock i).setWorker i s).UpsertsOk pointKey :=
  (h.setLock _).put hs

theorem UpsertsOk.eventAt (h : w.UpsertsOk pointKey) {phase : UpsertPhase}
    (hw : w.workers i = .upsert k version model phase) :
    ∃ e, w.upserts[k]? = some e ∧ e.documentVersionId = version ∧ e.embedModelId = model := by
  have hi := h.worker i
  rw [hw] at hi
  exact hi.1

theorem UpsertsOk.phaseOk (h : w.UpsertsOk pointKey) {phase : UpsertPhase}
    (hw : w.workers i = .upsert k version model phase) :
    w.UpsertPhaseOk pointKey version model phase := by
  have hi := h.worker i
  rw [hw] at hi
  exact hi.2

end Frame

/-! ### Resync workers -/

section Resync

variable {pointKey : Uuid → String → PointKey} {company document : Uuid} {now : Nat}
  {w w' : SyncWorld} {a : ResyncAction}

theorem UpsertFrame.applyPatch (w : SyncWorld) (patch : PayloadPatch) (collection : String)
    (ids : List Uuid) : UpsertFrame w (w.applyPatch patch collection ids) where
  done _ := rfl
  chunkIds _ := rfl
  vectors := rfl
  upserts := rfl
  points p hp := by
    rintro hnone
    refine hp ?_
    show (if p.1 = collection ∧ p.2 ∈ ids then (w.points p).map fun _ => patch.toAclPayload
      else w.points p) = none
    rw [hnone]
    exact ite_self _

theorem UpsertFrame.refreshed (w : SyncWorld) (patch : PayloadPatch) (touched : List Uuid) :
    UpsertFrame w (w.refreshed company document patch touched) where
  done _ := rfl
  chunkIds version := by
    simp only [SyncWorld.chunkIds, SyncWorld.refreshed, List.filter_map, List.map_map,
      Function.comp_def, refreshed_row]
  vectors := rfl
  upserts := rfl
  points _ h := h

theorem UpsertFrame.trans {w₁ w₂ w₃ : SyncWorld} (h₁ : UpsertFrame w₁ w₂) (h₂ : UpsertFrame w₂ w₃) :
    UpsertFrame w₁ w₃ where
  done version := (h₂.done version).trans (h₁.done version)
  chunkIds version := (h₂.chunkIds version).trans (h₁.chunkIds version)
  vectors := h₂.vectors.trans h₁.vectors
  upserts := h₂.upserts.trans h₁.upserts
  points p hp := h₁.points p (h₂.points p hp)

/-- A resync worker leaves the tables of the outbox workers, and it makes no point. -/
theorem ResyncStep.upsertFrame (hs : ResyncStep company document now w a w') : UpsertFrame w w' := by
  cases hs with
  | patched => exact (UpsertFrame.applyPatch w _ _ _).trans (.workers ..)
  | patchLost => exact (UpsertFrame.applyPatch w _ _ _).trans (.workers ..)
  | committed => exact (UpsertFrame.refreshed w _ _).trans (.workers ..)
  | _ => exact ⟨fun _ => rfl, fun _ => rfl, rfl, rfl, fun _ h => h⟩

theorem ResyncStep.workers (hs : ResyncStep company document now w a w') (j : Nat) :
    w'.workers j = w.workers j ∨ w.UpsertOk pointKey (w'.workers j) := by
  have hset : ∀ (u : SyncWorld) (i : Nat) (s : SyncWorker), u.workers = w.workers →
      w.UpsertOk pointKey s → (u.setWorker i s).workers j = w.workers j ∨
        w.UpsertOk pointKey ((u.setWorker i s).workers j) := by
    intro u i s hu hok
    rw [← hu]
    exact (setWorker_workers u i s j).imp_right fun hj => by rwa [hj]
  cases hs with
  | same | changed | released => exact .inl rfl
  | marked => exact hset w _ .idle rfl trivial
  | _ => exact hset _ _ _ rfl trivial

theorem UpsertsOk.resync (h : w.UpsertsOk pointKey) (hs : ResyncStep company document now w a w') :
    w'.UpsertsOk pointKey :=
  h.frame hs.upsertFrame hs.workers

end Resync

/-! ### Outbox workers -/

section Outbox

variable {pointKey : Uuid → String → PointKey} {company document : Uuid} {w : SyncWorld} {i k : Nat}
  {version : Uuid} {model : String} {chunks : List (Uuid × AclPayload)}

/-- The read of the chunks of a version finds all of them. -/
theorem versionChunks_fst {x : DocumentRow} {b : Bool} (hdone : w.done? version = some b)
    (hx : w.document? company document = some x) :
    (w.versionChunks company document version).map Prod.fst = w.chunkIds version := by
  obtain ⟨v, hv, -⟩ := Option.map_eq_some_iff.mp hdone
  simp only [versionChunks, hv, hx, chunkIds, List.map_map, Function.comp_def]

theorem refreshPayloads_fst (fresh chunks : List (Uuid × AclPayload)) :
    (refreshPayloads fresh chunks).map Prod.fst = chunks.map Prod.fst := by
  simp only [refreshPayloads, List.map_map, Function.comp_def]

/-- A worker that claimed an event may upsert what is owed. -/
theorem UpsertsOk.done_of_eventAt (h : w.UpsertsOk pointKey) {phase : UpsertPhase}
    (hw : w.workers i = .upsert k version model phase) : w.done? version = some true := by
  obtain ⟨e, hk, rfl, -⟩ := h.eventAt hw
  exact h.done e (List.mem_of_getElem? hk)

/-- The flags of an event change.  It is completed only when its points are on record. -/
theorem UpsertsOk.setFlags (h : w.UpsertsOk pointKey) {e : SyncUpsert} (hk : w.upserts[k]? = some e)
    (claimed completed : Bool) (hdone : completed = true → e.completed = true ∨
      w.Covered pointKey e.documentVersionId e.embedModelId) :
    (w.setUpsert k { e with claimed, completed }).UpsertsOk pointKey := by
  have hmem : e ∈ w.upserts := List.mem_of_getElem? hk
  have hcov : completed = true → w.Covered pointKey e.documentVersionId e.embedModelId :=
    fun hc => (hdone hc).elim (h.covered e hmem) id
  refine
    { done := fun r hr => ?_
      keyed := h.keyed
      covered := fun r hr hc => ?_
      owed := fun p hp => ?_
      worker := fun j => ?_ }
  · rcases List.mem_or_eq_of_mem_set hr with hr | rfl
    · exact h.done r hr
    · exact h.done e hmem
  · rcases List.mem_or_eq_of_mem_set hr with hr | rfl
    · exact h.covered r hr hc
    · exact hcov hc
  · rcases h.owed p hp with hreg | ⟨r, hr, hopen, id, hid, hkey⟩
    · exact .inl hreg
    · rcases mem_set_or_eq hk hr { e with claimed, completed } with hr' | rfl
      · exact .inr ⟨r, hr', hopen, id, hid, hkey⟩
      · cases completed with
        | true => exact .inl (hkey ▸ hcov rfl id hid)
        | false =>
          exact .inr ⟨_, List.mem_set (List.getElem?_eq_some_iff.mp hk).1 _, rfl, id, hid, hkey⟩
  · show (w.setUpsert k { e with claimed, completed }).UpsertOk pointKey (w.workers j)
    have hj := h.worker j
    cases hs : w.workers j with
    | idle | resync | ingest => trivial
    | upsert n version model phase =>
      rw [hs] at hj
      obtain ⟨⟨r, hn, hv, hm⟩, hphase⟩ := hj
      refine ⟨?_, hphase⟩
      show ∃ r, (w.upserts.set k { e with claimed, completed })[n]? = some r ∧ _
      by_cases hnk : n = k
      · subst hnk
        rw [hk] at hn
        cases hn
        exact ⟨_, List.getElem?_set_self (List.getElem?_eq_some_iff.mp hk).1, hv, hm⟩
      · exact ⟨r, by rw [List.getElem?_set_ne (Ne.symm hnk), hn], hv, hm⟩

/-- A point after an upsert has one of the payloads, or it is as it was. -/
theorem withPoints_points (pointKey : Uuid → String → PointKey) (model : String)
    (chunks : List (Uuid × AclPayload)) (w : SyncWorld) (p : PointKey) :
    (∃ row ∈ chunks, pointKey row.1 model = p ∧
      (w.withPoints pointKey model chunks).points p = some row.2) ∨
    ((∀ row ∈ chunks, pointKey row.1 model ≠ p) ∧
      (w.withPoints pointKey model chunks).points p = w.points p) := by
  rw [withPoints]
  generalize w.points = points
  induction chunks generalizing points with
  | nil => exact .inr ⟨nofun, rfl⟩
  | cons row rows ih =>
    rcases ih (Function.update points (pointKey row.1 model) (some row.2)) with
      ⟨r, hr, hp⟩ | ⟨hne, hsame⟩
    · exact .inl ⟨r, List.mem_cons_of_mem row hr, hp⟩
    · rw [List.foldl_cons, hsame]
      by_cases hrow : p = pointKey row.1 model
      · refine .inl ⟨row, List.mem_cons_self, hrow.symm, ?_⟩
        rw [hrow, Function.update_self]
      · refine .inr ⟨?_, Function.update_of_ne hrow ..⟩
        exact List.forall_mem_cons.mpr ⟨Ne.symm hrow, hne⟩

theorem UpsertsOk.withPoints (h : w.UpsertsOk pointKey) {chunks : List (Uuid × AclPayload)}
    (hw : w.workers i = .upsert k version model (.locked chunks)) :
    (w.withPoints pointKey model chunks).UpsertsOk pointKey := by
  refine { h with owed := fun p hp => ?_ }
  rcases withPoints_points pointKey model chunks w p with ⟨row, hrow, rfl, -⟩ | ⟨-, hsame⟩
  · have hid : row.1 ∈ w.chunkIds version := by
      rw [← show chunks.map Prod.fst = w.chunkIds version from h.phaseOk hw]
      exact List.mem_map_of_mem hrow
    obtain ⟨e, hk, rfl, rfl⟩ := h.eventAt hw
    have hmem := List.mem_of_getElem? hk
    -- another worker may have completed the event in the meantime
    cases hc : e.completed with
    | true => exact .inl (h.covered e hmem hc row.1 hid)
    | false => exact .inr ⟨e, hmem, hc, row.1, hid, rfl⟩
  · rw [hsame] at hp
    exact h.owed p hp

theorem UpsertsOk.withVectors (h : w.UpsertsOk pointKey) {chunks : List (Uuid × AclPayload)}
    (hw : w.workers i = .upsert k version model (.upserted chunks)) :
    (w.withVectors pointKey model chunks).UpsertsOk pointKey ∧
      (w.withVectors pointKey model chunks).Covered pointKey version model := by
  have hreg : ∀ p, w.Registered p → (w.withVectors pointKey model chunks).Registered p := by
    rintro p ⟨r, hr, hp⟩
    exact ⟨r, subset_insertNew _ hr, hp⟩
  have hkeyed : ∀ r ∈ (w.withVectors pointKey model chunks).vectors,
      r.point = pointKey r.chunkId r.embedModelId := by
    intro r hr
    rcases mem_or_mem_of_mem_insertNew hr with hr | hr
    · exact h.keyed r hr
    · obtain ⟨row, -, rfl⟩ := List.mem_map.mp hr
      rfl
  refine ⟨⟨h.done, hkeyed, ?_, ?_, ?_⟩, ?_⟩
  · exact fun e he hc id hid => hreg _ (h.covered e he hc id hid)
  · exact fun p hp => (h.owed p hp).imp_left (hreg p)
  · exact fun j => (h.worker j).of_registered (fun _ => rfl) rfl hreg
  · intro id hid
    rw [show (w.withVectors pointKey model chunks).chunkIds version = chunks.map Prod.fst from
      (h.phaseOk hw).symm] at hid
    obtain ⟨row, hrow, rfl⟩ := List.mem_map.mp hid
    have hnew := List.mem_map_of_mem
      (f := fun row => (⟨row.1, model, pointKey row.1 model⟩ : ChunkVector)) hrow
    obtain ⟨r, hr, hkey⟩ : ∃ r ∈ (w.withVectors pointKey model chunks).vectors,
        (r.chunkId, r.embedModelId) = (row.1, model) := exists_mem_insertNew hnew
    obtain ⟨hc, hm⟩ := Prod.mk.inj hkey
    exact ⟨r, hr, by rw [hkeyed r hr, hc, hm]⟩

end Outbox

/-! ### Ingest and promotion -/

section Ingest

variable {pointKey : Uuid → String → PointKey} {w : SyncWorld} {version : Uuid} {model : String}
  {scopes ids : List Uuid}

theorem done?_map {f : SyncVersion → SyncVersion} (hf : ∀ v, (f v).id = v.id) (version : Uuid) :
    { w with versions := w.versions.map f }.done? version =
      (w.versions.find? fun v => v.id = version).map fun v => (f v).done := by
  simp only [done?, List.find?_map, Function.comp_def, hf, Option.map_map]

theorem done?_written (other : Uuid) (h : other = version ∨ w.done? other = some true)
    (hcan : w.CanWrite version ids) :
    (w.written version model scopes ids).done? other = some true := by
  have hrow : ∀ v : SyncVersion,
      (if v.id = version then { v with done := true } else v).id = v.id := by
    intro v
    split <;> rfl
  refine (done?_map hrow other).trans ?_
  rcases h with rfl | h
  · obtain ⟨v, hv, -⟩ := Option.map_eq_some_iff.mp hcan.1
    have hid := List.find?_some hv
    rw [hv, Option.map_some, if_pos (of_decide_eq_true hid)]
  · obtain ⟨v, hv, hdone⟩ := Option.map_eq_some_iff.mp h
    rw [hv, Option.map_some]
    split
    · rfl
    · exact congrArg some hdone

theorem chunkIds_written {other : Uuid} (h : other ≠ version) :
    (w.written version model scopes ids).chunkIds other = w.chunkIds other := by
  have hnone : (ids.map fun id => (⟨id, version, scopes⟩ : SyncChunk)).filter
      (fun ch => ch.documentVersionId = other) = [] := by
    simp [List.filter_eq_nil_iff, Ne.symm h]
  simp only [chunkIds, written, List.filter_append, hnone, List.append_nil]

/-- A version that is to be ingested has no event yet. -/
theorem UpsertsOk.not_event (h : w.UpsertsOk pointKey) (hcan : w.CanWrite version ids)
    {e : SyncUpsert} (he : e ∈ w.upserts) : e.documentVersionId ≠ version := by
  rintro rfl
  have hdone := h.done e he
  rw [hcan.1] at hdone
  cases hdone

theorem UpsertsOk.upserts_written (h : w.UpsertsOk pointKey) (hcan : w.CanWrite version ids) :
    (w.written version model scopes ids).upserts =
      w.upserts ++ [{ documentVersionId := version, embedModelId := model }] := by
  apply insertNew_of_not_mem
  intro hmem
  obtain ⟨r, hr, hkey⟩ := List.mem_map.mp hmem
  exact h.not_event hcan hr (Prod.mk.inj hkey).1

theorem UpsertsOk.written (h : w.UpsertsOk pointKey) (hcan : w.CanWrite version ids) :
    (w.written version model scopes ids).UpsertsOk pointKey := by
  have hups : (w.written version model scopes ids).upserts =
      w.upserts ++ [{ documentVersionId := version, embedModelId := model }] :=
    h.upserts_written hcan
  have hids : ∀ e ∈ w.upserts, (w.written version model scopes ids).chunkIds e.documentVersionId =
      w.chunkIds e.documentVersionId := fun e he => chunkIds_written (h.not_event hcan he)
  refine
    { done := fun e he => ?_
      keyed := h.keyed
      covered := fun e he hc => ?_
      owed := fun p hp => ?_
      worker := fun j => ?_ }
  · rw [hups] at he
    rcases List.mem_append.mp he with he | he
    · exact done?_written _ (.inr (h.done e he)) hcan
    · rw [List.mem_singleton.mp he]
      exact done?_written _ (.inl rfl) hcan
  · rw [hups] at he
    rcases List.mem_append.mp he with he | he
    · intro id hid
      rw [hids e he] at hid
      exact h.covered e he hc id hid
    · rw [List.mem_singleton.mp he] at hc
      cases hc
  · refine (h.owed p hp).imp_right ?_
    rintro ⟨e, he, hopen, id, hid, hkey⟩
    refine ⟨e, ?_, hopen, id, ?_, hkey⟩
    · rw [hups]
      exact List.mem_append_left _ he
    · rw [hids e he]
      exact hid
  · show (w.written version model scopes ids).UpsertOk pointKey (w.workers j)
    have hj := h.worker j
    cases hs : w.workers j with
    | idle | resync | ingest => trivial
    | upsert k v m phase =>
      rw [hs] at hj
      obtain ⟨⟨e, hk, rfl, rfl⟩, hphase⟩ := hj
      have hsame := hids e (List.mem_of_getElem? hk)
      refine ⟨⟨e, ?_, rfl, rfl⟩, ?_⟩
      · rw [hups, List.getElem?_append_left (List.getElem?_eq_some_iff.mp hk).1, hk]
      · cases phase with
        | claimed => trivial
        | read chunks | locked chunks | upserted chunks => exact hphase.trans hsame.symm
        | ended completed =>
          intro hc id hid
          rw [hsame] at hid
          exact hphase hc id hid

theorem UpsertsOk.promoted (h : w.UpsertsOk pointKey) : (w.promoted version).UpsertsOk pointKey := by
  refine h.frame ⟨fun other => ?_, fun _ => rfl, rfl, rfl, fun _ hp => hp⟩ fun _ => .inl rfl
  have hrow : ∀ v : SyncVersion, (if v.id = version then { v with lifecycleStatus := .active }
      else if v.lifecycleStatus = .active then { v with lifecycleStatus := .deprecated }
      else v).id = v.id ∧ (if v.id = version then { v with lifecycleStatus := .active }
      else if v.lifecycleStatus = .active then { v with lifecycleStatus := .deprecated }
      else v).done = v.done := by
    intro v
    split
    · exact ⟨rfl, rfl⟩
    · split <;> exact ⟨rfl, rfl⟩
  refine (done?_map (fun v => (hrow v).1) other).trans ?_
  simp only [hrow, done?]

end Ingest

theorem UpsertsOk.step {pointKey : Uuid → String → PointKey} {company document : Uuid} {now : Nat}
    {w w' : SyncWorld} {a : SyncAction} {x : DocumentRow} (h : w.UpsertsOk pointKey)
    (hx : w.document? company document = some x)
    (hs : SyncStep pointKey company document now w a w') : w'.UpsertsOk pointKey := by
  cases hs with
  | same => exact h
  | resync hs => exact h.resync hs
  | @claimed _ i k e hk hidle =>
    have h' := h.setFlags hk true e.completed .inl
    refine h'.put ⟨⟨{ e with claimed := true }, ?_, rfl, rfl⟩, trivial⟩
    exact List.getElem?_set_self (List.getElem?_eq_some_iff.mp hk).1
  | @released _ k e hk => exact h.setFlags hk false e.completed .inl
  | failed hw => exact h.leave ⟨h.eventAt hw, nofun⟩
  | empty hw hempty =>
    refine h.leave ⟨h.eventAt hw, fun _ id hid => ?_⟩
    rw [← versionChunks_fst (h.done_of_eventAt hw) hx, hempty] at hid
    cases hid
  | read hw => exact h.put ⟨h.eventAt hw, versionChunks_fst (h.done_of_eventAt hw) hx⟩
  | @locked _ i k version model chunks hw hfree =>
    exact (h.setLock _).put ⟨h.eventAt hw, (refreshPayloads_fst ..).trans (h.phaseOk hw)⟩
  | upserted hw => exact (h.withPoints hw).put ⟨h.eventAt hw, h.phaseOk hw⟩
  | upsertLost hw => exact (h.withPoints hw).leave ⟨h.eventAt hw, nofun⟩
  | registered hw =>
    obtain ⟨h', hcov⟩ := h.withVectors hw
    exact h'.leave ⟨h.eventAt hw, fun _ => hcov⟩
  | @marked _ i k version model completed e hw hk =>
    have h' : (w.setWorker i .idle).UpsertsOk pointKey := h.put trivial
    refine h'.setFlags hk false (e.completed || completed) fun hdone => ?_
    refine (Bool.or_eq_true .. ▸ hdone).imp_right fun hdone => ?_
    obtain ⟨e', he', rfl, rfl⟩ := h.eventAt hw
    rw [hk] at he'
    cases he'
    exact h.phaseOk hw hdone
  | unmarked => exact h.put trivial
  | fetched => exact h.put trivial
  | unwritten => exact h.put trivial
  | written hw hreply hcan => exact (h.written hcan).put trivial
  | promoted => exact h.promoted

end SyncWorld

end Wikore
