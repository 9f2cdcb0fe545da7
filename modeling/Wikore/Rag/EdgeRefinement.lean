import Wikore.Rag.EdgeWrites

/-! `KnowledgeEdgeRepo` refines the book: whatever calls come, in any order and at any times, the
repository answers each of them as the book does. -/

namespace Wikore

open Statement Timeline
open KnowledgeEdgeRepo
open Orgs (looksLikeUuid)

/-- The tables have the edges of the book and their endpoints, the history has the ids that were
given out, and every waiting deletion is of an edge that is gone. -/
structure Represents (refs : EdgeRefs) (b : EdgeBook) (s : EdgeStore) : Prop where
  faithful : Faithful (fun _ _ => True) [] s
  queue : s.queue = []
  keys : s.db.refs = refs
  edges : s.db.edges = b.edges.map EdgeSnapshot.edge
  endpoints : ∀ snap ∈ b.edges, s.db.endpointsOf snap.edge.id = endpointRows snap
  retired : ∀ x, x ∈ b.retired ↔ s.db.historyOf x ≠ [] ∧ s.db.findEdge x = none
  events : ∀ ev ∈ s.db.outboxEvents, ev.aggregateId ∈ b.retired ∧
    ∃ old : EdgeRow, old.id = ev.aggregateId ∧ ev.idempotencyKey = deleteKey old

section Reads

variable {refs : EdgeRefs} {b : EdgeBook} {s : EdgeStore} {companyId : Uuid}

theorem Represents.ids (h : Represents refs b s) :
    (b.edges.map fun snap => snap.edge.id).Nodup := by
  have hids := h.faithful.linked.ids
  rwa [h.edges, List.map_map] at hids

theorem Represents.mem_edges (h : Represents refs b s) {snap : EdgeSnapshot}
    (hsnap : snap ∈ b.edges) : snap.edge ∈ s.db.edges := by
  rw [h.edges]
  exact List.mem_map_of_mem hsnap

theorem Represents.find_iff (h : Represents refs b s) {x : Uuid} {snap : EdgeSnapshot} :
    b.find companyId x = some snap ↔
      snap ∈ b.edges ∧ snap.edge.id = x ∧ snap.edge.companyId = companyId := by
  rw [EdgeBook.find, Query.find?_eq_some_iff, decide_eq_true_eq]
  intro a ha o ho hax hox
  refine List.inj_on_of_nodup_map h.ids ha ho ?_
  exact (of_decide_eq_true hax).1.trans (of_decide_eq_true hox).1.symm

theorem Represents.selectEdge_eq (h : Represents refs b s) (x : Uuid) :
    selectEdge s.db companyId x = (b.find companyId x).map EdgeSnapshot.edge := by
  apply Option.ext
  intro e
  rw [selectEdge, Option.filter_eq_some_iff, decide_eq_true_eq, Option.map_eq_some_iff]
  constructor
  · rintro ⟨hfind, hc⟩
    obtain ⟨hmem, hid⟩ := EdgeTables.findEdge_some hfind
    obtain ⟨snap, hsnap, rfl⟩ := List.mem_map.mp (h.edges ▸ hmem)
    exact ⟨snap, h.find_iff.mpr ⟨hsnap, hid, hc⟩, rfl⟩
  · rintro ⟨snap, hfind, rfl⟩
    obtain ⟨hsnap, rfl, hc⟩ := h.find_iff.mp hfind
    exact ⟨h.faithful.linked.findEdge_of_mem (h.mem_edges hsnap), hc⟩

theorem Represents.loadEndpoints_eq (h : Represents refs b s) {snap : EdgeSnapshot}
    (hsnap : snap ∈ b.edges) {ids : List Uuid} (hid : snap.edge.id ∈ ids) :
    loadEndpoints s.db snap.edge.companyId ids snap.edge.id = snap.endpoints := by
  rw [KnowledgeEdgeRepo.loadEndpoints_eq hid, h.endpoints snap hsnap]
  · simp [endpointRows, EdgeSnapshot.endpoints]
  · exact h.faithful.endpoints_company (h.mem_edges hsnap)

theorem Represents.get_eq (h : Represents refs b s) (edgeId : String) :
    (KnowledgeEdgeRepo.get companyId edgeId s.db s.db).mapError UpdateError.refusal =
      b.get companyId edgeId := by
  rw [KnowledgeEdgeRepo.get, EdgeBook.get]
  by_cases hlooks : looksLikeUuid edgeId = false
  · rw [if_pos hlooks, if_pos hlooks]
    rfl
  · rw [if_neg hlooks, if_neg hlooks, h.selectEdge_eq]
    cases hfind : b.find companyId (uuidOf edgeId) with
    | none => rfl
    | some snap =>
      obtain ⟨hsnap, -, rfl⟩ := h.find_iff.mp hfind
      have hends := h.loadEndpoints_eq hsnap (List.mem_singleton_self _)
      exact congrArg (fun eps => Except.ok (Answer.mk snap.edge eps)) hends

theorem Represents.matches_iff (h : Represents refs b s) (filter : ListKnowledgeEdgesFilter)
    {snap : EdgeSnapshot} (hsnap : snap ∈ b.edges) :
    Matches companyId filter s.db snap.edge ↔ EdgeBook.Matches companyId filter snap := by
  rw [Matches, EdgeBook.Matches]
  refine and_congr_right fun hc => and_congr_right fun _ => and_congr_right fun _ => ?_
  refine forall₂_congr fun c _ => ?_
  have hmem : ∀ ep, ep ∈ s.db.endpoints ∧ ep.edgeId = snap.edge.id ↔ ep ∈ endpointRows snap := by
    intro ep
    rw [← h.endpoints snap hsnap, EdgeTables.endpointsOf, List.mem_filter, decide_eq_true_eq]
  constructor
  · rintro ⟨ep, hep, -, rfl, hid⟩
    have hrows := (hmem ep).mp ⟨hep, hid⟩
    simp only [endpointRows, List.mem_cons, List.not_mem_nil, or_false] at hrows
    rcases hrows with rfl | rfl
    · exact .inl rfl
    · exact .inr rfl
  · have hrow : ∀ ep ∈ endpointRows snap, ep.chunkId = c → ∃ ep ∈ s.db.endpoints,
        ep.companyId = companyId ∧ ep.chunkId = c ∧ ep.edgeId = snap.edge.id := by
      intro ep hep hchunk
      obtain ⟨hin, hid⟩ := (hmem ep).mpr hep
      have hcompany := h.faithful.endpoints_company (h.mem_edges hsnap) ep
        (List.mem_filter.mpr ⟨hin, decide_eq_true hid⟩)
      exact ⟨ep, hin, hcompany.trans hc, hchunk, hid⟩
    rintro (h0 | h1)
    · exact hrow _ List.mem_cons_self h0
    · exact hrow _ (List.mem_cons_of_mem _ List.mem_cons_self) h1

theorem Represents.list_eq (h : Represents refs b s) (filter : ListKnowledgeEdgesFilter) :
    (list companyId filter s.db s.db).mapError UpdateError.refusal = b.list companyId filter := by
  have hmatch : (b.edges.map EdgeSnapshot.edge).filter (fun e => Matches companyId filter s.db e) =
      (b.edges.filter fun snap => EdgeBook.Matches companyId filter snap).map EdgeSnapshot.edge := by
    rw [List.filter_map]
    refine congrArg _ (List.filter_congr fun snap hsnap => ?_)
    exact decide_eq_decide.mpr (h.matches_iff filter hsnap)
  have hlisted : listed companyId filter s.db =
      ((b.edges.filter fun snap => EdgeBook.Matches companyId filter snap).insertionSort
        fun a o => NewestFirst a.edge o.edge).map EdgeSnapshot.edge := by
    rw [listed, h.edges, hmatch]
    exact (List.map_insertionSort (fun a o => NewestFirst a.edge o.edge) NewestFirst
      EdgeSnapshot.edge _ fun _ _ _ _ => Iff.rfl).symm
  rw [EdgeBook.list]
  by_cases hoffset : filter.offset < 0
  · rw [if_pos (.inl hoffset), list, page, Fallible.rejectIf, if_pos hoffset]
    rfl
  by_cases hlimit : filter.limit < 0
  · rw [if_pos (.inr hlimit), list, page, Fallible.rejectIf, if_neg hoffset, Fallible.rejectIf,
      if_pos hlimit]
    rfl
  rw [if_neg (not_or.mpr ⟨hoffset, hlimit⟩),
    list_ok.mpr ⟨Int.not_lt.mp hoffset, Int.not_lt.mp hlimit, rfl⟩]
  refine congrArg Except.ok ?_
  simp only [hlisted, ← List.map_drop, ← List.map_take, List.map_map]
  refine List.map_congr_left fun snap hsnap => ?_
  have hkept := List.mem_of_mem_drop (List.mem_of_mem_take hsnap)
  rw [List.mem_insertionSort, List.mem_filter, decide_eq_true_eq] at hkept
  obtain ⟨hmem, rfl, -⟩ := hkept
  exact congrArg (Answer.mk snap.edge) (h.loadEndpoints_eq hmem (List.mem_map_of_mem hsnap))

end Reads

/-! ### One call -/

section Calls

variable {refs : EdgeRefs} {b : EdgeBook} {s s' : EdgeStore} {x : Uuid} {snap : EdgeSnapshot}

theorem kept_stable : Stable fun _ _ => True := fun _ _ _ _ _ _ _ => trivial

/-- A transaction keeps the invariant of the history. -/
theorem Represents.committed (h : Represents refs b s) (tx : EdgeTransaction) (htx : tx.KeepsIds)
    (hbody : tx.body s = .ok () s') :
    Faithful (fun _ _ => True) [] s' ∧ s'.queue = [] := by
  have hrun := EdgeTransaction.run_faithful kept_stable h.faithful h.queue htx
  rwa [EdgeTransaction.run, hbody] at hrun

theorem Represents.tick (h : Represents refs b s) (n : Nat) :
    Represents refs b { s with clock := s.clock + n } :=
  { h with faithful := ⟨h.faithful.linked,
      fun x => (h.faithful.lives x).mono (Nat.le_add_right _ _) id, h.faithful.kept⟩ }

/-- Every edge of the book has a history. -/
theorem Represents.rows_ne_nil (h : Represents refs b s) (hsnap : snap ∈ b.edges) :
    s.db.historyOf snap.edge.id ≠ [] := by
  obtain ⟨-, r, hopen, -⟩ := h.faithful.live (h.mem_edges hsnap)
  intro hnil
  rw [hnil] at hopen
  cases hopen

/-- No edge of the book is retired. -/
theorem Represents.not_retired (h : Represents refs b s) (hsnap : snap ∈ b.edges) :
    snap.edge.id ∉ b.retired := by
  intro hret
  have hnone := ((h.retired _).mp hret).2
  rw [h.faithful.linked.findEdge_of_mem (h.mem_edges hsnap)] at hnone
  cases hnone

theorem Represents.accepts_iff (h : Represents refs b s) :
    Accepts s.db snap ↔ b.Admits refs snap := by
  have hfresh : (∀ o ∈ s.db.edges, o.id ≠ snap.edge.id) ↔
      ∀ o ∈ b.edges, o.edge.id ≠ snap.edge.id := by
    rw [h.edges, List.forall_mem_map]
  rw [Accepts, EdgeBook.Admits, hfresh, ← h.keys]
  constructor
  · rintro ⟨hnil, hnew, hrest⟩
    exact ⟨fun hret => ((h.retired _).mp hret).1 hnil, hnew, hrest⟩
  · rintro ⟨hret, hnew, hrest⟩
    refine ⟨?_, hnew, hrest⟩
    by_contra hrows
    exact hret ((h.retired _).mpr ⟨hrows, EdgeTables.findEdge_none.mpr (hfresh.mpr hnew)⟩)

theorem Represents.created {cmd : CreateKnowledgeEdgeCmd} {gap : Nat} {row : EdgeRow}
    (h : Represents refs b s) (hbody : (createTransaction cmd gap row).body s = .ok () s') :
    Represents refs { b with edges := b.edges ++ [EdgeBook.newSnapshot cmd row] } s' := by
  obtain ⟨hfaithful, hqueue⟩ :=
    h.committed (createTransaction cmd gap row) ⟨trivial, trivial, trivial, trivial⟩ hbody
  obtain ⟨haccepts, hedges, hends, hevents, hrefs, hhistory⟩ := createTransaction_ok h.queue hbody
  have hadmits := h.accepts_iff.mp haccepts
  obtain ⟨-, hnew, -⟩ := haccepts
  have hends' : ∀ y, s'.db.endpointsOf y = s.db.endpointsOf y ++
      (endpointRows (EdgeBook.newSnapshot cmd row)).filter fun ep => ep.edgeId = y := by
    intro y
    rw [EdgeTables.endpointsOf, hends, List.filter_append]
    rfl
  have hfind : ∀ y, s'.db.findEdge y = if y = row.id then some row else s.db.findEdge y := by
    intro y
    rw [EdgeTables.findEdge, hedges]
    exact EdgeTables.findEdge_append hnew y
  refine ⟨hfaithful, hqueue, hrefs.trans h.keys, ?_, ?_, ?_, ?_⟩
  · rw [hedges, h.edges, List.map_append]
    rfl
  · intro o ho
    rcases List.mem_append.mp ho with ho | ho
    · have hne : row.id ≠ o.edge.id := (hadmits.2.1 o ho).symm
      rw [hends', h.endpoints o ho]
      simp [endpointRows, EdgeBook.newSnapshot, hne]
    · obtain rfl := List.mem_singleton.mp ho
      rw [hends', endpointsOf_fresh h.faithful.linked hnew]
      simp [endpointRows]
  · intro y
    rw [hfind]
    by_cases hy : y = row.id
    · rw [if_pos hy]
      exact iff_of_false (hy ▸ hadmits.1) fun hnone => Option.some_ne_none row hnone.2
    · rw [if_neg hy, hhistory y hy]
      exact h.retired y
  · rw [hevents]
    exact h.events

/-- The row of a call has the id and the company of the call. -/
theorem createdRow_ok {casts : PgCasts} {call : CreateCall} {now : Nat} {row : EdgeRow}
    (h : createdRow casts call now = .ok row) :
    row.id = call.newId ∧ row.companyId = call.companyId := by
  simp only [createdRow, Fallible.bind_ok] at h
  obtain ⟨_, -, _, -, h⟩ := h
  obtain rfl := Except.ok.inj h
  exact ⟨rfl, rfl⟩

/-- After a statement that succeeds the repository answers by `get`. -/
theorem Represents.reply_eq (h : Represents refs b s) {companyId : Uuid} (edgeId : String) :
    (do (.ok () : Except UpdateError Unit)
        KnowledgeEdgeRepo.get companyId edgeId s.db s.db).mapError UpdateError.refusal =
      b.get companyId edgeId :=
  h.get_eq edgeId

theorem Represents.get_text (h : Represents refs b s) {companyId : Uuid} (hsnap : snap ∈ b.edges)
    (hid : snap.edge.id = x) (hc : snap.edge.companyId = companyId) :
    b.get companyId (Uuid.text x) = .ok snap.answer := by
  have hfind : b.find companyId x = some snap := h.find_iff.mpr ⟨hsnap, hid, hc⟩
  rw [EdgeBook.get, Orgs.looksLikeUuid_text, if_neg (by decide), uuidOf_text, hfind]

/-- The answer and the store of a call are those of the book. -/
def Simulates {α : Type} (refs : EdgeRefs) (repo : Except UpdateError α × EdgeStore)
    (book : Except Refusal α × EdgeBook) : Prop :=
  repo.1.mapError UpdateError.refusal = book.1 ∧ Represents refs book.2 repo.2

theorem Represents.create (h : Represents refs b s) (casts : PgCasts) (call : CreateCall) :
    Simulates refs (KnowledgeEdgeRepo.create casts call s)
      (b.create refs casts (s.clock + call.gap + 1) call) := by
  rw [KnowledgeEdgeRepo.create, EdgeBook.create]
  cases checkCreate call.cmd with
  | error e => exact ⟨rfl, h⟩
  | ok _ =>
    cases hrow : createdRow casts call (s.clock + call.gap + 1) with
    | error e => exact ⟨rfl, h.tick (call.gap + 1)⟩
    | ok row =>
      simp only [commit]
      cases hbody : (createTransaction call.cmd call.gap row).body s with
      | error e s' =>
        have hrefused : ¬b.Admits refs (EdgeBook.newSnapshot call.cmd row) := by
          intro hadmits
          obtain ⟨s'', hok⟩ : ∃ s'', (createTransaction call.cmd call.gap row).body s = .ok () s'' :=
            createTransaction_returns h.queue h.faithful.linked (h.accepts_iff.mpr hadmits)
          cases hbody.symm.trans hok
        rw [if_neg hrefused]
        exact ⟨rfl, h.tick _⟩
      | ok _ s' =>
        have hrep := h.created hbody
        rw [if_pos (h.accepts_iff.mp (createTransaction_ok h.queue hbody).1)]
        refine ⟨?_, hrep⟩
        dsimp only
        rw [hrep.reply_eq]
        exact hrep.get_text (List.mem_append_right _ (List.mem_singleton_self _)) rfl
          (createdRow_ok hrow).2

/-! ### Updates -/

theorem Represents.started (h : Represents refs b s) {gap : Nat} :
    ∀ o ∈ s.db.historyOf x, o.start < s.clock + gap + 1 := by
  intro o ho
  have hlife := h.faithful.lives x
  have ho : o ∈ (s.db.lifeOf x).rows := ho
  generalize s.db.lifeOf x = v at hlife ho
  cases hlife with
  | fresh => cases ho
  | recorded _ _ _ hrec =>
    have hle := hrec.started o ho
    omega

theorem Represents.endpoint_some (h : Represents refs b s) (hsnap : snap ∈ b.edges) :
    ∃ ep0 ep1, (s.db.lifeOf snap.edge.id).endpoint 0 = some ep0 ∧
      (s.db.lifeOf snap.edge.id).endpoint 1 = some ep1 := by
  simp [EdgeLife.endpoint, EdgeTables.lifeOf, h.endpoints snap hsnap, endpointRows]

theorem Represents.updated (h : Represents refs b s) (hsnap : snap ∈ b.edges) {new : EdgeRow}
    {gap : Nat} (hid : new.id = snap.edge.id) (hc : new.companyId = snap.edge.companyId)
    (hrun : atNextInstant gap (updateEdge snap.edge.id new) s = .ok () s') :
    Represents refs (b.replace new) s' := by
  have hold : s.db.findEdge snap.edge.id = some snap.edge :=
    h.faithful.linked.findEdge_of_mem (h.mem_edges hsnap)
  obtain ⟨hfaithful, -⟩ := @statement_faithful _ s s' [] (gap, .updateEdge snap.edge.id new)
    kept_stable (h.queue.symm ▸ h.faithful) (by simp [h.queue]) (.inl hid) hrun
  obtain ⟨t, ht, hs'⟩ := atNextInstant_iff.mp hrun
  have hupdate := updateEdge_ok (s := { s with clock := s.clock + gap + 1 }) hold hid ht
  dsimp only at hupdate
  obtain ⟨-, hedges, hends, hevents, hrefs, hqueue, hhistory⟩ := hupdate
  have hdb : s'.db = t.db := by rw [← hs']
  have hq : s'.queue = [] := by rw [← hs', ← h.queue, ← hqueue]
  have hfind : ∀ y, t.db.findEdge y = if y = snap.edge.id then some new else s.db.findEdge y := by
    intro y
    rw [EdgeTables.findEdge, hedges]
    exact EdgeTables.findEdge_replace hold hid y
  refine ⟨hq ▸ hfaithful, hq, ?_, ?_, ?_, ?_, ?_⟩ <;> rw [hdb]
  · exact hrefs.trans h.keys
  · rw [hedges, h.edges, EdgeBook.replace, List.map_map, List.map_map]
    refine List.map_congr_left fun o _ => ?_
    simp only [Function.comp_apply, hid]
    by_cases ho : o.edge.id = snap.edge.id
    · rw [if_pos ho, if_pos ho]
    · rw [if_neg ho, if_neg ho]
  · intro o ho
    obtain ⟨o', ho', rfl⟩ := List.mem_map.mp ho
    have hrows : t.db.endpointsOf o'.edge.id = endpointRows o' := by
      rw [EdgeTables.endpointsOf, hends]
      exact h.endpoints o' ho'
    by_cases hid' : o'.edge.id = new.id
    · rw [if_pos hid']
      obtain rfl : o' = snap := List.inj_on_of_nodup_map h.ids ho' hsnap (hid'.trans hid)
      dsimp only
      rw [hid, hrows]
      simp only [endpointRows, hid, hc]
    · rw [if_neg hid']
      exact hrows
  · intro y
    rw [hfind]
    by_cases hy : y = snap.edge.id
    · rw [if_pos hy]
      exact iff_of_false (hy ▸ h.not_retired hsnap) fun hnone => Option.some_ne_none new hnone.2
    · rw [if_neg hy, hhistory y hy]
      exact h.retired y
  · rw [hevents]
    exact h.events

/-- After its statement `update` answers by `get`. -/
theorem found_get {edgeId : String} {call : UpdateCall} (hlooks : ¬looksLikeUuid edgeId = false) :
    (do found (uuidOf edgeId) call s; KnowledgeEdgeRepo.get call.companyId edgeId s.db s.db) =
      KnowledgeEdgeRepo.get call.companyId edgeId s.db s.db := by
  rw [KnowledgeEdgeRepo.get, if_neg hlooks, found, show selectedRow (uuidOf edgeId) call s =
    selectEdge s.db call.companyId (uuidOf edgeId) from rfl]
  cases selectEdge s.db call.companyId (uuidOf edgeId) with
  | none => rfl
  | some e => rfl

/-- A statement that changes nothing takes its time. -/
theorem Represents.idle (h : Represents refs b s) {gap : Nat} {m : EdgeM Unit}
    (hm : ∀ t t', t.db = s.db → m t = .ok () t' → t = t')
    (hrun : atNextInstant gap m s = .ok () s') : Represents refs b s' := by
  have hsame : ∀ t t', t.db = s.db → t.queue = s.queue → m t = .ok () t' → Changed [] t t' := by
    intro t t' hdb _ ht
    obtain rfl := hm t t' hdb ht
    exact .refl (hdb ▸ h.faithful.linked)
  have hfaithful : Faithful (fun _ _ => True) [] s' :=
    atNextInstant_faithful kept_stable h.faithful hsame hrun (fun _ hy => hy) (by simp)
  obtain ⟨t, ht, rfl⟩ := atNextInstant_iff.mp hrun
  obtain rfl := hm { s with clock := s.clock + gap + 1 } _ rfl ht
  exact { h with faithful := hfaithful }

section Found

variable {casts : PgCasts} {call : UpdateCall} {provenance : Option String}

/-- An update that returns has replaced the row by one that the book takes. -/
theorem Represents.update_returned (h : Represents refs b s) (hsnap : snap ∈ b.edges)
    (hbound : boundProvenance casts call = .ok provenance)
    (hsel : ∀ t : EdgeStore, t.db = s.db → selectedRow snap.edge.id call t = some snap.edge)
    (hrun : atNextInstant call.gap (updateStatement casts snap.edge.id call) s = .ok () s') :
    ∃ new, assigned casts call provenance (s.clock + call.gap + 1) snap.edge = .ok new ∧
      refs.RowOk new ∧ new.id = snap.edge.id ∧ new.companyId = snap.edge.companyId ∧
      Represents refs (b.replace new) s' := by
  obtain ⟨t, ht, hs'⟩ := atNextInstant_iff.mp hrun
  obtain ⟨new, hnew, hupdate⟩ :=
    (updateStatement_some hbound (hsel { s with clock := s.clock + call.gap + 1 } rfl)).mp ht
  obtain ⟨hid, hc, -⟩ := assigned_ok hnew
  have hold : s.db.findEdge snap.edge.id = some snap.edge :=
    h.faithful.linked.findEdge_of_mem (h.mem_edges hsnap)
  have hrow := (updateEdge_ok (s := { s with clock := s.clock + call.gap + 1 }) hold hid hupdate).1
  refine ⟨new, hnew, h.keys ▸ hrow, hid, hc, ?_⟩
  exact h.updated hsnap hid hc (atNextInstant_iff.mpr ⟨t, hupdate, hs'⟩)

theorem Represents.update_refused (h : Represents refs b s) (hsnap : snap ∈ b.edges)
    (hbound : boundProvenance casts call = .ok provenance)
    (hsel : ∀ t : EdgeStore, t.db = s.db → selectedRow snap.edge.id call t = some snap.edge)
    {e : EdgeError}
    (hrun : atNextInstant call.gap (updateStatement casts snap.edge.id call) s = .error e s')
    {new : EdgeRow}
    (hnew : assigned casts call provenance (s.clock + call.gap + 1) snap.edge = .ok new) :
    ¬refs.RowOk new := by
  intro hrow
  obtain ⟨hid, hc, -⟩ := assigned_ok hnew
  have hold : s.db.findEdge snap.edge.id = some snap.edge :=
    h.faithful.linked.findEdge_of_mem (h.mem_edges hsnap)
  obtain ⟨ep0, ep1, h0, h1⟩ := h.endpoint_some hsnap
  obtain ⟨t, ht⟩ := updateEdge_returns (s := { s with clock := s.clock + call.gap + 1 }) hold hid hc
    (h.keys.symm ▸ hrow) (h.rows_ne_nil hsnap) h0 h1 h.started
  have hok := (updateStatement_some hbound
    (hsel { s with clock := s.clock + call.gap + 1 } rfl)).mpr ⟨new, hnew, ht⟩
  cases hrun.symm.trans (atNextInstant_iff.mpr ⟨t, hok, rfl⟩)

/-- An edge with a new row is read with that row. -/
theorem Represents.get_replaced {companyId : Uuid} {edgeId : String} {new : EdgeRow}
    (h : Represents refs (b.replace new) s) (hsnap : snap ∈ b.edges)
    (hlooks : ¬looksLikeUuid edgeId = false) (hnew : new.id = snap.edge.id)
    (hid : snap.edge.id = uuidOf edgeId) (hc : new.companyId = companyId) :
    (b.replace new).get companyId edgeId = .ok { snap with edge := new }.answer := by
  have hmem : { snap with edge := new } ∈ (b.replace new).edges :=
    List.mem_map.mpr ⟨snap, hsnap, if_pos hnew.symm⟩
  have hfind : (b.replace new).find companyId (uuidOf edgeId) = some { snap with edge := new } :=
    h.find_iff.mpr ⟨hmem, hnew.trans hid, hc⟩
  rw [EdgeBook.get, if_neg hlooks, hfind]

end Found

theorem Represents.update (h : Represents refs b s) (casts : PgCasts) (edgeId : String)
    (call : UpdateCall) : Simulates refs (updateById casts edgeId call s)
      (b.update refs casts (s.clock + call.gap + 1) edgeId call) := by
  rw [updateById, EdgeBook.update]
  by_cases hlooks : looksLikeUuid edgeId = false
  · rw [if_pos hlooks, if_pos hlooks]
    exact ⟨rfl, h⟩
  rw [if_neg hlooks, if_neg hlooks, KnowledgeEdgeRepo.update]
  by_cases hnoop : call.cmd = {}
  · rw [if_pos hnoop, if_pos hnoop]
    refine ⟨?_, h⟩
    dsimp only
    rw [found_get hlooks]
    exact h.get_eq edgeId
  rw [if_neg hnoop, if_neg hnoop]
  by_cases hrange : ∃ c ∈ call.cmd.confidence, c.outOfRange = true
  · rw [if_pos hrange, if_pos hrange]
    exact ⟨rfl, h⟩
  rw [if_neg hrange, if_neg hrange]
  have hsel : ∀ t : EdgeStore, t.db = s.db → selectedRow (uuidOf edgeId) call t =
      (b.find call.companyId (uuidOf edgeId)).map EdgeSnapshot.edge := fun t hdb =>
    (congrArg (selectEdge · call.companyId (uuidOf edgeId)) hdb).trans (h.selectEdge_eq _)
  cases hbound : boundProvenance casts call with
  | error e =>
    -- the text of the provenance is refused, whether or not the edge is there
    cases hrun : atNextInstant call.gap (updateStatement casts (uuidOf edgeId) call) s with
    | error e t => exact ⟨rfl, h.tick (call.gap + 1)⟩
    | ok _ s' =>
      obtain ⟨t, ht, -⟩ := atNextInstant_iff.mp hrun
      exact absurd ht (updateStatement_error hbound)
  | ok provenance =>
    cases hfind : b.find call.companyId (uuidOf edgeId) with
    | none =>
      rw [hfind] at hsel
      cases hrun : atNextInstant call.gap (updateStatement casts (uuidOf edgeId) call) s with
      | error e t =>
        have hok := (updateStatement_none hbound
          (hsel { s with clock := s.clock + call.gap + 1 } rfl)).mpr rfl
        cases hrun.symm.trans (atNextInstant_iff.mpr ⟨_, hok, rfl⟩)
      | ok _ s' =>
        refine ⟨?_, h.idle (fun t t' hdb => (updateStatement_none hbound (hsel t hdb)).mp) hrun⟩
        dsimp only
        rw [found, hsel s rfl]
        rfl
    | some snap =>
      rw [hfind] at hsel
      obtain ⟨hsnap, hid, hc⟩ := h.find_iff.mp hfind
      rw [← hid] at hsel ⊢
      cases hrun : atNextInstant call.gap (updateStatement casts snap.edge.id call) s with
      | error e t =>
        cases hnew : assigned casts call provenance (s.clock + call.gap + 1) snap.edge with
        | error _ =>
          simp only [hnew]
          exact ⟨rfl, h.tick (call.gap + 1)⟩
        | ok new =>
          simp only [hnew, if_neg (h.update_refused hsnap hbound hsel hrun hnew)]
          exact ⟨rfl, h.tick (call.gap + 1)⟩
      | ok _ s' =>
        obtain ⟨new, hnew, hrow, hnewId, hnewCompany, hrep⟩ :=
          h.update_returned hsnap hbound hsel hrun
        simp only [hnew, if_pos hrow]
        refine ⟨?_, hrep⟩
        rw [found, hsel s rfl, Option.map_some, Option.isSome_some, if_pos rfl, hrep.reply_eq]
        exact hrep.get_replaced hsnap hlooks hnewId hid (hnewCompany.trans hc)

/-! ### Deletions -/

/-- Two deletions of different edges have different keys. -/
theorem deleteKey_id {old old' : EdgeRow} (h : deleteKey old = deleteKey old') : old.id = old'.id := by
  have hlen : ∀ u : Uuid, (Uuid.text u).toList.length = 36 := by
    intro u
    simp [Uuid.text, Uuid.digits]
  have hl := congrArg String.toList h
  simp only [deleteKey, String.toList_append, List.append_assoc, List.append_cancel_left_eq] at hl
  obtain ⟨htext, -⟩ := List.append_inj hl ((hlen old.id).trans (hlen old'.id).symm)
  exact Uuid.text_injective (String.toList_inj.mp htext)

/-- No event waits under the key of an edge that is there. -/
theorem Represents.key_fresh (h : Represents refs b s) (hsnap : snap ∈ b.edges) :
    ∀ ev ∈ s.db.outboxEvents, ev.companyId = snap.edge.companyId →
      ev.idempotencyKey ≠ deleteKey snap.edge := by
  intro ev hev _ hkey
  obtain ⟨hret, old, hid, hold⟩ := h.events ev hev
  rw [← hid, deleteKey_id (hold.symm.trans hkey)] at hret
  exact h.not_retired hsnap hret

/-- The deferred events of the endpoints of an edge that is gone. -/
theorem fireDeferred_gone {gaps : List Nat} {events : List Deferred}
    (hgone : s.db.findEdge x = none) (hevents : ∀ event ∈ events, event = .endpoint x) :
    ∃ s', fireDeferred gaps events s = .ok () s' ∧ s'.db = s.db := by
  induction events generalizing s gaps with
  | nil => exact ⟨s, pure_ok.mpr ⟨rfl, rfl⟩, rfl⟩
  | cons event events ih =>
    obtain rfl := hevents event List.mem_cons_self
    have hfire : endpointsCheckCount x { s with clock := s.clock + gaps.headD 0 + 1 } =
        .ok () { s with clock := s.clock + gaps.headD 0 + 1 } := by
      simp only [endpointsCheckCount, get_bind_ok, ite_ok, pure_ok]
      exact .inl ⟨hgone, trivial, trivial⟩
    obtain ⟨s1, h1, hdb1, -⟩ := atNextInstant_returns (gaps.headD 0) ⟨_, hfire, rfl, rfl⟩
    obtain ⟨s', h2, hdb2⟩ : ∃ s', fireDeferred gaps.tail events s1 = .ok () s' ∧ s'.db = s1.db :=
      ih (hdb1 ▸ hgone) fun event hevent => hevents event (List.mem_cons_of_mem _ hevent)
    exact ⟨s', bind_ok.mpr ⟨(), s1, h1, h2⟩, hdb2.trans hdb1⟩

/-- The transaction of `remove`. -/
theorem Represents.removed (h : Represents refs b s) (hsnap : snap ∈ b.edges) (gap : Nat) :
    ∃ s', EdgeTransaction.body { statements := [(gap, .deleteEdge snap.edge.id)] } s = .ok () s' ∧
      Represents refs ⟨b.edges.filter fun o => o.edge.id ≠ snap.edge.id,
        b.retired ++ [snap.edge.id]⟩ s' := by
  have hold : s.db.findEdge snap.edge.id = some snap.edge :=
    h.faithful.linked.findEdge_of_mem (h.mem_edges hsnap)
  have hrows := h.rows_ne_nil hsnap
  obtain ⟨ep0, ep1, h0, h1⟩ := h.endpoint_some hsnap
  obtain ⟨t, ht⟩ := deleteEdge_returns (s := { s with clock := s.clock + gap + 1 }) hold hrows h0 h1
    (h.key_fresh hsnap) h.started
  have hdel := deleteEdge_ok (s := { s with clock := s.clock + gap + 1 }) h.faithful.linked hold
    hrows ht
  have hfind : ∀ y, t.db.findEdge y = if y = snap.edge.id then none else s.db.findEdge y := by
    intro y
    rw [EdgeTables.findEdge, hdel.edges]
    exact EdgeTables.findEdge_filter s.db snap.edge.id y
  obtain ⟨s1, hs1, hdb1, hq1⟩ := atNextInstant_returns gap ⟨t, ht, rfl, rfl⟩
  have hgone : s1.db.findEdge snap.edge.id = none := by
    rw [hdb1, hfind, if_pos rfl]
  have hqueue : ∀ event ∈ s1.queue, event = .endpoint snap.edge.id := by
    intro event hevent
    rw [hq1] at hevent
    rcases hdel.queue event hevent with hmem | heq
    · rw [h.queue] at hmem
      cases hmem
    · exact heq
  obtain ⟨s2, hs2, hdb2⟩ : ∃ s2, fireDeferred [] s1.queue s1 = .ok () s2 ∧ s2.db = s1.db :=
    fireDeferred_gone hgone hqueue
  have hbody : EdgeTransaction.body { statements := [(gap, .deleteEdge snap.edge.id)] } s =
      .ok () { s2 with queue := [] } := by
    refine bind_ok.mpr ⟨(), s1, bind_ok.mpr ⟨(), s1, hs1, pure_ok.mpr ⟨rfl, rfl⟩⟩, ?_⟩
    rw [get_bind_ok]
    exact bind_ok.mpr ⟨(), s2, hs2, modify_ok.mpr rfl⟩
  have hdb : s2.db = t.db := hdb2.trans hdb1
  obtain ⟨hfaithful, -⟩ :=
    h.committed { statements := [(gap, .deleteEdge snap.edge.id)] } ⟨trivial, trivial⟩ hbody
  refine ⟨_, hbody, hfaithful, rfl, ?_, ?_, ?_, ?_, ?_⟩ <;> dsimp only <;> rw [hdb]
  · exact hdel.refs.trans h.keys
  · rw [hdel.edges, h.edges, List.filter_map]
    rfl
  · intro o ho
    obtain ⟨ho, hne⟩ := List.mem_filter.mp ho
    rw [hdel.endpoints _ (of_decide_eq_true hne)]
    exact h.endpoints o ho
  · intro y
    rw [List.mem_append, List.mem_singleton, hfind]
    by_cases hy : y = snap.edge.id
    · rw [if_pos hy, hy]
      exact iff_of_true (.inr rfl) ⟨hdel.rows, rfl⟩
    · rw [if_neg hy, hdel.others y hy, or_iff_left hy]
      exact h.retired y
  · intro ev hev
    rcases hdel.events ev hev with hev | ⟨-, hid, hkey⟩
    · obtain ⟨hret, hold⟩ := h.events ev hev
      exact ⟨List.mem_append_left _ hret, hold⟩
    · rw [hid]
      exact ⟨List.mem_append_right _ (List.mem_singleton_self _), snap.edge, rfl, hkey⟩

theorem Represents.remove (h : Represents refs b s) (companyId : Uuid) (edgeId : String) (gap : Nat) :
    Simulates refs (KnowledgeEdgeRepo.remove companyId edgeId gap s) (b.remove companyId edgeId) := by
  rw [KnowledgeEdgeRepo.remove, EdgeBook.remove]
  by_cases hlooks : looksLikeUuid edgeId = false
  · rw [if_pos hlooks, if_pos hlooks]
    exact ⟨rfl, h⟩
  rw [if_neg hlooks, if_neg hlooks, h.selectEdge_eq]
  cases hfind : b.find companyId (uuidOf edgeId) with
  | none => exact ⟨rfl, h.tick (gap + 1)⟩
  | some snap =>
    obtain ⟨hsnap, hid, -⟩ := h.find_iff.mp hfind
    obtain ⟨s', hbody, hrep⟩ := h.removed hsnap gap
    rw [Option.map_some, if_neg (Option.some_ne_none snap.edge), if_neg (Option.some_ne_none snap),
      commit, ← hid, hbody]
    exact ⟨rfl, hrep⟩

/-! ### The points of the edges -/

theorem insertEmbedding_ok {p : EdgePoint} (h : insertEmbedding p s = .ok () s') :
    ∃ ps, { s with db := { s.db with embeddings := ps } } = s' := by
  simp only [insertEmbedding, get_bind_ok, raiseIf_bind_ok, modify_ok] at h
  exact ⟨_, h.2.2.2.2⟩

/-- The book does not see the points of the vector store. -/
theorem Represents.embed (h : Represents refs b s) (p : EdgePoint) (gap : Nat) :
    Represents refs b (commit { statements := [(gap, .insertEmbedding p)] } s).2 := by
  rw [commit]
  cases hbody : EdgeTransaction.body { statements := [(gap, .insertEmbedding p)] } s with
  | error e t => exact h.tick _
  | ok _ s' =>
    obtain ⟨hfaithful, hqueue⟩ :=
      h.committed { statements := [(gap, .insertEmbedding p)] } ⟨trivial, trivial⟩ hbody
    simp only [EdgeTransaction.body, forEach] at hbody
    obtain ⟨_, s1, hstmts, h2⟩ := bind_ok.mp hbody
    obtain ⟨_, s2, h1, hnil⟩ := bind_ok.mp hstmts
    obtain rfl : s2 = s1 := (pure_ok.mp hnil).2
    obtain ⟨t, hinsert, hs2⟩ := atNextInstant_iff.mp h1
    obtain ⟨ps, ht⟩ := insertEmbedding_ok hinsert
    have hdb2 : s2.db = { s.db with embeddings := ps } := by rw [← hs2, ← ht]
    have hq2 : s2.queue = [] := by rw [← hs2, ← ht, ← h.queue]
    rw [get_bind_ok, hq2] at h2
    obtain ⟨_, s3, h2, h3⟩ := bind_ok.mp h2
    obtain rfl : s2 = s3 := (pure_ok.mp h2).2
    have hs' := modify_ok.mp h3
    have hdb : s'.db = { s.db with embeddings := ps } := by rw [← hs', ← hdb2]
    refine ⟨hfaithful, hqueue, ?_, ?_, ?_, ?_, ?_⟩ <;> dsimp only <;> rw [hdb]
    · exact h.keys
    · exact h.edges
    · exact h.endpoints
    · exact h.retired
    · exact h.events

/-- Every call of the repository is one of the book, at the instant of its statement. -/
theorem Represents.run (h : Represents refs b s) (casts : PgCasts) (call : EdgeCall) :
    Simulates refs (call.run casts s) (b.run refs casts (s.clock + call.gap + 1) call) := by
  cases call with
  | create call =>
    obtain ⟨hreply, hrep⟩ := h.create casts call
    exact ⟨(Fallible.mapError_map _ _ _).trans (congrArg _ hreply), hrep⟩
  | get companyId edgeId =>
    exact ⟨(Fallible.mapError_map _ _ _).trans (congrArg _ (h.get_eq edgeId)), h⟩
  | list companyId filter =>
    exact ⟨(Fallible.mapError_map _ _ _).trans (congrArg _ (h.list_eq filter)), h⟩
  | update edgeId call =>
    obtain ⟨hreply, hrep⟩ := h.update casts edgeId call
    exact ⟨(Fallible.mapError_map _ _ _).trans (congrArg _ hreply), hrep⟩
  | remove companyId edgeId gap =>
    obtain ⟨hreply, hrep⟩ := h.remove companyId edgeId gap
    exact ⟨(Fallible.mapError_map _ _ _).trans (congrArg _ hreply), hrep⟩
  | embed p gap => exact ⟨rfl, h.embed p gap⟩

end Calls

/-! ### Runs -/

theorem Represents.replies {refs : EdgeRefs} {b : EdgeBook} {s : EdgeStore}
    (h : Represents refs b s) (casts : PgCasts) (calls : List EdgeCall) :
    (edgeReplies casts s calls).map (Except.mapError UpdateError.refusal) =
      bookReplies refs casts b ((edgeInstants casts s calls).zip calls) := by
  induction calls generalizing b s with
  | nil => rfl
  | cons call calls ih =>
    obtain ⟨hreply, hrep⟩ := h.run casts call
    rw [edgeReplies, edgeInstants, List.map_cons, List.zip_cons_cons, bookReplies, hreply, ih hrep]

theorem Represents.start (clock : Nat) (companies : List Uuid) (users chunks : List (Uuid × Uuid))
    (models : List Uuid) :
    Represents ⟨companies, users, chunks⟩ {} (.start clock companies users chunks models) where
  faithful := start_faithful clock companies users chunks models fun _ => trivial
  queue := rfl
  keys := rfl
  edges := rfl
  endpoints := by simp
  retired x := iff_of_false (List.not_mem_nil) fun h => h.1 rfl
  events := by simp [EdgeStore.start]

/-- The repository refines the book: every run of calls, of any companies and at any times, is
answered as the book answers it. -/
theorem book_refined (casts : PgCasts) (clock : Nat) (companies : List Uuid)
    (users chunks : List (Uuid × Uuid)) (models : List Uuid) (calls : List EdgeCall) :
    let s := EdgeStore.start clock companies users chunks models
    (edgeReplies casts s calls).map (Except.mapError UpdateError.refusal) =
      bookReplies ⟨companies, users, chunks⟩ casts {} ((edgeInstants casts s calls).zip calls) :=
  (Represents.start clock companies users chunks models).replies casts calls

end Wikore
