import Wikore.Rag.EdgeBook

/-! When the statements of `KnowledgeEdgeRepo` succeed, and what they then make of the tables. -/

namespace Wikore

open Statement Timeline

/-- The keys that the tables have. -/
def EdgeTables.refs (db : EdgeTables) : EdgeRefs := ⟨db.companies, db.users, db.documentChunks⟩

section Statements

variable {s s' : EdgeStore} {x : Uuid} {e : EdgeRow} {ep : EdgeEndpoint}

theorem checkEdge_iff : checkEdge e s = .ok () s' ↔ s.db.refs.RowOk e ∧ s = s' := by
  simp only [checkEdge, get_bind_ok, raiseIf_bind_ok, raiseIf_ok, EdgeRefs.RowOk, EdgeTables.refs,
    Bool.not_eq_false, not_exists, not_and, not_not, Nat.not_le, and_assoc]

theorem insertEdge_iff : insertEdge e s = .ok () s' ↔
    s.db.historyOf e.id = [] ∧ (∀ o ∈ s.db.edges, o.id ≠ e.id) ∧ s.db.refs.RowOk e ∧
      { s with db := { s.db with edges := s.db.edges ++ [e] }
               queue := s.queue ++ [.parent e.id] } = s' := by
  simp only [insertEdge, rejectUuidReuse]
  constructor
  · intro h
    obtain ⟨_, _, h1, h⟩ := bind_ok.mp h
    simp only [get_bind_ok, raiseIf_ok] at h1
    obtain ⟨hreuse, rfl⟩ := h1
    simp only [get_bind_ok, raiseIf_bind_ok] at h
    obtain ⟨hkey, h⟩ := h
    obtain ⟨_, _, h2, h3⟩ := bind_ok.mp h
    obtain ⟨hrow, rfl⟩ := checkEdge_iff.mp h2
    exact ⟨not_not.mp hreuse, fun o ho hid => hkey ⟨o, ho, hid⟩, hrow, modify_ok.mp h3⟩
  · rintro ⟨hreuse, hkey, hrow, rfl⟩
    refine bind_ok.mpr ⟨(), s, ?_, ?_⟩
    · simp only [get_bind_ok, raiseIf_ok]
      exact ⟨not_not.mpr hreuse, trivial⟩
    · simp only [get_bind_ok, raiseIf_bind_ok]
      refine ⟨fun hex => hex.elim fun o ho => hkey o ho.1 ho.2, ?_⟩
      exact bind_ok.mpr ⟨(), s, checkEdge_iff.mpr ⟨hrow, rfl⟩, modify_ok.mpr rfl⟩

theorem insertEndpoint_iff : insertEndpoint ep s = .ok () s' ↔
    (∀ o ∈ s.db.endpointsOf ep.edgeId, o.ordinal ≠ ep.ordinal ∧ o.chunkId ≠ ep.chunkId) ∧
      s.db.HasEdge ep.edgeId ep.companyId ∧ (ep.companyId, ep.chunkId) ∈ s.db.documentChunks ∧
      { s with db := { s.db with endpoints := s.db.endpoints ++ [ep] }
               queue := s.queue ++ [.endpoint ep.edgeId] } = s' := by
  simp only [insertEndpoint, get_bind_ok, raiseIf_bind_ok, modify_ok, not_not, ← and_assoc]
  refine and_congr_left fun _ => and_congr_left fun _ => and_congr_left fun _ => ?_
  simp only [EdgeTables.endpointsOf, List.mem_filter, decide_eq_true_eq, not_exists, not_and, and_imp]
  exact ⟨fun h o ho hid => ⟨h.1 o ho hid, h.2 o ho hid⟩,
    fun h => ⟨fun o ho hid => (h o ho hid).1, fun o ho hid => (h o ho hid).2⟩⟩

theorem atNextInstant_iff {gap : Nat} {m : EdgeM Unit} : atNextInstant gap m s = .ok () s' ↔
    ∃ t, m { s with clock := s.clock + gap + 1 } = .ok () t ∧
      { t with trace := t.trace ++ [(t.clock, t.db)] } = s' := by
  simp only [atNextInstant, modify_bind_ok]
  constructor
  · intro h
    obtain ⟨_, t, h1, h2⟩ := bind_ok.mp h
    exact ⟨t, h1, modify_ok.mp h2⟩
  · rintro ⟨t, h1, h2⟩
    exact bind_ok.mpr ⟨(), t, h1, modify_ok.mpr h2⟩

/-- A version is written after all the others of the edge. -/
theorem insertHistory_returns {r : Version Uuid EdgeVersion} (hkey : r.key = x)
    (hstart : ∀ o ∈ s.db.historyOf x, o.start < s.clock) (hr : r.start = s.clock)
    (hstop : ∀ u ∈ r.stop, r.start ≤ u) :
    (do closeHistory x s.clock; insertHistory r) s = .ok () (s.write x r) := by
  refine bind_ok.mpr ⟨(), { s with
    db := { s.db with history := closeOpen x s.clock s.db.history } }, ?_, ?_⟩
  · simp only [closeHistory, get_bind_ok, raiseIf_bind_ok, modify_ok]
    refine ⟨?_, trivial⟩
    rintro ⟨o, ho, -, hlt⟩
    exact Nat.lt_asymm hlt (hstart o ho)
  · have hclosed : EdgeTables.historyOf { s.db with
        history := closeOpen x s.clock s.db.history } x =
          (s.db.historyOf x).map (Version.close s.clock) := rowsOf_closeOpen_self
    simp only [insertHistory, get_bind_ok, raiseIf_bind_ok, modify_ok, hkey, hclosed]
    refine ⟨?_, ?_, ?_, rfl⟩
    · rintro ⟨u, hu, hlt⟩
      exact Nat.not_le.mpr hlt (hstop u hu)
    · rintro ⟨o, ho, heq⟩
      obtain ⟨o', ho', rfl⟩ := List.mem_map.mp ho
      rw [Version.close_start, hr] at heq
      exact absurd heq (hstart o' ho').ne
    · rintro ⟨-, o, ho, hnone⟩
      obtain ⟨o, -, rfl⟩ := List.mem_map.mp ho
      rw [Version.close_stop] at hnone
      cases hnone

theorem snapshotInternal_returns {kind : ChangeKind} {ep0 ep1 : EdgeEndpoint}
    (hkind : kind ≠ .delete) (hfind : s.db.findEdge x = some e)
    (h0 : (s.db.lifeOf x).endpoint 0 = some ep0) (h1 : (s.db.lifeOf x).endpoint 1 = some ep1)
    (hstart : ∀ o ∈ s.db.historyOf x, o.start < s.clock) :
    snapshotInternal x kind s = .ok () (s.write x (versionAt x s.clock kind e ep0 ep1)) := by
  rw [← EdgeTables.findEndpoint_eq] at h0 h1
  have hid := (EdgeTables.findEdge_some hfind).2
  simp only [snapshotInternal, raiseIf_bind_ok, get_bind_ok, hfind, h0, h1, strict]
  refine ⟨hkind, bind_ok.mpr ⟨e, s, pure_ok.mpr ⟨rfl, rfl⟩, ?_⟩⟩
  refine bind_ok.mpr ⟨ep0, s, pure_ok.mpr ⟨rfl, rfl⟩, ?_⟩
  refine bind_ok.mpr ⟨ep1, s, pure_ok.mpr ⟨rfl, rfl⟩, ?_⟩
  rw [hid, versionAt, if_neg hkind]
  exact insertHistory_returns rfl hstart rfl (by simp)

theorem checkCountAndSnapshot_returns {ep0 ep1 : EdgeEndpoint} (hfind : s.db.findEdge x = some e)
    (hnil : s.db.historyOf x = []) (hends : s.db.endpointsOf x = [ep0, ep1])
    (h0 : ep0.ordinal = 0) (h1 : ep1.ordinal = 1) : checkCountAndSnapshot x s =
      .ok () (s.write x (versionAt x s.clock .insert e ep0 ep1)) := by
  have hlife0 : (s.db.lifeOf x).endpoint 0 = some ep0 := by
    simp [EdgeLife.endpoint, EdgeTables.lifeOf, hends, h0]
  have hlife1 : (s.db.lifeOf x).endpoint 1 = some ep1 := by
    simp [EdgeLife.endpoint, EdgeTables.lifeOf, hends, h0, h1]
  simp only [checkCountAndSnapshot, get_bind_ok, ite_ok, raiseIf_bind_ok, pure_ok]
  refine .inr ⟨by simp [hfind], .inr ⟨by simp [hnil], by simp [hends], ?_⟩⟩
  exact snapshotInternal_returns (by decide) hfind hlife0 hlife1 (by simp [hnil])

theorem endpointsCheckCount_returns (hcount : (s.db.endpointsOf x).length = 2) :
    endpointsCheckCount x s = .ok () s := by
  simp only [endpointsCheckCount, get_bind_ok, ite_ok, raiseIf_ok, pure_ok]
  by_cases hfind : s.db.findEdge x = none
  · exact .inl ⟨hfind, trivial, trivial⟩
  · exact .inr ⟨hfind, by simp [hcount], trivial⟩

/-! ### Deferred triggers -/

/-- Nothing has changed but the clock and the history of `x`. -/
structure OnlyHistory (x : Uuid) (s s' : EdgeStore) : Prop where
  edges : s'.db.edges = s.db.edges
  endpoints : s'.db.endpoints = s.db.endpoints
  outbox : s'.db.outboxEvents = s.db.outboxEvents
  refs : s'.db.refs = s.db.refs
  history : ∀ y, y ≠ x → s'.db.historyOf y = s.db.historyOf y

theorem OnlyHistory.trans {s1 s2 s3 : EdgeStore} (h : OnlyHistory x s1 s2) (h' : OnlyHistory x s2 s3) :
    OnlyHistory x s1 s3 :=
  ⟨h'.edges.trans h.edges, h'.endpoints.trans h.endpoints, h'.outbox.trans h.outbox,
    h'.refs.trans h.refs, fun y hy => (h'.history y hy).trans (h.history y hy)⟩

theorem onlyHistory_write {r : Version Uuid EdgeVersion} (hr : r.key = x) :
    OnlyHistory x s (s.write x r) :=
  ⟨rfl, rfl, rfl, rfl, fun y hy => (EdgeTables.historyOf_write s.db s.clock hr y).trans (if_neg hy)⟩

/-- The id of a waiting event. -/
def Deferred.edgeId : Deferred → Uuid
  | .parent x => x
  | .endpoint x => x

theorem fire_onlyHistory {event : Deferred} (h : event.fire s = .ok () s') :
    OnlyHistory event.edgeId s s' := by
  have hrefl : OnlyHistory event.edgeId s s := ⟨rfl, rfl, rfl, rfl, fun _ _ => rfl⟩
  cases event with
  | endpoint x =>
    simp only [Deferred.fire, endpointsCheckCount, get_bind_ok, ite_ok, pure_ok, raiseIf_ok] at h
    rcases h with ⟨-, -, rfl⟩ | ⟨-, -, rfl⟩ <;> exact hrefl
  | parent x =>
    simp only [Deferred.fire, checkCountAndSnapshot, get_bind_ok, ite_ok, pure_ok,
      raiseIf_bind_ok] at h
    rcases h with ⟨-, -, rfl⟩ | ⟨-, ⟨-, -, rfl⟩ | ⟨-, -, h⟩⟩
    · exact hrefl
    · exact hrefl
    · obtain ⟨-, edge, ep0, ep1, -, -, -, rfl⟩ := snapshotInternal_ok h
      exact onlyHistory_write rfl

theorem fireDeferred_onlyHistory {gaps : List Nat} {events : List Deferred}
    (hevents : ∀ event ∈ events, event.edgeId = x) (h : fireDeferred gaps events s = .ok () s') :
    OnlyHistory x s s' := by
  induction events generalizing s gaps with
  | nil =>
    obtain ⟨-, rfl⟩ := pure_ok.mp h
    exact ⟨rfl, rfl, rfl, rfl, fun _ _ => rfl⟩
  | cons event events ih =>
    obtain ⟨_, s1, h1, h2⟩ := bind_ok.mp h
    obtain ⟨t, hfire, rfl⟩ := atNextInstant_iff.mp h1
    have ht := fire_onlyHistory hfire
    rw [hevents event List.mem_cons_self] at ht
    have hrest := ih (fun event hevent => hevents event (List.mem_cons_of_mem _ hevent)) h2
    have hstep : OnlyHistory x s { t with trace := t.trace ++ [(t.clock, t.db)] } :=
      ⟨ht.edges, ht.endpoints, ht.outbox, ht.refs, ht.history⟩
    exact hstep.trans hrest

end Statements

/-! ### The statement of `create` -/

namespace KnowledgeEdgeRepo

variable {s s' : EdgeStore} {cmd : CreateKnowledgeEdgeCmd} {gap : Nat} {row : EdgeRow}

/-- The rows of the endpoints of a snapshot. -/
def endpointRows (snap : EdgeSnapshot) : List EdgeEndpoint :=
  [⟨snap.edge.companyId, snap.edge.id, 0, snap.endpoint0ChunkId, snap.endpoint0Role⟩,
    ⟨snap.edge.companyId, snap.edge.id, 1, snap.endpoint1ChunkId, snap.endpoint1Role⟩]

/-- When the statement of `create` is accepted. -/
def Accepts (db : EdgeTables) (snap : EdgeSnapshot) : Prop :=
  db.historyOf snap.edge.id = [] ∧ (∀ o ∈ db.edges, o.id ≠ snap.edge.id) ∧ db.refs.RowOk snap.edge ∧
    snap.endpoint0ChunkId ≠ snap.endpoint1ChunkId ∧
    (snap.edge.companyId, snap.endpoint0ChunkId) ∈ db.documentChunks ∧
    (snap.edge.companyId, snap.endpoint1ChunkId) ∈ db.documentChunks

/-- No endpoint refers to an id that no edge has. -/
theorem endpointsOf_fresh {db : EdgeTables} {x : Uuid} (hl : db.Linked)
    (hfresh : ∀ o ∈ db.edges, o.id ≠ x) : db.endpointsOf x = [] := by
  refine List.filter_eq_nil_iff.mpr fun ep hep hid => ?_
  obtain ⟨o, ho, -⟩ := hl.parents ep hep
  obtain ⟨hmem, hoid⟩ := EdgeTables.findEdge_some ho
  exact hfresh o hmem (hoid.trans (of_decide_eq_true hid))

/-- The tables and the waiting events after a statement that takes its time. -/
theorem atNextInstant_returns (gap : Nat) {m : EdgeM Unit} {db : EdgeTables} {queue : List Deferred}
    (h : ∃ t, m { s with clock := s.clock + gap + 1 } = .ok () t ∧ t.db = db ∧ t.queue = queue) :
    ∃ s', atNextInstant gap m s = .ok () s' ∧ s'.db = db ∧ s'.queue = queue := by
  obtain ⟨t, ht, hdb, hqueue⟩ := h
  exact ⟨_, atNextInstant_iff.mpr ⟨t, ht, rfl⟩, hdb, hqueue⟩

/-- The tables after the three rows of `create`. -/
def created (db : EdgeTables) (snap : EdgeSnapshot) : EdgeTables :=
  { db with edges := db.edges ++ [snap.edge], endpoints := db.endpoints ++ endpointRows snap }

theorem createTransaction_ok (hq : s.queue = [])
    (h : (createTransaction cmd gap row).body s = .ok () s') :
    Accepts s.db (EdgeBook.newSnapshot cmd row) ∧ s'.db.edges = s.db.edges ++ [row] ∧
      s'.db.endpoints = s.db.endpoints ++ endpointRows (EdgeBook.newSnapshot cmd row) ∧
      s'.db.outboxEvents = s.db.outboxEvents ∧ s'.db.refs = s.db.refs ∧
      ∀ y, y ≠ row.id → s'.db.historyOf y = s.db.historyOf y := by
  simp only [EdgeTransaction.body, createTransaction, forEach] at h
  obtain ⟨_, s3, hstmts, h⟩ := bind_ok.mp h
  obtain ⟨_, s1, h1, hstmts⟩ := bind_ok.mp hstmts
  obtain ⟨_, s2, h2, hstmts⟩ := bind_ok.mp hstmts
  obtain ⟨_, s3', h3, hstmts⟩ := bind_ok.mp hstmts
  obtain rfl : s3' = s3 := (pure_ok.mp hstmts).2
  obtain ⟨t1, h1, hs1⟩ := atNextInstant_iff.mp h1
  obtain ⟨hreuse, hkey, hrow, ht1⟩ := insertEdge_iff.mp h1
  have hdb1 : s1.db = { s.db with edges := s.db.edges ++ [row] } := by rw [← hs1, ← ht1]
  have hq1 : s1.queue = [.parent row.id] := by rw [← hs1, ← ht1, hq, List.nil_append]
  obtain ⟨t2, h2, hs2⟩ := atNextInstant_iff.mp h2
  obtain ⟨-, -, hchunk0, ht2⟩ := insertEndpoint_iff.mp h2
  have hdb2 : s2.db = { s1.db with endpoints := s1.db.endpoints ++
      [⟨row.companyId, row.id, 0, uuidOf cmd.endpoint0.chunkId, cmd.endpoint0.role⟩] } := by
    rw [← hs2, ← ht2]
  have hq2 : s2.queue = s1.queue ++ [.endpoint row.id] := by rw [← hs2, ← ht2]
  obtain ⟨t3, h3, hs3⟩ := atNextInstant_iff.mp h3
  obtain ⟨hends, -, hchunk1, ht3⟩ := insertEndpoint_iff.mp h3
  have hdb3 : s3'.db = { s2.db with endpoints := s2.db.endpoints ++
      [⟨row.companyId, row.id, 1, uuidOf cmd.endpoint1.chunkId, cmd.endpoint1.role⟩] } := by
    rw [← hs3, ← ht3]
  have hq3 : s3'.queue = s2.queue ++ [.endpoint row.id] := by rw [← hs3, ← ht3]
  have hdb : s3'.db = created s.db (EdgeBook.newSnapshot cmd row) := by
    rw [hdb3, hdb2, hdb1, created, EdgeBook.newSnapshot, endpointRows]
    simp only [List.append_assoc, List.cons_append, List.nil_append]
  rw [get_bind_ok] at h
  obtain ⟨_, s4, hfire, h⟩ := bind_ok.mp h
  have hs' := modify_ok.mp h
  have hhist : OnlyHistory row.id s3' s4 := by
    refine fireDeferred_onlyHistory (fun event hevent => ?_) hfire
    rw [hq3, hq2, hq1] at hevent
    simp only [List.cons_append, List.nil_append, List.mem_cons, List.not_mem_nil, or_false]
      at hevent
    rcases hevent with rfl | rfl | rfl <;> rfl
  have hdb4 : s'.db = s4.db := by rw [← hs']
  have hchunk1 : (row.companyId, uuidOf cmd.endpoint1.chunkId) ∈ s.db.documentChunks := by
    have hsame : s2.db.documentChunks = s.db.documentChunks := by rw [hdb2, hdb1]
    exact hsame ▸ hchunk1
  have hchunk0 : (row.companyId, uuidOf cmd.endpoint0.chunkId) ∈ s.db.documentChunks := by
    have hsame : s1.db.documentChunks = s.db.documentChunks := by rw [hdb1]
    exact hsame ▸ hchunk0
  have hne : uuidOf cmd.endpoint0.chunkId ≠ uuidOf cmd.endpoint1.chunkId := by
    refine (hends ⟨row.companyId, row.id, 0, uuidOf cmd.endpoint0.chunkId, cmd.endpoint0.role⟩ ?_).2
    show _ ∈ s2.db.endpointsOf row.id
    rw [hdb2]
    simp [EdgeTables.endpointsOf]
  rw [hdb4]
  refine ⟨⟨hreuse, hkey, hrow, hne, hchunk0, hchunk1⟩, ?_, ?_, ?_, ?_, fun y hy => ?_⟩
  · rw [hhist.edges, hdb]
    rfl
  · rw [hhist.endpoints, hdb]
    rfl
  · rw [hhist.outbox, hdb]
    rfl
  · rw [hhist.refs, hdb]
    rfl
  · rw [hhist.history y hy, hdb]
    rfl

/-- The deferred triggers of a new edge with its two endpoints. -/
theorem fireDeferred_returns {x : Uuid} {e : EdgeRow} {ep0 ep1 : EdgeEndpoint}
    (hfind : s.db.findEdge x = some e) (hnil : s.db.historyOf x = [])
    (hends : s.db.endpointsOf x = [ep0, ep1]) (h0 : ep0.ordinal = 0) (h1 : ep1.ordinal = 1) :
    ∃ s', fireDeferred [] [.parent x, .endpoint x, .endpoint x] s = .ok () s' := by
  obtain ⟨s1, hf1, hdb1, -⟩ := atNextInstant_returns (s := s) 0
    ⟨_, checkCountAndSnapshot_returns hfind hnil hends h0 h1, rfl, rfl⟩
  have hcount1 : (s1.db.endpointsOf x).length = 2 := by
    rw [hdb1]
    exact (congrArg List.length hends).trans rfl
  obtain ⟨s2, hf2, hdb2, -⟩ := atNextInstant_returns (s := s1) 0
    ⟨_, endpointsCheckCount_returns hcount1, rfl, rfl⟩
  have hcount2 : (s2.db.endpointsOf x).length = 2 := by
    rw [hdb2]
    exact hcount1
  obtain ⟨s3, hf3, -, -⟩ := atNextInstant_returns (s := s2) 0
    ⟨_, endpointsCheckCount_returns hcount2, rfl, rfl⟩
  exact ⟨s3, bind_ok.mpr ⟨(), s1, hf1, bind_ok.mpr ⟨(), s2, hf2, bind_ok.mpr
    ⟨(), s3, hf3, pure_ok.mpr ⟨rfl, rfl⟩⟩⟩⟩⟩

theorem insertEdge_returns (gap : Nat) {e : EdgeRow} (hreuse : s.db.historyOf e.id = [])
    (hkey : ∀ o ∈ s.db.edges, o.id ≠ e.id) (hrow : s.db.refs.RowOk e) :
    ∃ s', atNextInstant gap (insertEdge e) s = .ok () s' ∧
      s'.db = { s.db with edges := s.db.edges ++ [e] } ∧ s'.queue = s.queue ++ [.parent e.id] :=
  atNextInstant_returns gap ⟨_, insertEdge_iff.mpr ⟨hreuse, hkey, hrow, rfl⟩, rfl, rfl⟩

theorem insertEndpoint_returns (gap : Nat) (ep : EdgeEndpoint)
    (hkey : ∀ o ∈ s.db.endpointsOf ep.edgeId, o.ordinal ≠ ep.ordinal ∧ o.chunkId ≠ ep.chunkId)
    (hedge : s.db.HasEdge ep.edgeId ep.companyId)
    (hchunk : (ep.companyId, ep.chunkId) ∈ s.db.documentChunks) :
    ∃ s', atNextInstant gap (insertEndpoint ep) s = .ok () s' ∧
      s'.db = { s.db with endpoints := s.db.endpoints ++ [ep] } ∧
      s'.queue = s.queue ++ [.endpoint ep.edgeId] :=
  atNextInstant_returns gap ⟨_, insertEndpoint_iff.mpr ⟨hkey, hedge, hchunk, rfl⟩, rfl, rfl⟩

theorem createTransaction_returns (hq : s.queue = []) (hl : s.db.Linked)
    (h : Accepts s.db (EdgeBook.newSnapshot cmd row)) :
    ∃ s', (createTransaction cmd gap row).body s = .ok () s' := by
  obtain ⟨hreuse, hkey, hrow, hne, hchunk0, hchunk1⟩ := h
  obtain ⟨s1, h1, hdb1, hq1⟩ := insertEdge_returns gap hreuse hkey hrow
  let ep0 : EdgeEndpoint :=
    ⟨row.companyId, row.id, 0, uuidOf cmd.endpoint0.chunkId, cmd.endpoint0.role⟩
  let ep1 : EdgeEndpoint :=
    ⟨row.companyId, row.id, 1, uuidOf cmd.endpoint1.chunkId, cmd.endpoint1.role⟩
  have hnone : s.db.endpointsOf row.id = [] := endpointsOf_fresh hl hkey
  have hends1 : s1.db.endpointsOf row.id = [] := by
    rw [hdb1]
    exact hnone
  have hhas : EdgeTables.HasEdge s1.db row.id row.companyId := by
    rw [hdb1]
    exact ⟨row, List.mem_append_right _ (List.mem_singleton_self _), rfl, rfl⟩
  obtain ⟨s2, h2, hdb2, hq2⟩ := insertEndpoint_returns 0 ep0
    (by simp [ep0, hends1]) hhas (by rw [hdb1]; exact hchunk0)
  have hends2 : s2.db.endpointsOf row.id = [ep0] := by
    rw [hdb2, EdgeTables.endpointsOf_append, if_pos rfl, hends1, List.nil_append]
  have hkey2 : ∀ o ∈ s2.db.endpointsOf row.id, o.ordinal ≠ 1 ∧ o.chunkId ≠ ep1.chunkId := by
    intro o ho
    rw [hends2] at ho
    obtain rfl := List.mem_singleton.mp ho
    exact ⟨Fin.zero_ne_one, hne⟩
  obtain ⟨s3, h3, hdb3, hq3⟩ := insertEndpoint_returns 0 ep1 hkey2
    (by rw [hdb2]; exact hhas) (by rw [hdb2, hdb1]; exact hchunk1)
  have hends3 : s3.db.endpointsOf row.id = [ep0, ep1] := by
    rw [hdb3, EdgeTables.endpointsOf_append, if_pos rfl, hends2]
    rfl
  have hfind3 : s3.db.findEdge row.id = some row := by
    rw [hdb3, hdb2, hdb1]
    exact (EdgeTables.findEdge_append hkey row.id).trans (if_pos rfl)
  have hnil3 : s3.db.historyOf row.id = [] := by
    rw [hdb3, hdb2, hdb1]
    exact hreuse
  obtain ⟨s4, h4⟩ := fireDeferred_returns hfind3 hnil3 hends3 rfl rfl
  have hqueue : s3.queue = [.parent row.id, .endpoint row.id, .endpoint row.id] := by
    rw [hq3, hq2, hq1, hq]
    rfl
  refine ⟨{ s4 with queue := [] }, bind_ok.mpr ⟨(), s3, ?_, ?_⟩⟩
  · refine bind_ok.mpr ⟨(), s1, h1, bind_ok.mpr ⟨(), s2, h2, bind_ok.mpr ⟨(), s3, h3, ?_⟩⟩⟩
    exact pure_ok.mpr ⟨rfl, rfl⟩
  · rw [get_bind_ok, hqueue]
    exact bind_ok.mpr ⟨(), s4, h4, modify_ok.mpr rfl⟩

/-! ### The statements of `update` and `remove` -/

variable {x : Uuid} {old new : EdgeRow}

theorem updateEdge_ok (hold : s.db.findEdge x = some old) (hid : new.id = x)
    (h : updateEdge x new s = .ok () s') :
    s.db.refs.RowOk new ∧ s'.db.edges = s.db.edges.map (fun e => if e.id = x then new else e) ∧
      s'.db.endpoints = s.db.endpoints ∧ s'.db.outboxEvents = s.db.outboxEvents ∧
      s'.db.refs = s.db.refs ∧ s'.queue = s.queue ∧
      ∀ y, y ≠ x → s'.db.historyOf y = s.db.historyOf y := by
  simp only [updateEdge, get_bind_ok, hold, raiseIf_bind_ok] at h
  obtain ⟨-, h⟩ := h
  obtain ⟨_, _, h1, h⟩ := bind_ok.mp h
  obtain ⟨hrow, rfl⟩ := checkEdge_iff.mp h1
  simp only [raiseIf_bind_ok, modify_bind_ok, historyUpdate, get_bind_ok, ite_ok, pure_ok] at h
  obtain ⟨-, -, ⟨-, -, rfl⟩ | ⟨-, h⟩⟩ := h
  · exact ⟨hrow, rfl, rfl, rfl, rfl, rfl, fun _ _ => rfl⟩
  · obtain ⟨-, edge, ep0, ep1, -, -, -, rfl⟩ := snapshotInternal_ok h
    refine ⟨hrow, rfl, rfl, rfl, rfl, rfl, fun y hy => ?_⟩
    have hwrite := EdgeTables.historyOf_write
      { s.db with edges := s.db.edges.map fun e => if e.id = x then new else e } s.clock
      (r := versionAt new.id s.clock .update edge ep0 ep1) (x := new.id) rfl y
    rw [hid] at hwrite
    rw [hid]
    exact hwrite.trans (if_neg hy)

/-- The store with the row `new` in the place of the edge `x`. -/
def EdgeStore.replace (s : EdgeStore) (x : Uuid) (new : EdgeRow) : EdgeStore :=
  { s with db := { s.db with edges := s.db.edges.map fun e => if e.id = x then new else e } }

theorem updateEdge_of_historyUpdate (hold : s.db.findEdge x = some old) (hid : new.id = x)
    (hcompany : new.companyId = old.companyId) (hrow : s.db.refs.RowOk new)
    (h : historyUpdate new (EdgeStore.replace s x new) = .ok () s') :
    updateEdge x new s = .ok () s' := by
  have hsame : ¬(new.companyId ≠ old.companyId ∨ new.id ≠ old.id) := by
    rw [hid, (EdgeTables.findEdge_some hold).2, hcompany]
    simp
  simp only [updateEdge, get_bind_ok, hold, raiseIf_bind_ok]
  refine ⟨fun hne => hne.1 hid, bind_ok.mpr ⟨(), s, checkEdge_iff.mpr ⟨hrow, rfl⟩, ?_⟩⟩
  simp only [raiseIf_bind_ok, modify_bind_ok]
  exact ⟨fun hboth => hsame hboth.1, fun hboth => hsame hboth.1, h⟩

theorem updateEdge_returns {ep0 ep1 : EdgeEndpoint} (hold : s.db.findEdge x = some old)
    (hid : new.id = x) (hcompany : new.companyId = old.companyId) (hrow : s.db.refs.RowOk new)
    (hrows : s.db.historyOf x ≠ []) (h0 : (s.db.lifeOf x).endpoint 0 = some ep0)
    (h1 : (s.db.lifeOf x).endpoint 1 = some ep1)
    (hstart : ∀ o ∈ s.db.historyOf x, o.start < s.clock) :
    ∃ s', updateEdge x new s = .ok () s' := by
  have hfind : (EdgeStore.replace s x new).db.findEdge x = some new :=
    (EdgeTables.findEdge_replace hold hid x).trans (if_pos rfl)
  obtain ⟨s', hsnap⟩ : ∃ s', snapshotInternal x .update (EdgeStore.replace s x new) = .ok () s' :=
    ⟨_, snapshotInternal_returns (by decide) hfind h0 h1 hstart⟩
  refine ⟨s', updateEdge_of_historyUpdate hold hid hcompany hrow ?_⟩
  simp only [historyUpdate, get_bind_ok, ite_ok, pure_ok]
  rw [hid]
  exact .inr ⟨hrows, hsnap⟩

/-- The key of the event that a deletion of `old` enqueues. -/
def deleteKey (old : EdgeRow) : String :=
  "edge-del:" ++ Uuid.text old.id ++ ":" ++ Int.repr old.edgeVersion

theorem enqueueDelete_events (h : enqueueDelete old s = .ok () s') :
    (∀ ev ∈ s'.db.outboxEvents, ev ∈ s.db.outboxEvents ∨
      ev.companyId = old.companyId ∧ ev.aggregateId = old.id ∧
        ev.idempotencyKey = deleteKey old) ∧
      { s with db := { s.db with outboxEvents := s'.db.outboxEvents } } = s' := by
  simp only [enqueueDelete, get_bind_ok, ite_ok, raiseIf_bind_ok, modify_ok, pure_ok] at h
  rcases h with ⟨-, -, rfl⟩ | ⟨-, -, rfl⟩
  · refine ⟨fun ev hev => ?_, rfl⟩
    rcases List.mem_append.mp hev with hev | hev
    · exact .inl hev
    · obtain rfl := List.mem_singleton.mp hev
      exact .inr ⟨rfl, rfl, rfl⟩
  · exact ⟨fun ev hev => .inl hev, rfl⟩

theorem enqueueDelete_returns
    (hkey : ∀ ev ∈ s.db.outboxEvents, ev.companyId = old.companyId →
      ev.idempotencyKey ≠ deleteKey old) :
    ∃ out, enqueueDelete old s = .ok () { s with db := { s.db with outboxEvents := out } } := by
  simp only [enqueueDelete, get_bind_ok, ite_ok, raiseIf_bind_ok, modify_ok, pure_ok]
  by_cases hpoints : ((s.db.embeddings.filter fun p => p.edgeId = old.id).map
      EdgePoint.qdrantPointId) ≠ [] ∧ old.companyId ∈ s.db.companies
  · exact ⟨_, .inl ⟨hpoints, fun hex => hex.elim fun ev hev => hkey ev hev.1 hev.2.1 hev.2.2, rfl⟩⟩
  · exact ⟨s.db.outboxEvents, .inr ⟨hpoints, trivial, rfl⟩⟩

theorem historyDelete_events (hrows : s.db.historyOf old.id ≠ [])
    (h : historyDelete old s = .ok () s') :
    ∀ ev ∈ s'.db.outboxEvents, ev ∈ s.db.outboxEvents ∨
      ev.companyId = old.companyId ∧ ev.aggregateId = old.id ∧
        ev.idempotencyKey = deleteKey old := by
  simp only [historyDelete, get_bind_ok, ite_ok, pure_ok] at h
  obtain ⟨hnil, -⟩ | ⟨-, h⟩ := h
  · exact absurd hnil hrows
  · obtain ⟨ep0, _, h2, h⟩ := bind_ok.mp h
    obtain ⟨-, rfl⟩ := strict_ok h2
    obtain ⟨ep1, _, h3, h⟩ := bind_ok.mp h
    obtain ⟨-, rfl⟩ := strict_ok h3
    obtain ⟨_, s1, h4, h⟩ := bind_ok.mp h
    obtain ⟨_, _, h5, h6⟩ := bind_ok.mp h
    obtain rfl := closeHistory_ok h5
    obtain rfl := insertHistory_ok h6
    exact (enqueueDelete_events h4).1

theorem historyDelete_returns {ep0 ep1 : EdgeEndpoint} (hrows : s.db.historyOf old.id ≠ [])
    (h0 : (s.db.lifeOf old.id).endpoint 0 = some ep0)
    (h1 : (s.db.lifeOf old.id).endpoint 1 = some ep1)
    (hkey : ∀ ev ∈ s.db.outboxEvents, ev.companyId = old.companyId →
      ev.idempotencyKey ≠ deleteKey old)
    (hstart : ∀ o ∈ s.db.historyOf old.id, o.start < s.clock) :
    ∃ s', historyDelete old s = .ok () s' := by
  rw [← EdgeTables.findEndpoint_eq] at h0 h1
  obtain ⟨out, hout⟩ := enqueueDelete_returns hkey
  let s1 : EdgeStore := { s with db := { s.db with outboxEvents := out } }
  let marker : Version Uuid EdgeVersion :=
    ⟨old.id, ⟨.of old ep0 ep1, .delete⟩, s.clock, some s.clock⟩
  refine ⟨s1.write old.id marker, ?_⟩
  simp only [historyDelete, get_bind_ok, ite_ok, h0, h1, strict]
  refine .inr ⟨hrows, bind_ok.mpr ⟨ep0, s, pure_ok.mpr ⟨rfl, rfl⟩, ?_⟩⟩
  refine bind_ok.mpr ⟨ep1, s, pure_ok.mpr ⟨rfl, rfl⟩, bind_ok.mpr ⟨(), s1, hout, ?_⟩⟩
  exact insertHistory_returns rfl hstart rfl (by simp)

/-- What the deletion of the edge `old`, which has a history, leaves. -/
structure Deleted (x : Uuid) (old : EdgeRow) (s s' : EdgeStore) : Prop where
  edges : s'.db.edges = s.db.edges.filter fun e => e.id ≠ x
  endpoints : ∀ y, y ≠ x → s'.db.endpointsOf y = s.db.endpointsOf y
  events : ∀ ev ∈ s'.db.outboxEvents, ev ∈ s.db.outboxEvents ∨
    ev.companyId = old.companyId ∧ ev.aggregateId = x ∧ ev.idempotencyKey = deleteKey old
  refs : s'.db.refs = s.db.refs
  queue : ∀ event ∈ s'.queue, event ∈ s.queue ∨ event = .endpoint x
  rows : s'.db.historyOf x ≠ []
  others : ∀ y, y ≠ x → s'.db.historyOf y = s.db.historyOf y

theorem deleteEdge_ok (hl : s.db.Linked) (hold : s.db.findEdge x = some old)
    (hrows : s.db.historyOf x ≠ []) (h : deleteEdge x s = .ok () s') : Deleted x old s s' := by
  simp only [deleteEdge, get_bind_ok, hold] at h
  obtain ⟨_, s1, h1, h2⟩ := bind_ok.mp h
  obtain rfl := modify_ok.mp h2
  obtain ⟨-, rfl⟩ := EdgeTables.findEdge_some hold
  have hevents := historyDelete_events hrows h1
  obtain ⟨hnil, -⟩ | ⟨-, ep0, ep1, out, rfl⟩ := historyDelete_ok h1
  · exact absurd hnil hrows
  have hhistory : ∀ y, _ := EdgeTables.historyOf_write s.db s.clock
    (r := versionAt old.id s.clock .delete old ep0 ep1) (x := old.id) rfl
  refine ⟨rfl, fun y hy => ?_, hevents, rfl, ?_, ?_, fun y hy => (hhistory y).trans (if_neg hy)⟩
  · exact (EdgeTables.endpointsOf_cascade hl hold y).trans (if_neg hy)
  · intro event hevent
    rcases List.mem_append.mp hevent with hevent | hevent
    · exact .inl hevent
    · obtain ⟨ep, hep, rfl⟩ := List.mem_map.mp hevent
      exact .inr (congrArg Deferred.endpoint (of_decide_eq_true (List.mem_filter.mp hep).2).2)
  · refine ne_of_eq_of_ne ((hhistory old.id).trans (if_pos rfl)) ?_
    exact List.append_ne_nil_of_right_ne_nil _ (List.cons_ne_nil _ _)

theorem deleteEdge_returns {ep0 ep1 : EdgeEndpoint} (hold : s.db.findEdge x = some old)
    (hrows : s.db.historyOf x ≠ []) (h0 : (s.db.lifeOf x).endpoint 0 = some ep0)
    (h1 : (s.db.lifeOf x).endpoint 1 = some ep1)
    (hkey : ∀ ev ∈ s.db.outboxEvents, ev.companyId = old.companyId →
      ev.idempotencyKey ≠ deleteKey old)
    (hstart : ∀ o ∈ s.db.historyOf x, o.start < s.clock) :
    ∃ s', deleteEdge x s = .ok () s' := by
  obtain ⟨-, rfl⟩ := EdgeTables.findEdge_some hold
  obtain ⟨s1, hs1⟩ := historyDelete_returns hrows h0 h1 hkey hstart
  simp only [deleteEdge, get_bind_ok, hold]
  simp only [bind_ok, modify_ok]
  exact ⟨_, (), s1, hs1, rfl⟩

end KnowledgeEdgeRepo

end Wikore
