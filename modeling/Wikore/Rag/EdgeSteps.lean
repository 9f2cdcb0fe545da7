import Wikore.Rag.EdgeLife
import Mathlib.Data.List.Nodup

/-! What each statement on the tables of knowledge edges, and each deferred trigger, makes of the
life of every edge id. -/

namespace Wikore

open Statement Timeline

namespace EdgeTables

variable (db : EdgeTables) (x : Uuid)

def lifeOf : EdgeLife := ⟨db.findEdge x, db.endpointsOf x, db.historyOf x⟩

/-- The edge with its columns and endpoints. -/
def current : Option EdgeSnapshot := (db.lifeOf x).current

/-- The keys: edges have distinct ids, and every endpoint has its edge. -/
structure Linked : Prop where
  ids : (db.edges.map fun e => e.id).Nodup
  parents : ∀ ep ∈ db.endpoints, ∃ e, db.findEdge ep.edgeId = some e ∧ e.companyId = ep.companyId

variable {db x}

theorem findEdge_some {e : EdgeRow} (h : db.findEdge x = some e) : e ∈ db.edges ∧ e.id = x :=
  ⟨List.mem_of_find?_eq_some h, by simpa using List.find?_some h⟩

theorem findEdge_none : db.findEdge x = none ↔ ∀ e ∈ db.edges, e.id ≠ x := by
  simp [findEdge]

theorem Linked.findEdge_of_mem (h : db.Linked) {e : EdgeRow} (he : e ∈ db.edges) :
    db.findEdge e.id = some e := by
  cases hf : db.findEdge e.id with
  | none => exact absurd rfl (findEdge_none.mp hf e he)
  | some e' =>
    obtain ⟨hmem, hid⟩ := findEdge_some hf
    exact congrArg some (List.inj_on_of_nodup_map h.ids hmem he hid)

theorem findEndpoint_eq (i : Fin 2) : db.findEndpoint x i = (db.lifeOf x).endpoint i := by
  simp [findEndpoint, EdgeLife.endpoint, lifeOf, endpointsOf, List.find?_filter]

/-! ### One table changes -/

theorem findEdge_append {e : EdgeRow} (hnew : ∀ o ∈ db.edges, o.id ≠ e.id) (y : Uuid) :
    EdgeTables.findEdge { db with edges := db.edges ++ [e] } y =
      if y = e.id then some e else db.findEdge y :=
  Query.find?_insert (fun e : EdgeRow => e.id) hnew y

theorem findEdge_replace {old new : EdgeRow} (hold : db.findEdge x = some old) (hid : new.id = x)
    (y : Uuid) :
    EdgeTables.findEdge { db with edges := db.edges.map fun e => if e.id = x then new else e } y =
      if y = x then some new else db.findEdge y := by
  have h := Query.find?_replace (fun e : EdgeRow => e.id) (b := new) hold (.inl hid) y
  by_cases hy : y = x
  · rw [if_pos (hy.trans hid.symm)] at h
    rwa [if_pos hy]
  · rw [if_neg (fun hb => hy (hb.trans hid)), if_neg hy] at h
    rwa [if_neg hy]

theorem findEdge_filter (db : EdgeTables) (x y : Uuid) :
    EdgeTables.findEdge { db with edges := db.edges.filter fun e => e.id ≠ x } y =
      if y = x then none else db.findEdge y :=
  Query.find?_remove (fun e : EdgeRow => e.id) db.edges x y

theorem endpointsOf_append {ep : EdgeEndpoint} (y : Uuid) :
    EdgeTables.endpointsOf { db with endpoints := db.endpoints ++ [ep] } y =
      if y = ep.edgeId then db.endpointsOf y ++ [ep] else db.endpointsOf y := by
  by_cases hy : y = ep.edgeId
  · simp [endpointsOf, hy]
  · have hne : ep.edgeId ≠ y := fun h => hy h.symm
    simp [endpointsOf, hy, hne]

theorem lifeOf_replace {old new : EdgeRow} (hold : db.findEdge x = some old) (hid : new.id = x)
    (y : Uuid) :
    EdgeTables.lifeOf { db with edges := db.edges.map fun e => if e.id = x then new else e } y =
      if y = x then ⟨some new, db.endpointsOf y, db.historyOf y⟩ else db.lifeOf y := by
  show EdgeLife.mk _ _ _ = _
  rw [findEdge_replace hold hid]
  by_cases hy : y = x
  · rw [if_pos hy, if_pos hy]
    rfl
  · rw [if_neg hy, if_neg hy]
    rfl

/-- The cascade takes every endpoint of the edge: they are all of its company. -/
theorem endpointsOf_cascade (h : db.Linked) {old : EdgeRow} (hold : db.findEdge x = some old)
    (y : Uuid) :
    EdgeTables.endpointsOf { db with endpoints := db.endpoints.filter fun ep =>
      ¬(ep.companyId = old.companyId ∧ ep.edgeId = x) } y =
      if y = x then [] else db.endpointsOf y := by
  simp only [endpointsOf, List.filter_filter]
  by_cases hy : y = x
  · rw [if_pos hy, List.filter_eq_nil_iff]
    intro ep hep hb
    obtain ⟨e, he, hc⟩ := h.parents ep hep
    simp only [Bool.and_eq_true, decide_eq_true_eq] at hb
    have hx : ep.edgeId = x := hb.1.trans hy
    rw [hx, hold] at he
    obtain rfl := Option.some.inj he
    exact hb.2 ⟨hc.symm, hx⟩
  · rw [if_neg hy]
    apply List.filter_congr
    intro ep _
    by_cases hep : ep.edgeId = y
    · simp [hep, hy]
    · simp [hep]

/-- The tables after a `DELETE` of the edge `old`. -/
def cascade (db : EdgeTables) (old : EdgeRow) (x : Uuid) : EdgeTables :=
  { db with
    edges := db.edges.filter fun e => e.id ≠ x
    endpoints := db.endpoints.filter fun ep => ¬(ep.companyId = old.companyId ∧ ep.edgeId = x)
    embeddings := db.embeddings.filter fun p => ¬(p.companyId = old.companyId ∧ p.edgeId = x) }

theorem lifeOf_cascade (h : db.Linked) {old : EdgeRow} (hold : db.findEdge x = some old)
    (y : Uuid) :
    (db.cascade old x).lifeOf y = if y = x then ⟨none, [], db.historyOf y⟩ else db.lifeOf y := by
  have hfind := findEdge_filter db x y
  have heps := endpointsOf_cascade h hold y
  show EdgeLife.mk (EdgeTables.findEdge _ y) (EdgeTables.endpointsOf _ y) _ = _
  by_cases hy : y = x
  · rw [if_pos hy] at hfind heps ⊢
    exact congrArg₂ (EdgeLife.mk · · _) hfind heps
  · rw [if_neg hy] at hfind heps ⊢
    exact congrArg₂ (EdgeLife.mk · · _) hfind heps

theorem Linked.cascade (h : db.Linked) {old : EdgeRow} (hold : db.findEdge x = some old) :
    (db.cascade old x).Linked where
  ids := h.ids.sublist (List.filter_sublist.map _)
  parents ep hep := by
    obtain ⟨hmem, hkept⟩ := List.mem_filter.mp hep
    obtain ⟨e, he, hc⟩ := h.parents ep hmem
    have hne : ep.edgeId ≠ x := by
      intro hx
      rw [hx, hold] at he
      obtain rfl := Option.some.inj he
      exact of_decide_eq_true hkept ⟨hc.symm, hx⟩
    have hfind := findEdge_filter db x ep.edgeId
    rw [if_neg hne, he] at hfind
    exact ⟨e, hfind, hc⟩

/-- A version of `x` is written to the history, and the open one is ended. -/
theorem historyOf_write (db : EdgeTables) {r : Version Uuid EdgeVersion} (τ : Nat) (hr : r.key = x)
    (y : Uuid) :
    EdgeTables.historyOf { db with history := closeOpen x τ db.history ++ [r] } y =
      if y = x then (db.historyOf x).map (Version.close τ) ++ [r] else db.historyOf y := by
  simp only [historyOf, rowsOf_append]
  by_cases hy : y = x
  · subst hy
    rw [if_pos rfl, rowsOf_closeOpen_self]
    simp [rowsOf, hr]
  · have hne : r.key ≠ y := fun h => hy (h.symm.trans hr)
    rw [if_neg hy, rowsOf_closeOpen_ne hy]
    simp [rowsOf, hne]

end EdgeTables

/-! ### The history -/

section History

variable {s s' : EdgeStore} {x : Uuid}

/-- The store with a version of `x` written to the history, the open one being ended. -/
def EdgeStore.write (s : EdgeStore) (x : Uuid) (r : Version Uuid EdgeVersion) : EdgeStore :=
  { s with db := { s.db with history := closeOpen x s.clock s.db.history ++ [r] } }

theorem EdgeStore.lifeOf_write {r : Version Uuid EdgeVersion} (hr : r.key = x) (y : Uuid) :
    (s.write x r).db.lifeOf y =
      if y = x then ⟨s.db.findEdge y, s.db.endpointsOf y,
        (s.db.historyOf y).map (Version.close s.clock) ++ [r]⟩
      else s.db.lifeOf y := by
  have hrows := EdgeTables.historyOf_write s.db s.clock hr y
  show EdgeLife.mk _ _ (EdgeTables.historyOf _ y) = _
  by_cases hy : y = x
  · subst hy
    rw [if_pos rfl] at hrows ⊢
    exact congrArg _ hrows
  · rw [if_neg hy] at hrows ⊢
    exact congrArg _ hrows

theorem closeHistory_ok {ts : Nat} (h : closeHistory x ts s = .ok () s') :
    { s with db := { s.db with history := closeOpen x ts s.db.history } } = s' := by
  simp only [closeHistory, get_bind_ok, raiseIf_bind_ok, modify_ok] at h
  exact h.2

theorem insertHistory_ok {r : Version Uuid EdgeVersion} (h : insertHistory r s = .ok () s') :
    { s with db := { s.db with history := s.db.history ++ [r] } } = s' := by
  simp only [insertHistory, get_bind_ok, raiseIf_bind_ok, modify_ok] at h
  exact h.2.2.2

theorem strict_ok {α : Type} {o : Option α} {a : α} (h : strict o s = .ok a s') :
    o = some a ∧ s = s' := by
  cases o with
  | none => exact (throw_ok.mp h).elim
  | some b =>
    obtain ⟨rfl, rfl⟩ := pure_ok.mp h
    exact ⟨rfl, rfl⟩

theorem snapshotInternal_ok {kind : ChangeKind} (h : snapshotInternal x kind s = .ok () s') :
    kind ≠ .delete ∧ ∃ edge ep0 ep1, s.db.findEdge x = some edge ∧
      (s.db.lifeOf x).endpoint 0 = some ep0 ∧ (s.db.lifeOf x).endpoint 1 = some ep1 ∧
      s.write x (versionAt x s.clock kind edge ep0 ep1) = s' := by
  simp only [snapshotInternal, raiseIf_bind_ok, get_bind_ok] at h
  obtain ⟨hkind, h⟩ := h
  obtain ⟨edge, _, h1, h⟩ := bind_ok.mp h
  obtain ⟨hedge, rfl⟩ := strict_ok h1
  obtain ⟨ep0, _, h2, h⟩ := bind_ok.mp h
  obtain ⟨h0, rfl⟩ := strict_ok h2
  obtain ⟨ep1, _, h3, h⟩ := bind_ok.mp h
  obtain ⟨h1, rfl⟩ := strict_ok h3
  obtain ⟨_, _, h4, h5⟩ := bind_ok.mp h
  obtain rfl := closeHistory_ok h4
  obtain rfl := insertHistory_ok h5
  rw [EdgeTables.findEndpoint_eq] at h0 h1
  refine ⟨hkind, edge, ep0, ep1, hedge, h0, h1, ?_⟩
  have hid := (EdgeTables.findEdge_some hedge).2
  simp only [EdgeStore.write, versionAt, hid, if_neg hkind]

theorem enqueueDelete_ok {old : EdgeRow} (h : enqueueDelete old s = .ok () s') :
    ∃ out, { s with db := { s.db with outboxEvents := out } } = s' := by
  simp only [enqueueDelete, get_bind_ok, ite_ok, raiseIf_bind_ok, modify_ok, pure_ok] at h
  rcases h with ⟨-, -, rfl⟩ | ⟨-, -, rfl⟩
  · exact ⟨_, rfl⟩
  · exact ⟨s.db.outboxEvents, rfl⟩

/-- The trigger before a `DELETE` leaves a marker, unless the edge has no history. -/
theorem historyDelete_ok {old : EdgeRow} (h : historyDelete old s = .ok () s') :
    (s.db.historyOf old.id = [] ∧ s = s') ∨
      (s.db.historyOf old.id ≠ [] ∧ ∃ ep0 ep1 out,
        { s.write old.id (versionAt old.id s.clock .delete old ep0 ep1) with
          db := { (s.write old.id (versionAt old.id s.clock .delete old ep0 ep1)).db with
            outboxEvents := out } } = s') := by
  simp only [historyDelete, get_bind_ok, ite_ok, pure_ok] at h
  rcases h with ⟨hnil, -, rfl⟩ | ⟨hne, h⟩
  · exact .inl ⟨hnil, rfl⟩
  · obtain ⟨ep0, _, h2, h⟩ := bind_ok.mp h
    obtain ⟨-, rfl⟩ := strict_ok h2
    obtain ⟨ep1, _, h3, h⟩ := bind_ok.mp h
    obtain ⟨-, rfl⟩ := strict_ok h3
    obtain ⟨_, _, h4, h⟩ := bind_ok.mp h
    obtain ⟨out, rfl⟩ := enqueueDelete_ok h4
    obtain ⟨_, _, h5, h6⟩ := bind_ok.mp h
    obtain rfl := closeHistory_ok h5
    obtain rfl := insertHistory_ok h6
    exact .inr ⟨hne, ep0, ep1, out, rfl⟩

end History

/-! ### Statements -/

/-- The edge ids that a statement adds. -/
def EdgeStmt.inserts : EdgeStmt → List Uuid
  | .insertEdge e => [e.id]
  | _ => []

/-- What a statement or a deferred trigger makes of the store; `ids` are the ids it adds. -/
structure Changed (ids : List Uuid) (s s' : EdgeStore) : Prop where
  clock : s'.clock = s.clock
  trace : s'.trace = s.trace
  linked : s'.db.Linked
  queue : ∀ event ∈ s.queue, event ∈ s'.queue
  parents : ∀ y, .parent y ∈ s'.queue → .parent y ∈ s.queue ∨ y ∈ ids
  added : ∀ y ∈ ids, .parent y ∈ s'.queue
  lives : ∀ y, LifeStep y s.clock (y ∈ ids) (s.db.lifeOf y) (s'.db.lifeOf y)

theorem LifeStep.of_eq {x : Uuid} {τ : Nat} {queued : Prop} {v v' : EdgeLife} (h : v' = v) :
    LifeStep x τ queued v v' := by
  rw [h]
  exact .keep v

theorem LifeStep.cast {x : Uuid} {τ : Nat} {queued : Prop} {v v' w w' : EdgeLife} (hv : w = v)
    (hv' : w' = v') (h : LifeStep x τ queued v v') : LifeStep x τ queued w w' := by
  rw [hv, hv']
  exact h

/-- A statement that changes the life of `x` only is a step of every life. -/
theorem LifeStep.only (x : Uuid) {τ : Nat} {ids : List Uuid} {f f' : Uuid → EdgeLife}
    (hother : ∀ y, y ≠ x → f' y = f y) (h : LifeStep x τ (x ∈ ids) (f x) (f' x)) (y : Uuid) :
    LifeStep y τ (y ∈ ids) (f y) (f' y) := by
  by_cases hy : y = x
  · subst hy
    exact h
  · exact .of_eq (hother y hy)

section Statements

variable {s s' : EdgeStore} {x : Uuid}

theorem Changed.refl (h : s.db.Linked) : Changed [] s s where
  clock := rfl
  trace := rfl
  linked := h
  queue _ hev := hev
  parents _ hev := .inl hev
  added := by simp
  lives _ := .of_eq rfl

theorem checkEdge_ok {e : EdgeRow} (h : checkEdge e s = .ok () s') : s = s' := by
  simp only [checkEdge, get_bind_ok, raiseIf_bind_ok, raiseIf_ok] at h
  exact h.2.2.2.2.2

theorem insertEdge_changed {e : EdgeRow} (hl : s.db.Linked) (h : insertEdge e s = .ok () s') :
    Changed [e.id] s s' := by
  simp only [insertEdge, rejectUuidReuse] at h
  obtain ⟨_, _, h1, h⟩ := bind_ok.mp h
  simp only [get_bind_ok, raiseIf_ok] at h1
  obtain ⟨hreuse, rfl⟩ := h1
  simp only [get_bind_ok, raiseIf_bind_ok] at h
  obtain ⟨hkey, h⟩ := h
  obtain ⟨_, _, h2, h3⟩ := bind_ok.mp h
  obtain rfl := checkEdge_ok h2
  obtain rfl := modify_ok.mp h3
  have hnil : s.db.historyOf e.id = [] := not_not.mp hreuse
  have hnew : ∀ o ∈ s.db.edges, o.id ≠ e.id := fun o ho hid => hkey ⟨o, ho, hid⟩
  have hnone : s.db.findEdge e.id = none := EdgeTables.findEdge_none.mpr hnew
  refine ⟨rfl, rfl, ⟨?_, ?_⟩, fun _ hev => by simp [hev], fun y hy => by simpa using hy, by simp, ?_⟩
  · simp only [List.map_append, List.map_cons, List.map_nil]
    rw [List.nodup_append]
    refine ⟨hl.ids, List.nodup_singleton _, ?_⟩
    rintro a ha b hb rfl
    obtain ⟨o, ho, rfl⟩ := List.mem_map.mp ha
    exact hnew o ho (by simpa using hb)
  · intro ep hep
    obtain ⟨o, ho, hc⟩ := hl.parents ep hep
    refine ⟨o, ?_, hc⟩
    rw [EdgeTables.findEdge_append hnew, if_neg, ho]
    intro heq
    rw [heq, hnone] at ho
    cases ho
  · refine LifeStep.only e.id ?_ ?_
    · intro y hy
      show EdgeLife.mk _ _ _ = _
      rw [EdgeTables.findEdge_append hnew, if_neg hy]
      rfl
    · have hbefore : s.db.lifeOf e.id = ⟨none, s.db.endpointsOf e.id, []⟩ := by
        rw [EdgeTables.lifeOf, hnone, hnil]
      have hafter : EdgeTables.lifeOf { s.db with edges := s.db.edges ++ [e] } e.id =
          ⟨some e, s.db.endpointsOf e.id, []⟩ := by
        rw [EdgeTables.lifeOf, EdgeTables.findEdge_append hnew, if_pos rfl]
        exact congrArg _ hnil
      rw [hbefore, hafter]
      exact .insert e (by simp)

theorem insertEndpoint_changed {ep : EdgeEndpoint} (hl : s.db.Linked)
    (h : insertEndpoint ep s = .ok () s') : Changed [] s s' := by
  simp only [insertEndpoint, get_bind_ok, raiseIf_bind_ok, modify_ok] at h
  obtain ⟨hkey, -, hedge, -, rfl⟩ := h
  obtain ⟨e, he, hc, hid⟩ := not_not.mp hedge
  have hfind := hl.findEdge_of_mem he
  rw [hid] at hfind
  refine ⟨rfl, rfl, ⟨hl.ids, ?_⟩, fun _ hev => by simp [hev], fun y hy => by simpa using hy,
    by simp, ?_⟩
  · intro o ho
    rcases List.mem_append.mp ho with ho | ho
    · exact hl.parents o ho
    · obtain rfl := List.mem_singleton.mp ho
      exact ⟨e, hfind, hc⟩
  · refine LifeStep.only ep.edgeId ?_ ?_
    · intro y hy
      show EdgeLife.mk _ _ _ = _
      rw [EdgeTables.endpointsOf_append, if_neg hy]
      rfl
    · have hafter : EdgeTables.lifeOf { s.db with endpoints := s.db.endpoints ++ [ep] } ep.edgeId =
          ⟨some e, s.db.endpointsOf ep.edgeId ++ [ep], s.db.historyOf ep.edgeId⟩ := by
        rw [EdgeTables.lifeOf, EdgeTables.endpointsOf_append, if_pos rfl, ← hfind]
        rfl
      rw [hafter, EdgeTables.lifeOf, hfind]
      apply LifeStep.attach ep
      intro o ho hord
      obtain ⟨hmem, hoid⟩ := List.mem_filter.mp ho
      exact hkey ⟨o, hmem, of_decide_eq_true hoid, hord⟩

theorem insertEmbedding_changed {p : EdgePoint} (hl : s.db.Linked)
    (h : insertEmbedding p s = .ok () s') : Changed [] s s' := by
  simp only [insertEmbedding, get_bind_ok, raiseIf_bind_ok, modify_ok] at h
  obtain ⟨-, -, -, -, rfl⟩ := h
  exact ⟨rfl, rfl, ⟨hl.ids, hl.parents⟩, fun _ hev => hev, fun _ hy => .inl hy, by simp,
    fun _ => .of_eq rfl⟩

theorem updateEndpoint_changed {i : Fin 2} (hl : s.db.Linked)
    (h : updateEndpoint x i s = .ok () s') : Changed [] s s' := by
  simp only [updateEndpoint, get_bind_ok] at h
  cases hf : s.db.findEndpoint x i with
  | none =>
    simp only [hf] at h
    obtain ⟨-, rfl⟩ := pure_ok.mp h
    exact .refl hl
  | some ep =>
    simp only [hf] at h
    exact (throw_ok.mp h).elim

/-- While an endpoint is there so is its edge, and the `DELETE` raises. -/
theorem deleteEndpoint_changed {i : Fin 2} (hl : s.db.Linked)
    (h : deleteEndpoint x i s = .ok () s') : Changed [] s s' := by
  simp only [deleteEndpoint, get_bind_ok] at h
  cases hf : s.db.findEndpoint x i with
  | none =>
    simp only [hf] at h
    obtain ⟨-, rfl⟩ := pure_ok.mp h
    exact .refl hl
  | some ep =>
    simp only [hf, raiseIf_bind_ok] at h
    obtain ⟨e, he, -⟩ := hl.parents ep (List.mem_of_find?_eq_some hf)
    obtain ⟨hmem, hid⟩ := EdgeTables.findEdge_some he
    exact absurd ⟨e, hmem, hid⟩ h.1

/-- An `UPDATE` that keeps the id, as the row and the links to it see it. -/
theorem replace_linked {old new : EdgeRow} (hl : s.db.Linked) (hold : s.db.findEdge x = some old)
    (hid : new.id = x)
    (hkey : ¬((new.companyId ≠ old.companyId ∨ new.id ≠ old.id) ∧
      ∃ ep ∈ s.db.endpoints, ep.companyId = old.companyId ∧ ep.edgeId = old.id)) :
    EdgeTables.Linked
      { s.db with edges := s.db.edges.map fun e => if e.id = x then new else e } where
  ids := by
    have hids : (s.db.edges.map fun e => if e.id = x then new else e).map (fun e => e.id) =
        s.db.edges.map fun e => e.id := by
      rw [List.map_map]
      apply List.map_congr_left
      intro e _
      by_cases he : e.id = x <;> simp [he, hid]
    exact hids ▸ hl.ids
  parents ep hep := by
    obtain ⟨e, he, hc⟩ := hl.parents ep hep
    rw [EdgeTables.findEdge_replace hold hid]
    by_cases hx : ep.edgeId = x
    · rw [hx, hold] at he
      obtain rfl := Option.some.inj he
      refine ⟨new, if_pos hx, ?_⟩
      by_contra hne
      have holdId := (EdgeTables.findEdge_some hold).2
      refine hkey ⟨.inl fun hco => hne (hco.trans hc), ep, hep, hc.symm, hx.trans holdId.symm⟩
    · exact ⟨e, by rwa [if_neg hx], hc⟩

/-- An `UPDATE` of an edge that keeps its id, or that endpoints forbid. -/
theorem updateEdge_changed {new : EdgeRow} (hl : s.db.Linked)
    (hid : new.id = x ∨ ∀ old, s.db.findEdge x = some old →
      ∃ ep ∈ s.db.endpoints, ep.companyId = old.companyId ∧ ep.edgeId = old.id)
    (h : updateEdge x new s = .ok () s') : Changed [] s s' := by
  simp only [updateEdge, get_bind_ok] at h
  cases hold : s.db.findEdge x with
  | none =>
    simp only [hold] at h
    obtain ⟨-, rfl⟩ := pure_ok.mp h
    exact .refl hl
  | some old =>
    simp only [hold, raiseIf_bind_ok] at h
    obtain ⟨-, h⟩ := h
    obtain ⟨_, _, h1, h⟩ := bind_ok.mp h
    obtain rfl := checkEdge_ok h1
    simp only [raiseIf_bind_ok, modify_bind_ok, historyUpdate, get_bind_ok, ite_ok, pure_ok] at h
    obtain ⟨hkey, -, h⟩ := h
    have holdId := (EdgeTables.findEdge_some hold).2
    have hid : new.id = x := by
      rcases hid with hid | hrefs
      · exact hid
      · by_contra hne
        exact hkey ⟨.inr (holdId ▸ hne), hrefs old hold⟩
    have hlinked := replace_linked hl hold hid hkey
    have hlife := EdgeTables.lifeOf_replace hold hid
    rcases h with ⟨hnil, -, rfl⟩ | ⟨hne, h⟩
    · -- the edge has no history yet
      refine ⟨rfl, rfl, hlinked, fun _ hev => hev, fun _ hy => .inl hy, by simp,
        LifeStep.only x (fun y hy => (hlife y).trans (if_neg hy)) ?_⟩
      have hnil : s.db.historyOf x = [] := hid ▸ hnil
      refine .cast rfl ((hlife x).trans (if_pos rfl)) ?_
      rw [EdgeTables.lifeOf, hold, hnil]
      exact .amend new
    · obtain ⟨-, edge, ep0, ep1, hedge, h0, h1, rfl⟩ := snapshotInternal_ok h
      rw [hid] at hedge hne h0 h1 ⊢
      have hnew := (EdgeTables.findEdge_replace hold hid x).symm.trans hedge
      rw [if_pos rfl] at hnew
      obtain rfl := Option.some.inj hnew
      refine ⟨rfl, rfl, ⟨hlinked.ids, hlinked.parents⟩, fun _ hev => hev, fun _ hy => .inl hy, by simp,
        LifeStep.only x ?_ ?_⟩
      · intro y hy
        refine Eq.trans (EdgeStore.lifeOf_write (x := x) rfl y) ?_
        rw [if_neg hy]
        exact (hlife y).trans (if_neg hy)
      · refine .cast rfl (EdgeStore.lifeOf_write (x := x) rfl x) ?_
        rw [if_pos rfl, hedge]
        exact .update old new ep0 ep1 hold hne h0 h1

/-- A `DELETE` takes the edge and all that refers to it. -/
theorem deleteEdge_changed (hl : s.db.Linked) (h : deleteEdge x s = .ok () s') :
    Changed [] s s' := by
  simp only [deleteEdge, get_bind_ok] at h
  cases hold : s.db.findEdge x with
  | none =>
    simp only [hold] at h
    obtain ⟨-, rfl⟩ := pure_ok.mp h
    exact .refl hl
  | some old =>
    simp only [hold] at h
    obtain ⟨_, s1, h1, h2⟩ := bind_ok.mp h
    obtain rfl := modify_ok.mp h2
    obtain ⟨-, holdId⟩ := EdgeTables.findEdge_some hold
    have hqueue : ∀ eps : List EdgeEndpoint, ∀ y,
        .parent y ∈ s.queue ++ eps.map (fun ep => Deferred.endpoint ep.edgeId) →
          .parent y ∈ s.queue := by
      intro eps y hy
      simpa using hy
    rcases historyDelete_ok h1 with ⟨hnil, rfl⟩ | ⟨hne, ep0, ep1, out, rfl⟩
    · refine ⟨rfl, rfl, hl.cascade hold, fun _ hev => by simp [hev],
        fun y hy => .inl (hqueue _ y hy), by simp, LifeStep.only x ?_ ?_⟩
      · exact fun y hy => (EdgeTables.lifeOf_cascade hl hold y).trans (if_neg hy)
      · have hnil : s.db.historyOf x = [] := holdId ▸ hnil
        refine .cast rfl ((EdgeTables.lifeOf_cascade hl hold x).trans (if_pos rfl)) ?_
        rw [EdgeTables.lifeOf, hold, hnil]
        exact .cancel
    · rw [holdId] at hne
      have hl1 : EdgeTables.Linked
          { (s.write old.id (versionAt old.id s.clock .delete old ep0 ep1)).db with
            outboxEvents := out } := ⟨hl.ids, hl.parents⟩
      refine ⟨rfl, rfl, hl1.cascade hold, fun _ hev => by simp [EdgeStore.write, hev],
        fun y hy => .inl (hqueue _ y hy), by simp, ?_⟩
      intro y
      refine .cast rfl (EdgeTables.lifeOf_cascade hl1 hold y) ?_
      have hwrite := EdgeStore.lifeOf_write (s := s) (x := old.id)
        (r := versionAt old.id s.clock .delete old ep0 ep1) rfl y
      rw [holdId] at hwrite
      by_cases hy : y = x
      · subst hy
        rw [if_pos rfl] at hwrite ⊢
        have hrows := congrArg EdgeLife.rows hwrite
        refine .cast rfl (congrArg (EdgeLife.mk none []) ?_)
          (.delete (v := s.db.lifeOf y) old ep0 ep1 hold hne)
        rw [holdId]
        exact hrows
      · rw [if_neg hy] at hwrite ⊢
        rw [holdId]
        exact .of_eq hwrite

/-- An `UPDATE` that would change the id of an edge finds endpoints that refer to it. -/
def EdgeStmt.Allowed (db : EdgeTables) : EdgeStmt → Prop
  | .updateEdge x new => new.id = x ∨ ∀ old, db.findEdge x = some old →
      ∃ ep ∈ db.endpoints, ep.companyId = old.companyId ∧ ep.edgeId = old.id
  | _ => True

theorem EdgeStmt.changed {st : EdgeStmt} (hl : s.db.Linked) (hst : st.Allowed s.db)
    (h : st.run s = .ok () s') : Changed st.inserts s s' := by
  cases st with
  | insertEdge e => exact insertEdge_changed hl h
  | updateEdge x new => exact updateEdge_changed hl hst h
  | deleteEdge x => exact deleteEdge_changed hl h
  | insertEndpoint ep => exact insertEndpoint_changed hl h
  | updateEndpoint x i => exact updateEndpoint_changed hl h
  | deleteEndpoint x i => exact deleteEndpoint_changed hl h
  | insertEmbedding p => exact insertEmbedding_changed hl h

end Statements

/-! ### Deferred triggers -/

section Fire

variable {s s' : EdgeStore} {event : Deferred}

/-- A deferred trigger changes nothing but the history. -/
theorem Deferred.changed (hl : s.db.Linked) (h : event.fire s = .ok () s') :
    Changed [] s s' ∧ s'.queue = s.queue := by
  cases event with
  | endpoint x =>
    simp only [Deferred.fire, endpointsCheckCount, get_bind_ok, ite_ok, pure_ok, raiseIf_ok] at h
    rcases h with ⟨-, -, rfl⟩ | ⟨-, -, rfl⟩ <;> exact ⟨.refl hl, rfl⟩
  | parent x =>
    simp only [Deferred.fire, checkCountAndSnapshot, get_bind_ok, ite_ok, pure_ok,
      raiseIf_bind_ok] at h
    rcases h with ⟨-, -, rfl⟩ | ⟨-, ⟨-, -, rfl⟩ | ⟨hopen, hcount, h⟩⟩
    · exact ⟨.refl hl, rfl⟩
    · exact ⟨.refl hl, rfl⟩
    · obtain ⟨-, edge, ep0, ep1, hedge, h0, h1, rfl⟩ := snapshotInternal_ok h
      refine ⟨⟨rfl, rfl, ⟨hl.ids, hl.parents⟩, fun _ hev => hev, fun _ hy => .inl hy, by simp, ?_⟩,
        rfl⟩
      refine LifeStep.only x ?_ ?_
      · intro y hy
        exact Eq.trans (EdgeStore.lifeOf_write (x := x) rfl y) (if_neg hy)
      refine .cast rfl (EdgeStore.lifeOf_write (x := x) rfl x) ?_
      rw [if_pos rfl, hedge]
      refine .snapshot edge ep0 ep1 hedge ?_ (not_not.mp hcount) h0 h1
      simp only [opened, List.map_eq_nil_iff, List.filter_eq_nil_iff, Option.isNone_iff_eq_none]
      exact fun r hr hstop => hopen ⟨r, hr, hstop⟩

/-- When the deferred event of an edge has fired, the edge is gone or has a history. -/
theorem Deferred.settled {x : Uuid} (h : (Deferred.parent x).fire s = .ok () s')
    (hlive : (s'.db.lifeOf x).edge ≠ none) : (s'.db.lifeOf x).rows ≠ [] := by
  simp only [Deferred.fire, checkCountAndSnapshot, get_bind_ok, ite_ok, pure_ok,
    raiseIf_bind_ok] at h
  rcases h with ⟨hgone, -, rfl⟩ | ⟨-, ⟨⟨r, hr, -⟩, -, rfl⟩ | ⟨-, -, h⟩⟩
  · exact absurd hgone hlive
  · exact List.ne_nil_of_mem hr
  · obtain ⟨-, edge, ep0, ep1, -, -, -, rfl⟩ := snapshotInternal_ok h
    rw [EdgeStore.lifeOf_write (x := x) rfl, if_pos rfl]
    simp

end Fire

end Wikore
