import Wikore.Rag.EdgeRepo

/-! Reads of edges beside writers.  Between the two statements of `get` or `list` any transactions
may commit; an answer still has the columns that an edge had at the first statement, and its two
endpoints, or none when the edge has been deleted since. -/

namespace Wikore

open Statement Timeline
open Orgs (looksLikeUuid)

/-- The endpoints of a snapshot, as the repository answers them. -/
def EdgeSnapshot.endpoints (snap : EdgeSnapshot) : List KnowledgeEdgeRepo.Endpoint :=
  [⟨0, snap.endpoint0ChunkId, snap.endpoint0Role⟩, ⟨1, snap.endpoint1ChunkId, snap.endpoint1Role⟩]

/-! ### Endpoints stay -/

/-- Two rows with the ordinals 0 and 1, in either order, are sorted to the endpoints. -/
theorem sorted_endpoints {eps : List EdgeEndpoint} {ep0 ep1 : EdgeEndpoint} (hlen : eps.length = 2)
    (h0 : eps.find? (fun ep => ep.ordinal = 0) = some ep0)
    (h1 : eps.find? (fun ep => ep.ordinal = 1) = some ep1) :
    eps.insertionSort (fun a b => a.ordinal ≤ b.ordinal) = [ep0, ep1] ∧
      ep0.ordinal = 0 ∧ ep1.ordinal = 1 := by
  have ho0 : ep0.ordinal = 0 := by simpa using List.find?_some h0
  have ho1 : ep1.ordinal = 1 := by simpa using List.find?_some h1
  refine ⟨?_, ho0, ho1⟩
  obtain ⟨a, b, rfl⟩ := List.length_eq_two.mp hlen
  have hne : ep0 ≠ ep1 := by
    rintro rfl
    rw [ho0] at ho1
    exact absurd ho1 (by decide)
  have hin0 := List.mem_of_find?_eq_some h0
  have hin1 := List.mem_of_find?_eq_some h1
  simp only [List.mem_cons, List.not_mem_nil, or_false] at hin0 hin1
  rcases hin0 with rfl | rfl <;> rcases hin1 with rfl | rfl
  · exact absurd rfl hne
  · simp [ho0, ho1]
  · simp [ho0, ho1]
  · exact absurd rfl hne

section Faithful

variable {P : Uuid → EdgeLife → Prop} {s : EdgeStore} {x : Uuid} {e : EdgeRow}

/-- A committed edge has a snapshot, and its endpoints are those of the snapshot, of its company. -/
theorem Faithful.endpoints (hs : Faithful P [] s) (he : e ∈ s.db.edges) :
    ∃ ep0 ep1, s.db.current e.id = some (.of e ep0 ep1) ∧
      (s.db.endpointsOf e.id).insertionSort (fun a b => a.ordinal ≤ b.ordinal) = [ep0, ep1] ∧
      ep0.ordinal = 0 ∧ ep1.ordinal = 1 := by
  have hfind := hs.linked.findEdge_of_mem he
  obtain ⟨hlen, r, -, hr, hcur⟩ := hs.live he
  have hne : (s.db.lifeOf e.id).current ≠ none := by
    rw [show (s.db.lifeOf e.id).current = _ from hcur]
    exact Option.some_ne_none _
  obtain ⟨ep0, h0⟩ := EdgeLife.endpoint_isSome hne 0
  obtain ⟨ep1, h1⟩ := EdgeLife.endpoint_isSome hne 1
  have hsorted := sorted_endpoints hlen h0 h1
  exact ⟨ep0, ep1, EdgeLife.current_eq hfind h0 h1, hsorted⟩

theorem Faithful.endpoints_company (hs : Faithful P [] s) (he : e ∈ s.db.edges) :
    ∀ ep ∈ s.db.endpointsOf e.id, ep.companyId = e.companyId := by
  intro ep hep
  obtain ⟨hmem, hid⟩ := List.mem_filter.mp hep
  obtain ⟨e', he', hc⟩ := hs.linked.parents ep hmem
  rw [of_decide_eq_true hid, hs.linked.findEdge_of_mem he] at he'
  obtain rfl := Option.some.inj he'
  exact hc.symm

end Faithful

namespace KnowledgeEdgeRepo

variable {companyId : Uuid} {db later : EdgeTables}

/-- What `load_endpoints` finds of an edge of the company. -/
theorem loadEndpoints_eq {ids : List Uuid} {x : Uuid} (hx : x ∈ ids)
    (hcompany : ∀ ep ∈ db.endpointsOf x, ep.companyId = companyId) :
    loadEndpoints db companyId ids x =
      ((db.endpointsOf x).insertionSort fun a b => a.ordinal ≤ b.ordinal).map fun ep =>
        ⟨ep.ordinal, ep.chunkId, ep.role⟩ := by
  rw [loadEndpoints]
  congr 2
  rw [EdgeTables.endpointsOf]
  refine List.filter_congr fun ep hep => decide_eq_decide.mpr ?_
  refine ⟨fun h => h.2.2, fun h => ⟨?_, h ▸ hx, h⟩⟩
  exact hcompany ep (List.mem_filter.mpr ⟨hep, decide_eq_true h⟩)

instance : Std.Total NewestFirst where
  total a b := by
    unfold NewestFirst
    omega

instance : IsTrans EdgeRow NewestFirst where
  trans a b c hab hbc := by
    unfold NewestFirst at *
    omega

/-- `list` answers unless its limit or its offset is negative. -/
theorem list_ok {filter : ListKnowledgeEdgesFilter} {as : List Answer} :
    list companyId filter db later = .ok as ↔ 0 ≤ filter.offset ∧ 0 ≤ filter.limit ∧
      as = (((listed companyId filter db).drop filter.offset.toNat).take filter.limit.toNat).map
        fun e => ⟨e, loadEndpoints later companyId ((((listed companyId filter db).drop
          filter.offset.toNat).take filter.limit.toNat).map fun e => e.id) e.id⟩ := by
  rw [list, Fallible.bind_ok]
  constructor
  · rintro ⟨rows, hrows, h⟩
    cases hpage : page companyId filter db with
    | error e =>
      rw [hpage] at hrows
      cases hrows
    | ok rows' =>
      rw [hpage] at hrows
      cases hrows
      rw [page, Fallible.rejectIf_bind_ok, Fallible.rejectIf_bind_ok, Int.not_lt, Int.not_lt] at hpage
      obtain ⟨hoffset, hlimit, hrows⟩ := hpage
      cases hrows
      cases h
      exact ⟨hoffset, hlimit, rfl⟩
  · rintro ⟨hoffset, hlimit, rfl⟩
    have hpage : page companyId filter db = .ok (((listed companyId filter db).drop
        filter.offset.toNat).take filter.limit.toNat) := by
      rw [page, Fallible.rejectIf_bind_ok, Fallible.rejectIf_bind_ok, Int.not_lt, Int.not_lt]
      exact ⟨hoffset, hlimit, rfl⟩
    rw [hpage]
    exact ⟨_, rfl, rfl⟩

end KnowledgeEdgeRepo

end Wikore
