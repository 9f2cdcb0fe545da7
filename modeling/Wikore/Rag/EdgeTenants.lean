import Wikore.Rag.EdgeRefinement

/-! The tenants of `KnowledgeEdgeRepo` do not see each other: a company is answered as if it had a
book of its own. -/

namespace Wikore

open KnowledgeEdgeRepo
open Orgs (looksLikeUuid)

/-- The id that `gen_random_uuid` gives in a call. -/
def EdgeCall.newId : EdgeCall → Option Uuid
  | create call => some call.newId
  | _ => none

/-- The ids that the calls give out. -/
def newIds (calls : List EdgeCall) : List Uuid := calls.filterMap EdgeCall.newId

/-- The replies to the calls of the company. -/
def repliesTo {α : Type} (companyId : Uuid) (calls : List EdgeCall) (replies : List α) : List α :=
  ((calls.zip replies).filter fun p => p.1.company = companyId).map Prod.snd

/-- `own` has the edges of the company that `b` has, and neither has had the ids `fresh`. -/
structure Alone (companyId : Uuid) (fresh : List Uuid) (b own : EdgeBook) : Prop where
  ids : (b.edges.map fun snap => snap.edge.id).Nodup
  edges : own.edges = b.edges.filter fun snap => snap.edge.companyId = companyId
  unused : ∀ x ∈ fresh, x ∉ b.retired ∧ x ∉ own.retired ∧ ∀ o ∈ b.edges, o.edge.id ≠ x

section Calls

variable {companyId : Uuid} {fresh : List Uuid} {b own : EdgeBook} {refs : EdgeRefs} {casts : PgCasts}
  {now : Nat}

theorem Alone.mono (h : Alone companyId fresh b own) {fresh' : List Uuid} (hsub : fresh' ⊆ fresh) :
    Alone companyId fresh' b own :=
  ⟨h.ids, h.edges, fun x hx => h.unused x (hsub hx)⟩

theorem Alone.find_eq (h : Alone companyId fresh b own) (x : Uuid) :
    own.find companyId x = b.find companyId x := by
  rw [EdgeBook.find, EdgeBook.find, h.edges, List.find?_filter]
  refine congrArg (List.find? · b.edges) (funext fun snap => ?_)
  refine decide_eq_decide.mpr ?_
  simp only [decide_eq_true_eq]
  exact and_iff_right_of_imp And.right

theorem Alone.get_eq (h : Alone companyId fresh b own) (edgeId : String) :
    own.get companyId edgeId = b.get companyId edgeId := by
  rw [EdgeBook.get, EdgeBook.get, h.find_eq]

theorem Alone.list_eq (h : Alone companyId fresh b own) (filter : ListKnowledgeEdgesFilter) :
    own.list companyId filter = b.list companyId filter := by
  have hmatch : own.edges.filter (fun snap => EdgeBook.Matches companyId filter snap) =
      b.edges.filter fun snap => EdgeBook.Matches companyId filter snap := by
    rw [h.edges, List.filter_filter]
    refine List.filter_congr fun snap _ => ?_
    rw [← Bool.decide_and, decide_eq_decide]
    exact and_iff_left_of_imp And.left
  rw [EdgeBook.list, EdgeBook.list, hmatch]

/-! ### Creation -/

theorem Alone.admits_iff {snap : EdgeSnapshot} (h : Alone companyId fresh b own)
    (hid : snap.edge.id ∈ fresh) : own.Admits refs snap ↔ b.Admits refs snap := by
  obtain ⟨hret, hown, hnew⟩ := h.unused _ hid
  have hownNew : ∀ o ∈ own.edges, o.edge.id ≠ snap.edge.id := by
    intro o ho
    rw [h.edges] at ho
    exact hnew o (List.mem_of_mem_filter ho)
  rw [EdgeBook.Admits, EdgeBook.Admits]
  exact and_congr (iff_of_true hown hret) (and_congr_left' (iff_of_true hownNew hnew))

/-- A new edge of some company, under the first of the fresh ids. -/
theorem Alone.append (snap : EdgeSnapshot) (h : Alone companyId (snap.edge.id :: fresh) b own)
    (hnew : snap.edge.id ∉ fresh) :
    Alone companyId fresh { b with edges := b.edges ++ [snap] }
      { own with edges := own.edges ++ [snap].filter fun o => o.edge.companyId = companyId } where
  ids := by
    obtain ⟨-, -, hids⟩ := h.unused _ List.mem_cons_self
    rw [List.map_append, List.nodup_append]
    refine ⟨h.ids, List.nodup_singleton _, ?_⟩
    rintro x hx y hy rfl
    obtain ⟨o, ho, rfl⟩ := List.mem_map.mp hx
    exact hids o ho (List.mem_singleton.mp hy)
  edges := by rw [List.filter_append, h.edges]
  unused x hx := by
    obtain ⟨hret, hown, hids⟩ := h.unused x (List.mem_cons_of_mem _ hx)
    refine ⟨hret, hown, fun o ho => ?_⟩
    rcases List.mem_append.mp ho with ho | ho
    · exact hids o ho
    · obtain rfl := List.mem_singleton.mp ho
      rintro rfl
      exact hnew hx

/-! ### Updates and deletions -/

theorem Alone.eq_of_id (h : Alone companyId fresh b own) {snap o : EdgeSnapshot}
    (hsnap : snap ∈ b.edges) (ho : o ∈ b.edges) (hid : o.edge.id = snap.edge.id) : o = snap :=
  List.inj_on_of_nodup_map h.ids ho hsnap hid

/-- An edge gets a row of the same id and company. -/
theorem Alone.replace (h : Alone companyId fresh b own) {snap : EdgeSnapshot}
    (hsnap : snap ∈ b.edges) {new : EdgeRow} (hid : new.id = snap.edge.id)
    (hc : new.companyId = snap.edge.companyId) :
    Alone companyId fresh (b.replace new) (own.replace new) := by
  have hids : (b.replace new).edges.map (fun o => o.edge.id) = b.edges.map fun o => o.edge.id := by
    rw [EdgeBook.replace, List.map_map]
    refine List.map_congr_left fun o _ => ?_
    by_cases ho : o.edge.id = new.id <;> simp [ho]
  refine ⟨hids ▸ h.ids, ?_, fun x hx => ?_⟩
  · simp only [EdgeBook.replace, h.edges, List.filter_map]
    refine congrArg _ (List.filter_congr fun o ho => ?_)
    simp only [Function.comp_apply]
    by_cases hoid : o.edge.id = new.id
    · obtain rfl := h.eq_of_id hsnap ho (hoid.trans hid)
      rw [if_pos hoid, hc]
    · rw [if_neg hoid]
  · obtain ⟨hret, hown, hnew⟩ := h.unused x hx
    refine ⟨hret, hown, fun o ho => ?_⟩
    obtain ⟨o', ho', heq⟩ := List.mem_map.mp (hids ▸ List.mem_map_of_mem ho :
      o.edge.id ∈ b.edges.map fun o => o.edge.id)
    exact heq ▸ hnew o' ho'

/-- No edge of the own book is that of another company. -/
theorem Alone.own_id_ne (h : Alone companyId fresh b own) {snap : EdgeSnapshot}
    (hsnap : snap ∈ b.edges) (hother : snap.edge.companyId ≠ companyId) {o : EdgeSnapshot}
    (ho : o ∈ own.edges) : o.edge.id ≠ snap.edge.id := by
  rw [h.edges] at ho
  obtain ⟨hmem, hcompany⟩ := List.mem_filter.mp ho
  intro hid
  obtain rfl := h.eq_of_id hsnap hmem hid
  exact hother (of_decide_eq_true hcompany)

theorem Alone.replace_other (h : Alone companyId fresh b own) {snap : EdgeSnapshot}
    (hsnap : snap ∈ b.edges) (hother : snap.edge.companyId ≠ companyId) {new : EdgeRow}
    (hid : new.id = snap.edge.id) (hc : new.companyId = snap.edge.companyId) :
    Alone companyId fresh (b.replace new) own := by
  have hsame : own.replace new = own := by
    have hedges : own.edges.map (fun o => if o.edge.id = new.id then { o with edge := new } else o) =
        own.edges := by
      refine (List.map_congr_left fun o ho => if_neg ?_).trans (List.map_id own.edges)
      rw [hid]
      exact h.own_id_ne hsnap hother ho
    rw [EdgeBook.replace, hedges]
  exact hsame ▸ h.replace hsnap hid hc

/-- The book without the edge of the id `x`. -/
def EdgeBook.without (b : EdgeBook) (x : Uuid) : EdgeBook :=
  ⟨b.edges.filter fun o => o.edge.id ≠ x, b.retired ++ [x]⟩

theorem Alone.without (h : Alone companyId fresh b own) {snap : EdgeSnapshot}
    (hsnap : snap ∈ b.edges) :
    Alone companyId fresh (b.without snap.edge.id) (own.without snap.edge.id) := by
  refine ⟨h.ids.sublist (List.filter_sublist.map _), ?_, fun x hx => ?_⟩
  · simp only [EdgeBook.without, h.edges, List.filter_filter, Bool.and_comm]
  · obtain ⟨hret, hown, hnew⟩ := h.unused x hx
    have hne : x ∉ [snap.edge.id] := fun hmem =>
      hnew snap hsnap (List.mem_singleton.mp hmem).symm
    refine ⟨?_, ?_, fun o ho => hnew o (List.mem_of_mem_filter ho)⟩
    · exact fun hmem => (List.mem_append.mp hmem).elim hret hne
    · exact fun hmem => (List.mem_append.mp hmem).elim hown hne

theorem Alone.without_other (h : Alone companyId fresh b own) {snap : EdgeSnapshot}
    (hsnap : snap ∈ b.edges) (hother : snap.edge.companyId ≠ companyId) :
    Alone companyId fresh (b.without snap.edge.id) own := by
  have hkept : own.edges.filter (fun o => o.edge.id ≠ snap.edge.id) = own.edges :=
    List.filter_eq_self.mpr fun o ho => decide_eq_true (h.own_id_ne hsnap hother ho)
  have hgone := h.without hsnap
  refine ⟨hgone.ids, hkept ▸ hgone.edges, fun x hx => ?_⟩
  obtain ⟨hret, -, hnew⟩ := hgone.unused x hx
  exact ⟨hret, (h.unused x hx).2.1, hnew⟩

/-! ### One call -/

theorem EdgeBook.find_some {x : Uuid} {snap : EdgeSnapshot} (h : b.find companyId x = some snap) :
    snap ∈ b.edges ∧ snap.edge.id = x ∧ snap.edge.companyId = companyId :=
  ⟨List.mem_of_find?_eq_some h, by simpa using List.find?_some h⟩

/-- The answers of the two books are the same, and the books stay as they should be. -/
def Agree {α : Type} (companyId : Uuid) (fresh : List Uuid) (all one : Except Refusal α × EdgeBook) :
    Prop :=
  all.1 = one.1 ∧ Alone companyId fresh all.2 one.2

section Create

variable {call : CreateCall}

theorem Alone.create_other (h : Alone companyId (call.newId :: fresh) b own)
    (hnew : call.newId ∉ fresh) (hother : call.companyId ≠ companyId) :
    Alone companyId fresh (b.create refs casts now call).2 own := by
  have hkept : Alone companyId fresh b own := h.mono (List.subset_cons_self _ _)
  rw [EdgeBook.create]
  cases checkCreate call.cmd with
  | error e => exact hkept
  | ok _ =>
    cases hrow : createdRow casts call now with
    | error e => exact hkept
    | ok row =>
      obtain ⟨hid, hc⟩ := createdRow_ok hrow
      have hfresh : Alone companyId (row.id :: fresh) b own := hid.symm ▸ h
      by_cases hadm : b.Admits refs (EdgeBook.newSnapshot call.cmd row)
      · simp only [if_pos hadm]
        have happend := Alone.append (EdgeBook.newSnapshot call.cmd row) hfresh (hid.symm ▸ hnew)
        have hnone : ([EdgeBook.newSnapshot call.cmd row].filter fun o =>
            o.edge.companyId = companyId) = [] := by
          simpa [EdgeBook.newSnapshot, hc] using hother
        rw [hnone, List.append_nil] at happend
        exact happend
      · simp only [if_neg hadm]
        exact hkept

theorem Alone.create_own (h : Alone companyId (call.newId :: fresh) b own)
    (hnew : call.newId ∉ fresh) (hcompany : call.companyId = companyId) :
    Agree companyId fresh (b.create refs casts now call) (own.create refs casts now call) := by
  have hkept : Alone companyId fresh b own := h.mono (List.subset_cons_self _ _)
  rw [EdgeBook.create, EdgeBook.create]
  cases checkCreate call.cmd with
  | error e => exact ⟨rfl, hkept⟩
  | ok _ =>
    cases hrow : createdRow casts call now with
    | error e => exact ⟨rfl, hkept⟩
    | ok row =>
      obtain ⟨hid, hc⟩ := createdRow_ok hrow
      have hfresh : Alone companyId (row.id :: fresh) b own := hid.symm ▸ h
      have hadmits : own.Admits refs (EdgeBook.newSnapshot call.cmd row) ↔
          b.Admits refs (EdgeBook.newSnapshot call.cmd row) :=
        hfresh.admits_iff List.mem_cons_self
      by_cases hadm : b.Admits refs (EdgeBook.newSnapshot call.cmd row)
      · simp only [if_pos hadm, if_pos (hadmits.mpr hadm)]
        have happend := Alone.append (EdgeBook.newSnapshot call.cmd row) hfresh (hid.symm ▸ hnew)
        have hall : ([EdgeBook.newSnapshot call.cmd row].filter fun o =>
            o.edge.companyId = companyId) = [EdgeBook.newSnapshot call.cmd row] := by
          simpa [EdgeBook.newSnapshot, hc] using hcompany
        rw [hall] at happend
        exact ⟨rfl, happend⟩
      · simp only [if_neg hadm, if_neg fun ha => hadm (hadmits.mp ha)]
        exact ⟨rfl, hkept⟩

end Create

section Update

variable {edgeId : String} {call : UpdateCall}

/-- An update keeps the book, or an edge of the company gets a row of its id and company. -/
theorem EdgeBook.update_cases (b : EdgeBook) (refs : EdgeRefs) (casts : PgCasts) (now : Nat)
    (edgeId : String) (call : UpdateCall) :
    (b.update refs casts now edgeId call).2 = b ∨
      ∃ snap new, snap ∈ b.edges ∧ snap.edge.companyId = call.companyId ∧
        new.id = snap.edge.id ∧ new.companyId = snap.edge.companyId ∧
        (b.update refs casts now edgeId call).2 = b.replace new := by
  rw [EdgeBook.update]
  by_cases hlooks : looksLikeUuid edgeId = false
  · rw [if_pos hlooks]
    exact .inl rfl
  by_cases hnoop : call.cmd = {}
  · rw [if_neg hlooks, if_pos hnoop]
    exact .inl rfl
  by_cases hrange : ∃ c ∈ call.cmd.confidence, c.outOfRange = true
  · rw [if_neg hlooks, if_neg hnoop, if_pos hrange]
    exact .inl rfl
  rw [if_neg hlooks, if_neg hnoop, if_neg hrange]
  cases hbound : boundProvenance casts call with
  | error e => exact .inl rfl
  | ok provenance =>
    cases hfind : b.find call.companyId (uuidOf edgeId) with
    | none => exact .inl rfl
    | some snap =>
      obtain ⟨hsnap, -, hc⟩ := EdgeBook.find_some hfind
      cases hnewRow : assigned casts call provenance now snap.edge with
      | error e => exact .inl (by simp only [hnewRow])
      | ok new =>
        obtain ⟨hid, hcompany, -⟩ := assigned_ok hnewRow
        by_cases hrow : refs.RowOk new
        · exact .inr ⟨snap, new, hsnap, hc, hid, hcompany, by simp only [hnewRow, if_pos hrow]⟩
        · exact .inl (by simp only [hnewRow, if_neg hrow])

theorem Alone.update_other (h : Alone companyId fresh b own) (hother : call.companyId ≠ companyId) :
    Alone companyId fresh (b.update refs casts now edgeId call).2 own := by
  obtain heq | ⟨snap, new, hsnap, hc, hid, hcompany, heq⟩ := b.update_cases refs casts now edgeId call
  · rwa [heq]
  · rw [heq]
    exact h.replace_other hsnap (hc.symm ▸ hother) hid hcompany

theorem Alone.update_own (h : Alone companyId fresh b own) (hcompany : call.companyId = companyId) :
    Agree companyId fresh (b.update refs casts now edgeId call)
      (own.update refs casts now edgeId call) := by
  subst hcompany
  rw [EdgeBook.update, EdgeBook.update, h.get_eq, h.find_eq]
  by_cases hlooks : looksLikeUuid edgeId = false
  · rw [if_pos hlooks, if_pos hlooks]
    exact ⟨rfl, h⟩
  by_cases hnoop : call.cmd = {}
  · rw [if_neg hlooks, if_neg hlooks, if_pos hnoop, if_pos hnoop]
    exact ⟨rfl, h⟩
  by_cases hrange : ∃ c ∈ call.cmd.confidence, c.outOfRange = true
  · rw [if_neg hlooks, if_neg hlooks, if_neg hnoop, if_neg hnoop, if_pos hrange, if_pos hrange]
    exact ⟨rfl, h⟩
  rw [if_neg hlooks, if_neg hlooks, if_neg hnoop, if_neg hnoop, if_neg hrange, if_neg hrange]
  cases hbound : boundProvenance casts call with
  | error e => exact ⟨rfl, h⟩
  | ok provenance =>
    cases hfind : b.find call.companyId (uuidOf edgeId) with
    | none => exact ⟨rfl, h⟩
    | some snap =>
      obtain ⟨hsnap, -, hc⟩ := EdgeBook.find_some hfind
      cases hnewRow : assigned casts call provenance now snap.edge with
      | error e =>
        simp only [hnewRow]
        exact ⟨rfl, h⟩
      | ok new =>
        obtain ⟨hid, hcompany, -⟩ := assigned_ok hnewRow
        by_cases hrow : refs.RowOk new
        · simp only [hnewRow, if_pos hrow]
          exact ⟨rfl, h.replace hsnap hid hcompany⟩
        · simp only [hnewRow, if_neg hrow]
          exact ⟨rfl, h⟩

end Update

section Remove

variable {company : Uuid} {edgeId : String}

theorem Alone.remove_other (h : Alone companyId fresh b own) (hother : company ≠ companyId) :
    Alone companyId fresh (b.remove company edgeId).2 own := by
  rw [EdgeBook.remove]
  by_cases hlooks : looksLikeUuid edgeId = false
  · rw [if_pos hlooks]
    exact h
  rw [if_neg hlooks]
  cases hfind : b.find company (uuidOf edgeId) with
  | none => exact h
  | some snap =>
    obtain ⟨hsnap, hid, hc⟩ := EdgeBook.find_some hfind
    rw [if_neg (Option.some_ne_none snap), ← hid]
    exact h.without_other hsnap (hc.symm ▸ hother)

theorem Alone.remove_own (h : Alone companyId fresh b own) :
    Agree companyId fresh (b.remove companyId edgeId) (own.remove companyId edgeId) := by
  rw [EdgeBook.remove, EdgeBook.remove, h.find_eq]
  by_cases hlooks : looksLikeUuid edgeId = false
  · rw [if_pos hlooks, if_pos hlooks]
    exact ⟨rfl, h⟩
  rw [if_neg hlooks, if_neg hlooks]
  cases hfind : b.find companyId (uuidOf edgeId) with
  | none => exact ⟨rfl, h⟩
  | some snap =>
    obtain ⟨hsnap, hid, -⟩ := EdgeBook.find_some hfind
    rw [if_neg (Option.some_ne_none snap), if_neg (Option.some_ne_none snap), ← hid]
    exact ⟨rfl, h.without hsnap⟩

end Remove

/-- A call of another company leaves the own book as it should be. -/
theorem Alone.run_other {call : EdgeCall} (h : Alone companyId (call.newId.toList ++ fresh) b own)
    (hnew : ∀ x ∈ call.newId, x ∉ fresh) (hother : call.company ≠ companyId) :
    Alone companyId fresh (b.run refs casts now call).2 own := by
  cases call with
  | create call => exact Alone.create_other h (hnew call.newId rfl) hother
  | get _ _ => exact h
  | list _ _ => exact h
  | update edgeId call => exact Alone.update_other h hother
  | remove company edgeId gap => exact Alone.remove_other h hother
  | embed _ _ => exact h

/-- The company's own call is answered by its own book in the same way. -/
theorem Alone.run_own {call : EdgeCall} (h : Alone companyId (call.newId.toList ++ fresh) b own)
    (hnew : ∀ x ∈ call.newId, x ∉ fresh) (hcompany : call.company = companyId) :
    Agree companyId fresh (b.run refs casts now call) (own.run refs casts now call) := by
  cases call with
  | create call =>
    obtain ⟨hreply, hafter⟩ : Agree companyId fresh (b.create refs casts now call)
      (own.create refs casts now call) := Alone.create_own h (hnew call.newId rfl) hcompany
    exact ⟨congrArg (Except.map EdgeReply.edge) hreply, hafter⟩
  | get _ edgeId =>
    obtain rfl := hcompany
    exact ⟨congrArg (Except.map EdgeReply.edge) (Alone.get_eq h edgeId).symm, h⟩
  | list _ filter =>
    obtain rfl := hcompany
    exact ⟨congrArg (Except.map EdgeReply.edges) (Alone.list_eq h filter).symm, h⟩
  | update edgeId call =>
    obtain ⟨hreply, hafter⟩ : Agree companyId fresh (b.update refs casts now edgeId call)
      (own.update refs casts now edgeId call) := Alone.update_own h hcompany
    exact ⟨congrArg (Except.map EdgeReply.edge) hreply, hafter⟩
  | remove company edgeId gap =>
    obtain rfl : company = companyId := hcompany
    obtain ⟨hreply, hafter⟩ : Agree company fresh (b.remove company edgeId)
      (own.remove company edgeId) := Alone.remove_own h
    exact ⟨congrArg (Except.map fun _ => EdgeReply.done) hreply, hafter⟩
  | embed _ _ => exact ⟨rfl, h⟩

end Calls

/-! ### Runs -/

/-- A run of the repository beside the run of one company's calls on a book of its own. -/
theorem Represents.alone {refs : EdgeRefs} {casts : PgCasts} {companyId : Uuid} {s : EdgeStore}
    {b own : EdgeBook} {calls : List EdgeCall} (h : Represents refs b s)
    (halone : Alone companyId (newIds calls) b own) (hids : (newIds calls).Nodup) :
    (repliesTo companyId calls (edgeReplies casts s calls)).map (Except.mapError UpdateError.refusal) =
      bookReplies refs casts own
        (((edgeInstants casts s calls).zip calls).filter fun tc => tc.2.company = companyId) := by
  induction calls generalizing s b own with
  | nil => rfl
  | cons call calls ih =>
    obtain ⟨hreply, hrep⟩ := h.run casts call
    have hsplit : newIds (call :: calls) = call.newId.toList ++ newIds calls := by
      rw [newIds, List.filterMap_cons]
      cases call.newId with
      | none => rfl
      | some x => rfl
    rw [hsplit] at halone hids
    obtain ⟨-, hrest, hdisjoint⟩ := List.nodup_append.mp hids
    have hnew : ∀ x ∈ call.newId, x ∉ newIds calls := fun x hx hmem =>
      hdisjoint x (Option.mem_toList.mpr hx) x hmem rfl
    rw [edgeReplies, edgeInstants, repliesTo, List.zip_cons_cons, List.zip_cons_cons]
    by_cases hcompany : call.company = companyId
    · obtain ⟨hown, halone'⟩ := halone.run_own hnew hcompany
      rw [List.filter_cons_of_pos (by simpa using hcompany),
        List.filter_cons_of_pos (by simpa using hcompany), List.map_cons, List.map_cons, bookReplies,
        hreply, hown]
      exact congrArg _ (ih hrep halone' hrest)
    · rw [List.filter_cons_of_neg (by simpa using hcompany),
        List.filter_cons_of_neg (by simpa using hcompany)]
      exact ih hrep (halone.run_other hnew hcompany) hrest

/-- A company is answered as a book that no other company uses would answer it, whatever calls of
other companies come in between: `gen_random_uuid` gives no id twice. -/
theorem tenant_alone (casts : PgCasts) (clock : Nat) (companies : List Uuid)
    (users chunks : List (Uuid × Uuid)) (models : List Uuid) (calls : List EdgeCall)
    (hids : (newIds calls).Nodup) (companyId : Uuid) :
    let s := EdgeStore.start clock companies users chunks models
    (repliesTo companyId calls (edgeReplies casts s calls)).map
        (Except.mapError UpdateError.refusal) =
      bookReplies ⟨companies, users, chunks⟩ casts {}
        (((edgeInstants casts s calls).zip calls).filter fun tc => tc.2.company = companyId) := by
  refine (Represents.start clock companies users chunks models).alone ⟨List.nodup_nil, rfl, ?_⟩ hids
  exact fun x _ => ⟨List.not_mem_nil, List.not_mem_nil, fun o ho => absurd ho List.not_mem_nil⟩

/-- The company 2 creates an edge between the calls of the company 1 and asks for an edge of it. -/
def sharedCalls : List EdgeCall :=
  [.create (draft 1 40 7 "00000000-0000-0000-0000-000000000014"
      "00000000-0000-0000-0000-000000000015"),
    .create (draft 2 41 8 "00000000-0000-0000-0000-00000000001e"
      "00000000-0000-0000-0000-00000000001f"),
    .remove 2 "00000000-0000-0000-0000-000000000007" 0, .list 1 {}]
where
  draft (companyId actorUserId newId : Uuid) (chunk0 chunk1 : String) : CreateCall :=
    { companyId, actorUserId, newId
      cmd := {
        edgeType := .dependsOn, direction := .directed, confidence := ⟨false, 0⟩
        origin := .administrator
        endpoint0 := ⟨0, chunk0, .source⟩, endpoint1 := ⟨1, chunk1, .target⟩ } }

theorem shared_calls_alone :
    let s := EdgeStore.start 0 [1, 2] [(1, 40), (2, 41)] [(1, 20), (1, 21), (2, 30), (2, 31)] []
    (newIds sharedCalls).Nodup ∧
      (repliesTo 1 sharedCalls (edgeReplies reviewCasts s sharedCalls)).map
          (Except.mapError UpdateError.refusal) =
        bookReplies ⟨[1, 2], [(1, 40), (2, 41)], [(1, 20), (1, 21), (2, 30), (2, 31)]⟩ reviewCasts {}
          (((edgeInstants reviewCasts s sharedCalls).zip sharedCalls).filter fun tc =>
            tc.2.company = 1) := by
  have hids : (newIds sharedCalls).Nodup := by decide
  exact ⟨hids, tenant_alone reviewCasts 0 [1, 2] [(1, 40), (2, 41)]
    [(1, 20), (1, 21), (2, 30), (2, 31)] [] sharedCalls hids 1⟩

example : (edgeReplies reviewCasts (.start 0 [1, 2] [(1, 40), (2, 41)]
    [(1, 20), (1, 21), (2, 30), (2, 31)] []) sharedCalls).map Except.isOk =
      [true, true, false, true] := by
  decide

end Wikore
