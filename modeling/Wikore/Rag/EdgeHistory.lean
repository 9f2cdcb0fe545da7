import Wikore.Lib.Transition
import Wikore.Rag.EdgeSteps

/-! The history of knowledge edges over whole runs of transactions: it tells what every edge was at
every instant since its insertion was committed, and no id is given out twice. -/

namespace Wikore

open Statement Timeline

/-- The tables before the first edge, at the instant `clock`. -/
def EdgeStore.start (clock : Nat) (companies : List Uuid) (users chunks : List (Uuid × Uuid))
    (models : List Uuid) : EdgeStore :=
  { clock
    db := { companies, users, documentChunks := chunks, embeddingModels := models } }

/-- What the edge `x` was after each statement and deferred trigger. -/
def EdgeStore.logOf (s : EdgeStore) (x : Uuid) : List (Nat × Option EdgeSnapshot) :=
  s.trace.map fun entry => (entry.1, entry.2.current x)

/-- `st` does not change the id of an edge that is among `seen`. -/
def EdgeStmt.KeepsId (seen : List Uuid) : EdgeStmt → Prop
  | .updateEdge x new => new.id = x ∨ x ∉ seen
  | _ => True

instance (seen : List Uuid) : ∀ st : EdgeStmt, Decidable (st.KeepsId seen)
  | .updateEdge _ _ => inferInstanceAs (Decidable (_ ∨ _))
  | .insertEdge _ | .deleteEdge _ | .insertEndpoint _ | .updateEndpoint _ _ | .deleteEndpoint _ _
  | .insertEmbedding _ => .isTrue trivial

/-- No `UPDATE` changes the id of an edge that the statements before it, or `seen`, inserted. -/
def KeepsIds (seen : List Uuid) : List (Nat × EdgeStmt) → Prop
  | [] => True
  | st :: sts => st.2.KeepsId seen ∧ KeepsIds (st.2.inserts ++ seen) sts

instance decidableKeepsIds : ∀ (seen : List Uuid) (sts : List (Nat × EdgeStmt)),
    Decidable (KeepsIds seen sts)
  | _, [] => .isTrue trivial
  | seen, st :: sts =>
    have := decidableKeepsIds (st.2.inserts ++ seen) sts
    inferInstanceAs (Decidable (st.2.KeepsId seen ∧ KeepsIds (st.2.inserts ++ seen) sts))

/-- No `UPDATE` of the transaction changes the id of an edge that the transaction inserted. -/
def EdgeTransaction.KeepsIds (tx : EdgeTransaction) : Prop := Wikore.KeepsIds [] tx.statements

instance (tx : EdgeTransaction) : Decidable tx.KeepsIds := decidableKeepsIds [] tx.statements

/-- The invariant, while the events `pending` wait.  `P` is any property of the life of an id that
the steps keep. -/
structure Faithful (P : Uuid → EdgeLife → Prop) (pending : List Deferred) (s : EdgeStore) :
    Prop where
  linked : s.db.Linked
  lives : ∀ x, SoundLife (.parent x ∈ pending) s.clock (s.logOf x) (s.db.lifeOf x)
  kept : ∀ x, P x (s.db.lifeOf x)

section Runs

variable {P : Uuid → EdgeLife → Prop} {s s' : EdgeStore}

/-- The steps of a life keep `P`. -/
def Stable (P : Uuid → EdgeLife → Prop) : Prop :=
  ∀ x τ queued v v', LifeStep x τ queued v v' → P x v → P x v'

theorem atNextInstant_ok {gap : Nat} {m : EdgeM Unit} (h : atNextInstant gap m s = .ok () s') :
    ∃ t, m { s with clock := s.clock + gap + 1 } = .ok () t ∧
      { t with trace := t.trace ++ [(t.clock, t.db)] } = s' := by
  simp only [atNextInstant, modify_bind_ok] at h
  obtain ⟨_, t, h1, h2⟩ := bind_ok.mp h
  exact ⟨t, h1, modify_ok.mp h2⟩

/-- One statement or trigger, at a later instant. -/
theorem atNextInstant_faithful {ids : List Uuid} {gap : Nat} {m : EdgeM Unit}
    {pending pending' : List Deferred} (hP : Stable P) (hs : Faithful P pending s)
    (hm : ∀ t t', t.db = s.db → t.queue = s.queue → m t = .ok () t' → Changed ids t t')
    (h : atNextInstant gap m s = .ok () s')
    (hpend : ∀ y, .parent y ∈ pending → .parent y ∈ pending')
    (hids : (∀ y ∈ ids, .parent y ∈ s'.queue) → ∀ y ∈ ids, .parent y ∈ pending') :
    Faithful P pending' s' := by
  obtain ⟨t, h1, rfl⟩ := atNextInstant_ok h
  have hc := hm { s with clock := s.clock + gap + 1 } t rfl rfl h1
  refine ⟨hc.linked, fun x => ?_, fun x => hP x _ _ _ _ (hc.lives x) (hs.kept x)⟩
  have hclock : t.clock = s.clock + gap + 1 := hc.clock
  have hlog : (t.trace ++ [(t.clock, t.db)]).map (fun entry => (entry.1, entry.2.current x)) =
      s.logOf x ++ [(s.clock + gap + 1, (t.db.lifeOf x).current)] := by
    rw [hc.trace, hclock, List.map_append]
    rfl
  show SoundLife _ t.clock (List.map _ _) (t.db.lifeOf x)
  rw [hlog, hclock]
  exact (hs.lives x).step (hc.lives x) (by omega) (hpend x) (hids hc.added x)

/-- Only an edge that the transaction inserted has no endpoints that hold its id. -/
theorem Faithful.allowed {seen : List Uuid} {st : EdgeStmt} (hs : Faithful P s.queue s)
    (hseen : ∀ y, .parent y ∈ s.queue → y ∈ seen) (hst : st.KeepsId seen) : st.Allowed s.db := by
  cases st with
  | updateEdge x new =>
    rcases hst with hid | hx
    · exact .inl hid
    · right
      intro old hold
      have hlife := hs.lives x
      generalize hv : s.db.lifeOf x = v at hlife
      have hedge : v.edge = some old := hv ▸ hold
      cases hlife with
      | fresh hp => exact absurd (hseen x (hp (by simp_all))) hx
      | recorded _ _ _ _ hlive =>
        have hlen := (hlive (by simp [hedge])).1
        obtain ⟨ep, hep⟩ := List.exists_mem_of_length_pos (l := v.endpoints) (by omega)
        subst hv
        obtain ⟨hmem, hepId⟩ := List.mem_filter.mp hep
        have hepId : ep.edgeId = x := of_decide_eq_true hepId
        obtain ⟨e, he, hc⟩ := hs.linked.parents ep hmem
        rw [hepId, hold] at he
        obtain rfl := Option.some.inj he
        exact ⟨ep, hmem, hc.symm, hepId.trans (EdgeTables.findEdge_some hold).2.symm⟩
  | _ => exact trivial

/-- A statement of a transaction. -/
theorem statement_faithful {seen : List Uuid} {st : Nat × EdgeStmt} (hP : Stable P)
    (hs : Faithful P s.queue s) (hseen : ∀ y, .parent y ∈ s.queue → y ∈ seen)
    (hst : st.2.KeepsId seen) (h : atNextInstant st.1 st.2.run s = .ok () s') :
    Faithful P s'.queue s' ∧ ∀ y, .parent y ∈ s'.queue → y ∈ st.2.inserts ++ seen := by
  have hallowed := hs.allowed hseen hst
  have hchanged : ∀ t t', t.db = s.db → t.queue = s.queue → st.2.run t = .ok () t' →
      Changed st.2.inserts t t' := by
    intro t t' hdb _ hrun
    exact EdgeStmt.changed (hdb ▸ hs.linked) (hdb ▸ hallowed) hrun
  obtain ⟨hq, hp⟩ : (∀ event ∈ s.queue, event ∈ s'.queue) ∧
      ∀ y, .parent y ∈ s'.queue → .parent y ∈ s.queue ∨ y ∈ st.2.inserts := by
    obtain ⟨t, h1, rfl⟩ := atNextInstant_ok h
    have hc := hchanged { s with clock := s.clock + st.1 + 1 } t rfl rfl h1
    exact ⟨hc.queue, hc.parents⟩
  refine ⟨atNextInstant_faithful hP hs hchanged h (fun y => hq _) fun hadd => hadd, ?_⟩
  intro y hy
  rcases hp y hy with hold | hnew
  · exact List.mem_append_right _ (hseen y hold)
  · exact List.mem_append_left _ hnew

theorem statements_faithful {seen : List Uuid} {sts : List (Nat × EdgeStmt)} (hP : Stable P)
    (hs : Faithful P s.queue s) (hseen : ∀ y, .parent y ∈ s.queue → y ∈ seen)
    (hsts : KeepsIds seen sts)
    (h : forEach (fun st => atNextInstant st.1 st.2.run) sts s = .ok () s') :
    Faithful P s'.queue s' := by
  induction sts generalizing s seen with
  | nil =>
    obtain ⟨-, rfl⟩ := pure_ok.mp h
    exact hs
  | cons st sts ih =>
    obtain ⟨_, s1, h1, h2⟩ := bind_ok.mp h
    obtain ⟨hs1, hseen1⟩ := statement_faithful hP hs hseen hsts.1 h1
    exact ih hs1 hseen1 hsts.2 h2

/-- The commit: when all deferred events have fired, none is waited for. -/
theorem fireDeferred_faithful {gaps : List Nat} {events : List Deferred} (hP : Stable P)
    (hs : Faithful P events s) (h : fireDeferred gaps events s = .ok () s') :
    Faithful P [] s' := by
  induction events generalizing s gaps with
  | nil =>
    obtain ⟨-, rfl⟩ := pure_ok.mp h
    exact hs
  | cons event events ih =>
    obtain ⟨_, s1, h1, h2⟩ := bind_ok.mp h
    have hs1 : Faithful P (event :: events) s1 := by
      have hchanged : ∀ t t', t.db = s.db → t.queue = s.queue → event.fire t = .ok () t' →
          Changed [] t t' := by
        intro t t' hdb _ hrun
        exact (Deferred.changed (hdb ▸ hs.linked) hrun).1
      exact atNextInstant_faithful hP hs hchanged h1 (fun _ hy => hy) (by simp)
    refine ih ⟨hs1.linked, fun x => ?_, hs1.kept⟩ h2
    by_cases hx : event = .parent x
    · subst hx
      obtain ⟨t, h3, rfl⟩ := atNextInstant_ok h1
      have hsettled := Deferred.settled h3
      exact (hs1.lives x).settle hsettled
    · refine (hs1.lives x).mono (Nat.le_refl _) fun hmem => ?_
      rcases List.mem_cons.mp hmem with heq | hmem
      · exact absurd heq.symm hx
      · exact hmem

theorem EdgeTransaction.run_faithful {tx : EdgeTransaction} (hP : Stable P)
    (hs : Faithful P [] s) (hq : s.queue = []) (htx : tx.KeepsIds) :
    Faithful P [] (tx.run s) ∧ (tx.run s).queue = [] := by
  unfold EdgeTransaction.run
  split
  · rename_i s' hbody
    simp only [EdgeTransaction.body] at hbody
    obtain ⟨_, s1, h1, h⟩ := bind_ok.mp hbody
    rw [get_bind_ok] at h
    obtain ⟨_, s2, h2, h3⟩ := bind_ok.mp h
    obtain rfl := modify_ok.mp h3
    have hs1 := statements_faithful hP (hq ▸ hs) (by simp [hq]) htx h1
    have hs2 := fireDeferred_faithful hP hs1 h2
    exact ⟨⟨hs2.linked, hs2.lives, hs2.kept⟩, rfl⟩
  · refine ⟨⟨hs.linked, fun x => ?_, hs.kept⟩, hq⟩
    exact (hs.lives x).mono (Nat.le_add_right _ _) id

theorem run_faithful {txs : List EdgeTransaction} (hP : Stable P) (hs : Faithful P [] s)
    (hq : s.queue = []) (htxs : ∀ tx ∈ txs, tx.KeepsIds) :
    Faithful P [] (Transition.run EdgeTransaction.run s txs) ∧
      (Transition.run EdgeTransaction.run s txs).queue = [] := by
  induction txs generalizing s with
  | nil => exact ⟨hs, hq⟩
  | cons tx txs ih =>
    obtain ⟨hs1, hq1⟩ := EdgeTransaction.run_faithful hP hs hq (htxs tx (by simp))
    exact ih hs1 hq1 fun tx' htx' => htxs tx' (by simp [htx'])

theorem start_faithful (clock : Nat) (companies : List Uuid) (users chunks : List (Uuid × Uuid))
    (models : List Uuid) (hP : ∀ x, P x ⟨none, [], []⟩) :
    Faithful P [] (EdgeStore.start clock companies users chunks models) where
  linked := ⟨List.nodup_nil, by simp [EdgeStore.start]⟩
  lives x := by
    show SoundLife _ _ _ ⟨none, [], []⟩
    exact .fresh fun h => absurd rfl h
  kept x := hP x

/-! ### What the invariant says after a commit -/

theorem Faithful.live {e : EdgeRow} (hs : Faithful P [] s) (he : e ∈ s.db.edges) :
    (s.db.endpointsOf e.id).length = 2 ∧ ∃ v, opened (s.db.historyOf e.id) = [v] ∧
      v.snapshot.edge = e ∧ s.db.current e.id = some v.snapshot := by
  have hfind := hs.linked.findEdge_of_mem he
  have hlife := hs.lives e.id
  generalize hv : s.db.lifeOf e.id = v at hlife
  have hedge : v.edge = some e := hv ▸ hfind
  cases hlife with
  | fresh hp => exact absurd (hp (by simp_all)) (by simp)
  | recorded _ _ _ hrec hlive =>
    obtain ⟨hlen, hcur⟩ := hlive (by simp [hedge])
    obtain ⟨ep0, h0⟩ := EdgeLife.endpoint_isSome hcur 0
    obtain ⟨ep1, h1⟩ := EdgeLife.endpoint_isSome hcur 1
    have hcur := EdgeLife.current_eq hedge h0 h1
    have hopen := hrec.current
    rw [hcur, Option.toList_some, List.map_eq_singleton_iff] at hopen
    obtain ⟨r, hopen, hr⟩ := hopen
    subst hv
    refine ⟨hlen, r, hopen, by rw [hr]; rfl, ?_⟩
    rw [hr]
    exact hcur

theorem Faithful.rows (hs : Faithful P [] s) (x : Uuid) :
    (∀ r, (s.db.historyOf x).head? = some r → r.value.changeKind = .insert) ∧
      Contiguous (s.db.historyOf x) ∧ Disjoint (s.db.historyOf x) := by
  have hlife := hs.lives x
  generalize hv : s.db.lifeOf x = v at hlife
  show (∀ r, (s.db.lifeOf x).rows.head? = some r → _) ∧ Contiguous (s.db.lifeOf x).rows ∧
    Disjoint (s.db.lifeOf x).rows
  rw [hv]
  cases hlife with
  | fresh => exact ⟨by simp, List.isChain_nil, List.Pairwise.nil⟩
  | recorded hhead hkind hchain hrec =>
    refine ⟨fun r hr => ?_, hchain, hrec.toOrdered.not_covers⟩
    obtain rfl := Option.some.inj (hhead.symm.trans hr)
    exact hkind

/-- The history of `x` begins by `c`. -/
def BeginsBy (x : Uuid) (c : Nat) (y : Uuid) (v : EdgeLife) : Prop :=
  y = x → ∃ r, v.rows.head? = some r ∧ r.start ≤ c

theorem beginsBy_stable (x : Uuid) (c : Nat) : Stable (BeginsBy x c) := by
  intro y τ queued v v' hstep hv hy
  obtain ⟨r, hr, hle⟩ := hv hy
  have hwrite : ∀ more, ∃ r', (v.rows.map (Version.close τ) ++ more).head? = some r' ∧
      r'.start ≤ c := by
    intro more
    exact ⟨r.close τ, head_close_append hr τ more, by rwa [Version.close_start]⟩
  cases hstep with
  | keep => exact ⟨r, hr, hle⟩
  | insert => cases hr
  | attach => exact ⟨r, hr, hle⟩
  | amend => cases hr
  | update => exact hwrite _
  | cancel => cases hr
  | delete => exact hwrite _
  | snapshot => exact hwrite _

theorem Faithful.beginsBy {x : Uuid} (hs : Faithful P [] s) (hx : s.db.historyOf x ≠ []) :
    Faithful (BeginsBy x s.clock) [] s := by
  refine ⟨hs.linked, hs.lives, ?_⟩
  rintro y rfl
  have hlife := hs.lives y
  generalize hv : s.db.lifeOf y = v at hlife
  have hx : v.rows ≠ [] := hv ▸ hx
  cases hlife with
  | fresh => exact absurd rfl hx
  | recorded hhead _ _ hrec =>
    exact ⟨_, hhead, hrec.started _ (List.mem_of_mem_head? hhead)⟩

/-- A lookup at an instant from which on the history is complete. -/
theorem Faithful.lookup {x : Uuid} {c t : Nat} (hs : Faithful (BeginsBy x c) [] s) (ht : c ≤ t) :
    (asOf (s.db.historyOf x) t).map EdgeVersion.snapshot =
      (stateAt (s.logOf x) t).toList := by
  obtain ⟨r, hr, hle⟩ := hs.kept x rfl
  have hlife := hs.lives x
  show (asOf (s.db.lifeOf x).rows t).map _ = _
  generalize hv : s.db.lifeOf x = v at hlife hr
  cases hlife with
  | fresh => cases hr
  | recorded hhead _ _ hrec =>
    obtain rfl := Option.some.inj (hhead.symm.trans hr)
    exact hrec.lookup t (hle.trans ht)

/-- The edge `x` was there and was gone by `c`. -/
def GoneBy (x : Uuid) (c : Nat) (y : Uuid) (v : EdgeLife) : Prop :=
  y = x → v.edge = none ∧ v.rows ≠ [] ∧ ∀ r ∈ v.rows, ∃ u ∈ r.stop, u ≤ c

theorem goneBy_stable (x : Uuid) (c : Nat) : Stable (GoneBy x c) := by
  intro y τ queued v v' hstep hv hy
  obtain ⟨hedge, hrows, hstop⟩ := hv hy
  cases hstep with
  | keep => exact ⟨hedge, hrows, hstop⟩
  | insert => exact absurd rfl hrows
  | attach => cases hedge
  | amend => cases hedge
  | update _ _ _ _ hold => cases hedge.symm.trans hold
  | cancel => cases hedge
  | delete _ _ _ hold => cases hedge.symm.trans hold
  | snapshot _ _ _ hold => cases hedge.symm.trans hold

theorem Faithful.goneBy {x : Uuid} (hs : Faithful P [] s) (hx : s.db.historyOf x ≠ [])
    (hgone : s.db.findEdge x = none) : Faithful (GoneBy x s.clock) [] s := by
  refine ⟨hs.linked, hs.lives, ?_⟩
  rintro y rfl
  have hlife := hs.lives y
  generalize hv : s.db.lifeOf y = v at hlife
  have hx : v.rows ≠ [] := hv ▸ hx
  have hgone : v.edge = none := hv ▸ hgone
  cases hlife with
  | fresh => exact absurd rfl hx
  | recorded hhead _ _ hrec =>
    refine ⟨hgone, hx, fun r hr => ?_⟩
    have hopen := hrec.current
    rw [EdgeLife.current_none hgone, Option.toList_none, List.map_eq_nil_iff] at hopen
    cases hs : r.stop with
    | none =>
      have : r.value ∈ opened v.rows := List.mem_map_of_mem (List.mem_filter.mpr ⟨hr, by simp [hs]⟩)
      rw [hopen] at this
      cases this
    | some u => exact ⟨u, rfl, (hrec.stopped r hr u hs).2⟩

/-! ### An id with a history is not given out again -/

def HasHistory (x y : Uuid) (v : EdgeLife) : Prop := y = x → v.rows ≠ []

theorem hasHistory_stable (x : Uuid) : Stable (HasHistory x) := by
  intro y τ queued v v' hstep hv hy
  have hrows := hv hy
  cases hstep with
  | keep => exact hrows
  | insert => exact absurd rfl hrows
  | attach => exact hrows
  | amend => exact absurd rfl hrows
  | update => simp
  | cancel => exact absurd rfl hrows
  | delete => simp
  | snapshot => simp

theorem insertEdge_fresh {e : EdgeRow} (h : insertEdge e s = .ok () s') :
    s.db.historyOf e.id = [] := by
  simp only [insertEdge, rejectUuidReuse] at h
  obtain ⟨_, _, h1, -⟩ := bind_ok.mp h
  simp only [get_bind_ok, raiseIf_ok] at h1
  exact not_not.mp h1.1

theorem statements_refuse {seen : List Uuid} {sts : List (Nat × EdgeStmt)} {gap : Nat}
    {e : EdgeRow} (hs : Faithful (HasHistory e.id) s.queue s)
    (hseen : ∀ y, .parent y ∈ s.queue → y ∈ seen) (hsts : KeepsIds seen sts)
    (hmem : (gap, .insertEdge e) ∈ sts) :
    forEach (fun st => atNextInstant st.1 st.2.run) sts s ≠ .ok () s' := by
  intro h
  induction sts generalizing s seen with
  | nil => cases hmem
  | cons st sts ih =>
    obtain ⟨_, s1, h1, h2⟩ := bind_ok.mp h
    rcases List.mem_cons.mp hmem with rfl | hmem
    · obtain ⟨t, h3, -⟩ := atNextInstant_ok h1
      exact hs.kept e.id rfl (insertEdge_fresh (s := { s with clock := s.clock + gap + 1 }) h3)
    · obtain ⟨hs1, hseen1⟩ := statement_faithful (hasHistory_stable e.id) hs hseen hsts.1 h1
      exact ih hs1 hseen1 hsts.2 hmem h2

/-- A transaction that inserts an edge under an id with a history raises. -/
theorem Faithful.refuses {tx : EdgeTransaction} {gap : Nat} {e : EdgeRow} (hs : Faithful P [] s)
    (hq : s.queue = []) (htx : tx.KeepsIds) (hmem : (gap, .insertEdge e) ∈ tx.statements)
    (hx : s.db.historyOf e.id ≠ []) : tx.body s ≠ .ok () s' := by
  intro h
  simp only [EdgeTransaction.body] at h
  obtain ⟨_, s1, h1, -⟩ := bind_ok.mp h
  have hs1 : Faithful (HasHistory e.id) s.queue s := by
    refine ⟨hs.linked, hq ▸ hs.lives, ?_⟩
    rintro y rfl
    exact hx
  exact statements_refuse hs1 (by simp [hq]) htx hmem h1

end Runs

/-- Every run of transactions none of which changes the id of an edge that it has just inserted
keeps a faithful history.  After every commit a live edge has two endpoints and one open version
with its columns and endpoints; the history of an id begins with an insertion and is contiguous and
disjoint; from the commit of the insertion on, an as-of lookup gives what the edge was, and nothing
once the deletion is committed; and a transaction that takes an id with a history again raises. -/
theorem edge_history_faithful (clock : Nat) (companies : List Uuid)
    (users chunks : List (Uuid × Uuid)) (models : List Uuid) (txs : List EdgeTransaction)
    (htxs : ∀ tx ∈ txs, tx.KeepsIds) :
    let start := EdgeStore.start clock companies users chunks models
    let s := Transition.run EdgeTransaction.run start txs
    (∀ e ∈ s.db.edges, (s.db.endpointsOf e.id).length = 2 ∧
      ∃ v, opened (s.db.historyOf e.id) = [v] ∧ v.snapshot.edge = e ∧
        s.db.current e.id = some v.snapshot) ∧
    (∀ x, (∀ r, (s.db.historyOf x).head? = some r → r.value.changeKind = .insert) ∧
      Contiguous (s.db.historyOf x) ∧ Disjoint (s.db.historyOf x)) ∧
    (∀ x pre post, txs = pre ++ post →
      let p := Transition.run EdgeTransaction.run start pre
      p.db.historyOf x ≠ [] → ∀ t, p.clock ≤ t →
        (asOf (s.db.historyOf x) t).map EdgeVersion.snapshot = (stateAt (s.logOf x) t).toList ∧
        (p.db.findEdge x = none → asOf (s.db.historyOf x) t = [] ∧ s.db.findEdge x = none)) ∧
    (∀ (tx : EdgeTransaction) (gap : Nat) (e : EdgeRow), tx.KeepsIds →
      (gap, .insertEdge e) ∈ tx.statements → s.db.historyOf e.id ≠ [] →
        ∀ s', tx.body s ≠ .ok () s') := by
  intro start s
  have htrue : Stable fun _ _ => True := fun _ _ _ _ _ _ _ => trivial
  have hstart := start_faithful (P := fun _ _ => True) clock companies users chunks models
    fun _ => trivial
  obtain ⟨hs, hq⟩ := run_faithful htrue hstart rfl htxs
  refine ⟨fun e he => hs.live he, hs.rows, ?_, fun tx gap e htx hmem hx s' =>
    hs.refuses hq htx hmem hx⟩
  rintro x pre post rfl p hx t ht
  have hpre : ∀ tx ∈ pre, tx.KeepsIds := fun tx htx => htxs tx (List.mem_append_left _ htx)
  have hpost : ∀ tx ∈ post, tx.KeepsIds := fun tx htx => htxs tx (List.mem_append_right _ htx)
  obtain ⟨hp, hpq⟩ := run_faithful htrue hstart rfl hpre
  have hrun : s = Transition.run EdgeTransaction.run p post := Transition.run_append post
  constructor
  · obtain ⟨hend, -⟩ := run_faithful (beginsBy_stable x p.clock) (hp.beginsBy hx) hpq hpost
    rw [hrun]
    exact hend.lookup ht
  · intro hgone
    obtain ⟨hend, -⟩ := run_faithful (goneBy_stable x p.clock) (hp.goneBy hx hgone) hpq hpost
    obtain ⟨hedge, -, hstop⟩ := hend.kept x rfl
    rw [hrun]
    refine ⟨asOf_ended fun r hr => ?_, hedge⟩
    obtain ⟨u, hu, hle⟩ := hstop r hr
    exact ⟨u, hu, hle.trans ht⟩

/-- An edge between the chunks 20 and 21 of the company 1. -/
def policyEdge (x : Uuid) (confidence : Real4) : EdgeRow :=
  { id := x, companyId := 1, edgeType := .implements, direction := .directed, confidence
    origin := .administrator, reviewState := .accepted, edgeVersion := 1, expiresAt := none
    supersededAt := none, createdAt := 0 }

def policyEndpoints (x : Uuid) : List (Nat × EdgeStmt) :=
  [(0, .insertEndpoint ⟨1, x, 0, 20, .source⟩), (0, .insertEndpoint ⟨1, x, 1, 21, .target⟩)]

/-- One transaction inserts, updates, deletes and inserts again; the next updates and the last
deletes. -/
def policyRun : List EdgeTransaction :=
  [{ statements := [(0, .insertEdge (policyEdge 7 0)), (0, .updateEdge 7 (policyEdge 7 1)),
      (0, .deleteEdge 7), (0, .insertEdge (policyEdge 7 2))] ++ policyEndpoints 7 },
    { statements := [(3, .updateEdge 7 (policyEdge 7 4))] },
    { statements := [(5, .deleteEdge 7)] }]

theorem policy_edge_history :
    let s := Transition.run EdgeTransaction.run (.start 0 [1] [] [(1, 20), (1, 21)] []) policyRun
    (∀ tx ∈ policyRun, tx.KeepsIds) ∧
      (s.db.historyOf 7).map (fun r => (r.value.changeKind, r.start, r.stop)) =
        [(.insert, 7, some 14), (.update, 14, some 20), (.delete, 20, some 20)] ∧
      (asOf (s.db.historyOf 7) 15).map EdgeVersion.snapshot =
        (stateAt (s.logOf 7) 15).toList := by
  have hkeeps : ∀ tx ∈ policyRun, tx.KeepsIds := by decide
  have h := edge_history_faithful 0 [1] [] [(1, 20), (1, 21)] [] policyRun hkeeps
  refine ⟨hkeeps, by decide, ?_⟩
  exact (h.2.2.1 7 (policyRun.take 1) (policyRun.drop 1) rfl (by decide) 15
    (by decide)).1

/-- An `UPDATE` of the id between the insertion and the endpoints: the deferred event looks for the
old id, and the committed edge has no history. -/
theorem renamed_edge_unrecorded :
    let tx : EdgeTransaction := { statements := [(0, .insertEdge (policyEdge 7 0)),
      (0, .updateEdge 7 (policyEdge 8 0))] ++ policyEndpoints 8 }
    let s := tx.run (.start 0 [1] [] [(1, 20), (1, 21)] [])
    s.db.edges = [policyEdge 8 0] ∧ (s.db.endpointsOf 8).length = 2 ∧ s.db.historyOf 8 = [] := by
  decide

end Wikore
