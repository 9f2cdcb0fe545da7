import Wikore.Rag.EdgeHistory
import Wikore.Rag.RelationshipGate
import Wikore.Lib.Fallible
import Wikore.Lib.Transition

/-! `KnowledgeEdgeRepo::update` and the relationship gate.  An update to `superseded` stamps
`superseded_at`, and no later update takes the stamp back, so that an edge that is accepted again
after it was superseded stays hidden. -/

namespace Wikore

open Statement Transition

/-- A `double` as `update` uses it: whether it is below 0 or above 1, and its cast to `REAL`. -/
structure Confidence where
  outOfRange : Bool
  real : Real4
deriving DecidableEq, Repr

/-- The fields that an update names. -/
structure UpdateKnowledgeEdgeCmd where
  confidence : Option Confidence := none
  reviewState : Option ReviewState := none
  provenanceJson : Option String := none
  expiresAt : Option String := none
deriving DecidableEq, Repr

/-- The casts of PostgreSQL that the statements use; a cast to `timestamptz` may read `now()`. -/
structure PgCasts where
  jsonb : String → Except EdgeError String
  timestamptz : Nat → String → Except EdgeError Nat

/-- A call of `update`, with the time that passes before its statement. -/
structure UpdateCall where
  companyId : Uuid
  actorUserId : Uuid
  cmd : UpdateKnowledgeEdgeCmd
  gap : Nat := 0
deriving DecidableEq, Repr

inductive UpdateError
  | notFound
  | invalidInput (message : String)
  | database (e : EdgeError)
deriving DecidableEq, Repr

namespace KnowledgeEdgeRepo

def reviewStamps (cmd : UpdateKnowledgeEdgeCmd) : Prop :=
  cmd.reviewState = some .accepted ∨ cmd.reviewState = some .rejected ∨
    cmd.reviewState = some .superseded

instance (cmd : UpdateKnowledgeEdgeCmd) : Decidable (reviewStamps cmd) :=
  inferInstanceAs (Decidable (_ ∨ _))

/-- `CASE WHEN t::text = '' THEN NULL ELSE t::timestamptz END`. -/
def expiry (casts : PgCasts) (now : Nat) (text : String) : Except EdgeError (Option Nat) :=
  if textParam text = "" then .ok none else (casts.timestamptz now (textParam text)).map some

section Update

variable (casts : PgCasts) (x : Uuid) (call : UpdateCall)

/-- `$4::jsonb` makes `$4` a parameter of this type, whose text is read before the statement runs. -/
def boundProvenance : Except EdgeError (Option String) :=
  match call.cmd.provenanceJson with
  | none => .ok none
  | some text => (casts.jsonb (textParam text)).map some

/-- The row after the assignments of the `UPDATE`; `now` is its `now()`. -/
def assigned (provenance : Option String) (now : Nat) (old : EdgeRow) :
    Except EdgeError EdgeRow := do
  let cmd := call.cmd
  let expiresAt ← cmd.expiresAt.elim (.ok old.expiresAt) (expiry casts now)
  .ok { old with
    edgeVersion := old.edgeVersion + 1
    confidence := cmd.confidence.elim old.confidence Confidence.real
    reviewState := cmd.reviewState.getD old.reviewState
    provenance := provenance.getD old.provenance
    expiresAt
    reviewedBy := if reviewStamps cmd then some call.actorUserId else old.reviewedBy
    reviewedAt := if reviewStamps cmd then some now else old.reviewedAt
    supersededAt := if cmd.reviewState = some .superseded then some now else old.supersededAt }

/-- `WHERE id = $9 AND company_id = $10`. -/
def selectedRow (s : EdgeStore) : Option EdgeRow :=
  (s.db.findEdge x).filter fun e => e.companyId = call.companyId

def updateStatement : EdgeM Unit :=
  match boundProvenance casts call with
  | .error e => throw e
  | .ok provenance => do
    let s ← get
    match selectedRow x call s with
    | none => pure ()
    | some old =>
      match assigned casts call provenance s.clock old with
      | .error e => throw e
      | .ok new => updateEdge x new

/-- The result of a statement or of `get`, which finds the edge or not. -/
def found (s : EdgeStore) : Except UpdateError Unit :=
  if (selectedRow x call s).isSome then .ok () else .error .notFound

/-- `KnowledgeEdgeRepo::update` of the edge `x`. -/
def update (s : EdgeStore) : Except UpdateError Unit × EdgeStore :=
  if call.cmd = {} then (found x call s, s)
  else if ∃ c ∈ call.cmd.confidence, c.outOfRange = true then
    (.error (.invalidInput "knowledge_edge.confidence must be in [0.0, 1.0]"), s)
  else
    match atNextInstant call.gap (updateStatement casts x call) s with
    | .ok _ s' => (found x call s, s')
    | .error e _ => (.error (.database e), { s with clock := s.clock + call.gap + 1 })

/-- The call takes effect and sets the state to `superseded`. -/
def Supersedes (s : EdgeStore) : Prop :=
  call.cmd.reviewState = some .superseded ∧ (update casts x call s).1 = .ok ()

end Update

/-- The store after one more call. -/
def step (casts : PgCasts) (x : Uuid) (s : EdgeStore) (call : UpdateCall) : EdgeStore :=
  (update casts x call s).2

section Steps

variable {casts : PgCasts} {x : Uuid} {call : UpdateCall} {s s' : EdgeStore} {old new : EdgeRow}

theorem selectedRow_some :
    selectedRow x call s = some old ↔
      s.db.findEdge x = some old ∧ old.companyId = call.companyId := by
  simp [selectedRow, Option.filter_eq_some_iff]

/-- What the assignments leave and what they set. -/
theorem assigned_ok {provenance : Option String} {now : Nat}
    (h : assigned casts call provenance now old = .ok new) :
    new.id = old.id ∧ new.companyId = old.companyId ∧
      new.supersededAt =
        if call.cmd.reviewState = some .superseded then some now else old.supersededAt := by
  simp only [assigned, Fallible.bind_ok] at h
  obtain ⟨_, -, h⟩ := h
  obtain rfl := Except.ok.inj h
  exact ⟨rfl, rfl, rfl⟩

theorem updateStatement_error {e : EdgeError} (hbound : boundProvenance casts call = .error e) :
    ¬updateStatement casts x call s = .ok () s' := by
  rw [updateStatement, hbound]
  exact throw_ok.mp

theorem updateStatement_none {provenance : Option String}
    (hbound : boundProvenance casts call = .ok provenance) (hsel : selectedRow x call s = none) :
    updateStatement casts x call s = .ok () s' ↔ s = s' := by
  simp only [updateStatement, hbound, get_bind_ok, hsel, pure_ok, true_and]

theorem updateStatement_some {provenance : Option String}
    (hbound : boundProvenance casts call = .ok provenance)
    (hsel : selectedRow x call s = some old) :
    updateStatement casts x call s = .ok () s' ↔
      ∃ new, assigned casts call provenance s.clock old = .ok new ∧
        updateEdge x new s = .ok () s' := by
  simp only [updateStatement, hbound, get_bind_ok, hsel]
  cases assigned casts call provenance s.clock old with
  | error e =>
    refine iff_of_false throw_ok.mp fun hex => ?_
    obtain ⟨new, hnew, -⟩ := hex
    exact Fallible.ok_ne_error new e hnew.symm
  | ok new =>
    constructor
    · exact fun h => ⟨new, rfl, h⟩
    · rintro ⟨_, hnew, h⟩
      cases hnew
      exact h

/-- What an `UPDATE` of a row that is there leaves in the table. -/
theorem updateEdge_findEdge (hold : s.db.findEdge x = some old) (hid : new.id = x)
    (h : updateEdge x new s = .ok () s') : s'.clock = s.clock ∧ s'.db.findEdge x = some new := by
  have hnew := (EdgeTables.findEdge_replace hold hid x).trans (if_pos rfl)
  simp only [updateEdge, get_bind_ok, hold, raiseIf_bind_ok] at h
  obtain ⟨-, h⟩ := h
  obtain ⟨_, _, h1, h⟩ := bind_ok.mp h
  obtain rfl := checkEdge_ok h1
  simp only [raiseIf_bind_ok, modify_bind_ok, historyUpdate, get_bind_ok, ite_ok, pure_ok] at h
  obtain ⟨-, -, ⟨-, -, rfl⟩ | ⟨-, h⟩⟩ := h
  · exact ⟨rfl, hnew⟩
  · obtain ⟨-, edge, ep0, ep1, -, -, -, rfl⟩ := snapshotInternal_ok h
    exact ⟨rfl, hnew⟩

/-- A call leaves the row, or it writes the assigned row at the new time of the clock. -/
theorem step_cases (casts : PgCasts) (x : Uuid) (s : EdgeStore) (call : UpdateCall) :
    s.clock ≤ (step casts x s call).clock ∧
      ((step casts x s call).db.findEdge x = s.db.findEdge x ∧ ¬Supersedes casts x call s ∨
        ∃ old new provenance, s.db.findEdge x = some old ∧
          (step casts x s call).db.findEdge x = some new ∧
          assigned casts call provenance (step casts x s call).clock old = .ok new ∧
          (update casts x call s).1 = .ok ()) := by
  unfold step Supersedes update
  by_cases hnoop : call.cmd = {}
  · simp [hnoop]
  rw [if_neg hnoop]
  by_cases hrange : ∃ c ∈ call.cmd.confidence, c.outOfRange = true
  · rw [if_pos hrange]
    exact ⟨Nat.le_refl _, .inl ⟨rfl, by simp⟩⟩
  rw [if_neg hrange]
  cases hrun : atNextInstant call.gap (updateStatement casts x call) s with
  | error e t =>
    refine ⟨?_, .inl ⟨rfl, by simp⟩⟩
    show s.clock ≤ s.clock + call.gap + 1
    omega
  | ok _ s' =>
    obtain ⟨t, hstmt, rfl⟩ := atNextInstant_ok hrun
    cases hbound : boundProvenance casts call with
    | error e => exact absurd hstmt (updateStatement_error hbound)
    | ok provenance =>
      have hrow : selectedRow x call { s with clock := s.clock + call.gap + 1 } =
          selectedRow x call s := rfl
      cases hsel : selectedRow x call s with
      | none =>
        obtain rfl := (updateStatement_none hbound (hrow.trans hsel)).mp hstmt
        refine ⟨?_, .inl ⟨rfl, by simp [found, hsel]⟩⟩
        show s.clock ≤ s.clock + call.gap + 1
        omega
      | some old =>
        obtain ⟨hold, -⟩ := selectedRow_some.mp hsel
        obtain ⟨new, hassigned, hupdate⟩ :=
          (updateStatement_some hbound (hrow.trans hsel)).mp hstmt
        have hid := (assigned_ok hassigned).1.trans (EdgeTables.findEdge_some hold).2
        obtain ⟨hclock, hfind⟩ := updateEdge_findEdge (s := { s with
          clock := s.clock + call.gap + 1 }) hold hid hupdate
        refine ⟨?_, .inr ⟨old, new, provenance, hold, hfind, ?_, by simp [found, hsel]⟩⟩
        · show s.clock ≤ t.clock
          rw [hclock]
          show s.clock ≤ s.clock + call.gap + 1
          omega
        · show assigned casts call provenance t.clock old = .ok new
          rw [hclock]
          exact hassigned

theorem clock_le_run (casts : PgCasts) (x : Uuid) (s : EdgeStore) (calls : List UpdateCall) :
    s.clock ≤ (run (step casts x) s calls).clock :=
  run_invariant (P := fun t => s.clock ≤ t.clock) (Nat.le_refl _) fun t call h =>
    h.trans (step_cases casts x t call).1

end Steps

/-- The edge is not superseded at the end exactly when it was not at the start and no call superseded
it. -/
theorem run_unsuperseded {casts : PgCasts} {x : Uuid} {s : EdgeStore} {calls : List UpdateCall}
    {now : Nat} {e0 : EdgeRow} (h0 : s.db.findEdge x = some e0)
    (hnow : (run (step casts x) s calls).clock ≤ now) :
    ∃ e, (run (step casts x) s calls).db.findEdge x = some e ∧
      (unexpired now e.supersededAt = true ↔ unexpired now e0.supersededAt = true ∧
        Along (step casts x) (fun t call => ¬Supersedes casts x call t) s calls) := by
  induction calls generalizing s e0 with
  | nil => exact ⟨e0, h0, by simp [Along]⟩
  | cons call calls ih =>
    have hclock : (step casts x s call).clock ≤ now :=
      (clock_le_run casts x (step casts x s call) calls).trans hnow
    obtain ⟨-, ⟨hsame, hnot⟩ | ⟨old, new, _, hold, hnew, hassigned, hok⟩⟩ :=
      step_cases casts x s call
    · obtain ⟨e, he, hiff⟩ := ih (hsame.trans h0) hnow
      refine ⟨e, he, hiff.trans ?_⟩
      simp [Along, hnot]
    · obtain rfl : old = e0 := Option.some.inj (hold.symm.trans h0)
      obtain ⟨e, he, hiff⟩ := ih hnew hnow
      refine ⟨e, he, hiff.trans ?_⟩
      have hstamp := (assigned_ok hassigned).2.2
      by_cases hsup : call.cmd.reviewState = some .superseded
      · -- the stamp lies in the past of the gate
        rw [if_pos hsup] at hstamp
        have hexpired : ¬unexpired now new.supersededAt = true := by
          simp only [hstamp, unexpired, decide_eq_true_eq]
          omega
        have hby : Supersedes casts x call s := ⟨hsup, hok⟩
        simp [Along, hexpired, hby]
      · rw [if_neg hsup] at hstamp
        have hby : ¬Supersedes casts x call s := fun h => hsup h.1
        simp [Along, hstamp, hby]

end KnowledgeEdgeRepo

/-- The tables that the gate reads, with these edges and endpoints. -/
def EdgeTables.evidence (db : EdgeTables) (rest : EvidenceDb) : EvidenceDb :=
  { rest with
    knowledgeEdges := db.edges.map EdgeRow.toKnowledgeEdge
    knowledgeEdgeEndpoints := db.endpoints }

theorem EdgeTables.mem_evidence {db : EdgeTables} {x : Uuid} {e : EdgeRow} (rest : EvidenceDb)
    (he : db.findEdge x = some e) :
    e.toKnowledgeEdge ∈ (db.evidence rest).knowledgeEdges ∧ e.toKnowledgeEdge.id = x := by
  obtain ⟨hmem, hid⟩ := EdgeTables.findEdge_some he
  exact ⟨List.mem_map.mpr ⟨e, hmem, rfl⟩, hid⟩

/-- The gate returns an edge with admitted endpoints exactly when its row is open. -/
theorem RelationshipEvidenceGate.returned_iff_open (ε : Type) {db : EvidenceDb} (h : db.Valid)
    {q : GateQuery} (states : List ReviewState) {candidates : List EdgeCandidate}
    {e : KnowledgeEdge} (he : e ∈ db.knowledgeEdges) (hcompany : e.companyId = q.company)
    (hcandidate : ∃ c ∈ candidates, c.edgeId = e.id) (hadm : EndpointsAdmitted db q e.id) :
    (∃ out, evaluate (.ok db : Except ε EvidenceDb) q states candidates = .ok out ∧
        ∃ r ∈ out, r.edgeId = Uuid.text e.id) ↔ OpenEdge q states e := by
  rw [mem_evaluate_iff h.toKeyed]
  constructor
  · rintro ⟨-, ⟨e', he', hid, hopen⟩, -⟩
    obtain rfl : e' = e := List.inj_on_of_nodup_map h.edges he' he hid
    exact hopen
  · intro hopen
    exact ⟨hcandidate, ⟨e, he, rfl, hopen⟩, (endpointsAdmitted_iff h he hcompany).mp hadm⟩

/-- After any updates that leave an edge accepted and unexpired, the relationship gate returns it,
given admitted endpoints, exactly when the edge was not superseded before them and none of them
superseded it. -/
theorem reaccepted_edge_returned {ε : Type} (casts : PgCasts) (x : Uuid) (s : EdgeStore)
    (calls : List UpdateCall) (rest : EvidenceDb) (q : GateQuery) (states : List ReviewState)
    (candidates : List EdgeCandidate) (e0 e : EdgeRow) (h0 : s.db.findEdge x = some e0)
    (he : (run (KnowledgeEdgeRepo.step casts x) s calls).db.findEdge x = some e)
    (hvalid : ((run (KnowledgeEdgeRepo.step casts x) s calls).db.evidence rest).Valid)
    (hnow : (run (KnowledgeEdgeRepo.step casts x) s calls).clock ≤ q.now)
    (haccepted : e.reviewState = .accepted) (hexpires : unexpired q.now e.expiresAt = true)
    (hcompany : e.companyId = q.company) (hstates : .accepted ∈ states)
    (hcandidate : ∃ c ∈ candidates, c.edgeId = x)
    (hadm : EndpointsAdmitted
      ((run (KnowledgeEdgeRepo.step casts x) s calls).db.evidence rest) q x) :
    (∃ out, RelationshipEvidenceGate.evaluate
          (.ok ((run (KnowledgeEdgeRepo.step casts x) s calls).db.evidence rest) :
            Except ε EvidenceDb) q states candidates = .ok out ∧
        ∃ r ∈ out, r.edgeId = Uuid.text x) ↔
      unexpired q.now e0.supersededAt = true ∧
        Along (KnowledgeEdgeRepo.step casts x)
          (fun t call => ¬KnowledgeEdgeRepo.Supersedes casts x call t) s calls := by
  obtain ⟨hmem, hid⟩ := EdgeTables.mem_evidence rest he
  obtain ⟨e', he', hstamp⟩ := KnowledgeEdgeRepo.run_unsuperseded h0 hnow
  obtain rfl : e' = e := Option.some.inj (he'.symm.trans he)
  have hgate := RelationshipEvidenceGate.returned_iff_open ε hvalid states hmem hcompany
    (hid.symm ▸ hcandidate) (hid.symm ▸ hadm)
  rw [hid] at hgate
  rw [hgate, ← hstamp]
  constructor
  · rintro ⟨-, -, -, hopen⟩
    exact hopen
  · intro hopen
    exact ⟨hcompany, haccepted ▸ hstates, hexpires, hopen⟩

/-- The handbook's relationship as a reviewer finds it, proposed and with its first version. -/
def proposedStore : EdgeStore where
  clock := 5
  db := {
    companies := [1]
    users := [(1, 40)]
    documentChunks := [(1, 120), (1, 121)]
    embeddingModels := []
    edges := [proposedEdge]
    endpoints := [source, target]
    history := [⟨300, ⟨.of proposedEdge source target, .insert⟩, 2, none⟩] }
where
  proposedEdge : EdgeRow :=
    { id := 300, companyId := 1, edgeType := .dependsOn, direction := .directed, confidence := 0
      origin := .parser, reviewState := .proposed, edgeVersion := 1, expiresAt := none
      supersededAt := none, createdAt := 2 }
  source : EdgeEndpoint := ⟨1, 300, 0, 120, .source⟩
  target : EdgeEndpoint := ⟨1, 300, 1, 121, .target⟩

/-- The casts of the texts below; no other text is cast. -/
def reviewCasts : PgCasts where
  jsonb text := .ok text
  timestamptz _ _ := .error ⟨.invalidDatetimeFormat, "", ""⟩

def reviewCall (reviewState : ReviewState) : UpdateCall :=
  ⟨1, 40, { reviewState := some reviewState }, 0⟩

/-- The tables after these reviews, with the rest of the handbook. -/
def reviewedDb (calls : List UpdateCall) : EvidenceDb :=
  (run (KnowledgeEdgeRepo.step reviewCasts 300) proposedStore calls).db.evidence handbookDb

def reviewQuery : GateQuery := { handbookQuery with now := 50 }

theorem reviewed_valid (calls : List UpdateCall)
    (hids : (reviewedDb calls).knowledgeEdges.map (fun e => (e.companyId, e.id)) = [(1, 300)])
    (heps : (reviewedDb calls).knowledgeEdgeEndpoints =
      [proposedStore.source, proposedStore.target]) : (reviewedDb calls).Valid := by
  have hedge : ∃ e ∈ (reviewedDb calls).knowledgeEdges, e.companyId = 1 ∧ e.id = 300 := by
    obtain ⟨e, he, hkey⟩ := List.mem_map.mp (hids ▸ List.mem_singleton_self (1, 300))
    exact ⟨e, he, Prod.mk.inj hkey⟩
  refine { relatedDb_valid with edges := ?_, endpoints := ?_, endpointEdge := ?_, endpointChunk := ?_ }
  · have hkeys := congrArg (List.map Prod.snd) hids
    rw [List.map_map] at hkeys
    exact (show (reviewedDb calls).knowledgeEdges.map KnowledgeEdge.id = [300] from hkeys) ▸
      List.nodup_singleton 300
  · rw [heps]
    decide
  · obtain ⟨e, he, hc, hid⟩ := hedge
    intro ep hep
    rw [heps] at hep
    refine ⟨e, he, ?_⟩
    simp only [List.mem_cons, List.not_mem_nil, or_false] at hep
    rcases hep with rfl | rfl
    · exact ⟨hc, hid⟩
    · exact ⟨hc, hid⟩
  · rw [heps]
    exact relatedDb_valid.endpointChunk

theorem reviewed_admitted (calls : List UpdateCall)
    (heps : (reviewedDb calls).knowledgeEdgeEndpoints =
      [proposedStore.source, proposedStore.target]) :
    EndpointsAdmitted (reviewedDb calls) reviewQuery 300 := by
  have hshown : ∀ id ∈ [120, 121], ∃ dc ∈ handbookDb.documentChunks, dc.id = id ∧
      Admissible handbookDb reviewQuery dc := by
    decide
  have hgate : ∀ id ∈ [120, 121], GateAdmits handbookDb reviewQuery [120, 121] id :=
    fun id hid => (gateAdmits_iff handbookDb_keyed hid).mpr (hshown id hid)
  refine ⟨proposedStore.source, proposedStore.target, rfl, rfl, fun ep => ?_, hgate 120 (by simp),
    hgate 121 (by simp)⟩
  rw [heps]
  constructor
  · rintro ⟨hep, -⟩
    simpa using hep
  · rintro (rfl | rfl)
    · exact ⟨by simp, rfl⟩
    · exact ⟨by simp, rfl⟩

/-- An edge that was rejected and then accepted is returned. -/
theorem rejected_then_accepted_returned :
    ∃ out, RelationshipEvidenceGate.evaluate
        (.ok (reviewedDb [reviewCall .rejected, reviewCall .accepted]) : Except Unit EvidenceDb)
        reviewQuery [.accepted] [{ edgeId := 300 }] = .ok out ∧
      ∃ r ∈ out, r.edgeId = Uuid.text 300 := by
  have hvalid := reviewed_valid [reviewCall .rejected, reviewCall .accepted] (by decide)
    (by decide)
  have hadm := reviewed_admitted [reviewCall .rejected, reviewCall .accepted] (by decide)
  obtain ⟨e, he, hfacts⟩ : ∃ e, (run (KnowledgeEdgeRepo.step reviewCasts 300) proposedStore
      [reviewCall .rejected, reviewCall .accepted]).db.findEdge 300 = some e ∧
        e.reviewState = .accepted ∧ unexpired 50 e.expiresAt = true ∧ e.companyId = 1 :=
    ⟨_, rfl, by decide⟩
  refine (reaccepted_edge_returned reviewCasts 300 proposedStore _ handbookDb reviewQuery [.accepted]
    [{ edgeId := 300 }] proposedStore.proposedEdge e rfl he hvalid (by decide) hfacts.1
    hfacts.2.1 hfacts.2.2 (by simp) ⟨_, List.mem_singleton_self _, rfl⟩ hadm).mpr ?_
  refine ⟨rfl, ?_⟩
  simp [Along, KnowledgeEdgeRepo.Supersedes, reviewCall]

/-- An edge that was superseded and then accepted is accepted and unexpired, both of its endpoints
are admitted, and the gate hides it. -/
theorem superseded_then_accepted_hidden :
    (∃ e, (run (KnowledgeEdgeRepo.step reviewCasts 300) proposedStore
        [reviewCall .superseded, reviewCall .accepted]).db.findEdge 300 = some e ∧
      e.reviewState = .accepted ∧ e.expiresAt = none) ∧
    (reviewedDb [reviewCall .superseded, reviewCall .accepted]).Valid ∧
    EndpointsAdmitted (reviewedDb [reviewCall .superseded, reviewCall .accepted]) reviewQuery 300 ∧
    RelationshipEvidenceGate.evaluate
        (.ok (reviewedDb [reviewCall .superseded, reviewCall .accepted]) : Except Unit EvidenceDb)
        reviewQuery [.accepted] [{ edgeId := 300 }] = .ok [] := by
  refine ⟨⟨_, rfl, by decide⟩, ?_, ?_, by decide⟩
  · exact reviewed_valid _ (by decide) (by decide)
  · exact reviewed_admitted _ (by decide)

end Wikore
