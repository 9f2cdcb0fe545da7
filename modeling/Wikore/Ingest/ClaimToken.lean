import Wikore.Ingest.Steps
import Wikore.Lib.Fallible
import Mathlib.Data.List.Nodup

/-! Ownership of a claim: a terminal transition that presents a token follows the claim that issued
it directly, and the rows of a version that is done stem from one run. -/

namespace Wikore

open Transition

/-- The history of a row, and the status and the claim token that it leaves. -/
inductive RowHistory : List RowEvent → IngestStatus → Option Uuid → Prop
  | created : RowHistory [] .pending none
  | claimed {h : List RowEvent} {t : Option Uuid} (token : Uuid) :
      RowHistory h .pending t → RowHistory (h ++ [.claimed token]) .processing (some token)
  | reset {h : List RowEvent} {s : IngestStatus} {t : Option Uuid} :
      RowHistory h s t → s = .pending ∨ s = .processing → RowHistory (h ++ [.reset]) .pending none
  | done {h : List RowEvent} {s : IngestStatus} {token : Uuid} (cmd : IngestDocumentVersionCmd)
      (run : IngestRun) : RowHistory h s (some token) →
      RowHistory (h ++ [.done token cmd run]) .done none
  | failed {h : List RowEvent} {s : IngestStatus} {token : Uuid} :
      RowHistory h s (some token) → RowHistory (h ++ [.failed token]) .error none
  | promoted {h : List RowEvent} {s : IngestStatus} {t : Option Uuid} :
      RowHistory h s t → s = .pending ∨ s = .processing →
      RowHistory (h ++ [.promoted]) .error none

theorem snoc_eq_append_cons {α : Type} {h pre post : List α} {x e : α}
    (hsplit : h ++ [x] = pre ++ e :: post) : (∃ post', h = pre ++ e :: post') ∨ h = pre ∧ x = e := by
  rcases List.eq_nil_or_concat post with rfl | ⟨post', y, rfl⟩
  · exact .inr (List.append_singleton_inj.mp hsplit)
  · have hxy : h ++ [x] = (pre ++ e :: post') ++ [y] := by simpa using hsplit
    exact .inl ⟨post', (List.append_singleton_inj.mp hxy).1⟩

namespace RowHistory

variable {h pre post : List RowEvent} {s : IngestStatus} {t : Option Uuid} {token : Uuid}

/-- A row that has a token was claimed with it last of all. -/
theorem claimed_last (hr : RowHistory h s (some token)) :
    s = .processing ∧ ∃ pre, h = pre ++ [.claimed token] := by
  cases hr with
  | claimed _ _ => exact ⟨rfl, _, rfl⟩

theorem token_none (hr : RowHistory h s t) (hs : s ≠ .processing) : t = none := by
  cases t with
  | none => rfl
  | some token => exact absurd hr.claimed_last.1 hs

end RowHistory

/-- The token that a terminal event presents. -/
def RowEvent.presented : RowEvent → Option Uuid
  | .done token _ _ => some token
  | .failed token => some token
  | .claimed _ | .reset | .promoted => none

namespace RowHistory

variable {h pre post : List RowEvent} {s : IngestStatus} {t : Option Uuid} {token : Uuid}

/-- A terminal transition with a token comes right after the claim that issued the token. -/
theorem presented_after_claim (hr : RowHistory h s t) {e : RowEvent}
    (he : e.presented = some token) (hsplit : h = pre ++ e :: post) :
    ∃ pre', pre = pre' ++ [.claimed token] := by
  induction hr generalizing post with
  | created => simp at hsplit
  | claimed _ hr ih =>
    rcases snoc_eq_append_cons hsplit with ⟨post', h⟩ | ⟨-, rfl⟩
    · exact ih h
    · cases he
  | reset hr _ ih =>
    rcases snoc_eq_append_cons hsplit with ⟨post', h⟩ | ⟨-, rfl⟩
    · exact ih h
    · cases he
  | done cmd run hr ih =>
    rcases snoc_eq_append_cons hsplit with ⟨post', h⟩ | ⟨rfl, rfl⟩
    · exact ih h
    · cases he
      exact hr.claimed_last.2
  | failed hr ih =>
    rcases snoc_eq_append_cons hsplit with ⟨post', h⟩ | ⟨rfl, rfl⟩
    · exact ih h
    · cases he
      exact hr.claimed_last.2
  | promoted hr _ ih =>
    rcases snoc_eq_append_cons hsplit with ⟨post', h⟩ | ⟨-, rfl⟩
    · exact ih h
    · cases he

/-- Nothing follows the transition to `done`. -/
theorem done_last (hr : RowHistory h s t) {cmd : IngestDocumentVersionCmd} {run : IngestRun}
    (hmem : .done token cmd run ∈ h) : s = .done ∧ ∃ pre, h = pre ++ [.done token cmd run] := by
  induction hr with
  | created => cases hmem
  | claimed _ hr ih =>
    rcases List.mem_append.mp hmem with hmem | hmem
    · cases (ih hmem).1
    · simp at hmem
  | reset hr hs ih =>
    rcases List.mem_append.mp hmem with hmem | hmem
    · rw [(ih hmem).1] at hs
      simp at hs
    · simp at hmem
  | done cmd' run' hr ih =>
    rcases List.mem_append.mp hmem with hmem | hmem
    · have hp := hr.claimed_last.1
      rw [(ih hmem).1] at hp
      cases hp
    · rw [List.mem_singleton.mp hmem]
      exact ⟨rfl, _, rfl⟩
  | failed hr ih =>
    rcases List.mem_append.mp hmem with hmem | hmem
    · have hp := hr.claimed_last.1
      rw [(ih hmem).1] at hp
      cases hp
    · simp at hmem
  | promoted hr hs ih =>
    rcases List.mem_append.mp hmem with hmem | hmem
    · rw [(ih hmem).1] at hs
      simp at hs
    · simp at hmem

end RowHistory

/-! ### The invariant -/

/-- The token that a claim issues. -/
def RowEvent.issued : RowEvent → Option Uuid
  | .claimed token => some token
  | .reset | .done _ _ _ | .failed _ | .promoted => none

/-- The rows of the version in the other tables, and its chunk count, are those that the run wrote
for the command. -/
structure VersionRow.Stems (env : IngestExternals) (cmd : IngestDocumentVersionCmd)
    (run : IngestRun) (r : VersionRow) : Prop where
  company : cmd.company = r.companyId
  version : env.uuid cmd.documentVersionId = some r.id
  tables : writeRun env.sha256Hex cmd r.id run .empty = .ok r.tables
  chunkCount : r.chunkCount = some (run.chunks cmd.company r.id .empty).length

namespace IngestWorld

variable (env : IngestExternals)

/-- Each token in the history was issued, and once. -/
structure Logged (w : IngestWorld) (h : List RowEvent) : Prop where
  issued : ∀ token, .claimed token ∈ h → token ∈ w.tokens
  once : (h.filterMap RowEvent.issued).Nodup

structure RowOk (w : IngestWorld) (r : VersionRow) : Prop where
  history : RowHistory r.history r.ingestStatus r.ingestClaimToken
  logged : Logged w r.history
  cleared : r.ingestStatus = .done ∨ r.ingestStatus = .error → r.ingestJobPayload = none
  unwritten : r.ingestStatus ≠ .done → r.tables = .empty
  stems : r.ingestStatus = .done → ∃ token cmd run pre,
    r.history = pre ++ [.done token cmd run] ∧ r.Stems env cmd run

/-- The unit of work holds what its run writes to empty tables. -/
def FromEmpty (v : Uuid) (uow : UnitOfWork) : Prop :=
  writeRun env.sha256Hex uow.cmd v uow.run .empty = .ok uow.tables ∧
    uow.chunkCount = (uow.run.chunks uow.cmd.company v .empty).length

structure ClaimInv (w : IngestWorld) : Prop where
  ids : (w.versions.map VersionRow.id).Nodup
  rows : ∀ r ∈ w.versions, RowOk env w r
  written : ∀ (k : Nat) id token uow, w.workers[k]? = some ⟨id, .writing token uow⟩ ∨
      w.workers[k]? = some ⟨id, .marked token uow⟩ →
    ∀ r ∈ w.versions, RowOf env uow.cmd r → r.ingestStatus = .done ∨ FromEmpty env r.id uow
  marked : ∀ (k : Nat) id token uow, w.workers[k]? = some ⟨id, .marked token uow⟩ →
    ∀ r ∈ w.versions, RowOf env uow.cmd r → r.ingestClaimToken = some token
  exclusive : ∀ (k k' : Nat) id id' token token' uow uow',
    w.workers[k]? = some ⟨id, .marked token uow⟩ → w.workers[k']? = some ⟨id', .marked token' uow'⟩ →
    ∀ r ∈ w.versions, RowOf env uow.cmd r → RowOf env uow'.cmd r → k = k'

variable {env} {opts : PollingOptions} {w w' : IngestWorld} {a : IngestAction}

/-- A row that a unit of work has marked is locked. -/
theorem locked_of_marked {k : Nat} {id : String} {token : Uuid} {uow : UnitOfWork}
    (hk : w.workers[k]? = some ⟨id, .marked token uow⟩) {r : VersionRow} (hr : RowOf env uow.cmd r) :
    w.Locked env r.companyId r.id :=
  ⟨_, List.mem_of_getElem? hk, uow.cmd, rfl, hr.1.symm, hr.2⟩

theorem Logged.mono {h : List RowEvent} (hl : Logged w h)
    (ht : ∀ token ∈ w.tokens, token ∈ w'.tokens) : Logged w' h :=
  ⟨fun token hmem => ht token (hl.issued token hmem), hl.once⟩

theorem Logged.snoc {h : List RowEvent} (hl : Logged w h) {e : RowEvent} (he : e.issued = none) :
    Logged w (h ++ [e]) := by
  constructor
  · intro token hmem
    rcases List.mem_append.mp hmem with hmem | hmem
    · exact hl.issued token hmem
    · rw [← List.mem_singleton.mp hmem] at he
      cases he
  · rw [List.filterMap_append, List.filterMap_cons_none he, List.filterMap_nil, List.append_nil]
    exact hl.once

theorem Logged.claimed {h : List RowEvent} (hl : Logged w h) {token : Uuid} (ht : token ∉ w.tokens)
    (ht' : w'.tokens = token :: w.tokens) : Logged w' (h ++ [.claimed token]) := by
  constructor
  · intro token' hmem
    rw [ht']
    rcases List.mem_append.mp hmem with hmem | hmem
    · exact List.mem_cons_of_mem _ (hl.issued token' hmem)
    · cases List.mem_singleton.mp hmem
      exact List.mem_cons_self
  · rw [List.filterMap_append, List.nodup_append]
    refine ⟨hl.once, by simp [RowEvent.issued], ?_⟩
    intro x hx y hy hxy
    obtain ⟨e, he, hiss⟩ := List.mem_filterMap.mp hx
    obtain rfl : y = token := by simpa [RowEvent.issued] using hy
    cases e with
    | claimed token' =>
      cases hiss
      subst hxy
      exact ht (hl.issued _ he)
    | _ => cases hiss

theorem RowOk.presented_after_issue {r : VersionRow} (h : RowOk env w r) {pre post : List RowEvent}
    {e : RowEvent} {token : Uuid} (hsplit : r.history = pre ++ e :: post)
    (he : e.presented = some token) :
    ∃ pre', pre = pre' ++ [.claimed token] ∧ .claimed token ∉ pre' := by
  obtain ⟨pre', rfl⟩ := h.history.presented_after_claim he hsplit
  refine ⟨pre', rfl, fun hmem => ?_⟩
  have honce := h.logged.once
  rw [hsplit, List.append_assoc, List.filterMap_append, List.nodup_append] at honce
  refine honce.2.2 token ?_ token ?_ rfl
  · exact List.mem_filterMap.mpr ⟨_, hmem, rfl⟩
  · exact List.mem_filterMap.mpr ⟨.claimed token, by simp, rfl⟩

/-- A version that is not done has nothing in the other tables. -/
theorem RowOk.unwritten_of {r : VersionRow} (h : RowOk env w r)
    (hs : r.ingestStatus = .pending ∨ r.ingestStatus = .processing) : r.tables = .empty := by
  refine h.unwritten fun hd => ?_
  rw [hd] at hs
  simp at hs

theorem RowOk.requeue {r : VersionRow} (h : RowOk env w r)
    (hs : r.ingestStatus = .pending ∨ r.ingestStatus = .processing) (now : Nat) :
    RowOk env w (r.requeue now) where
  history := .reset h.history hs
  logged := h.logged.snoc rfl
  cleared := by
    intro hst
    simp [VersionRow.requeue] at hst
  unwritten := fun _ => h.unwritten_of hs
  stems := nofun

theorem RowOk.promote {r : VersionRow} (h : RowOk env w r)
    (hs : r.ingestStatus = .pending ∨ r.ingestStatus = .processing) (now : Nat)
    (message : String) : RowOk env w (r.promote now message) where
  history := .promoted h.history hs
  logged := h.logged.snoc rfl
  cleared := fun _ => rfl
  unwritten := fun _ => h.unwritten_of hs
  stems := nofun

theorem RowOk.sweep {r : VersionRow} (h : RowOk env w r) (now : Nat) (deferred : List String) :
    RowOk env w (r.sweep opts now deferred) := by
  rcases sweep_cases opts now deferred r with he | ⟨hs, ⟨-, he⟩ | ⟨message, he⟩⟩
  · rw [he]
    exact h
  · rw [he]
    exact h.requeue hs now
  · rw [he]
    exact h.promote hs now message

theorem RowOk.claim {r : VersionRow} (h : RowOk env w r) (hr : r.Claimable) {token : Uuid}
    (ht : token ∉ w.tokens) (ht' : w'.tokens = token :: w.tokens) (payload : Option String)
    (now : Nat) : RowOk env w' (r.claim payload token now) where
  history := by
    have hist := h.history
    rw [hr.1] at hist
    exact .claimed token hist
  logged := h.logged.claimed ht ht'
  cleared := by
    intro hst
    simp [VersionRow.claim] at hst
  unwritten := fun _ => h.unwritten_of (.inl hr.1)
  stems := nofun

theorem RowOk.setError {r : VersionRow} (h : RowOk env w r) {token : Uuid}
    (ht : r.ingestClaimToken = some token) (message : String) (now : Nat) :
    RowOk env w (r.setError token message now) := by
  have hist := h.history
  rw [ht] at hist
  exact ⟨.failed hist, h.logged.snoc rfl, fun _ => rfl,
    fun _ => h.unwritten_of (.inr hist.claimed_last.1), nofun⟩

theorem RowOk.markDone {r : VersionRow} (h : RowOk env w r) {token : Uuid} {uow : UnitOfWork}
    (ht : r.ingestClaimToken = some token) (hr : RowOf env uow.cmd r)
    (hu : FromEmpty env r.id uow) : RowOk env w (r.markDone token uow) := by
  have hist := h.history
  rw [ht] at hist
  refine ⟨.done uow.cmd uow.run hist, h.logged.snoc rfl, fun _ => rfl, fun hst => absurd rfl hst,
    fun _ => ⟨token, uow.cmd, uow.run, _, rfl, hr.1.symm, hr.2, hu.1, ?_⟩⟩
  exact congrArg some hu.2

theorem RowOk.mono {r : VersionRow} (h : RowOk env w r)
    (ht : ∀ token ∈ w.tokens, token ∈ w'.tokens) : RowOk env w' r :=
  { h with logged := h.logged.mono ht }

/-- A row that is done stays as it is, for the status and the token. -/
theorem RowStep.terminal {r r' : VersionRow} (hstep : RowStep env opts w w' a r r')
    (h : RowOk env w r) (hmarked : ∀ (k : Nat) id token uow,
      w.workers[k]? = some ⟨id, .marked token uow⟩ → RowOf env uow.cmd r →
        r.ingestClaimToken = some token)
    (hs : r.ingestStatus = .done ∨ r.ingestStatus = .error) : r'.ingestStatus = r.ingestStatus := by
  have hnone : r.ingestClaimToken = none := by
    refine h.history.token_none fun hp => ?_
    rw [hp] at hs
    simp at hs
  cases hstep with
  | claimed hi hc hv hp ht ht' hr =>
    rw [hr.1] at hs
    simp at hs
  | done hi hc hv hfree =>
    rw [hmarked _ _ _ _ hi ⟨hc, hv⟩] at hnone
    cases hnone
  | failed hi hl ht =>
    rw [ht] at hnone
    cases hnone
  | @swept _ j at_ now examined deferred selected reply hj hat hnow hsel hl =>
    rcases sweep_cases opts now deferred r with he | ⟨hst, -⟩
    · rw [he]
    · rcases hs with hs | hs <;> rw [hs] at hst <;> simp at hst
  | _ => rfl

/-- The columns that the invariant does not speak of may change. -/
theorem RowOk.congr {r r' : VersionRow} (h : RowOk env w r) (hid : r'.id = r.id)
    (hc : r'.companyId = r.companyId) (hs : r'.ingestStatus = r.ingestStatus)
    (ht : r'.ingestClaimToken = r.ingestClaimToken) (hp : r'.ingestJobPayload = r.ingestJobPayload)
    (htab : r'.tables = r.tables) (hcount : r'.chunkCount = r.chunkCount)
    (hh : r'.history = r.history) : RowOk env w r' := by
  refine ⟨?_, ?_, ?_, ?_, ?_⟩
  · rw [hh, hs, ht]
    exact h.history
  · rw [hh]
    exact h.logged
  · rw [hs, hp]
    exact h.cleared
  · rw [hs, htab]
    exact h.unwritten
  · intro hd
    obtain ⟨token, cmd, run, pre, he, hstems⟩ := h.stems (hs ▸ hd)
    refine ⟨token, cmd, run, pre, hh.trans he, ?_⟩
    exact ⟨hstems.company.trans hc.symm, hid ▸ hstems.version, by rw [hid, htab, hstems.tables],
      by rw [hcount, hid, hstems.chunkCount]⟩

variable (h : ClaimInv env w)
include h

theorem ClaimInv.rowOk_step {r r' : VersionRow} (hr : r ∈ w.versions)
    (hstep : RowStep env opts w w' a r r') (ht : ∀ token ∈ w.tokens, token ∈ w'.tokens) :
    RowOk env w' r' := by
  have hok := h.rows r hr
  cases hstep with
  | same => exact hok.mono ht
  | enqueued => exact (hok.mono ht).congr rfl rfl rfl rfl rfl rfl rfl rfl
  | claimed hi hc hv hp htok ht' hcl => exact hok.claim hcl htok ht' _ _
  | done hi hc hv hfree =>
    have htoken := h.marked _ _ _ _ hi r hr ⟨hc, hv⟩
    rcases h.written _ _ _ _ (.inr hi) r hr ⟨hc, hv⟩ with hd | hu
    · have hp := hok.history
      rw [htoken, hd] at hp
      cases hp.claimed_last.1
    · exact (hok.markDone htoken ⟨hc, hv⟩ hu).mono ht
  | failed hi hl htok => exact (hok.setError htok _ _).mono ht
  | touched => exact (hok.mono ht).congr rfl rfl rfl rfl rfl rfl rfl rfl
  | swept => exact (hok.sweep _ _).mono ht
  | tookBack => exact (hok.mono ht).congr rfl rfl rfl rfl rfl rfl rfl rfl

theorem ClaimInv.row_unique {r r0 : VersionRow} (hr : r ∈ w.versions) (hr0 : r0 ∈ w.versions)
    (hid : r.id = r0.id) : r = r0 :=
  List.inj_on_of_nodup_map h.ids hr hr0 hid

theorem ClaimInv.tablesOf_eq {r : VersionRow} (hr : r ∈ w.versions) :
    w.tablesOf r.companyId r.id = r.tables := by
  unfold tablesOf
  cases hf : w.versions.find? fun x => x.companyId = r.companyId ∧ x.id = r.id with
  | none =>
    have := List.find?_eq_none.mp hf r hr
    simp at this
  | some x =>
    have hx : x.companyId = r.companyId ∧ x.id = r.id := by simpa using List.find?_some hf
    rw [h.row_unique (List.mem_of_find?_eq_some hf) hr hx.2]

theorem ClaimInv.terminal {r r' : VersionRow} (hr : r ∈ w.versions)
    (hstep : RowStep env opts w w' a r r')
    (hs : r.ingestStatus = .done ∨ r.ingestStatus = .error) : r'.ingestStatus = r.ingestStatus :=
  hstep.terminal (h.rows r hr) (fun k id token uow hk hrow => h.marked k id token uow hk r hr hrow) hs

/-- The lock: while a unit of work that has marked a row is open, the row keeps the token. -/
theorem ClaimInv.marked_step {r r' : VersionRow} (hr : r ∈ w.versions)
    (hstep : RowStep env opts w w' a r r') {k : Nat} {id : String} {token : Uuid} {uow : UnitOfWork}
    (hk : w.workers[k]? = some ⟨id, .marked token uow⟩)
    (hk' : w'.workers[k]? = some ⟨id, .marked token uow⟩) (hrow : RowOf env uow.cmd r) :
    r'.ingestClaimToken = some token := by
  have htoken := h.marked k id token uow hk r hr hrow
  cases hstep with
  | claimed hi hc hv hp htok ht' hcl =>
    have hp := (h.rows r hr).history
    rw [htoken, hcl.1] at hp
    cases hp.claimed_last.1
  | done hi hc hv hfree =>
    obtain rfl := h.exclusive _ _ _ _ _ _ _ _ hi hk r hr ⟨hc, hv⟩ hrow
    obtain ⟨x, hx, hnone⟩ := hfree
    rw [hk'] at hx
    cases hx
    cases hnone
  | failed hi hl htok => exact absurd (locked_of_marked hk hrow) hl
  | swept hj hat hnow hs hl => exact absurd (locked_of_marked hk hrow) hl
  | _ => exact htoken

theorem ClaimInv.ids_step (a : IngestAction) :
    ((w.step env opts a).versions.map VersionRow.id).Nodup := by
  obtain ⟨g, hg, hrows⟩ : RowsStep env opts w (w.step env opts a) a := versions_step a
  have hids : (w.versions.map g).map VersionRow.id = w.versions.map VersionRow.id := by
    rw [List.map_map]
    exact List.map_congr_left fun r hr => (hrows r hr).key.1
  rw [hg, hids]
  exact h.ids

/-- A unit of work holds what its run wrote to empty tables, or its version is done already. -/
theorem ClaimInv.written_step {r r' : VersionRow} (hr : r ∈ w.versions)
    (hstep : RowStep env opts w (w.step env opts a) a r r') {k : Nat} {x : Worker} {uow : UnitOfWork}
    (hk : (w.step env opts a).workers[k]? = some x)
    (hx : ∃ token, x.phase = .writing token uow ∨ x.phase = .marked token uow)
    (hrow : RowOf env uow.cmd r) : r'.ingestStatus = .done ∨ FromEmpty env r.id uow := by
  obtain ⟨id, phase⟩ := x
  obtain ⟨token, hphase⟩ := hx
  -- a worker that had this unit of work before
  have hbefore : (w.workers[k]? = some ⟨id, .writing token uow⟩ ∨
      w.workers[k]? = some ⟨id, .marked token uow⟩) →
      r'.ingestStatus = .done ∨ FromEmpty env r.id uow := by
    intro hw
    rcases h.written k id token uow hw r hr hrow with hd | hu
    · exact .inl ((h.terminal hr hstep (.inl hd)).trans hd)
    · exact .inr hu
  rcases workers_step a k ⟨id, phase⟩ hk with hsame | ⟨hidle, -⟩ | ⟨old, hold, hps⟩
  · refine hbefore ?_
    rcases hphase with rfl | rfl
    · exact .inl hsame
    · exact .inr hsame
  · rcases hphase with rfl | rfl <;> cases hidle
  · rcases hphase with rfl | rfl
    · cases hps with
      | write hv hw =>
        obtain rfl : r = r' := by cases hstep; rfl
        have hempty : w.tablesOf r.companyId r.id = .empty ∨ r.ingestStatus = .done := by
          by_cases hd : r.ingestStatus = .done
          · exact .inr hd
          · exact .inl ((h.tablesOf_eq hr).trans ((h.rows r hr).unwritten hd))
        rcases hempty with he | hd
        · obtain rfl := Option.some.inj (hv.symm.trans hrow.2)
          rw [hrow.1] at he
          rw [he] at hw
          refine .inr ⟨hw, ?_⟩
          simp only [he]
        · exact .inl hd
    · cases hps with
      | mark hv hl hm => exact hbefore (.inl hold)

theorem ClaimInv.marked_row_step {r r' : VersionRow} (hr : r ∈ w.versions)
    (hstep : RowStep env opts w (w.step env opts a) a r r') {k : Nat} {id : String} {token : Uuid}
    {uow : UnitOfWork} (hk : (w.step env opts a).workers[k]? = some ⟨id, .marked token uow⟩)
    (hrow : RowOf env uow.cmd r) : r'.ingestClaimToken = some token := by
  rcases workers_step a k _ hk with hsame | ⟨hidle, -⟩ | ⟨old, hold, hps⟩
  · exact h.marked_step hr hstep hsame hk hrow
  · cases hidle
  · cases hps with
    | mark hv hl hm =>
      obtain rfl : r = r' := by cases hstep; rfl
      obtain ⟨r0, hr0, hm0⟩ := List.any_eq_true.mp hm
      simp only [decide_eq_true_eq] at hm0
      obtain rfl := Option.some.inj (hv.symm.trans hrow.2)
      rw [h.row_unique hr hr0 hm0.2.1.symm]
      exact hm0.2.2

theorem ClaimInv.exclusive_step {r : VersionRow} (hr : r ∈ w.versions) {k k' : Nat}
    {id id' : String} {token token' : Uuid} {uow uow' : UnitOfWork}
    (hk : (w.step env opts a).workers[k]? = some ⟨id, .marked token uow⟩)
    (hk' : (w.step env opts a).workers[k']? = some ⟨id', .marked token' uow'⟩)
    (hrow : RowOf env uow.cmd r) (hrow' : RowOf env uow'.cmd r) : k = k' := by
  rcases workers_step a k _ hk with hsame | ⟨hidle, -⟩ | ⟨old, hold, hps⟩
  · rcases workers_step a k' _ hk' with hsame' | ⟨hidle', -⟩ | ⟨old', hold', hps'⟩
    · exact h.exclusive k k' _ _ _ _ _ _ hsame hsame' r hr hrow hrow'
    · cases hidle'
    · cases hps' with
      | mark hv hl hm =>
        obtain rfl := Option.some.inj (hv.symm.trans hrow'.2)
        rw [← hrow'.1] at hl
        exact absurd (locked_of_marked hsame hrow) hl
  · cases hidle
  · cases hps with
    | mark hv hl hm =>
      rcases workers_step _ k' _ hk' with hsame' | ⟨hidle', -⟩ | ⟨old', hold', hps'⟩
      · obtain rfl := Option.some.inj (hv.symm.trans hrow.2)
        rw [← hrow.1] at hl
        exact absurd (locked_of_marked hsame' hrow') hl
      · cases hidle'
      · cases hps'
        rfl

theorem ClaimInv.step (a : IngestAction) : ClaimInv env (w.step env opts a) := by
  have hrowOf : ∀ {cmd : IngestDocumentVersionCmd} {r r' : VersionRow},
      RowStep env opts w (w.step env opts a) a r r' → RowOf env cmd r' → RowOf env cmd r := by
    intro cmd r r' hstep hrow
    obtain ⟨hid, hc, -⟩ := hstep.key
    exact ⟨hc ▸ hrow.1, hid ▸ hrow.2⟩
  refine ⟨h.ids_step a, ?_, ?_, ?_, ?_⟩
  · intro r' hr'
    obtain ⟨r, hr, hstep⟩ := exists_row_of_step hr'
    exact h.rowOk_step hr hstep fun token ht => tokens_step ht a
  · intro k id token uow hk r' hr' hrow
    obtain ⟨r, hr, hstep⟩ := exists_row_of_step hr'
    rw [hstep.key.1]
    rcases hk with hk | hk
    · exact h.written_step hr hstep hk ⟨token, .inl rfl⟩ (hrowOf hstep hrow)
    · exact h.written_step hr hstep hk ⟨token, .inr rfl⟩ (hrowOf hstep hrow)
  · intro k id token uow hk r' hr' hrow
    obtain ⟨r, hr, hstep⟩ := exists_row_of_step hr'
    exact h.marked_row_step hr hstep hk (hrowOf hstep hrow)
  · intro k k' id id' token token' uow uow' hk hk' r' hr' hrow hrow'
    obtain ⟨r, hr, hstep⟩ := exists_row_of_step hr'
    exact h.exclusive_step hr hk hk' (hrowOf hstep hrow) (hrowOf hstep hrow')

omit h in
theorem ClaimInv.init {uploads : List Upload} (hids : (uploads.map Upload.id).Nodup) (clock : Nat) :
    ClaimInv env (IngestWorld.init uploads clock) where
  ids := by
    rw [IngestWorld.init, List.map_map]
    exact hids
  rows := by
    intro r hr
    obtain ⟨u, -, rfl⟩ := List.mem_map.mp hr
    exact ⟨.created, ⟨nofun, .nil⟩, nofun, fun _ => rfl, nofun⟩
  written := nofun
  marked := nofun
  exclusive := nofun

end IngestWorld

/-- The first unit of work of a version enqueues its event. -/
theorem writeRun_events {sha256Hex : String → Option String} {cmd : IngestDocumentVersionCmd}
    {v : Uuid} {run : IngestRun} {t : VersionTables}
    (h : writeRun sha256Hex cmd v run .empty = .ok t) :
    t.events = [upsertEvent cmd v (run.chunks cmd.company v .empty).length] := by
  simp only [writeRun] at h
  obtain ⟨t2, hchunks, h⟩ := Fallible.bind_ok.mp h
  unfold writeChunks at hchunks
  obtain ⟨rows, -, hrows⟩ := Fallible.bind_ok.mp hchunks
  have hnone : t2.events = [] := by
    cases hrows
    rfl
  cases h
  simp [hnone, insertUpsertEvent]

open IngestWorld in
/-- In every run, a terminal transition that presents a token follows the claim that issued it
directly; the rows of a version that is done stem from one run; a done or failed version has neither
token nor payload and stays as it is. -/
theorem claimToken_owns (env : IngestExternals) (opts : PollingOptions) (uploads : List Upload)
    (hids : (uploads.map Upload.id).Nodup) (clock : Nat) (acts : List IngestAction) :
    let w := run (IngestWorld.step env opts) (IngestWorld.init uploads clock) acts
    (∀ r ∈ w.versions,
      RowHistory r.history r.ingestStatus r.ingestClaimToken ∧
      (∀ pre e post token, r.history = pre ++ e :: post → e.presented = some token →
        ∃ pre', pre = pre' ++ [.claimed token] ∧ .claimed token ∉ pre') ∧
      (r.ingestStatus = .done → ∃ token cmd run pre,
        r.history = pre ++ [.claimed token, .done token cmd run] ∧
        (∀ token' cmd' run', .done token' cmd' run' ∈ r.history →
          token' = token ∧ cmd' = cmd ∧ run' = run) ∧
        r.Stems env cmd run ∧
        r.tables.events = [upsertEvent cmd r.id (run.chunks cmd.company r.id .empty).length]) ∧
      (r.ingestStatus = .done ∨ r.ingestStatus = .error →
        r.ingestClaimToken = none ∧ r.ingestJobPayload = none)) ∧
    ∀ (a : IngestAction) (k : Nat) (r : VersionRow), w.versions[k]? = some r →
      r.ingestStatus = .done ∨ r.ingestStatus = .error →
      ∃ r', (w.step env opts a).versions[k]? = some r' ∧ r'.id = r.id ∧
        r'.ingestStatus = r.ingestStatus := by
  intro w
  have hw : ClaimInv env w :=
    run_invariant (ClaimInv.init hids clock) fun _ a hs => hs.step a
  refine ⟨fun r hr => ?_, fun a k r hk hs => ?_⟩
  · have hok := hw.rows r hr
    refine ⟨hok.history, ?_, ?_, ?_⟩
    · intro pre e post token hsplit he
      exact hok.presented_after_issue hsplit he
    · intro hd
      obtain ⟨token, cmd, run, pre, hend, hstems⟩ := hok.stems hd
      obtain ⟨pre', rfl, -⟩ := hok.presented_after_issue hend rfl
      refine ⟨token, cmd, run, pre', by simp [hend], fun token' cmd' run' hmem => ?_, hstems,
        writeRun_events hstems.tables⟩
      obtain ⟨-, pre'', hend'⟩ := hok.history.done_last hmem
      have heq := (List.append_singleton_inj.mp (hend'.symm.trans hend)).2
      cases heq
      exact ⟨rfl, rfl, rfl⟩
    · intro hs
      refine ⟨hok.history.token_none fun hp => ?_, hok.cleared hs⟩
      rw [hp] at hs
      simp at hs
  · obtain ⟨g, hg, hrows⟩ : RowsStep env opts w (w.step env opts a) a := versions_step a
    have hr := List.mem_of_getElem? hk
    refine ⟨g r, ?_, (hrows r hr).key.1, hw.terminal hr (hrows r hr) hs⟩
    rw [hg, List.getElem?_map, hk, Option.map_some]

/-- A worker ingests the upload. -/
def handbookIngested : List IngestAction :=
  [.enqueue 1 handbookPayload, .startWorker "a", .lmove 0 1, .readJob 0 true, .claim 0 500 .ok,
    .write 0 handbookRun, .markIngestDone 0 .ok "", .commit 0 .ok, .acknowledge 0 true]

theorem handbook_done :
    ∃ r ∈ (run (IngestWorld.step handbookExternals handbookOptions)
        (IngestWorld.init [handbookUpload] 0) handbookIngested).versions,
      r.ingestStatus = .done ∧ r.ingestClaimToken = none ∧ r.ingestJobPayload = none ∧
      ∃ token cmd run, r.Stems handbookExternals cmd run ∧ .done token cmd run ∈ r.history := by
  have hstatus : (run (IngestWorld.step handbookExternals handbookOptions)
      (IngestWorld.init [handbookUpload] 0) handbookIngested).versions.map VersionRow.ingestStatus =
      [.done] := by decide +kernel
  obtain ⟨r, hr, hd⟩ := List.map_eq_singleton_iff.mp hstatus
  have hmem : r ∈ (run (IngestWorld.step handbookExternals handbookOptions)
      (IngestWorld.init [handbookUpload] 0) handbookIngested).versions := by simp [hr]
  obtain ⟨-, -, hdone, hclear⟩ := (claimToken_owns handbookExternals handbookOptions
    [handbookUpload] (by decide) 0 handbookIngested).1 r hmem
  obtain ⟨token, cmd, run, pre, hend, -, hstems, -⟩ := hdone hd
  exact ⟨r, hmem, hd, (hclear (.inl hd)).1, (hclear (.inl hd)).2, token, cmd, run, hstems,
    by simp [hend]⟩

end Wikore
