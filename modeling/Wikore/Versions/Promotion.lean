import Mathlib.Data.List.Nodup
import Wikore.Lib.Query
import Wikore.Lib.Statement
import Wikore.Lib.Timeline
import Wikore.Lib.Transition
import Wikore.Org.Tables

/-! `promote_document_version` and `promote_wiki_page_version`, which the migrations V010 and V022
write once for each table, with the trigger that keeps the timestamps of a version, and the as-of
lookup of V003 over whole runs of promotions. -/

namespace Wikore

open Statement Timeline

/-- A row of `document_versions` or of `wiki_page_versions`; `ownerId` is its `document_id` or
`wiki_page_id`, and `extra` has the columns that only one of the tables has. -/
structure LifecycleVersion (ε : Type) where
  id : Uuid
  companyId : Uuid
  ownerId : Uuid
  lifecycleStatus : LifecycleStatus := .draft
  activatedAt : Option Nat := none
  supersededAt : Option Nat := none
  extra : ε
deriving DecidableEq, Repr

/-- The columns of `document_versions` that its checks name. -/
structure DocumentIngest where
  ingestStatus : IngestStatus
  completedAt : Option Nat
  chunkCount : Option Nat
deriving DecidableEq, Repr

/-- A table of versions with the table of their owners, of which the keys `(company_id, id)` are
kept. -/
structure PromotionDb (ε : Type) where
  owners : List (Uuid × Uuid)
  versions : List (LifecycleVersion ε)
deriving DecidableEq, Repr

/-- What the two tables do not share.  `violated` is the first check that a row violates. -/
structure PromotionTable (ε : Type) where
  notFound : (owner company : Uuid) → String
  notPromotable : (version owner : Uuid) → String
  ready : ε → Bool
  violated : LifecycleVersion ε → Option String
  oneActiveIndex : String

abbrev PromotionM (ε : Type) := EStateM PgError (PromotionDb ε)

/-! The checks that both tables have: `active_state_chk`, `deprecated_interval_chk` and
`superseded_after_activated_chk`. -/

def LifecycleVersion.ActiveState {ε : Type} (r : LifecycleVersion ε) : Prop :=
  r.lifecycleStatus = .active → r.activatedAt ≠ none ∧ r.supersededAt = none

instance {ε : Type} (r : LifecycleVersion ε) : Decidable r.ActiveState :=
  inferInstanceAs (Decidable (_ → _))

def LifecycleVersion.DeprecatedInterval {ε : Type} (r : LifecycleVersion ε) : Prop :=
  r.lifecycleStatus = .deprecated → r.activatedAt = none ∨ r.supersededAt ≠ none

instance {ε : Type} (r : LifecycleVersion ε) : Decidable r.DeprecatedInterval :=
  inferInstanceAs (Decidable (_ → _))

def LifecycleVersion.SupersededAfterActivated {ε : Type} (r : LifecycleVersion ε) : Prop :=
  ∀ a ∈ r.activatedAt, ∀ u ∈ r.supersededAt, a < u

instance {ε : Type} (r : LifecycleVersion ε) : Decidable r.SupersededAfterActivated :=
  inferInstanceAs (Decidable (∀ a ∈ r.activatedAt, ∀ u ∈ r.supersededAt, a < u))

def documentVersionsTable : PromotionTable DocumentIngest where
  notFound owner company :=
    "Document " ++ Uuid.text owner ++ " not found in company " ++ Uuid.text company
  notPromotable version owner :=
    "Version " ++ Uuid.text version ++ " is not promotable for document " ++ Uuid.text owner ++
      " (not found, wrong document, ingest not done, or archived)"
  ready e := e.ingestStatus = .done
  violated r :=
    if r.lifecycleStatus = .active ∧ r.extra.ingestStatus ≠ .done then
      some "document_versions_active_requires_done_chk"
    else if (r.lifecycleStatus = .active ∧ r.extra.completedAt = none) ∨ ¬r.ActiveState then
      some "document_versions_active_state_chk"
    else if ¬r.DeprecatedInterval then some "document_versions_deprecated_interval_chk"
    else if r.extra.ingestStatus = .done ∧
        ¬(r.extra.completedAt ≠ none ∧ r.extra.chunkCount ≠ none) then
      some "document_versions_done_state_chk"
    else if ¬r.SupersededAfterActivated then
      some "document_versions_superseded_after_activated_chk"
    else none
  oneActiveIndex := "document_versions_one_active_per_doc_uidx"

def wikiPageVersionsTable : PromotionTable Unit where
  notFound owner company :=
    "Wiki page " ++ Uuid.text owner ++ " not found in company " ++ Uuid.text company
  notPromotable version owner :=
    "Wiki version " ++ Uuid.text version ++ " is not promotable for page " ++ Uuid.text owner ++
      " (not found, wrong page, or archived)"
  ready _ := true
  violated r :=
    if ¬r.ActiveState then some "wiki_page_versions_active_state_chk"
    else if ¬r.DeprecatedInterval then some "wiki_page_versions_deprecated_interval_chk"
    else if ¬r.SupersededAfterActivated then
      some "wiki_page_versions_superseded_after_activated_chk"
    else none
  oneActiveIndex := "wiki_page_versions_one_active_uidx"

variable {ε : Type}

/-- `set_document_version_lifecycle_timestamps` and `set_wiki_page_version_lifecycle_timestamps`,
before an `INSERT` (no old row) or an `UPDATE`; `now` is `clock_timestamp()`. -/
def setLifecycleTimestamps (now : Nat) (old : Option (LifecycleVersion ε))
    (new : LifecycleVersion ε) : LifecycleVersion ε :=
  match old with
  | none =>
    if new.lifecycleStatus = .active then
      { new with activatedAt := new.activatedAt.or (some now), supersededAt := none }
    else new
  | some old =>
    let new :=
      if old.lifecycleStatus ≠ .active ∧ new.lifecycleStatus = .active then
        { new with activatedAt := new.activatedAt.or (some now), supersededAt := none }
      else new
    if old.lifecycleStatus = .active ∧ new.lifecycleStatus ≠ .active then
      { new with supersededAt := new.supersededAt.or (some now) }
    else new

/-- Two versions of one owner are active. -/
def twoActive (versions : List (LifecycleVersion ε)) : Prop :=
  ¬(versions.filter fun r => r.lifecycleStatus = .active).Pairwise fun r r' =>
    ¬(r.companyId = r'.companyId ∧ r.ownerId = r'.ownerId)

instance (versions : List (LifecycleVersion ε)) : Decidable (twoActive versions) :=
  inferInstanceAs (Decidable (¬_))

/-- `UPDATE ... SET lifecycle_status = ... WHERE p`.  The trigger comes before the checks; it finds
its timestamps set, so that its own reading of the clock, given here as `now`, is not used. -/
def updateVersions (T : PromotionTable ε) (now : Nat) (p : LifecycleVersion ε → Bool)
    (set : LifecycleVersion ε → LifecycleVersion ε) : PromotionM ε Unit := do
  let db ← get
  let written := fun r => setLifecycleTimestamps now (some r) (set r)
  let versions := db.versions.map fun r => if p r then written r else r
  raiseSome (((db.versions.filter p).findSome? fun r => T.violated (written r)).map .checkViolation)
  raiseIf (twoActive versions) (.uniqueViolation T.oneActiveIndex)
  modify fun db => { db with versions }

/-- `promote_document_version` and `promote_wiki_page_version`; `now` is `v_now`. -/
def promoteVersion (T : PromotionTable ε) (now : Nat) (company owner version : Uuid) :
    PromotionM ε Unit := do
  let db ← get
  raiseIf ((company, owner) ∉ db.owners) (.raised (T.notFound owner company))
  raiseIf (¬∃ r ∈ db.versions, r.companyId = company ∧ r.ownerId = owner ∧ r.id = version ∧
      T.ready r.extra = true ∧ r.lifecycleStatus ≠ .archived)
    (.raised (T.notPromotable version owner))
  updateVersions T now
    (fun r => r.companyId = company ∧ r.ownerId = owner ∧ r.lifecycleStatus = .active ∧
      r.id ≠ version)
    fun r => { r with
      lifecycleStatus := .deprecated
      supersededAt := r.supersededAt.or (some now) }
  updateVersions T now (fun r => r.companyId = company ∧ r.ownerId = owner ∧ r.id = version)
    fun r => { r with
      lifecycleStatus := .active
      activatedAt := r.activatedAt.or (some now)
      supersededAt := none }

def promoteDocumentVersion : Nat → Uuid → Uuid → Uuid → PromotionM DocumentIngest Unit :=
  promoteVersion documentVersionsTable

def promoteWikiPageVersion : Nat → Uuid → Uuid → Uuid → PromotionM Unit Unit :=
  promoteVersion wikiPageVersionsTable

/-- `activated_at <= t AND (superseded_at IS NULL OR superseded_at > t)`. -/
def LifecycleVersion.Covers (r : LifecycleVersion ε) (t : Nat) : Prop :=
  (∃ a ∈ r.activatedAt, a ≤ t) ∧ r.supersededAt.all (fun u => decide (t < u)) = true

instance (r : LifecycleVersion ε) (t : Nat) : Decidable (r.Covers t) :=
  inferInstanceAs (Decidable (_ ∧ _))

/-- The versions that the as-of lookup selects for the owner. -/
def versionsAsOf (db : PromotionDb ε) (company owner : Uuid) (t : Nat) : List Uuid :=
  (db.versions.filter fun r =>
    r.companyId = company ∧ r.ownerId = owner ∧ r.Covers t).map LifecycleVersion.id

/-- A promotion at an instant of a version. -/
abbrev Promotion := Nat × Uuid

/-- The versions that promotions made active. -/
def promotionLog (ps : List Promotion) : List (Nat × Option Uuid) :=
  ps.map fun p => (p.1, some p.2)

/-! ### What a promotion does -/

/-- The row is a version of the owner. -/
def LifecycleVersion.OwnedBy (company owner : Uuid) (r : LifecycleVersion ε) : Prop :=
  r.companyId = company ∧ r.ownerId = owner

instance (company owner : Uuid) (r : LifecycleVersion ε) : Decidable (r.OwnedBy company owner) :=
  inferInstanceAs (Decidable (_ ∧ _))

/-- What a promotion of `version` at `now` makes of a row. -/
def promotedRow (now : Nat) (company owner version : Uuid) (r : LifecycleVersion ε) :
    LifecycleVersion ε :=
  if r.OwnedBy company owner then
    if r.id = version then
      { r with
        lifecycleStatus := .active
        activatedAt := r.activatedAt.or (some now)
        supersededAt := none }
    else if r.lifecycleStatus = .active then
      { r with lifecycleStatus := .deprecated, supersededAt := r.supersededAt.or (some now) }
    else r
  else r

section Effect

variable {T : PromotionTable ε} {now : Nat} {company owner version : Uuid}
  {db db' : PromotionDb ε}

theorem updateVersions_ok {p : LifecycleVersion ε → Bool}
    {set : LifecycleVersion ε → LifecycleVersion ε} (h : updateVersions T now p set db = .ok () db') :
    ⟨db.owners, db.versions.map fun r =>
      if p r then setLifecycleTimestamps now (some r) (set r) else r⟩ = db' := by
  simp only [updateVersions, get_bind_ok, raiseSome_bind_ok, raiseIf_bind_ok, modify_ok] at h
  exact h.2.2

/-- The trigger finds `superseded_at` set. -/
theorem setLifecycleTimestamps_deprecated (r : LifecycleVersion ε)
    (h : r.lifecycleStatus = .active) :
    setLifecycleTimestamps now (some r)
        { r with lifecycleStatus := .deprecated, supersededAt := r.supersededAt.or (some now) } =
      { r with lifecycleStatus := .deprecated, supersededAt := r.supersededAt.or (some now) } := by
  simp [setLifecycleTimestamps, h]

/-- The trigger finds `activated_at` set and `superseded_at` cleared. -/
theorem setLifecycleTimestamps_active (r : LifecycleVersion ε) :
    setLifecycleTimestamps now (some r)
        { r with
          lifecycleStatus := .active
          activatedAt := r.activatedAt.or (some now)
          supersededAt := none } =
      { r with
        lifecycleStatus := .active
        activatedAt := r.activatedAt.or (some now)
        supersededAt := none } := by
  simp [setLifecycleTimestamps]

theorem promoteVersion_ok (h : promoteVersion T now company owner version db = .ok () db') :
    (∃ r ∈ db.versions, r.OwnedBy company owner ∧ r.id = version) ∧
      { db with versions := db.versions.map (promotedRow now company owner version) } = db' := by
  simp only [promoteVersion, get_bind_ok, raiseIf_bind_ok] at h
  obtain ⟨-, hready, h⟩ := h
  obtain ⟨_, db1, h1, h2⟩ := bind_ok.mp h
  obtain rfl := updateVersions_ok h1
  obtain rfl := updateVersions_ok h2
  obtain ⟨r, hr, hc, ho, hid, -⟩ := not_not.mp hready
  refine ⟨⟨r, hr, ⟨hc, ho⟩, hid⟩, ?_⟩
  simp only [List.map_map]
  congr 1
  apply List.map_congr_left
  intro r _
  simp only [Function.comp_apply, promotedRow, decide_eq_true_eq]
  by_cases hown : r.OwnedBy company owner
  · by_cases hid : r.id = version
    · have hnot : ¬(r.companyId = company ∧ r.ownerId = owner ∧ r.lifecycleStatus = .active ∧
          r.id ≠ version) := fun h => h.2.2.2 hid
      rw [if_pos hown, if_pos hid, if_neg hnot, if_pos ⟨hown.1, hown.2, hid⟩,
        setLifecycleTimestamps_active]
    · by_cases hactive : r.lifecycleStatus = .active
      · have hyes : r.companyId = company ∧ r.ownerId = owner ∧ r.lifecycleStatus = .active ∧
            r.id ≠ version := ⟨hown.1, hown.2, hactive, hid⟩
        rw [if_pos hown, if_neg hid, if_pos hactive, if_pos hyes,
          setLifecycleTimestamps_deprecated r hactive]
        simp [hid]
      · rw [if_pos hown, if_neg hid, if_neg hactive]
        simp [hid, hactive]
  · have hnot : ¬(r.companyId = company ∧ r.ownerId = owner ∧ r.lifecycleStatus = .active ∧
        r.id ≠ version) := fun h => hown ⟨h.1, h.2.1⟩
    have hnot' : ¬(r.companyId = company ∧ r.ownerId = owner ∧ r.id = version) :=
      fun h => hown ⟨h.1, h.2.1⟩
    rw [if_neg hown, if_neg hnot, if_neg hnot']

end Effect

/-! ### Runs of promotions -/

section Runs

variable {company owner : Uuid} {db : PromotionDb ε} {log : List (Nat × Option Uuid)} {b τ : Nat}
  {v : Uuid}

/-- The tables after a promotion that returns. -/
def PromotionDb.promoted (db : PromotionDb ε) (company owner : Uuid) (τ : Nat) (v : Uuid) :
    PromotionDb ε :=
  { db with versions := db.versions.map (promotedRow τ company owner v) }

/-- What holds before the instant `b` however the versions were promoted. -/
structure PromotionInv (company owner : Uuid) (db : PromotionDb ε)
    (log : List (Nat × Option Uuid)) (b : Nat) : Prop where
  ids : (db.versions.map LifecycleVersion.id).Nodup
  times : ∀ e ∈ log, e.1 < b
  known : ∀ e ∈ log, ∀ v ∈ e.2, ∃ r ∈ db.versions, r.OwnedBy company owner ∧ r.id = v
  active : ∀ r ∈ db.versions, r.OwnedBy company owner →
    (r.lifecycleStatus = .active ↔ latest log = some r.id)
  opened : ∀ r ∈ db.versions, r.OwnedBy company owner → r.lifecycleStatus = .active →
    r.activatedAt ≠ none ∧ r.supersededAt = none
  activated : ∀ r ∈ db.versions, r.OwnedBy company owner → ∀ a ∈ r.activatedAt, a < b
  superseded : ∀ r ∈ db.versions, r.OwnedBy company owner → r.lifecycleStatus ≠ .active →
    r.activatedAt ≠ none → ∃ u ∈ r.supersededAt, u < b

/-- The as-of interval of every version is the time in which it was active. -/
def IntervalsExact (company owner : Uuid) (db : PromotionDb ε) (log : List (Nat × Option Uuid)) :
    Prop :=
  ∀ t, ∀ r ∈ db.versions, r.OwnedBy company owner → (r.Covers t ↔ stateAt log t = some r.id)

/-- Some version is selected at an instant before `b` at which it was not active. -/
def IntervalWrong (company owner : Uuid) (db : PromotionDb ε) (log : List (Nat × Option Uuid))
    (b : Nat) : Prop :=
  ∃ t < b, ∃ r ∈ db.versions, r.OwnedBy company owner ∧ r.Covers t ∧ stateAt log t ≠ some r.id

/-- The version `v` is the active one, or has never been active. -/
def NeverSuperseded (company owner : Uuid) (db : PromotionDb ε) (v : Uuid) : Prop :=
  ∀ r ∈ db.versions, r.OwnedBy company owner → r.id = v →
    r.activatedAt = none ∨ r.lifecycleStatus = .active

instance (company owner : Uuid) (db : PromotionDb ε) (v : Uuid) :
    Decidable (NeverSuperseded company owner db v) :=
  inferInstanceAs (Decidable (∀ r ∈ db.versions, _ → _ → _))

/-- A promotion writes the status and the timestamps only. -/
theorem promotedRow_keeps (r : LifecycleVersion ε) :
    (promotedRow τ company owner v r).id = r.id ∧
      (promotedRow τ company owner v r).companyId = r.companyId ∧
      (promotedRow τ company owner v r).ownerId = r.ownerId := by
  unfold promotedRow
  split
  · split
    · exact ⟨rfl, rfl, rfl⟩
    · split <;> exact ⟨rfl, rfl, rfl⟩
  · exact ⟨rfl, rfl, rfl⟩

theorem promotedRow_ownedBy {c o : Uuid} (r : LifecycleVersion ε) :
    (promotedRow τ company owner v r).OwnedBy c o ↔ r.OwnedBy c o := by
  have hc : (promotedRow τ company owner v r).companyId = r.companyId := (promotedRow_keeps r).2.1
  have ho : (promotedRow τ company owner v r).ownerId = r.ownerId := (promotedRow_keeps r).2.2
  rw [LifecycleVersion.OwnedBy, hc, ho]
  rfl

theorem promotedRow_id (r : LifecycleVersion ε) :
    (promotedRow τ company owner v r).id = r.id :=
  (promotedRow_keeps r).1

theorem map_id_promotedRow (rows : List (LifecycleVersion ε)) :
    (rows.map (promotedRow τ company owner v)).map LifecycleVersion.id =
      rows.map LifecycleVersion.id := by
  rw [List.map_map]
  exact List.map_congr_left fun r _ => promotedRow_id r

/-- The three things that a promotion can do to a version of the owner. -/
theorem promotedRow_cases (τ : Nat) (v : Uuid) (r : LifecycleVersion ε)
    (hr : r.OwnedBy company owner) :
    (r.id = v ∧ promotedRow τ company owner v r =
      { r with
        lifecycleStatus := .active
        activatedAt := r.activatedAt.or (some τ)
        supersededAt := none }) ∨
    (r.id ≠ v ∧ r.lifecycleStatus = .active ∧ promotedRow τ company owner v r =
      { r with lifecycleStatus := .deprecated, supersededAt := r.supersededAt.or (some τ) }) ∨
    (r.id ≠ v ∧ r.lifecycleStatus ≠ .active ∧ promotedRow τ company owner v r = r) := by
  by_cases hid : r.id = v
  · exact .inl ⟨hid, by rw [promotedRow, if_pos hr, if_pos hid]⟩
  · by_cases hactive : r.lifecycleStatus = .active
    · exact .inr (.inl ⟨hid, hactive, by rw [promotedRow, if_pos hr, if_neg hid, if_pos hactive]⟩)
    · exact .inr (.inr ⟨hid, hactive,
        by rw [promotedRow, if_pos hr, if_neg hid, if_neg hactive]⟩)

/-- A fact about every version of the owner after a promotion, from the three cases. -/
theorem forall_promoted {P : LifecycleVersion ε → Prop}
    (h : ∀ r ∈ db.versions, r.OwnedBy company owner → P (promotedRow τ company owner v r)) :
    ∀ r ∈ (db.promoted company owner τ v).versions, r.OwnedBy company owner → P r := by
  intro r' hr' hown
  obtain ⟨r, hr, rfl⟩ := List.mem_map.mp hr'
  exact h r hr ((promotedRow_ownedBy r).mp hown)

theorem PromotionInv.step (h : PromotionInv company owner db log b) (hb : b ≤ τ)
    (hv : ∃ r ∈ db.versions, r.OwnedBy company owner ∧ r.id = v) :
    PromotionInv company owner (db.promoted company owner τ v) (log ++ [(τ, some v)]) (τ + 1) where
  ids := by
    rw [PromotionDb.promoted, map_id_promotedRow]
    exact h.ids
  times e he := by
    rcases List.mem_append.mp he with he | he
    · have := h.times e he
      omega
    · obtain rfl := List.mem_singleton.mp he
      exact Nat.lt_succ_self τ
  known e he w hw := by
    obtain ⟨r, hr, hown, hid⟩ : ∃ r ∈ db.versions, r.OwnedBy company owner ∧ r.id = w := by
      rcases List.mem_append.mp he with he | he
      · exact h.known e he w hw
      · obtain rfl := List.mem_singleton.mp he
        obtain rfl := Option.some.inj hw
        exact hv
    exact ⟨_, List.mem_map_of_mem hr, (promotedRow_ownedBy r).mpr hown, (promotedRow_id r).trans hid⟩
  active := by
    rw [latest_append]
    refine forall_promoted fun r hr hown => ?_
    rcases promotedRow_cases τ v r hown with ⟨hid, heq⟩ | ⟨hid, -, heq⟩ | ⟨hid, hactive, heq⟩
    · simp [heq, hid]
    · simp [heq, Ne.symm hid]
    · simp [heq, hactive, Ne.symm hid]
  opened := by
    refine forall_promoted fun r hr hown => ?_
    rcases promotedRow_cases τ v r hown with ⟨-, heq⟩ | ⟨-, -, heq⟩ | ⟨-, hactive, heq⟩
    · simp [heq]
    · simp [heq]
    · simp [heq, hactive]
  activated := by
    refine forall_promoted fun r hr hown a ha => ?_
    have hold := h.activated r hr hown
    rcases promotedRow_cases τ v r hown with ⟨-, heq⟩ | ⟨-, -, heq⟩ | ⟨-, -, heq⟩
    · rw [heq] at ha
      cases hact : r.activatedAt with
      | none =>
        simp only [hact, Option.none_or, Option.mem_some_iff] at ha
        omega
      | some a' =>
        simp only [hact, Option.some_or, Option.mem_some_iff] at ha
        have := hold a' hact
        omega
    · rw [heq] at ha
      have := hold a ha
      omega
    · rw [heq] at ha
      have := hold a ha
      omega
  superseded := by
    refine forall_promoted fun r hr hown hstatus hact => ?_
    rcases promotedRow_cases τ v r hown with ⟨-, heq⟩ | ⟨-, hactive, heq⟩ | ⟨-, hactive, heq⟩
    · simp [heq] at hstatus
    · have hnone := (h.opened r hr hown hactive).2
      exact ⟨τ, by simp [heq, hnone], Nat.lt_succ_self τ⟩
    · rw [heq] at hact ⊢
      obtain ⟨u, hu, hlt⟩ := h.superseded r hr hown hactive hact
      exact ⟨u, hu, by omega⟩

/-- The interval of a version that has not been activated covers nothing. -/
theorem not_covers_of_blank {r : LifecycleVersion ε} {t : Nat} (h : r.activatedAt = none) :
    ¬r.Covers t := by
  rintro ⟨⟨a, ha, -⟩, -⟩
  simp [h] at ha

theorem covers_open {r : LifecycleVersion ε} {t : Nat} (h : r.supersededAt = none) :
    r.Covers t ↔ ∃ a ∈ r.activatedAt, a ≤ t := by
  simp [LifecycleVersion.Covers, h]

theorem not_covers_superseded {r : LifecycleVersion ε} {t u : Nat} (h : r.supersededAt = some u)
    (hle : u ≤ t) : ¬r.Covers t := by
  rintro ⟨-, hu⟩
  rw [h] at hu
  simp only [Option.all_some, decide_eq_true_eq] at hu
  omega

/-- Before the promotion, the intervals are as they were, but that of a version that returns. -/
theorem covers_promoted_of_lt (h : PromotionInv company owner db log b) {r : LifecycleVersion ε}
    {t : Nat} (hr : r ∈ db.versions) (hown : r.OwnedBy company owner) (ht : t < τ) :
    (r.Covers t → (promotedRow τ company owner v r).Covers t) ∧
      ((r.id = v → r.activatedAt = none ∨ r.lifecycleStatus = .active) →
        (promotedRow τ company owner v r).Covers t → r.Covers t) := by
  rcases promotedRow_cases τ v r hown with ⟨hid, heq⟩ | ⟨-, hactive, heq⟩ | ⟨-, -, heq⟩
  · have hiff : (promotedRow τ company owner v r).Covers t ↔
        ∃ a ∈ r.activatedAt.or (some τ), a ≤ t := by
      rw [heq]
      exact covers_open rfl
    rw [hiff]
    constructor
    · rintro ⟨⟨a, ha, hle⟩, -⟩
      exact ⟨a, by simp [Option.mem_def.mp ha], hle⟩
    · intro hfresh ⟨a, ha, hle⟩
      rcases hfresh hid with hnone | hactive
      · simp only [hnone, Option.none_or, Option.mem_some_iff] at ha
        omega
      · obtain ⟨hact, hopen⟩ := h.opened r hr hown hactive
        obtain ⟨a', ha'⟩ := Option.ne_none_iff_exists'.mp hact
        simp only [ha', Option.some_or, Option.mem_some_iff] at ha
        exact (covers_open hopen).mpr ⟨a', ha', by omega⟩
  · have hopen := (h.opened r hr hown hactive).2
    have hiff : (promotedRow τ company owner v r).Covers t ↔ r.Covers t := by
      rw [heq, covers_open hopen]
      simp [LifecycleVersion.Covers, hopen, ht]
    exact ⟨hiff.mpr, fun _ => hiff.mp⟩
  · rw [heq]
    exact ⟨id, fun _ => id⟩

/-- From the promotion on, the promoted version alone is selected. -/
theorem covers_promoted_of_le (h : PromotionInv company owner db log b) (hb : b ≤ τ)
    {r : LifecycleVersion ε} {t : Nat} (hr : r ∈ db.versions) (hown : r.OwnedBy company owner)
    (ht : τ ≤ t) : (promotedRow τ company owner v r).Covers t ↔ r.id = v := by
  rcases promotedRow_cases τ v r hown with ⟨hid, heq⟩ | ⟨hid, hactive, heq⟩ | ⟨hid, hactive, heq⟩
  · rw [heq, covers_open rfl]
    refine iff_of_true ?_ hid
    cases hact : r.activatedAt with
    | none => exact ⟨τ, by simp, ht⟩
    | some a =>
      have := h.activated r hr hown a hact
      exact ⟨a, by simp, by omega⟩
  · have hopen := (h.opened r hr hown hactive).2
    refine iff_of_false ?_ hid
    rw [heq]
    exact not_covers_superseded (u := τ) (by simp [hopen]) ht
  · rw [heq]
    refine iff_of_false ?_ hid
    by_cases hact : r.activatedAt = none
    · exact not_covers_of_blank hact
    · obtain ⟨u, hu, hlt⟩ := h.superseded r hr hown hactive hact
      exact not_covers_superseded hu (by omega)

/-- A promotion of the active version, or of one that was never active, keeps the intervals. -/
theorem IntervalsExact.step (h : PromotionInv company owner db log b)
    (hexact : IntervalsExact company owner db log) (hb : b ≤ τ)
    (hfresh : NeverSuperseded company owner db v) :
    IntervalsExact company owner (db.promoted company owner τ v) (log ++ [(τ, some v)]) := by
  intro t
  refine forall_promoted fun r hr hown => ?_
  rw [promotedRow_id]
  rcases Nat.lt_or_ge t τ with hlt | hle
  · obtain ⟨hto, hfrom⟩ := covers_promoted_of_lt (v := v) h hr hown hlt
    rw [stateAt_append_lt hlt, ← hexact t r hr hown]
    exact ⟨hfrom (hfresh r hr hown), hto⟩
  · rw [stateAt_append_le hle, covers_promoted_of_le h hb hr hown hle]
    simp [eq_comm]

/-- A promotion of a superseded version opens its interval again, over a time in which another
version was active. -/
theorem IntervalWrong.of_return (h : PromotionInv company owner db log b) (hb : b ≤ τ)
    (hreturn : ¬NeverSuperseded company owner db v) :
    IntervalWrong company owner (db.promoted company owner τ v) (log ++ [(τ, some v)]) (τ + 1) := by
  simp only [NeverSuperseded, not_forall, not_or] at hreturn
  obtain ⟨r, hr, hown, hid, hact, hactive⟩ := hreturn
  obtain ⟨a, ha⟩ := Option.ne_none_iff_exists'.mp hact
  have hab := h.activated r hr hown a ha
  refine ⟨b - 1, by omega, _, List.mem_map_of_mem hr, (promotedRow_ownedBy r).mpr hown, ?_, ?_⟩
  · rw [promotedRow, if_pos hown, if_pos hid, covers_open rfl]
    exact ⟨a, by simp [ha], by omega⟩
  · have hlast : stateAt log (b - 1) = latest log := by
      apply stateAt_eq_latest
      intro e he
      have := h.times e he
      omega
    rw [stateAt_append_lt (by omega), hlast, promotedRow_id]
    exact fun heq => hactive ((h.active r hr hown).mpr heq)

/-- A wrong interval is never put right. -/
theorem IntervalWrong.step (h : PromotionInv company owner db log b)
    (hwrong : IntervalWrong company owner db log b) (hb : b ≤ τ) :
    IntervalWrong company owner (db.promoted company owner τ v) (log ++ [(τ, some v)]) (τ + 1) := by
  obtain ⟨t, ht, r, hr, hown, hcovers, hne⟩ := hwrong
  have hlt : t < τ := by omega
  refine ⟨t, by omega, _, List.mem_map_of_mem hr, (promotedRow_ownedBy r).mpr hown,
    (covers_promoted_of_lt h hr hown hlt).1 hcovers, ?_⟩
  rw [stateAt_append_lt hlt, promotedRow_id]
  exact hne

/-- The lookup gives what was active, at every instant, exactly when all intervals are right. -/
theorem versionsAsOf_eq_iff (h : PromotionInv company owner db log b) :
    (∀ t, versionsAsOf db company owner t = (stateAt log t).toList) ↔
      IntervalsExact company owner db log := by
  have hinj : ∀ r ∈ db.versions, ∀ r' ∈ db.versions, r.id = r'.id → r = r' :=
    fun r hr r' hr' => List.inj_on_of_nodup_map h.ids hr hr'
  have hnodup : db.versions.Nodup := List.Nodup.of_map _ h.ids
  constructor
  · intro hall t r hr hown
    have hmem : r.id ∈ versionsAsOf db company owner t ↔ r.Covers t := by
      simp only [versionsAsOf, List.mem_map, List.mem_filter, decide_eq_true_eq]
      constructor
      · rintro ⟨r', ⟨hr', -, -, hc⟩, hid⟩
        exact hinj r' hr' r hr hid ▸ hc
      · intro hc
        exact ⟨r, ⟨hr, hown.1, hown.2, hc⟩, rfl⟩
    rw [← hmem, hall t, Option.mem_toList]
  · intro hexact t
    cases hstate : stateAt log t with
    | none =>
      simp only [versionsAsOf, Option.toList_none, List.map_eq_nil_iff, List.filter_eq_nil_iff,
        decide_eq_true_eq]
      rintro r hr ⟨hc, ho, hcovers⟩
      have := (hexact t r hr ⟨hc, ho⟩).mp hcovers
      rw [hstate] at this
      cases this
    | some v =>
      obtain ⟨e, he, hv⟩ := exists_of_stateAt hstate
      obtain ⟨r, hr, hown, hid⟩ := h.known e he v hv
      have hcovers := (hexact t r hr hown).mpr (by rw [hstate, hid])
      have hone : Query.AtMostOne db.versions fun r =>
          decide (r.companyId = company ∧ r.ownerId = owner ∧ r.Covers t) := by
        intro r1 h1 r2 h2 hp1 hp2
        obtain ⟨hc1, ho1, hcov1⟩ := of_decide_eq_true hp1
        obtain ⟨hc2, ho2, hcov2⟩ := of_decide_eq_true hp2
        have e1 := (hexact t r1 h1 ⟨hc1, ho1⟩).mp hcov1
        have e2 := (hexact t r2 h2 ⟨hc2, ho2⟩).mp hcov2
        exact hinj r1 h1 r2 h2 (Option.some.inj (e1.symm.trans e2))
      have hfilter := Query.filter_eq_singleton hone hnodup hr
        (decide_eq_true ⟨hown.1, hown.2, hcovers⟩)
      rw [versionsAsOf, hfilter, List.map_singleton, hid, Option.toList_some]

theorem IntervalWrong.not_exact (h : IntervalWrong company owner db log b) :
    ¬IntervalsExact company owner db log := by
  obtain ⟨t, -, r, hr, hown, hcovers, hne⟩ := h
  exact fun hexact => hne ((hexact t r hr hown).mp hcovers)

/-- The step of a run of promotions. -/
def promoteStep (T : PromotionTable ε) (company owner : Uuid) (db : PromotionDb ε) (p : Promotion) :
    PromotionDb ε :=
  (exec (promoteVersion T p.1 company owner p.2) db).1

/-- The promotion returns. -/
def PromotionSucceeds (T : PromotionTable ε) (company owner : Uuid) (db : PromotionDb ε)
    (p : Promotion) : Prop :=
  (exec (promoteVersion T p.1 company owner p.2) db).2 = none

instance (T : PromotionTable ε) (company owner : Uuid) (db : PromotionDb ε) (p : Promotion) :
    Decidable (PromotionSucceeds T company owner db p) := inferInstanceAs (Decidable (_ = _))

theorem promoteStep_eq {T : PromotionTable ε} {p : Promotion}
    (h : PromotionSucceeds T company owner db p) :
    (∃ r ∈ db.versions, r.OwnedBy company owner ∧ r.id = p.2) ∧
      promoteStep T company owner db p = db.promoted company owner p.1 p.2 := by
  obtain ⟨hex, heq⟩ := promoteVersion_ok (ok_of_exec h)
  exact ⟨hex, heq.symm⟩

/-- At the end of a run of successful promotions the intervals are right if no superseded version
was promoted, and one is wrong otherwise or if one was before. -/
theorem run_intervals (T : PromotionTable ε) (ps : List Promotion)
    (h : PromotionInv company owner db log b) (hb : ∀ p ∈ ps, b ≤ p.1)
    (htimes : ps.Pairwise fun p q => p.1 < q.1)
    (hok : Transition.Along (promoteStep T company owner) (PromotionSucceeds T company owner) db ps) :
    let end_ := Transition.run (promoteStep T company owner) db ps
    let fresh := Transition.Along (promoteStep T company owner)
      (fun db p => NeverSuperseded company owner db p.2) db ps
    ∃ b', PromotionInv company owner end_ (log ++ promotionLog ps) b' ∧
      (IntervalsExact company owner db log → fresh →
        IntervalsExact company owner end_ (log ++ promotionLog ps)) ∧
      (IntervalWrong company owner db log b ∨ ¬fresh →
        IntervalWrong company owner end_ (log ++ promotionLog ps) b') := by
  induction ps generalizing db log b with
  | nil =>
    rw [show promotionLog [] = [] from rfl, List.append_nil]
    refine ⟨b, h, fun hexact _ => hexact, ?_⟩
    rintro (hwrong | hnot)
    · exact hwrong
    · exact absurd trivial hnot
  | cons p ps ih =>
    obtain ⟨hfirst, hrest⟩ := List.pairwise_cons.mp htimes
    obtain ⟨hp, hok⟩ := hok
    obtain ⟨hrow, heq⟩ := promoteStep_eq hp
    have hbp := hb p (by simp)
    rw [heq] at hok
    obtain ⟨b', hinv, hexact, hwrong⟩ := ih (h.step hbp hrow) (fun q hq => hfirst q hq) hrest hok
    have hlog : log ++ [(p.1, some p.2)] ++ promotionLog ps = log ++ promotionLog (p :: ps) := by
      simp [promotionLog]
    rw [hlog] at hinv hexact hwrong
    simp only [Transition.run, Transition.Along, heq]
    refine ⟨b', hinv, fun hex hfresh => hexact (hex.step h hbp hfresh.1) hfresh.2, ?_⟩
    rintro (hw | hnot)
    · exact hwrong (.inl (hw.step h hbp))
    · by_cases hfresh : NeverSuperseded company owner db p.2
      · exact hwrong (.inr fun halong => hnot ⟨hfresh, halong⟩)
      · exact hwrong (.inl (IntervalWrong.of_return h hbp hfresh))

/-- The owner's versions before the first promotion; ids are a primary key. -/
structure Unpromoted (company owner : Uuid) (db : PromotionDb ε) : Prop where
  ids : (db.versions.map LifecycleVersion.id).Nodup
  blank : ∀ r ∈ db.versions, r.OwnedBy company owner → r.lifecycleStatus ≠ .active ∧
    r.activatedAt = none

theorem Unpromoted.inv (h : Unpromoted company owner db) : PromotionInv company owner db [] 0 where
  ids := h.ids
  times := by simp
  known := by simp
  active r hr hown := iff_of_false (h.blank r hr hown).1 (by simp [latest])
  opened r hr hown hactive := absurd hactive (h.blank r hr hown).1
  activated r hr hown a ha := by simp [(h.blank r hr hown).2] at ha
  superseded r hr hown _ hact := absurd (h.blank r hr hown).2 hact

theorem Unpromoted.exact (h : Unpromoted company owner db) :
    IntervalsExact company owner db [] := by
  intro t r hr hown
  exact iff_of_false (not_covers_of_blank (h.blank r hr hown).2) (by simp [stateAt])

/-- The lookup is right after a run of successful promotions exactly when none of them was of a
version that had been superseded. -/
theorem versionsAsOf_run_iff (T : PromotionTable ε) (h : Unpromoted company owner db)
    (ps : List Promotion) (htimes : ps.Pairwise fun p q => p.1 < q.1)
    (hok : Transition.Along (promoteStep T company owner) (PromotionSucceeds T company owner) db ps) :
    (∀ t, versionsAsOf (Transition.run (promoteStep T company owner) db ps) company owner t =
        (stateAt (promotionLog ps) t).toList) ↔
      Transition.Along (promoteStep T company owner)
        (fun db p => NeverSuperseded company owner db p.2) db ps := by
  obtain ⟨b', hinv, hexact, hwrong⟩ := run_intervals T ps h.inv (by simp) htimes hok
  rw [List.nil_append] at hinv hexact hwrong
  rw [versionsAsOf_eq_iff hinv]
  constructor
  · intro hall
    by_contra hnot
    exact (hwrong (.inr hnot)).not_exact hall
  · exact hexact h.exact

end Runs

/-- For every run of successful promotions of the versions of a document, or of a wiki page, at
increasing times: the as-of lookup selects at every instant the version that was active then, and
none before the first promotion, if and only if no promotion is of a version that was superseded
before. -/
theorem promotions_as_of (company owner : Uuid) :
    (∀ (db : PromotionDb DocumentIngest) (ps : List Promotion), Unpromoted company owner db →
      ps.Pairwise (fun p q => p.1 < q.1) →
      Transition.Along (promoteStep documentVersionsTable company owner)
        (PromotionSucceeds documentVersionsTable company owner) db ps →
      ((∀ t, versionsAsOf (Transition.run (promoteStep documentVersionsTable company owner) db ps)
          company owner t = (stateAt (promotionLog ps) t).toList) ↔
        Transition.Along (promoteStep documentVersionsTable company owner)
          (fun db p => NeverSuperseded company owner db p.2) db ps)) ∧
    (∀ (db : PromotionDb Unit) (ps : List Promotion), Unpromoted company owner db →
      ps.Pairwise (fun p q => p.1 < q.1) →
      Transition.Along (promoteStep wikiPageVersionsTable company owner)
        (PromotionSucceeds wikiPageVersionsTable company owner) db ps →
      ((∀ t, versionsAsOf (Transition.run (promoteStep wikiPageVersionsTable company owner) db ps)
          company owner t = (stateAt (promotionLog ps) t).toList) ↔
        Transition.Along (promoteStep wikiPageVersionsTable company owner)
          (fun db p => NeverSuperseded company owner db p.2) db ps)) :=
  ⟨fun _ ps h htimes hok => versionsAsOf_run_iff documentVersionsTable h ps htimes hok,
    fun _ ps h htimes hok => versionsAsOf_run_iff wikiPageVersionsTable h ps htimes hok⟩

/-- The document 2 with two ingested versions. -/
def handbookVersions : PromotionDb DocumentIngest where
  owners := [(1, 2)]
  versions := [
    { id := 11, companyId := 1, ownerId := 2, extra := ⟨.done, some 5, some 3⟩ },
    { id := 12, companyId := 1, ownerId := 2, extra := ⟨.done, some 6, some 4⟩ }]

/-- The wiki page 2 with two versions. -/
def wikiVersions : PromotionDb Unit where
  owners := [(1, 2)]
  versions := [
    { id := 11, companyId := 1, ownerId := 2, extra := () },
    { id := 12, companyId := 1, ownerId := 2, extra := () }]

theorem promotions_in_turn_as_of :
    (∀ t, versionsAsOf (Transition.run (promoteStep documentVersionsTable 1 2) handbookVersions
        [(10, 11), (20, 12)]) 1 2 t = (stateAt (promotionLog [(10, 11), (20, 12)]) t).toList) ∧
    (∀ t, versionsAsOf (Transition.run (promoteStep wikiPageVersionsTable 1 2) wikiVersions
        [(10, 11), (20, 12)]) 1 2 t = (stateAt (promotionLog [(10, 11), (20, 12)]) t).toList) := by
  have htimes : List.Pairwise (fun p q => p.1 < q.1) [((10, 11) : Promotion), (20, 12)] := by decide
  constructor
  · exact ((promotions_as_of 1 2).1 handbookVersions [(10, 11), (20, 12)]
      ⟨by decide, by decide⟩ htimes (by decide)).mpr (by decide)
  · exact ((promotions_as_of 1 2).2 wikiVersions [(10, 11), (20, 12)]
      ⟨by decide, by decide⟩ htimes (by decide)).mpr (by decide)

/-- A roll-back: the version 11 is promoted again after 12, and both are then selected for an
instant at which 12 was active. -/
theorem rollback_selects_two :
    let ps : List Promotion := [(10, 11), (20, 12), (30, 11)]
    Transition.Along (promoteStep documentVersionsTable 1 2)
        (PromotionSucceeds documentVersionsTable 1 2) handbookVersions ps ∧
      stateAt (promotionLog ps) 25 = some 12 ∧
      versionsAsOf (Transition.run (promoteStep documentVersionsTable 1 2) handbookVersions ps) 1 2
        25 = [11, 12] := by
  decide

end Wikore
