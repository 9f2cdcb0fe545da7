import Wikore.Org.Closure
import Mathlib.Data.List.Dedup
import Mathlib.Tactic.Tauto

/-! Document visibility.  The access rule is written twice in the source: `fetch_access_scopes`
expands the principal of every grant downwards into the scope ids that the vector index filters on,
and `wikore_visible_doc_ids` expands the reader upwards into the units a grant may name.  Both are
compared here with one statement of the rule, `Readable`. -/

namespace Wikore

open ParentForest

/-- A row of `documents`. -/
structure Document where
  id : Uuid
  companyId : Uuid
  ownerOrgUnitId : Uuid
deriving DecidableEq, Repr

/-- A row of `resource_grants`. -/
structure ResourceGrant where
  id : Uuid
  companyId : Uuid
  resourceType : ResourceType
  resourceId : Uuid
  principalType : PrincipalType
  principalId : Uuid
  permission : Permission
  resourceAppliesTo : AppliesTo
  principalAppliesTo : AppliesTo
  expiresAt : Option Nat
deriving DecidableEq, Repr

/-- `permission IN ('read','write','admin') AND (expires_at IS NULL OR expires_at > now())`. -/
def ResourceGrant.Live (g : ResourceGrant) (now : Nat) : Prop :=
  g.permission ∈ [Permission.read, .write, .admin] ∧ unexpired now g.expiresAt = true

instance (g : ResourceGrant) (now : Nat) : Decidable (g.Live now) :=
  inferInstanceAs (Decidable (_ ∧ _))

/-- `resource_applies_to = 'self_and_descendants' OR (resource_applies_to = 'self_only' AND
rc.depth = 0)`. -/
def ResourceGrant.CoversAt (g : ResourceGrant) (rc : ClosureRow) : Prop :=
  g.resourceAppliesTo = .selfAndDescendants ∨ (g.resourceAppliesTo = .selfOnly ∧ rc.depth = 0)

instance (g : ResourceGrant) (rc : ClosureRow) : Decidable (g.CoversAt rc) :=
  inferInstanceAs (Decidable (_ ∨ _))

/-- The tables that decide who may read a document. -/
structure AccessDb where
  org : OrgDb
  documents : List Document
  resourceGrants : List ResourceGrant
deriving DecidableEq, Repr

/-! ### The query of `fetch_access_scopes` -/

section Fetch

variable (db : AccessDb) (now : Nat) (company document : Uuid)

/-- `WITH doc AS (...)`: the owners of the documents with this key. -/
def docOwners : List Uuid :=
  (db.documents.filter fun d => d.companyId = company ∧ d.id = document).map
    Document.ownerOrgUnitId

/-- The grants of arms 2a and 2b. -/
def documentGrants (applies : AppliesTo) : List ResourceGrant :=
  db.resourceGrants.filter fun rg =>
    rg.companyId = company ∧ rg.resourceType = .document ∧ rg.resourceId = document ∧
      rg.principalType = .orgUnit ∧ rg.principalAppliesTo = applies ∧ rg.Live now

/-- The grants of arms 3a and 3b, joined with the closure rows that put the owner under the
resource.  `(SELECT owner_org_unit_id FROM doc)` is a scalar: `NULL` when there is no document. -/
def orgUnitGrants (applies : AppliesTo) : List ResourceGrant :=
  db.resourceGrants.flatMap fun rg =>
    (db.org.closure.filter fun rc =>
      rc.companyId = company ∧ rc.ancestorId = rg.resourceId ∧
        some rc.descendantId = (docOwners db company document).head? ∧
        rg.companyId = company ∧ rg.resourceType = .orgUnit ∧ rg.principalType = .orgUnit ∧
        rg.principalAppliesTo = applies ∧ rg.Live now ∧ rg.CoversAt rc).map fun _ => rg

/-- The principal and everything under it, by the closure table. -/
def principalSubtree (rg : ResourceGrant) : List Uuid :=
  (db.org.closure.filter fun pc =>
    pc.companyId = company ∧ pc.ancestorId = rg.principalId).map ClosureRow.descendantId

/-- `PostgresDocumentRepo::fetch_access_scopes`: the org units that may retrieve the document. -/
def fetchAccessScopes : List Uuid :=
  (docOwners db company document ++
    (documentGrants db now company document .selfOnly).map ResourceGrant.principalId ++
    (documentGrants db now company document .selfAndDescendants).flatMap
      (principalSubtree db company) ++
    (orgUnitGrants db now company document .selfOnly).map ResourceGrant.principalId ++
    (orgUnitGrants db now company document .selfAndDescendants).flatMap
      (principalSubtree db company)).dedup

end Fetch

/-! ### The function `wikore_visible_doc_ids` -/

section Visible

variable (db : AccessDb) (now : Nat) (company : Uuid) (scope candidates : List Uuid)

/-- The reader's scope and every unit above an entry of it. -/
def readerGrantKeys : List Uuid :=
  (scope.dedup ++ (db.org.closure.filter fun c =>
    c.companyId = company ∧ c.descendantId ∈ scope.dedup).map ClosureRow.ancestorId).dedup

/-- The principal of a grant matches the reader. -/
def PrincipalMatches (rg : ResourceGrant) : Prop :=
  (rg.principalAppliesTo = .selfOnly ∧ rg.principalId ∈ scope.dedup) ∨
    (rg.principalAppliesTo = .selfAndDescendants ∧
      rg.principalId ∈ readerGrantKeys db company scope)

instance (rg : ResourceGrant) : Decidable (PrincipalMatches db company scope rg) :=
  inferInstanceAs (Decidable (_ ∨ _))

/-- `WITH cand AS (...)`. -/
def candidateDocs : List Document :=
  db.documents.filter fun d => d.companyId = company ∧ d.id ∈ candidates

/-- `wikore_visible_doc_ids(p_company_id, p_reader_scope, p_candidate_doc_ids)`. -/
def visibleDocIds : List Uuid :=
  let cand := candidateDocs db company candidates
  let owned := (cand.filter fun c => c.ownerOrgUnitId ∈ scope.dedup).map Document.id
  let granted := cand.flatMap fun c =>
    (db.resourceGrants.filter fun rg =>
      rg.companyId = company ∧ rg.resourceType = .document ∧ rg.resourceId = c.id ∧ rg.Live now ∧
        PrincipalMatches db company scope rg).map fun _ => c.id
  let inherited := cand.flatMap fun c =>
    (db.org.closure.filter fun rc =>
      rc.companyId = company ∧ rc.descendantId = c.ownerOrgUnitId).flatMap fun rc =>
        (db.resourceGrants.filter fun rg =>
          rg.companyId = company ∧ rg.resourceType = .orgUnit ∧ rg.resourceId = rc.ancestorId ∧
            rg.Live now ∧ rg.CoversAt rc ∧ PrincipalMatches db company scope rg).map fun _ => c.id
  (owned ++ granted ++ inherited).dedup

end Visible

/-! ### The access rule -/

/-- The closure table holds a row for `a` above `d` exactly when `a` is `d` or above it. -/
def OrgDb.ClosureIsReflTrans (db : OrgDb) : Prop :=
  ∀ c a d, (∃ k, ⟨c, a, d, k⟩ ∈ db.closure) ↔ db.HasUnit c d ∧ Below (db.parentOf c) a d

theorem OrgDb.TreeOk.closureIsReflTrans {db : OrgDb} (h : db.TreeOk) : db.ClosureIsReflTrans := by
  intro c a d
  simp only [h.closureExact, OrgDb.Reaches, Below, exists_and_left]

namespace AccessDb

/-- The document exists in the company. -/
def HasDocument (db : AccessDb) (c d : Uuid) : Prop :=
  ∃ x ∈ db.documents, x.companyId = c ∧ x.id = d

/-- The resource of a grant exists in its company.  Pages of the wiki are not documents, and no
query here reads them. -/
def ResourceExists (db : AccessDb) (g : ResourceGrant) : Prop :=
  match g.resourceType with
  | .orgUnit => db.org.HasUnit g.companyId g.resourceId
  | .document => db.HasDocument g.companyId g.resourceId
  | .wikiPage => True

/-- What the primary key of `documents`, V001, V009 and V026 keep of these tables. -/
structure Valid (db : AccessDb) : Prop where
  documentKey : ∀ d ∈ db.documents, ∀ d' ∈ db.documents, d.id = d'.id → d = d'
  closure : db.org.ClosureIsReflTrans
  principalExists : ∀ g ∈ db.resourceGrants, db.org.HasUnit g.companyId g.principalId
  resourceExists : ∀ g ∈ db.resourceGrants, db.ResourceExists g

/-- The unit `s` is a principal of the grant. -/
def IsPrincipal (db : AccessDb) (c : Uuid) (g : ResourceGrant) (s : Uuid) : Prop :=
  match g.principalAppliesTo with
  | .selfOnly => s = g.principalId
  | .selfAndDescendants => db.org.HasUnit c s ∧ Below (db.org.parentOf c) g.principalId s

/-- The document is a resource of the grant: it is named by it, or its owner is the named unit or,
where the grant extends to descendants, below it. -/
def IsResource (db : AccessDb) (c : Uuid) (g : ResourceGrant) (d : Document) : Prop :=
  (g.resourceType = .document ∧ g.resourceId = d.id) ∨
    (g.resourceType = .orgUnit ∧ ∃ rc ∈ db.org.closure, rc.companyId = c ∧
      rc.ancestorId = g.resourceId ∧ rc.descendantId = d.ownerOrgUnitId ∧ g.CoversAt rc)

/-- The access rule: readers in the unit `s` may read the document `d` at the instant `now`. -/
def Readable (db : AccessDb) (now : Nat) (d : Document) (s : Uuid) : Prop :=
  s = d.ownerOrgUnitId ∨ ∃ g ∈ db.resourceGrants, g.companyId = d.companyId ∧ g.Live now ∧
    db.IsResource d.companyId g d ∧ db.IsPrincipal d.companyId g s

end AccessDb

section Rule

variable {db : AccessDb} {now : Nat} {d : Document}

theorem docOwners_eq (h : db.Valid) (hd : d ∈ db.documents) {x : Uuid} :
    x ∈ docOwners db d.companyId d.id ↔ x = d.ownerOrgUnitId := by
  simp only [docOwners, List.mem_map, List.mem_filter, decide_eq_true_eq]
  constructor
  · rintro ⟨d', ⟨hd', -, hid⟩, rfl⟩
    rw [h.documentKey d' hd' d hd hid]
  · rintro rfl
    exact ⟨d, ⟨hd, rfl, rfl⟩, rfl⟩

theorem docOwners_head (h : db.Valid) (hd : d ∈ db.documents) :
    (docOwners db d.companyId d.id).head? = some d.ownerOrgUnitId := by
  cases hl : docOwners db d.companyId d.id with
  | nil =>
    have := (docOwners_eq h hd).mpr rfl
    simp [hl] at this
  | cons x xs =>
    have : x = d.ownerOrgUnitId := (docOwners_eq h hd).mp (by simp [hl])
    simp [this]

theorem mem_principalSubtree (h : db.Valid) {c s : Uuid} {g : ResourceGrant} :
    s ∈ principalSubtree db c g ↔
      db.org.HasUnit c s ∧ Below (db.org.parentOf c) g.principalId s := by
  rw [← h.closure]
  simp only [principalSubtree, List.mem_map, List.mem_filter, decide_eq_true_eq]
  constructor
  · rintro ⟨⟨_, _, _, k⟩, ⟨hr, rfl, rfl⟩, rfl⟩
    exact ⟨k, hr⟩
  · rintro ⟨k, hr⟩
    exact ⟨_, ⟨hr, rfl, rfl⟩, rfl⟩

theorem mem_documentGrants {c doc : Uuid} {applies : AppliesTo} {g : ResourceGrant} :
    g ∈ documentGrants db now c doc applies ↔ g ∈ db.resourceGrants ∧ g.companyId = c ∧
      g.Live now ∧ (g.resourceType = .document ∧ g.resourceId = doc) ∧
      g.principalAppliesTo = applies := by
  simp only [documentGrants, List.mem_filter, decide_eq_true_eq]
  tauto

theorem mem_orgUnitGrants (h : db.Valid) (hd : d ∈ db.documents) {applies : AppliesTo}
    {g : ResourceGrant} :
    g ∈ orgUnitGrants db now d.companyId d.id applies ↔ g ∈ db.resourceGrants ∧
      g.companyId = d.companyId ∧ g.Live now ∧
      (g.resourceType = .orgUnit ∧ ∃ rc ∈ db.org.closure, rc.companyId = d.companyId ∧
        rc.ancestorId = g.resourceId ∧ rc.descendantId = d.ownerOrgUnitId ∧ g.CoversAt rc) ∧
      g.principalAppliesTo = applies := by
  simp only [orgUnitGrants, docOwners_head h hd, List.mem_flatMap, List.mem_map, List.mem_filter,
    decide_eq_true_eq, Option.some.injEq]
  constructor
  · rintro ⟨_, hg, rc, ⟨hrc, hc, ha, hde, hgc, ht, -, hp, hl, hcov⟩, rfl⟩
    exact ⟨hg, hgc, hl, ⟨ht, rc, hrc, hc, ha, hde, hcov⟩, hp⟩
  · rintro ⟨hg, hgc, hl, ⟨ht, rc, hrc, hc, ha, hde, hcov⟩, hp⟩
    exact ⟨g, hg, rc, ⟨hrc, hc, ha, hde, hgc, ht, trivial, hp, hl, hcov⟩, rfl⟩

/-- `fetch_access_scopes` returns the units that may read the document. -/
theorem mem_fetchAccessScopes (h : db.Valid) (hd : d ∈ db.documents) {s : Uuid} :
    s ∈ fetchAccessScopes db now d.companyId d.id ↔ db.Readable now d s := by
  simp only [fetchAccessScopes, List.mem_dedup, List.mem_append, List.mem_map, List.mem_flatMap,
    docOwners_eq h hd, mem_documentGrants, mem_orgUnitGrants h hd, mem_principalSubtree h,
    AccessDb.Readable]
  constructor
  · rintro ((((ho | ⟨g, ⟨hg, hc, hl, hr, hp⟩, rfl⟩) | ⟨g, ⟨hg, hc, hl, hr, hp⟩, hs⟩) |
      ⟨g, ⟨hg, hc, hl, hr, hp⟩, rfl⟩) | ⟨g, ⟨hg, hc, hl, hr, hp⟩, hs⟩)
    · exact .inl ho
    · exact .inr ⟨g, hg, hc, hl, .inl hr, by simp [AccessDb.IsPrincipal, hp]⟩
    · exact .inr ⟨g, hg, hc, hl, .inl hr, by simpa [AccessDb.IsPrincipal, hp] using hs⟩
    · exact .inr ⟨g, hg, hc, hl, .inr hr, by simp [AccessDb.IsPrincipal, hp]⟩
    · exact .inr ⟨g, hg, hc, hl, .inr hr, by simpa [AccessDb.IsPrincipal, hp] using hs⟩
  · rintro (ho | ⟨g, hg, hc, hl, hres, hprin⟩)
    · exact .inl (.inl (.inl (.inl ho)))
    · cases hp : g.principalAppliesTo with
      | selfOnly =>
        have hs : s = g.principalId := by simpa [AccessDb.IsPrincipal, hp] using hprin
        rcases hres with hr | hr
        · exact .inl (.inl (.inl (.inr ⟨g, ⟨hg, hc, hl, hr, hp⟩, hs.symm⟩)))
        · exact .inl (.inr ⟨g, ⟨hg, hc, hl, hr, hp⟩, hs.symm⟩)
      | selfAndDescendants =>
        have hs := hprin
        simp only [AccessDb.IsPrincipal, hp] at hs
        rcases hres with hr | hr
        · exact .inl (.inl (.inr ⟨g, ⟨hg, hc, hl, hr, hp⟩, hs⟩))
        · exact .inr ⟨g, ⟨hg, hc, hl, hr, hp⟩, hs⟩

/-- A grant key is a reader's unit or a unit above one. -/
theorem mem_readerGrantKeys (h : db.Valid) {c p : Uuid} {scope : List Uuid} :
    p ∈ readerGrantKeys db c scope ↔
      p ∈ scope ∨ ∃ s ∈ scope, db.org.HasUnit c s ∧ Below (db.org.parentOf c) p s := by
  simp only [readerGrantKeys, List.mem_dedup, List.mem_append, List.mem_map, List.mem_filter,
    decide_eq_true_eq]
  refine or_congr_right ?_
  constructor
  · rintro ⟨⟨_, _, s, k⟩, ⟨hr, rfl, hs⟩, rfl⟩
    exact ⟨s, hs, (h.closure ..).mp ⟨k, hr⟩⟩
  · rintro ⟨s, hs, hbelow⟩
    obtain ⟨k, hr⟩ := (h.closure ..).mpr hbelow
    exact ⟨_, ⟨hr, rfl, hs⟩, rfl⟩

/-- A grant matches the reader when one of the reader's units is its principal.  A principal that
is itself in the scope is above an entry of it because the closure is reflexive. -/
theorem principalMatches_iff (h : db.Valid) {scope : List Uuid} {g : ResourceGrant}
    (hg : g ∈ db.resourceGrants) :
    PrincipalMatches db g.companyId scope g ↔ ∃ s ∈ scope, db.IsPrincipal g.companyId g s := by
  simp only [PrincipalMatches, mem_readerGrantKeys h, List.mem_dedup, AccessDb.IsPrincipal]
  cases g.principalAppliesTo with
  | selfOnly => simp
  | selfAndDescendants =>
    simp only [reduceCtorEq, false_and, true_and, false_or]
    constructor
    · rintro (hp | hs)
      · exact ⟨g.principalId, hp, h.principalExists g hg, Below.refl⟩
      · exact hs
    · exact .inr

/-- `wikore_visible_doc_ids` returns the candidates that some unit of the scope may read. -/
theorem mem_visibleDocIds (h : db.Valid) (hd : d ∈ db.documents) {scope candidates : List Uuid} :
    d.id ∈ visibleDocIds db now d.companyId scope candidates ↔
      d.id ∈ candidates ∧ ∃ s ∈ scope, db.Readable now d s := by
  have hcand : ∀ c, c ∈ candidateDocs db d.companyId candidates ∧ c.id = d.id ↔
      c = d ∧ d.id ∈ candidates := by
    intro c
    simp only [candidateDocs, List.mem_filter, decide_eq_true_eq]
    constructor
    · rintro ⟨⟨hc, -, hin⟩, hid⟩
      obtain rfl := h.documentKey c hc d hd hid
      exact ⟨rfl, hin⟩
    · rintro ⟨rfl, hin⟩
      exact ⟨⟨hd, rfl, hin⟩, rfl⟩
  simp only [visibleDocIds, List.mem_dedup, List.mem_append, List.mem_map, List.mem_flatMap,
    List.mem_filter, decide_eq_true_eq]
  constructor
  · rintro ((⟨c, ⟨hc, ho⟩, hid⟩ | ⟨c, hc, g, ⟨hg, hgc, ht, hr, hl, hm⟩, hid⟩) |
      ⟨c, hc, rc, ⟨hrc, hrcc, hrcd⟩, g, ⟨hg, hgc, ht, hr, hl, hcov, hm⟩, hid⟩) <;>
      obtain ⟨rfl, hin⟩ := (hcand c).mp ⟨hc, hid⟩
    · exact ⟨hin, c.ownerOrgUnitId, ho, .inl rfl⟩
    · rw [← hgc] at hm
      obtain ⟨s, hs, hp⟩ := (principalMatches_iff h hg).mp hm
      exact ⟨hin, s, hs, .inr ⟨g, hg, hgc, hl, .inl ⟨ht, hr⟩, hgc ▸ hp⟩⟩
    · rw [← hgc] at hm
      obtain ⟨s, hs, hp⟩ := (principalMatches_iff h hg).mp hm
      exact ⟨hin, s, hs,
        .inr ⟨g, hg, hgc, hl, .inr ⟨ht, rc, hrc, hrcc, hr.symm, hrcd, hcov⟩, hgc ▸ hp⟩⟩
  · rintro ⟨hin, s, hs, ho | ⟨g, hg, hgc, hl, hres, hp⟩⟩
    · exact .inl (.inl ⟨d, ⟨((hcand d).mpr ⟨rfl, hin⟩).1, ho ▸ hs⟩, rfl⟩)
    · have hm : PrincipalMatches db d.companyId scope g :=
        hgc ▸ (principalMatches_iff h hg).mpr ⟨s, hs, hgc.symm ▸ hp⟩
      have hd' := ((hcand d).mpr ⟨rfl, hin⟩).1
      rcases hres with ⟨ht, hr⟩ | ⟨ht, rc, hrc, hrcc, hra, hrcd, hcov⟩
      · exact .inl (.inr ⟨d, hd', g, ⟨hg, hgc, ht, hr, hl, hm⟩, rfl⟩)
      · exact .inr ⟨d, hd', rc, ⟨hrc, hrcc, hrcd⟩, g, ⟨hg, hgc, ht, hra.symm, hl, hcov, hm⟩, rfl⟩

end Rule

/-- Each candidate of `wikore_visible_doc_ids` is judged on its own. -/
theorem mem_visibleDocIds_candidates {db : AccessDb} {now : Nat} {c x : Uuid}
    {scope candidates : List Uuid} :
    x ∈ visibleDocIds db now c scope candidates ↔
      x ∈ candidates ∧ x ∈ visibleDocIds db now c scope [x] := by
  simp only [visibleDocIds, candidateDocs, List.mem_dedup, List.mem_append, List.mem_map,
    List.mem_flatMap, List.mem_filter, decide_eq_true_eq, List.mem_singleton]
  constructor
  · rintro ((⟨d, ⟨⟨hd, hc, hin⟩, ho⟩, rfl⟩ | ⟨d, ⟨hd, hc, hin⟩, g, hg, rfl⟩) |
      ⟨d, ⟨hd, hc, hin⟩, rc, hrc, g, hg, rfl⟩)
    · exact ⟨hin, .inl (.inl ⟨d, ⟨⟨hd, hc, rfl⟩, ho⟩, rfl⟩)⟩
    · exact ⟨hin, .inl (.inr ⟨d, ⟨hd, hc, rfl⟩, g, hg, rfl⟩)⟩
    · exact ⟨hin, .inr ⟨d, ⟨hd, hc, rfl⟩, rc, hrc, g, hg, rfl⟩⟩
  · rintro ⟨hin, (⟨d, ⟨⟨hd, hc, -⟩, ho⟩, rfl⟩ | ⟨d, ⟨hd, hc, -⟩, g, hg, rfl⟩) |
      ⟨d, ⟨hd, hc, -⟩, rc, hrc, g, hg, rfl⟩⟩
    · exact .inl (.inl ⟨d, ⟨⟨hd, hc, hin⟩, ho⟩, rfl⟩)
    · exact .inl (.inr ⟨d, ⟨hd, hc, hin⟩, g, hg, rfl⟩)
    · exact .inr ⟨d, ⟨hd, hc, hin⟩, rc, hrc, g, hg, rfl⟩

/-- The pre-filter of the vector index and the gate of the database agree: the scopes computed for
a document meet the reader's units exactly when the reader's units make it visible. -/
theorem accessScopes_meet_iff_visible (db : AccessDb) (h : db.Valid) (now : Nat)
    (d : Document) (hd : d ∈ db.documents) (scope : List Uuid) :
    (∃ s ∈ fetchAccessScopes db now d.companyId d.id, s ∈ scope) ↔
      d.id ∈ visibleDocIds db now d.companyId scope [d.id] := by
  rw [mem_visibleDocIds h hd]
  constructor
  · rintro ⟨s, hs, hin⟩
    exact ⟨by simp, s, hin, (mem_fetchAccessScopes h hd).mp hs⟩
  · rintro ⟨-, s, hin, hs⟩
    exact ⟨s, (mem_fetchAccessScopes h hd).mpr hs, hin⟩

/-- Payroll, under HR, owns a document; Legal and what is under it may read HR and what is under
it. -/
def legalReadsHr : AccessDb where
  org := OrgDb.empty.run [.createCompany 1 "Acme" "acme" 10,
    .insertOrgUnit ⟨11, 1, some 10, .department, "hr", "HR"⟩,
    .insertOrgUnit ⟨12, 1, some 11, .team, "payroll", "Payroll"⟩,
    .insertOrgUnit ⟨13, 1, some 10, .department, "legal", "Legal"⟩,
    .insertOrgUnit ⟨14, 1, some 13, .team, "contracts", "Contracts"⟩]
  documents := [⟨100, 1, 12⟩]
  resourceGrants := [⟨200, 1, .orgUnit, 11, .orgUnit, 13, .read, .selfAndDescendants,
    .selfAndDescendants, some 50⟩]

theorem legalReadsHr_valid : legalReadsHr.Valid where
  documentKey := by simp [legalReadsHr]
  closure := (OrgDb.empty_consistent.run _).closureIsReflTrans
  principalExists := by decide
  resourceExists := by
    intro g hg
    obtain rfl := List.mem_singleton.mp hg
    exact (by decide : legalReadsHr.org.HasUnit 1 11)

theorem contracts_sees_payroll_document :
    legalReadsHr.Valid ∧ ⟨100, 1, 12⟩ ∈ legalReadsHr.documents ∧
      (100 : Uuid) ∈ visibleDocIds legalReadsHr 49 1 [14] [100] := by
  refine ⟨legalReadsHr_valid, by decide, ?_⟩
  exact (accessScopes_meet_iff_visible legalReadsHr legalReadsHr_valid 49 ⟨100, 1, 12⟩ (by decide)
    [14]).mp ⟨14, by decide, by decide⟩

end Wikore
