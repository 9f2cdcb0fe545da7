import Wikore.Access.RoleAgreement
import Wikore.Org.ConcurrentTree
import Wikore.Lib.Assembly
import Wikore.Lib.Sorting
import Wikore.Rag.ContextBuilder
import Mathlib.Data.Prod.Lex
import Mathlib.Data.String.Basic

/-! The handlers `orgs_tree` and `org_get`: the chart of the units that a caller may see, and one of
these units by its id.  The rows of the chart are put together by their `parent_id`, so what a caller
sees of the tree is a forest whose roots are where the caller's access begins. -/

namespace Wikore

open ContextBuilder (Error ErrorKind)
open Fallible ParentForest Sorting

def OrgUnitType.text : OrgUnitType → String
  | root => "root"
  | subsidiary => "subsidiary"
  | division => "division"
  | department => "department"
  | team => "team"
  | project => "project"

/-- A response that is not 200: its status and the `error` of its body. -/
structure HttpError where
  status : Nat
  message : String
deriving DecidableEq, Repr

/-- What the handlers read of the identity in the request; its user id is a `users.id`. -/
structure Caller where
  userId : Uuid
  isAdmin : Bool
deriving DecidableEq, Repr

/-- The tables, with `users.deactivated_at` and `org_units.description`. -/
structure ApiDb where
  acl : AclDb
  deactivatedAt : Uuid → Option Nat
  description : Uuid → Option String

namespace Orgs

def kMaxDepth : Nat := 64

def kMaxNodes : Nat := 10000

def statusFor : ErrorKind → Nat
  | .serviceUnavailable => 503
  | .notFound => 404
  | .forbidden => 403
  | .invalidInput => 400
  | _ => 500

def clientMsg (code : Nat) : String :=
  if code = 503 then "service temporarily unavailable"
  else if code ≥ 500 then "internal error"
  else "request could not be completed"

/-- The response to an error of the domain. -/
def mapped (e : Error) : HttpError := ⟨statusFor e.kind, clientMsg (statusFor e.kind)⟩

/-- The places where the database may fail: beginning the transaction, and its statements. -/
inductive OrgsQuery
  | begin | tenant | unit | scope | units
deriving DecidableEq, Repr

/-- A statement that fails with the error its exception is mapped to, if it fails. -/
def attempt (fault : Option Error) : Except HttpError Unit :=
  match fault with
  | none => .ok ()
  | some e => .error (mapped e)

section Queries

variable (db : ApiDb)

/-- `SELECT ... FROM users WHERE id = $1 AND deactivated_at IS NULL`. -/
def activeUser (userId : Uuid) : Option User :=
  db.acl.users.find? fun u => u.id = userId ∧ db.deactivatedAt u.id = none

/-- `SELECT ... FROM org_units WHERE company_id = $1`. -/
def unitsOf (companyId : Uuid) : List OrgUnit :=
  db.acl.org.orgUnits.filter fun x => x.companyId = companyId

def rootOf (companyId : Uuid) : Option OrgUnit :=
  (unitsOf db companyId).find? fun x => x.type = .root

/-- `PostgresAccessResolver::resolve`, and what the handlers make of its errors. -/
def resolve (fault : Option Error) (now : Nat) (companyId userId unit : Uuid) :
    Except HttpError (List Uuid) := do
  attempt fault
  match resolveQuery db.acl now companyId userId unit with
  | none => .error (mapped ⟨.notFound, "access_resolver: principal not found in tenant"⟩)
  | some rows => .ok rows.orgUnitIds

end Queries

/-! ### The handlers -/

/-- A node of the chart, its children apart. -/
structure OrgNode where
  id : String
  type : String
  slug : String
  name : String
  description : String
deriving DecidableEq, Repr

def orgNode (db : ApiDb) (x : OrgUnit) : OrgNode :=
  ⟨Uuid.text x.id, x.type.text, x.slug, x.name, (db.description x.id).getD ""⟩

/-- `type`, `slug` and so on of one unit, with its parent. -/
structure OrgDto where
  id : String
  parentId : Option String
  type : String
  slug : String
  name : String
  description : String
deriving DecidableEq, Repr

def orgDto (db : ApiDb) (x : OrgUnit) : OrgDto :=
  ⟨Uuid.text x.id, x.parentId.map Uuid.text, x.type.text, x.slug, x.name,
    (db.description x.id).getD ""⟩

/-- `isxdigit`. -/
def isXDigit (c : Char) : Bool :=
  c.isDigit || ('a' ≤ c && c ≤ 'f') || ('A' ≤ c && c ≤ 'F')

/-- What `looks_like_uuid` asks of the character at a place. -/
def uuidCharAt (i : Nat) (c : Char) : Bool :=
  if i = 8 ∨ i = 13 ∨ i = 18 ∨ i = 23 then c == '-' else isXDigit c

def looksLikeUuid (s : String) : Bool :=
  s.toList.length == 36 && s.toList.zipIdx.all fun (c, i) => uuidCharAt i c

/-- The text of `s::uuid`, for a string that looks like a UUID: its digits may be in either case. -/
def castUuid (s : String) : String := String.ofList (s.toList.map Char.toLower)

section Handlers

variable (db : ApiDb) (sort : List OrgUnit → List OrgUnit) (now : Nat)
  (fault : OrgsQuery → Option Error)

/-- The units that the caller may see; `none` stands for an admin, who sees the full chart. -/
def accessible (caller : Caller) (companyId root : Uuid) : Except HttpError (Option (List Uuid)) :=
  if caller.isAdmin then .ok none
  else (resolve db (fault .scope) now companyId caller.userId root).map some

/-- The rows of the chart; `sort` is `ORDER BY name, slug`. -/
def chartRows (companyId : Uuid) (scope : Option (List Uuid)) : List OrgUnit :=
  (sort (unitsOf db companyId)).filter fun x => scope.all fun ids => x.id ∈ ids

/-- The handler `orgs_tree`; its statements run on one snapshot. -/
def orgsTree (identity : Option Caller) : Except HttpError (List (Rose OrgNode)) := do
  match identity with
  | none => .error ⟨401, "unauthenticated"⟩
  | some caller =>
    attempt (fault .begin)
    attempt (fault .tenant)
    match (activeUser db caller.userId).bind fun u => (rootOf db u.companyId).map (u, ·) with
    | none => .error ⟨403, "user not found or deactivated"⟩
    | some (u, root) =>
      rejectIf ((unitsOf db u.companyId).length > kMaxNodes) ⟨500, "org tree too large"⟩
      let scope ← accessible db now fault caller u.companyId root.id
      if scope = some [] then return []
      attempt (fault .units)
      let rows := chartRows db sort u.companyId scope
      let roots := tops OrgUnit.id OrgUnit.parentId rows
      rejectIf (roots.any (tooDeep OrgUnit.id OrgUnit.parentId rows kMaxDepth))
        ⟨500, "org tree too deep"⟩
      return Rose.mapAll (orgNode db) (roots.map (build OrgUnit.id OrgUnit.parentId rows kMaxDepth))

/-- The handler `org_get`. -/
def orgGet (identity : Option Caller) (orgUnitId : String) : Except HttpError OrgDto := do
  match identity with
  | none => .error ⟨401, "unauthenticated"⟩
  | some caller =>
    rejectIf (looksLikeUuid orgUnitId = false) ⟨404, "org unit not found"⟩
    attempt (fault .begin)
    attempt (fault .tenant)
    match activeUser db caller.userId with
    | none => .error ⟨403, "user not found or deactivated"⟩
    | some u =>
      attempt (fault .unit)
      match (unitsOf db u.companyId).find? fun x => Uuid.text x.id = castUuid orgUnitId with
      | none => .error ⟨404, "org unit not found"⟩
      | some x =>
        let scope ← accessible db now fault caller u.companyId x.id
        rejectIf (scope.any fun ids => orgUnitId ∉ ids.map Uuid.text) ⟨404, "org unit not found"⟩
        return orgDto db x

end Handlers

/-! ### The rows of the chart -/

/-- The keys of the tables, the organisation's tree and its closure. -/
structure Valid (db : ApiDb) : Prop where
  unitKeys : (db.acl.org.orgUnits.map OrgUnit.id).Nodup
  tree : db.acl.org.Consistent
  foreignKeys : db.acl.ForeignKeys

/-- What `ORDER BY name, slug` compares, in a collation. -/
def chartKey {κ : Type} (collate : String → κ) (x : OrgUnit) : κ ×ₗ κ :=
  toLex (collate x.name, collate x.slug)

/-- Every statement succeeds. -/
def noFault : OrgsQuery → Option Error := fun _ => none

/-- The user is at least a viewer of the unit, or an admin. -/
def MaySee (db : ApiDb) (now : Nat) (caller : Caller) (x : OrgUnit) : Prop :=
  caller.isAdmin = true ∨ hasRole db.acl now caller.userId x.id .viewer = true

instance (db : ApiDb) (now : Nat) (caller : Caller) (x : OrgUnit) :
    Decidable (MaySee db now caller x) :=
  inferInstanceAs (Decidable (_ ∨ _))

section Rows

variable {db : ApiDb} {sort : List OrgUnit → List OrgUnit} {now : Nat} {caller : Caller} {u : User}
  {κ : Type} [LinearOrder κ] {collate : String → κ}

theorem mem_unitsOf {c : Uuid} {x : OrgUnit} :
    x ∈ unitsOf db c ↔ x ∈ db.acl.org.orgUnits ∧ x.companyId = c := by
  simp [unitsOf]

theorem activeUser_some {userId : Uuid} (hu : activeUser db userId = some u) :
    u ∈ db.acl.users ∧ u.id = userId := by
  refine ⟨List.mem_of_find?_eq_some hu, ?_⟩
  have := List.find?_some hu
  simp only [decide_eq_true_eq] at this
  exact this.1

theorem hasUser_of_activeUser (hu : activeUser db caller.userId = some u) :
    db.acl.HasUser u.companyId caller.userId := by
  obtain ⟨hmem, hid⟩ := activeUser_some hu
  exact ⟨u, hmem, rfl, hid⟩

namespace Valid

variable (h : Valid db)

include h

/-- The company of a user has its root, and all its units are below it. -/
theorem root (hu : activeUser db caller.userId = some u) :
    ∃ r, rootOf db u.companyId = some r ∧
      ∀ x ∈ unitsOf db u.companyId, ∃ k, db.acl.org.Reaches u.companyId x.id k r.id := by
  obtain ⟨hmem, -⟩ := activeUser_some hu
  obtain ⟨r, hr, hc, hnone⟩ := h.tree.rootExists _ (h.foreignKeys.userCompany u hmem)
  have hsome : (rootOf db u.companyId).isSome := by
    refine List.find?_isSome.mpr ⟨r, mem_unitsOf.mpr ⟨hr, hc⟩, ?_⟩
    simpa using OrgDb.type_of_parent_none (h.tree.shape r hr) hnone
  obtain ⟨s, hs⟩ := Option.isSome_iff_exists.mp hsome
  refine ⟨s, hs, fun x hx => ?_⟩
  obtain ⟨hsm, hsc⟩ := mem_unitsOf.mp (List.mem_of_find?_eq_some hs)
  have hstype : s.type = .root := by simpa using List.find?_some hs
  have hsnone : s.parentId = none := by
    rcases h.tree.shape s hsm with ⟨-, hp⟩ | ⟨hne, -⟩
    · exact hp
    · exact absurd hstype hne
  obtain ⟨hxm, hxc⟩ := mem_unitsOf.mp hx
  obtain ⟨t, ht, htc, htnone, k, hk⟩ := h.tree.toTreeOk.exists_root hxm
  obtain rfl : t = s := h.tree.rootUnique t ht s hsm (htc.trans (hxc.trans hsc.symm)) htnone hsnone
  exact ⟨k, hxc ▸ hk⟩

theorem resolve_eq (hu : activeUser db caller.userId = some u) (unit : Uuid) :
    resolve db none now u.companyId caller.userId unit =
      .ok (scopeIds db.acl now u.companyId caller.userId unit) := by
  obtain ⟨rows, hrows, hids⟩ : ∃ rows,
      resolveQuery db.acl now u.companyId caller.userId unit = some rows ∧
        rows.orgUnitIds = scopeIds db.acl now u.companyId caller.userId unit :=
    h.foreignKeys.resolveQuery_eq (hasUser_of_activeUser hu)
  rw [resolve, hrows, ← hids]
  rfl

variable (now) in
/-- Where no statement fails, an admin is not restricted and another caller sees the units that the
scope has below the one that is asked for. -/
theorem accessible_eq (hu : activeUser db caller.userId = some u) (unit : Uuid) :
    accessible db now noFault caller u.companyId unit =
      .ok (if caller.isAdmin then none
        else some (scopeIds db.acl now u.companyId caller.userId unit)) := by
  rw [accessible, noFault, h.resolve_eq hu]
  split <;> rfl

/-- A unit below the one that is asked for is in the scope exactly when the caller may see it. -/
theorem scope_all_iff (hu : activeUser db caller.userId = some u) {unit : Uuid} {x : OrgUnit}
    (hreach : ∃ k, db.acl.org.Reaches u.companyId x.id k unit) :
    (if caller.isAdmin then none
      else some (scopeIds db.acl now u.companyId caller.userId unit)).all
        (fun ids => decide (x.id ∈ ids)) = decide (MaySee db now caller x) := by
  have hmem : x.id ∈ scopeIds db.acl now u.companyId caller.userId unit ↔
      (∃ k, db.acl.org.Reaches u.companyId x.id k unit) ∧
        hasRole db.acl now caller.userId x.id .viewer = true :=
    mem_scopeIds_iff_hasRole h.foreignKeys h.tree.closureExact (hasUser_of_activeUser hu)
  cases hadmin : caller.isAdmin with
  | true => simp [MaySee, hadmin]
  | false => simp [MaySee, hadmin, hmem, hreach]

theorem hierarchy {c : Uuid} {rows : List OrgUnit} (hnodup : rows.Nodup)
    (hrows : ∀ x ∈ rows, x ∈ unitsOf db c) :
    Hierarchy OrgUnit.id OrgUnit.parentId rows where
  keys := by
    refine hnodup.map_on fun x hx y hy he => ?_
    exact h.tree.idUnique x (mem_unitsOf.mp (hrows x hx)).1 y (mem_unitsOf.mp (hrows y hy)).1 he
  acyclic := by
    refine (h.tree.acyclic c).mono fun k p hp => ?_
    obtain ⟨hbind, -⟩ := Option.filter_eq_some_iff.mp hp
    obtain ⟨x, hx, hparent⟩ := Option.bind_eq_some_iff.mp hbind
    obtain ⟨hmem, rfl⟩ := mem_unitsOf.mp (hrows x (List.mem_of_find?_eq_some hx))
    obtain rfl : x.id = k := by simpa using List.find?_some hx
    rw [h.tree.toUnitsOk.parentOf_of_mem hmem, hparent]

end Valid

/-- The rows that the chart of a caller is made of. -/
def readableRows (db : ApiDb) (sort : List OrgUnit → List OrgUnit) (now : Nat) (caller : Caller)
    (companyId : Uuid) : List OrgUnit :=
  (sort (unitsOf db companyId)).filter fun x => MaySee db now caller x

theorem mem_readableRows (hsort : Sorts (chartKey collate) sort) {c : Uuid} {x : OrgUnit} :
    x ∈ readableRows db sort now caller c ↔ x ∈ unitsOf db c ∧ MaySee db now caller x := by
  simp [readableRows, hsort.mem_iff]

variable (now caller) in
theorem Valid.readable_hierarchy (h : Valid db) (hsort : Sorts (chartKey collate) sort) (c : Uuid) :
    Hierarchy OrgUnit.id OrgUnit.parentId (readableRows db sort now caller c) := by
  have hunits : (unitsOf db c).Nodup := h.unitKeys.of_map.filter _
  refine h.hierarchy (c := c) (((hsort.perm _).nodup_iff.mpr hunits).filter _) fun x hx => ?_
  exact ((mem_readableRows hsort).mp hx).1

variable (now) in
/-- The chart is made of the rows that the caller may see. -/
theorem Valid.orgsTree_eq (h : Valid db) (hsort : Sorts (chartKey collate) sort)
    (hu : activeUser db caller.userId = some u) :
    let rows := readableRows db sort now caller u.companyId
    let roots := tops OrgUnit.id OrgUnit.parentId rows
    orgsTree db sort now noFault (some caller) = do
      rejectIf ((unitsOf db u.companyId).length > kMaxNodes) ⟨500, "org tree too large"⟩
      rejectIf (roots.any (tooDeep OrgUnit.id OrgUnit.parentId rows kMaxDepth))
        ⟨500, "org tree too deep"⟩
      return Rose.mapAll (orgNode db)
        (roots.map (build OrgUnit.id OrgUnit.parentId rows kMaxDepth)) := by
  intro rows roots
  obtain ⟨r, hr, hreach⟩ := h.root hu
  have hchart : chartRows db sort u.companyId (if caller.isAdmin then none
      else some (scopeIds db.acl now u.companyId caller.userId r.id)) = rows := by
    refine List.filter_congr fun x hx => ?_
    exact h.scope_all_iff hu (hreach x (hsort.mem_iff.mp hx))
  rw [orgsTree]
  simp only [hu, hr, Option.bind_some, Option.map_some, noFault, attempt]
  by_cases hlarge : (unitsOf db u.companyId).length > kMaxNodes
  · simp only [rejectIf, if_pos hlarge]
    rfl
  · have hscope := h.accessible_eq now hu r.id
    simp only [rejectIf, if_neg hlarge, hscope]
    generalize hs : (if caller.isAdmin then none
      else some (scopeIds db.acl now u.companyId caller.userId r.id)) = scope at hchart
    by_cases hnil : scope = some []
    · -- an empty scope leaves no rows
      have hrows : rows = [] := by
        rw [← hchart, hnil]
        exact List.filter_eq_nil_iff.mpr fun x _ => by simp
      have hroots : roots = [] := by
        simp only [roots, hrows]
        rfl
      rw [hroots, hnil]
      rfl
    · simp only [pure, Except.pure, bind, Except.bind, if_neg hnil, hchart]
      rfl

/-- A chart that is answered shows the rows that the caller may see. -/
theorem Valid.shows_of_orgsTree (h : Valid db) (hsort : Sorts (chartKey collate) sort)
    (hu : activeUser db caller.userId = some u) {chart : List (Rose OrgNode)}
    (htree : orgsTree db sort now noFault (some caller) = .ok chart) :
    ∃ forest, Rose.mapAll (orgNode db) forest = chart ∧
      Shows OrgUnit.id OrgUnit.parentId (readableRows db sort now caller u.companyId) forest := by
  rw [h.orgsTree_eq now hsort hu] at htree
  simp only [rejectIf_bind_ok] at htree
  obtain ⟨-, hdeep, hchart⟩ := htree
  cases hchart
  exact ⟨_, rfl, (h.readable_hierarchy now caller hsort u.companyId).shows (Bool.eq_false_iff.mpr hdeep)⟩

variable (now) in
/-- The chart of a small company is never too deep. -/
theorem Valid.exists_chart (h : Valid db) (hsort : Sorts (chartKey collate) sort)
    (hu : activeUser db caller.userId = some u)
    (hsmall : (unitsOf db u.companyId).length ≤ kMaxDepth) :
    ∃ chart, orgsTree db sort now noFault (some caller) = .ok chart := by
  have hier := h.readable_hierarchy now caller hsort u.companyId
  have hnotLarge : ¬(unitsOf db u.companyId).length > kMaxNodes := by
    have : kMaxDepth ≤ kMaxNodes := by decide
    omega
  have hshallow : ¬∃ x ∈ readableRows db sort now caller u.companyId,
      (ancestor (parentIn OrgUnit.id OrgUnit.parentId (readableRows db sort now caller u.companyId))
        (kMaxDepth + 1) x.id).isSome := by
    rintro ⟨x, hx, ha⟩
    obtain ⟨a, ha⟩ := Option.isSome_iff_exists.mp ha
    have hlt := hier.ancestor_lt_length hx ha
    have hle : (readableRows db sort now caller u.companyId).length ≤
        (unitsOf db u.companyId).length :=
      (List.length_filter_le _ _).trans (hsort.length_eq).le
    omega
  rw [h.orgsTree_eq now hsort hu, rejectIf, if_neg hnotLarge, rejectIf,
    if_neg fun hdeep => hshallow (hier.any_tooDeep_iff.mp hdeep)]
  exact ⟨_, rfl⟩

end Rows

/-- A company of two units, with a user who may see both. -/
def smallCompany : ApiDb where
  acl := groupReader
  deactivatedAt := fun _ => none
  description := fun _ => none

theorem smallCompany_valid : Valid smallCompany where
  unitKeys := by decide
  tree := OrgDb.empty_consistent.run _
  foreignKeys := groupReader_foreignKeys

/-- The collation that compares code points. -/
def sortByName (units : List OrgUnit) : List OrgUnit :=
  units.mergeSort fun x y => decide (chartKey (fun s : String => s) x ≤ chartKey (fun s => s) y)

theorem sortByName_sorts : Sorts (chartKey fun s : String => s) sortByName :=
  mergeSort_sorts (chartKey fun s : String => s)

theorem smallCompany_reader : activeUser smallCompany (Caller.mk 100 false).userId =
    some { id := 100, companyId := 1 } := by decide

section Exact

variable {db : ApiDb} {sort : List OrgUnit → List OrgUnit} {caller : Caller} {u : User}
  {κ : Type} [LinearOrder κ] {collate : String → κ}

/-- For every state of the tables and every active caller: `orgs_tree` refuses a company of too many
units; else it refuses a chart in which some unit the caller may see has more than `kMaxDepth` such
units above it, each the parent of the next; else it answers with a forest that shows the units the
caller may see, every one once and under its parent, where a unit stands at a root exactly when its
parent is not among them, and the children of every node are in the order of their names. -/
theorem orgsTree_exact (h : Valid db) (hsort : Sorts (chartKey collate) sort)
    (hu : activeUser db caller.userId = some u) (now : Nat) :
    let units := unitsOf db u.companyId
    let rows := readableRows db sort now caller u.companyId
    let Deep := ∃ x ∈ rows,
      (ancestor (parentIn OrgUnit.id OrgUnit.parentId rows) (kMaxDepth + 1) x.id).isSome
    (kMaxNodes < units.length →
      orgsTree db sort now noFault (some caller) = .error ⟨500, "org tree too large"⟩) ∧
    (units.length ≤ kMaxNodes → Deep →
      orgsTree db sort now noFault (some caller) = .error ⟨500, "org tree too deep"⟩) ∧
    (units.length ≤ kMaxNodes → ¬Deep → ∃ forest : List (Rose OrgUnit),
      orgsTree db sort now noFault (some caller) = .ok (Rose.mapAll (orgNode db) forest) ∧
      Shows OrgUnit.id OrgUnit.parentId rows forest ∧
      ∀ t ∈ forest.flatMap Rose.nodes,
        ((t.children.map Rose.label).map (chartKey collate)).Pairwise (· ≤ ·)) := by
  intro units rows Deep
  have heq := h.orgsTree_eq now hsort hu
  have hier := h.readable_hierarchy now caller hsort u.companyId
  have hdeep := hier.any_tooDeep_iff (d := kMaxDepth)
  refine ⟨fun hlarge => ?_, fun hsmall hd => ?_, fun hsmall hd => ?_⟩
  · rw [heq, rejectIf, if_pos hlarge]
    rfl
  · rw [heq, rejectIf, if_neg (Nat.not_lt.mpr hsmall), rejectIf, if_pos (hdeep.mpr hd)]
    rfl
  · have hfalse := Bool.eq_false_iff.mpr fun ht => hd (hdeep.mp ht)
    have hshows := hier.shows hfalse
    refine ⟨_, ?_, hshows, fun t ht => ?_⟩
    · rw [heq, rejectIf, if_neg (Nat.not_lt.mpr hsmall), rejectIf, if_neg (by rw [hfalse]; simp)]
      rfl
    · rw [hshows.children t ht]
      refine List.Pairwise.sublist ?_ (hsort.ordered units)
      exact (List.filter_sublist.trans List.filter_sublist).map _

theorem smallCompany_chart : ∃ forest : List (Rose OrgUnit),
    orgsTree smallCompany sortByName 7 noFault (some ⟨100, false⟩) =
      .ok (Rose.mapAll (orgNode smallCompany) forest) ∧
    Shows OrgUnit.id OrgUnit.parentId (readableRows smallCompany sortByName 7 ⟨100, false⟩ 1)
      forest := by
  obtain ⟨hlarge, hdeep, hshown⟩ := orgsTree_exact smallCompany_valid sortByName_sorts
    smallCompany_reader 7
  obtain ⟨chart, hchart⟩ := smallCompany_valid.exists_chart 7 sortByName_sorts
    smallCompany_reader (by decide)
  have hunits : (unitsOf smallCompany 1).length ≤ kMaxNodes := by decide
  obtain ⟨forest, hforest, hshows, -⟩ := hshown hunits fun hd => by
    rw [hdeep hunits hd] at hchart
    cases hchart
  exact ⟨forest, hforest, hshows⟩

end Exact

/-! ### One unit by its id -/

theorem hexDigit_plain {n : Nat} (hn : n < 16) :
    isXDigit (hexDigit n) = true ∧ (hexDigit n).toLower = hexDigit n := by
  have hall : ∀ n < 16, isXDigit (hexDigit n) = true ∧ (hexDigit n).toLower = hexDigit n := by
    decide
  exact hall n hn

theorem mem_digits {x : Uuid} {c : Char} (hc : c ∈ Uuid.digits x) :
    isXDigit c = true ∧ c.toLower = c := by
  obtain ⟨i, -, rfl⟩ := List.mem_map.mp hc
  exact hexDigit_plain (Nat.mod_lt _ (by omega))

/-- The text of a UUID is its own canonical form. -/
theorem castUuid_text (x : Uuid) : castUuid (Uuid.text x) = Uuid.text x := by
  have hdrop : ∀ {n : Nat} {c : Char}, c ∈ (Uuid.digits x).drop n → c.toLower = c := fun hc =>
    (mem_digits (List.mem_of_mem_drop hc)).2
  have htake : ∀ {n m : Nat} {c : Char}, c ∈ ((Uuid.digits x).drop n).take m → c.toLower = c :=
    fun hc => hdrop (List.mem_of_mem_take hc)
  have hdash : '-'.toLower = '-' := by decide
  have hlower : ∀ c ∈ (Uuid.text x).toList, c.toLower = c := by
    intro c hc
    simp only [Uuid.text, String.toList_ofList, List.mem_append, List.mem_cons] at hc
    rcases hc with (((hc | rfl | hc) | rfl | hc) | rfl | hc) | rfl | hc
    · exact (mem_digits (List.mem_of_mem_take hc)).2
    · exact hdash
    · exact htake hc
    · exact hdash
    · exact htake hc
    · exact hdash
    · exact htake hc
    · exact hdash
    · exact hdrop hc
  rw [castUuid, List.map_congr_left hlower, List.map_id', String.ofList_toList]

theorem all_uuidCharAt {l : List Char} {k : Nat} (hl : ∀ c ∈ l, isXDigit c = true)
    (hk : ∀ i, k ≤ i → i < k + l.length → ¬(i = 8 ∨ i = 13 ∨ i = 18 ∨ i = 23)) :
    ((l.zipIdx k).all fun (c, i) => uuidCharAt i c) = true := by
  rw [List.all_eq_true]
  rintro ⟨c, i⟩ hci
  obtain ⟨hle, hlt, hc⟩ := List.mem_zipIdx hci
  have hmem : c ∈ l := hc ▸ List.getElem_mem _
  dsimp only
  rw [uuidCharAt, if_neg (hk i hle hlt)]
  exact hl c hmem

theorem looksLikeUuid_text (x : Uuid) : looksLikeUuid (Uuid.text x) = true := by
  have hlen : (Uuid.digits x).length = 32 := by simp [Uuid.digits]
  have hx : ∀ c ∈ Uuid.digits x, isXDigit c = true := fun c hc => (mem_digits hc).1
  rw [looksLikeUuid, Uuid.text, String.toList_ofList]
  generalize Uuid.digits x = d at hlen hx
  have hpart : ∀ n m, ∀ c ∈ (d.drop n).take m, isXDigit c = true := fun n m c hc =>
    hx c (List.mem_of_mem_drop (List.mem_of_mem_take hc))
  have hfirst : ∀ c ∈ d.take 8, isXDigit c = true := fun c hc => hx c (List.mem_of_mem_take hc)
  have hlast : ∀ c ∈ d.drop 20, isXDigit c = true := fun c hc => hx c (List.mem_of_mem_drop hc)
  simp only [List.zipIdx_append, List.zipIdx_cons, List.all_append, List.all_cons,
    List.length_append, List.length_cons, List.length_take, List.length_drop, hlen, Bool.and_eq_true,
    beq_iff_eq]
  refine ⟨by decide, ⟨⟨⟨?_, by decide, ?_⟩, by decide, ?_⟩, by decide, ?_⟩, by decide, ?_⟩
  · exact all_uuidCharAt hfirst (by simp only [List.length_take, hlen]; omega)
  · exact all_uuidCharAt (hpart _ _) (by simp only [List.length_take, List.length_drop, hlen]; omega)
  · exact all_uuidCharAt (hpart _ _) (by simp only [List.length_take, List.length_drop, hlen]; omega)
  · exact all_uuidCharAt (hpart _ _) (by simp only [List.length_take, List.length_drop, hlen]; omega)
  · exact all_uuidCharAt hlast (by simp only [List.length_drop, hlen]; omega)

section Agreement

variable {db : ApiDb} {sort : List OrgUnit → List OrgUnit} {now : Nat} {caller : Caller} {u : User}
  {κ : Type} [LinearOrder κ] {collate : String → κ}

/-- Two units of one company with the same text of their ids are the same. -/
theorem Valid.find_text (h : Valid db) {x : OrgUnit} (hx : x ∈ unitsOf db u.companyId) {s : String}
    (hs : Uuid.text x.id = castUuid s) :
    ((unitsOf db u.companyId).find? fun y => Uuid.text y.id = castUuid s) = some x := by
  have hsome : ((unitsOf db u.companyId).find? fun y => Uuid.text y.id = castUuid s).isSome :=
    List.find?_isSome.mpr ⟨x, hx, by simpa using hs⟩
  obtain ⟨y, hy⟩ := Option.isSome_iff_exists.mp hsome
  have htext : Uuid.text y.id = castUuid s := by simpa using List.find?_some hy
  have hid := Uuid.text_injective (htext.trans hs.symm)
  have hmem := mem_unitsOf.mp (List.mem_of_find?_eq_some hy)
  rw [hy, h.tree.idUnique y hmem.1 x (mem_unitsOf.mp hx).1 hid]

variable (now) in
/-- The comparison of the scope's ids with the string that was asked for. -/
theorem Valid.scope_any_iff (h : Valid db) (hu : activeUser db caller.userId = some u)
    {x : OrgUnit} (hx : x ∈ unitsOf db u.companyId) {s : String}
    (hs : Uuid.text x.id = castUuid s) :
    (if caller.isAdmin then none
      else some (scopeIds db.acl now u.companyId caller.userId x.id)).any
        (fun ids => decide (s ∉ ids.map Uuid.text)) = true ↔
      ¬(MaySee db now caller x ∧ (caller.isAdmin = true ∨ s = Uuid.text x.id)) := by
  obtain ⟨hxm, hxc⟩ := mem_unitsOf.mp hx
  have hself : ∃ k, db.acl.org.Reaches u.companyId x.id k x.id :=
    ⟨0, hxc ▸ OrgDb.hasUnit_of_mem hxm, rfl⟩
  have hmem : x.id ∈ scopeIds db.acl now u.companyId caller.userId x.id ↔
      (∃ k, db.acl.org.Reaches u.companyId x.id k x.id) ∧
        hasRole db.acl now caller.userId x.id .viewer = true :=
    mem_scopeIds_iff_hasRole h.foreignKeys h.tree.closureExact (hasUser_of_activeUser hu)
  have hin : s ∈ (scopeIds db.acl now u.companyId caller.userId x.id).map Uuid.text ↔
      hasRole db.acl now caller.userId x.id .viewer = true ∧ s = Uuid.text x.id := by
    rw [List.mem_map]
    constructor
    · rintro ⟨i, hi, rfl⟩
      obtain rfl : x.id = i := Uuid.text_injective (hs.trans (castUuid_text i))
      exact ⟨(hmem.mp hi).2, rfl⟩
    · rintro ⟨hrole, rfl⟩
      exact ⟨x.id, hmem.mpr ⟨hself, hrole⟩, rfl⟩
  cases hadmin : caller.isAdmin with
  | true => simp [MaySee, hadmin]
  | false =>
    simp only [Bool.false_eq_true, if_false, Option.any_some, decide_eq_true_eq, hin, MaySee, hadmin,
      false_or]

/-- Every refusal of `org_get` is the same one. -/
theorem Valid.orgGet_eq (h : Valid db) (hu : activeUser db caller.userId = some u) (s : String) :
    orgGet db now noFault (some caller) s =
      if looksLikeUuid s = false then .error ⟨404, "org unit not found"⟩ else
        match (unitsOf db u.companyId).find? fun x => Uuid.text x.id = castUuid s with
        | none => .error ⟨404, "org unit not found"⟩
        | some x =>
          if MaySee db now caller x ∧ (caller.isAdmin = true ∨ s = Uuid.text x.id) then
            .ok (orgDto db x)
          else .error ⟨404, "org unit not found"⟩ := by
  rw [orgGet]
  simp only [hu, noFault, attempt]
  by_cases hlike : looksLikeUuid s = false
  · simp only [rejectIf, if_pos hlike]
    rfl
  · simp only [rejectIf, if_neg hlike]
    cases hfind : (unitsOf db u.companyId).find? fun x => Uuid.text x.id = castUuid s with
    | none => rfl
    | some x =>
      have hx := List.mem_of_find?_eq_some hfind
      have hs : Uuid.text x.id = castUuid s := by simpa using List.find?_some hfind
      have hany := h.scope_any_iff now hu hx hs
      simp only [h.accessible_eq now hu x.id, pure, Except.pure, bind, Except.bind, hany]
      by_cases hsee : MaySee db now caller x ∧ (caller.isAdmin = true ∨ s = Uuid.text x.id)
      · rw [if_pos hsee, if_neg (not_not.mpr hsee)]
      · rw [if_neg hsee, if_pos hsee]

/-- `org_get` answers with the unit whose id the string spells, if the caller may see it; a caller who
is no admin has to spell it in lower case. -/
theorem Valid.orgGet_ok_iff (h : Valid db) (hu : activeUser db caller.userId = some u) {s : String}
    {dto : OrgDto} :
    orgGet db now noFault (some caller) s = .ok dto ↔ looksLikeUuid s = true ∧
      ∃ x ∈ unitsOf db u.companyId, Uuid.text x.id = castUuid s ∧ MaySee db now caller x ∧
        (caller.isAdmin = true ∨ s = Uuid.text x.id) ∧ orgDto db x = dto := by
  rw [h.orgGet_eq hu]
  constructor
  · intro hok
    split at hok
    next => cases hok
    next hlike =>
      cases hfind : (unitsOf db u.companyId).find? fun x => Uuid.text x.id = castUuid s with
      | none => rw [hfind] at hok; cases hok
      | some x =>
        rw [hfind] at hok
        dsimp only at hok
        split at hok
        next hsee =>
          cases hok
          exact ⟨Bool.not_eq_false _ ▸ hlike, x, List.mem_of_find?_eq_some hfind,
            by simpa using List.find?_some hfind, hsee.1, hsee.2, rfl⟩
        next => cases hok
  · rintro ⟨hlike, x, hx, hs, hsee, hspelled, rfl⟩
    rw [if_neg (by rw [hlike]; simp), h.find_text hx hs]
    dsimp only
    rw [if_pos ⟨hsee, hspelled⟩]

/-- The chart and the single units agree.  Whatever a caller's chart shows, `org_get` gives under the
id of the node, with the node's data and with the id of the node it stands under; whatever `org_get`
gives, the chart shows, under the id that the string spells; and every refusal, of a unit that is
absent, of another tenant or not visible, is the same response. -/
theorem orgGet_agrees (h : Valid db) (hsort : Sorts (chartKey collate) sort)
    (hu : activeUser db caller.userId = some u) {chart : List (Rose OrgNode)}
    (htree : orgsTree db sort now noFault (some caller) = .ok chart) :
    (∀ n ∈ Rose.labels chart, ∃ parent,
      orgGet db now noFault (some caller) n.id =
        .ok ⟨n.id, parent, n.type, n.slug, n.name, n.description⟩ ∧
      ∀ t ∈ Rose.nodesOf chart, n ∈ t.children.map Rose.label → parent = some t.label.id) ∧
    (∀ s dto, orgGet db now noFault (some caller) s = .ok dto →
      (∃ n ∈ Rose.labels chart, n.id = dto.id) ∧ dto.id = castUuid s ∧
        (caller.isAdmin = true ∨ s = dto.id)) ∧
    ∀ s e, orgGet db now noFault (some caller) s = .error e → e = ⟨404, "org unit not found"⟩ := by
  obtain ⟨forest, rfl, hshows⟩ := h.shows_of_orgsTree hsort hu htree
  have hmem : ∀ x, x ∈ Rose.labels forest ↔
      x ∈ unitsOf db u.companyId ∧ MaySee db now caller x := fun x =>
    hshows.complete.mem_iff.trans (mem_readableRows hsort)
  simp only [Rose.labels_mapAll, Rose.nodesOf_mapAll, List.forall_mem_map]
  refine ⟨fun x hx => ?_, fun s dto hok => ?_, fun s e herr => ?_⟩
  · obtain ⟨hunit, hsee⟩ := (hmem x).mp hx
    refine ⟨x.parentId.map Uuid.text, (h.orgGet_ok_iff hu).mpr ⟨looksLikeUuid_text x.id, x, hunit,
      (castUuid_text x.id).symm, hsee, .inr rfl, rfl⟩, fun t ht hchild => ?_⟩
    rw [Rose.children_map, Rose.map_label_map, List.mem_map] at hchild
    obtain ⟨y, hy, hnode⟩ := hchild
    rw [Rose.nodesOf_eq_flatMap] at ht
    rw [hshows.children t ht, mem_kids] at hy
    have hid := Uuid.text_injective (congrArg OrgNode.id hnode)
    have hyunit := ((mem_readableRows hsort).mp hy.1).1
    obtain rfl : y = x := h.tree.idUnique y (mem_unitsOf.mp hyunit).1 x (mem_unitsOf.mp hunit).1 hid
    rw [hy.2, Rose.label_map]
    rfl
  · obtain ⟨-, x, hunit, hs, hsee, hspelled, rfl⟩ := (h.orgGet_ok_iff hu).mp hok
    exact ⟨⟨orgNode db x, List.mem_map_of_mem ((hmem x).mpr ⟨hunit, hsee⟩), rfl⟩, hs, hspelled⟩
  · rw [h.orgGet_eq hu] at herr
    split at herr
    · cases herr
      rfl
    · split at herr
      · cases herr
        rfl
      · split at herr <;> cases herr
        rfl

end Agreement

theorem smallCompany_agrees : ∃ chart,
    orgsTree smallCompany sortByName 7 noFault (some ⟨100, false⟩) = .ok chart ∧
    ∀ n ∈ Rose.labels chart, ∃ dto,
      orgGet smallCompany 7 noFault (some ⟨100, false⟩) n.id = .ok dto := by
  obtain ⟨chart, hchart⟩ := smallCompany_valid.exists_chart 7 sortByName_sorts
    smallCompany_reader (by decide)
  refine ⟨chart, hchart, fun n hn => ?_⟩
  obtain ⟨parent, hget, -⟩ := (orgGet_agrees smallCompany_valid sortByName_sorts
    smallCompany_reader hchart).1 n hn
  exact ⟨_, hget⟩

end Orgs

end Wikore
