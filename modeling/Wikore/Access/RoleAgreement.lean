import Wikore.Access.Epochs

/-! The rule of who may read where is written three times: in `AccessService::effective_read_orgs`,
in `AccessService::has_role` and in the resolver.  The three agree, and more memberships never take
anything away. -/

namespace Wikore

open Statement

/-! ### The queries of `AccessService` -/

/-- The array that `CASE $3::text` gives for the required role. -/
def Role.admitted : Role → List Role
  | .viewer => [.viewer, .editor, .admin]
  | .editor => [.editor, .admin]
  | .admin => [.admin]

section Queries

variable (db : AclDb) (now : Nat)

/-- The subquery `base` of `effective_read_orgs`; `UNION` keeps each pair once. -/
def readBase (c u : Uuid) : List (Uuid × AppliesTo) :=
  ((db.memberships.filter fun m =>
      m.companyId = c ∧ m.userId = some u ∧ unexpired now m.expiresAt).map
        (fun m => (m.orgUnitId, m.appliesTo)) ++
    db.groupMembers.flatMap fun gm =>
      (db.memberships.filter fun m =>
        m.companyId = gm.companyId ∧ m.groupId = some gm.groupId ∧ gm.companyId = c ∧
          gm.userId = u ∧ unexpired now m.expiresAt).map
            fun m => (m.orgUnitId, m.appliesTo)).dedup

/-- `AccessService::effective_read_orgs`. -/
def effectiveReadOrgs (c u unit : Uuid) : List Uuid :=
  ((readBase db now c u).flatMap fun base =>
    (db.org.closure.filter fun sub => sub.companyId = c ∧ sub.ancestorId = base.1 ∧
      (base.2 = .selfAndDescendants ∨ sub.depth = 0)).flatMap fun sub =>
        (db.org.closure.filter fun scope => scope.companyId = c ∧ scope.ancestorId = unit ∧
          scope.descendantId = sub.descendantId).map fun _ => sub.descendantId).dedup

/-- The subquery `base` of `has_role`, which names no company. -/
def roleBase (u : Uuid) : List Membership :=
  (db.memberships.filter fun m => m.userId = some u ∧ unexpired now m.expiresAt) ++
    db.groupMembers.flatMap fun gm =>
      db.memberships.filter fun m =>
        m.companyId = gm.companyId ∧ m.groupId = some gm.groupId ∧ gm.userId = u ∧
          unexpired now m.expiresAt

/-- `AccessService::has_role`. -/
def hasRole (u o : Uuid) (required : Role) : Bool :=
  (roleBase db now u).any fun base => db.org.closure.any fun c =>
    c.companyId = base.companyId ∧ c.ancestorId = base.orgUnitId ∧ c.descendantId = o ∧
      (base.appliesTo = .selfAndDescendants ∨ c.depth = 0) ∧ base.role ∈ required.admitted

end Queries

/-! ### What the foreign keys say -/

/-- The keys of `users`, `group_members` and `memberships`. -/
structure AclDb.ForeignKeys (db : AclDb) : Prop where
  userIds : ∀ x ∈ db.users, ∀ y ∈ db.users, x.id = y.id → x = y
  userCompany : ∀ x ∈ db.users, db.org.HasCompany x.companyId
  memberUser : ∀ gm ∈ db.groupMembers, db.HasUser gm.companyId gm.userId
  memberGroup : ∀ gm ∈ db.groupMembers, db.HasGroup gm.companyId gm.groupId
  membershipUser : ∀ m ∈ db.memberships, ∀ u, m.userId = some u → db.HasUser m.companyId u
  membershipGroup : ∀ m ∈ db.memberships, ∀ g, m.groupId = some g → db.HasGroup m.companyId g
  membershipUnit : ∀ m ∈ db.memberships, db.org.HasUnit m.companyId m.orgUnitId

section Agreement

variable {db : AclDb} {now : Nat} {c u unit o : Uuid}

/-- A user is in one company only. -/
theorem AclDb.ForeignKeys.company_eq (h : db.ForeignKeys) {c' : Uuid} (hu : db.HasUser c u)
    (hu' : db.HasUser c' u) : c' = c := by
  obtain ⟨x, hx, rfl, hid⟩ := hu
  obtain ⟨y, hy, rfl, hid'⟩ := hu'
  rw [h.userIds y hy x hx (hid'.trans hid.symm)]

/-- The membership counts for the user in whatever company it is in. -/
def CountsAnywhere (db : AclDb) (m : Membership) (u : Uuid) : Prop :=
  Counts db m m.companyId u

theorem mem_readBase {b : Uuid × AppliesTo} :
    b ∈ readBase db now c u ↔ ∃ m ∈ db.memberships, Counts db m c u ∧
      unexpired now m.expiresAt = true ∧ b = (m.orgUnitId, m.appliesTo) := by
  simp only [readBase, List.mem_dedup, List.mem_append, List.mem_map, List.mem_flatMap,
    List.mem_filter, decide_eq_true_eq, Counts]
  constructor
  · rintro (⟨m, ⟨hm, hc, hu, hl⟩, rfl⟩ | ⟨⟨_, g, _⟩, hgm, m, ⟨hm, hc, hg, rfl, rfl, hl⟩, rfl⟩)
    · exact ⟨m, hm, ⟨hc, .inl hu⟩, hl, rfl⟩
    · exact ⟨m, hm, ⟨hc, .inr ⟨g, hg, hgm⟩⟩, hl, rfl⟩
  · rintro ⟨m, hm, ⟨hc, hu | ⟨g, hg, hgm⟩⟩, hl, rfl⟩
    · exact .inl ⟨m, ⟨hm, hc, hu, hl⟩, rfl⟩
    · exact .inr ⟨⟨c, g, u⟩, hgm, m, ⟨hm, hc, hg, rfl, rfl, hl⟩, rfl⟩

theorem mem_roleBase {m : Membership} :
    m ∈ roleBase db now u ↔ m ∈ db.memberships ∧ CountsAnywhere db m u ∧
      unexpired now m.expiresAt = true := by
  simp only [roleBase, List.mem_append, List.mem_filter, List.mem_flatMap, decide_eq_true_eq,
    CountsAnywhere, Counts]
  constructor
  · rintro (⟨hm, hu, hl⟩ | ⟨⟨c, g, _⟩, hgm, hm, hc, hg, rfl, hl⟩)
    · exact ⟨hm, ⟨trivial, .inl hu⟩, hl⟩
    · exact ⟨hm, ⟨trivial, .inr ⟨g, hg, by rw [hc]; exact hgm⟩⟩, hl⟩
  · rintro ⟨hm, ⟨-, hu | ⟨g, hg, hgm⟩⟩, hl⟩
    · exact .inl ⟨hm, hu, hl⟩
    · exact .inr ⟨⟨m.companyId, g, u⟩, hgm, hm, rfl, hg, rfl, hl⟩

/-- The two queries that build a scope read the same rows. -/
theorem mem_effectiveReadOrgs :
    o ∈ effectiveReadOrgs db now c u unit ↔ o ∈ scopeIds db now c u unit := by
  rw [mem_scopeIds]
  simp only [effectiveReadOrgs, List.mem_dedup, List.mem_flatMap, List.mem_filter, List.mem_map,
    decide_eq_true_eq, mem_readBase, mem_readerMemberships]
  constructor
  · rintro ⟨_, ⟨m, hm, hcount, hl, rfl⟩, sub, ⟨hsub, hc, ha, happ⟩, scope, ⟨hscope, hsc, hsa, hsd⟩,
      rfl⟩
    exact ⟨m, ⟨hm, hcount⟩, hl, sub, hsub, hc, ha, happ, scope, hscope, hsc, hsa, hsd, rfl⟩
  · rintro ⟨m, ⟨hm, hcount⟩, hl, sub, hsub, hc, ha, happ, scope, hscope, hsc, hsa, hsd, rfl⟩
    exact ⟨_, ⟨m, hm, hcount, hl, rfl⟩, sub, ⟨hsub, hc, ha, happ⟩, scope, ⟨hscope, hsc, hsa, hsd⟩,
      rfl⟩

theorem hasRole_iff {required : Role} :
    hasRole db now u o required = true ↔ ∃ m ∈ db.memberships, CountsAnywhere db m u ∧
      unexpired now m.expiresAt = true ∧ m.role ∈ required.admitted ∧
      ∃ r ∈ db.org.closure, r.companyId = m.companyId ∧ r.ancestorId = m.orgUnitId ∧
        r.descendantId = o ∧ (m.appliesTo = .selfAndDescendants ∨ r.depth = 0) := by
  simp only [hasRole, List.any_eq_true, decide_eq_true_eq, mem_roleBase]
  constructor
  · rintro ⟨m, ⟨hm, hcount, hl⟩, r, hr, hc, ha, hd, happ, hrole⟩
    exact ⟨m, hm, hcount, hl, hrole, r, hr, hc, ha, hd, happ⟩
  · rintro ⟨m, hm, hcount, hl, hrole, r, hr, hc, ha, hd, happ⟩
    exact ⟨m, ⟨hm, hcount, hl⟩, r, hr, hc, ha, hd, happ, hrole⟩

/-- The membership of a user of the company counts for the user there, or nowhere. -/
theorem AclDb.ForeignKeys.counts (h : db.ForeignKeys) (hu : db.HasUser c u) {m : Membership}
    (hm : m ∈ db.memberships) : CountsAnywhere db m u ↔ Counts db m c u := by
  constructor
  · intro hcount
    have hc : m.companyId = c := by
      rcases hcount.2 with huser | ⟨g, hg, hgm⟩
      · exact h.company_eq hu (h.membershipUser m hm u huser)
      · exact h.company_eq hu (h.memberUser _ hgm)
    exact hc ▸ hcount
  · rintro ⟨rfl, hrest⟩
    exact ⟨rfl, hrest⟩

/-- A scope holds the units below the requested one on which the user is a viewer. -/
theorem mem_scopeIds_iff_hasRole (hfk : db.ForeignKeys) (hclosure : db.org.ClosureExact)
    (hu : db.HasUser c u) :
    o ∈ scopeIds db now c u unit ↔
      (∃ k, db.org.Reaches c o k unit) ∧ hasRole db now u o .viewer = true := by
  rw [mem_scopeIds, hasRole_iff]
  constructor
  · rintro ⟨m, hm, hl, sub, hsub, hc, ha, happ, scope, hscope, hsc, hsa, hsd, rfl⟩
    obtain ⟨hmem, hcount⟩ := mem_readerMemberships.mp hm
    have hany := (hfk.counts hu hmem).mpr hcount
    refine ⟨⟨scope.depth, (hclosure _ _ _ _).mp ?_⟩, m, hmem, hany, hl, ?_, sub, hsub,
      hc.trans hcount.1.symm, ha, rfl, happ⟩
    · rw [← hsc, ← hsa, ← hsd]
      exact hscope
    · cases m.role <;> decide
  · rintro ⟨⟨k, hreach⟩, m, hm, hcount, hl, -, sub, hsub, hc, ha, rfl, happ⟩
    have hcount' := (hfk.counts hu hm).mp hcount
    exact ⟨m, mem_readerMemberships.mpr ⟨hm, hcount'⟩, hl, sub, hsub, hc.trans hcount'.1, ha, happ,
      ⟨c, unit, sub.descendantId, k⟩, (hclosure _ _ _ _).mpr hreach, rfl, rfl, rfl, rfl⟩

theorem hasRole_mono_role {r r' : Role} (hsub : ∀ x ∈ r.admitted, x ∈ r'.admitted)
    (h : hasRole db now u o r = true) : hasRole db now u o r' = true := by
  rw [hasRole_iff] at h ⊢
  obtain ⟨m, hm, hcount, hl, hrole, hrest⟩ := h
  exact ⟨m, hm, hcount, hl, hsub _ hrole, hrest⟩

/-- The tenant has the user, so the resolver answers with the scope. -/
theorem AclDb.ForeignKeys.resolveQuery_eq (h : db.ForeignKeys) (hu : db.HasUser c u) :
    ∃ rows, resolveQuery db now c u unit = some rows ∧
      rows.orgUnitIds = scopeIds db now c u unit := by
  obtain ⟨x, hx, rfl, rfl⟩ := hu
  obtain ⟨company, hcompany, hid⟩ := h.userCompany x hx
  have hfindCompany : (db.org.companies.find? fun y => y.id = x.companyId).isSome := by
    rw [List.find?_isSome]
    exact ⟨company, hcompany, by simpa using hid⟩
  have hfindUser :
      (db.users.find? fun y => y.companyId = x.companyId ∧ y.id = x.id).isSome := by
    rw [List.find?_isSome]
    exact ⟨x, hx, by simp⟩
  obtain ⟨company', hcompany'⟩ := Option.isSome_iff_exists.mp hfindCompany
  obtain ⟨user', huser'⟩ := Option.isSome_iff_exists.mp hfindUser
  have hepochs := epochs_eq_some.mpr ⟨company', user', hcompany', huser', rfl, rfl⟩
  rw [resolveQuery, hepochs]
  exact ⟨_, rfl, rfl⟩

end Agreement

/-! ### More memberships -/

/-- The new row is the old one with a later expiry, or with none. -/
def Membership.Extends (old m : Membership) : Prop :=
  m = { old with expiresAt := m.expiresAt } ∧
    ∀ e' ∈ m.expiresAt, ∃ e ∈ old.expiresAt, e ≤ e'

/-- The statement adds a membership or a group membership, or extends an expiry. -/
def AclOp.Widens (db : AclDb) : AclOp → Prop
  | .insertMembership _ => True
  | .insertGroupMember _ => True
  | .updateMembership x m =>
    ∀ old, db.memberships.find? (fun o => o.id = x) = some old → old.Extends m
  | _ => False

/-- Every row that counts in `db` still counts in `db'`, at least as long. -/
structure Wider (db db' : AclDb) : Prop where
  org : db'.org = db.org
  users : ∀ c u, db.HasUser c u → db'.HasUser c u
  groupMembers : ∀ gm ∈ db.groupMembers, gm ∈ db'.groupMembers
  memberships : ∀ m ∈ db.memberships, ∃ m' ∈ db'.memberships, m.Extends m'

theorem Membership.Extends.refl (m : Membership) : m.Extends m :=
  ⟨rfl, fun e he => ⟨e, he, Nat.le_refl e⟩⟩

theorem Membership.Extends.unexpired {old m : Membership} (h : old.Extends m) {now : Nat}
    (hl : unexpired now old.expiresAt = true) : Wikore.unexpired now m.expiresAt = true := by
  cases hm : m.expiresAt with
  | none => rfl
  | some e' =>
    obtain ⟨e, he, hle⟩ := h.2 e' hm
    have hold : old.expiresAt = some e := he
    simp only [hold, Wikore.unexpired, decide_eq_true_eq] at hl ⊢
    omega

theorem Wider.refl (db : AclDb) : Wider db db where
  org := rfl
  users := fun _ _ h => h
  groupMembers := fun _ h => h
  memberships := fun m h => ⟨m, h, .refl m⟩

theorem bumpScopeEpoch_hasUser (p : User → Bool) {db : AclDb} {c u : Uuid} (h : db.HasUser c u) :
    (bumpScopeEpoch p db).HasUser c u := by
  obtain ⟨x, hx, rfl, rfl⟩ := h
  refine ⟨_, List.mem_map.mpr ⟨x, hx, rfl⟩, ?_⟩
  split <;> exact ⟨rfl, rfl⟩

theorem bumpMembership_hasUser (m : Membership) {db : AclDb} {c u : Uuid} (h : db.HasUser c u) :
    (bumpMembership m db).HasUser c u := by
  unfold bumpMembership bumpMembershipPrincipal
  split
  · exact bumpScopeEpoch_hasUser _ h
  · exact bumpScopeEpoch_hasUser _ h
  · exact h

theorem bumpMembership_frame (m : Membership) (db : AclDb) :
    (bumpMembership m db).org = db.org ∧ (bumpMembership m db).groupMembers = db.groupMembers ∧
      (bumpMembership m db).memberships = db.memberships := by
  unfold bumpMembership bumpMembershipPrincipal
  split <;> exact ⟨rfl, rfl, rfl⟩

/-- The triggers change nothing that the queries read. -/
theorem Wider.bumpMembership {db db1 : AclDb} (h : Wider db db1) (m : Membership) :
    Wider db (bumpMembership m db1) := by
  obtain ⟨horg, hgms, hms⟩ := bumpMembership_frame m db1
  refine ⟨horg.trans h.org, fun c u hu => bumpMembership_hasUser m (h.users c u hu), ?_, ?_⟩
  · rw [hgms]
    exact h.groupMembers
  · rw [hms]
    exact h.memberships

theorem insertMembership_wider {m : Membership} {db db' : AclDb}
    (h : insertMembership m db = .ok () db') : Wider db db' := by
  simp only [insertMembership, bind_ok, get_ok, modify_ok] at h
  obtain ⟨_, _, ⟨rfl, rfl⟩, _, _, hcheck, _, _, rfl, rfl⟩ := h
  obtain ⟨-, rfl⟩ := checkMembership_ok hcheck
  apply Wider.bumpMembership
  exact ⟨rfl, fun _ _ hu => hu, fun _ hg => hg,
    fun x hx => ⟨x, List.mem_append_left _ hx, .refl x⟩⟩

theorem insertGroupMember_wider {gm : GroupMember} {db db' : AclDb}
    (h : insertGroupMember gm db = .ok () db') : Wider db db' := by
  simp only [insertGroupMember, bind_ok, get_ok, modify_ok] at h
  obtain ⟨_, _, ⟨rfl, rfl⟩, _, _, hcheck, _, _, rfl, rfl⟩ := h
  obtain rfl := checkGroupMember_ok hcheck
  exact ⟨rfl, fun c u hu => bumpScopeEpoch_hasUser _ hu, fun _ hg => List.mem_append_left _ hg,
    fun x hx => ⟨x, hx, .refl x⟩⟩

theorem updateMembership_wider {x : Uuid} {m : Membership} {db db' : AclDb}
    (h : updateMembership x m db = .ok () db')
    (hext : ∀ old, db.memberships.find? (fun o => o.id = x) = some old → old.Extends m) :
    Wider db db' := by
  simp only [updateMembership, bind_ok, get_ok] at h
  obtain ⟨_, _, ⟨rfl, rfl⟩, h⟩ := h
  cases hf : db.memberships.find? fun o => o.id = x with
  | none =>
    rw [hf] at h
    obtain ⟨-, rfl⟩ := pure_ok.mp h
    exact Wider.refl db
  | some old =>
    simp only [hf, bind_ok, modify_ok] at h
    obtain ⟨_, _, hcheck, _, _, rfl, _, _, rfl, rfl⟩ := h
    obtain ⟨-, rfl⟩ := checkMembership_ok hcheck
    apply Wider.bumpMembership
    apply Wider.bumpMembership
    refine ⟨rfl, fun _ _ hu => hu, fun _ hg => hg, fun o ho => ?_⟩
    by_cases he : o = old
    · exact ⟨m, List.mem_map.mpr ⟨o, ho, if_pos he⟩, he ▸ hext old hf⟩
    · exact ⟨o, List.mem_map.mpr ⟨o, ho, if_neg he⟩, .refl o⟩

theorem AclOp.Widens.wider {op : AclOp} {db db' : AclDb} (hop : op.Widens db)
    (h : op.statement db = .ok () db') : Wider db db' := by
  cases op with
  | insertMembership m => exact insertMembership_wider h
  | insertGroupMember gm => exact insertGroupMember_wider h
  | updateMembership x m => exact updateMembership_wider h hop
  | _ => exact hop.elim

section Monotone

variable {db db' : AclDb} {now : Nat} {c u unit o : Uuid}

theorem Wider.counts (h : Wider db db') {m m' : Membership} (hext : m.Extends m')
    (hcount : Counts db m c u) : Counts db' m' c u := by
  rw [hext.1]
  obtain ⟨hc, huser | ⟨g, hg, hgm⟩⟩ := hcount
  · exact ⟨hc, .inl huser⟩
  · exact ⟨hc, .inr ⟨g, hg, h.groupMembers _ hgm⟩⟩

theorem Wider.scopeIds (h : Wider db db') (ho : o ∈ scopeIds db now c u unit) :
    o ∈ Wikore.scopeIds db' now c u unit := by
  rw [mem_scopeIds] at ho ⊢
  obtain ⟨m, hm, hl, sub, hsub, hc, ha, happ, hscope⟩ := ho
  obtain ⟨hmem, hcount⟩ := mem_readerMemberships.mp hm
  obtain ⟨m', hm', hext⟩ := h.memberships m hmem
  rw [h.org]
  refine ⟨m', mem_readerMemberships.mpr ⟨hm', h.counts hext hcount⟩, hext.unexpired hl, sub, hsub,
    hc, ?_, ?_, hscope⟩
  · rw [hext.1]
    exact ha
  · rw [hext.1]
    exact happ

theorem Wider.hasRole (h : Wider db db') {r : Role} (ho : hasRole db now u o r = true) :
    Wikore.hasRole db' now u o r = true := by
  rw [hasRole_iff] at ho ⊢
  obtain ⟨m, hm, hcount, hl, hrole, hclosure⟩ := ho
  obtain ⟨m', hm', hext⟩ := h.memberships m hm
  have hsame : m'.companyId = m.companyId ∧ m'.orgUnitId = m.orgUnitId ∧ m'.role = m.role ∧
      m'.appliesTo = m.appliesTo := by
    rw [hext.1]
    exact ⟨rfl, rfl, rfl, rfl⟩
  rw [h.org]
  refine ⟨m', hm', ?_, hext.unexpired hl, ?_, ?_⟩
  · rw [CountsAnywhere, hsame.1]
    exact h.counts hext hcount
  · rw [hsame.2.2.1]
    exact hrole
  · rw [hsame.1, hsame.2.1, hsame.2.2.2]
    exact hclosure

theorem Wider.epochs (h : Wider db db') {e : Nat × Nat} (he : epochs db c u = some e) :
    ∃ e', Wikore.epochs db' c u = some e' := by
  obtain ⟨company, user, hcompany, huser, -⟩ := epochs_eq_some.mp he
  have hkey : user.companyId = c ∧ user.id = u := by simpa using List.find?_some huser
  obtain ⟨x, hx, hxc, hxu⟩ := h.users c u ⟨user, List.mem_of_find?_eq_some huser, hkey⟩
  have hfind : (db'.users.find? fun y => y.companyId = c ∧ y.id = u).isSome := by
    rw [List.find?_isSome]
    exact ⟨x, hx, by simp [hxc, hxu]⟩
  obtain ⟨user', huser'⟩ := Option.isSome_iff_exists.mp hfind
  rw [← h.org] at hcompany
  exact ⟨_, epochs_eq_some.mpr ⟨company, user', hcompany, huser', rfl, rfl⟩⟩

theorem Wider.resolveQuery (h : Wider db db') {rows : ResolvedRows}
    (hrows : resolveQuery db now c u unit = some rows) :
    ∃ rows', Wikore.resolveQuery db' now c u unit = some rows' ∧
      ∀ o ∈ rows.orgUnitIds, o ∈ rows'.orgUnitIds := by
  obtain ⟨e, he, rfl⟩ := Option.map_eq_some_iff.mp hrows
  obtain ⟨e', he'⟩ := h.epochs he
  rw [Wikore.resolveQuery, he']
  exact ⟨_, rfl, fun o ho => h.scopeIds ho⟩

end Monotone

/-- The three copies of the rule agree, `has_role` is monotone in the role, and a statement that
widens the memberships takes nothing away. -/
theorem access_resolution_agrees {db : AclDb} (hfk : db.ForeignKeys)
    (hclosure : db.org.ClosureExact) {c u : Uuid} (hu : db.HasUser c u) (unit : Uuid) (now : Nat) :
    (effectiveReadOrgs db now c u unit).Nodup ∧
    (∃ rows, resolveQuery db now c u unit = some rows ∧ rows.orgUnitIds.Nodup ∧
      ∀ o, o ∈ rows.orgUnitIds ↔ o ∈ effectiveReadOrgs db now c u unit) ∧
    (∀ o, o ∈ effectiveReadOrgs db now c u unit ↔
      (∃ k, db.org.Reaches c o k unit) ∧ hasRole db now u o .viewer = true) ∧
    (∀ o, (hasRole db now u o .admin = true → hasRole db now u o .editor = true) ∧
      (hasRole db now u o .editor = true → hasRole db now u o .viewer = true)) ∧
    ∀ (op : AclOp) (db' : AclDb), op.Widens db → op.statement db = .ok () db' →
      (∀ o ∈ effectiveReadOrgs db now c u unit, o ∈ effectiveReadOrgs db' now c u unit) ∧
      (∀ rows, resolveQuery db now c u unit = some rows →
        ∃ rows', resolveQuery db' now c u unit = some rows' ∧
          ∀ o ∈ rows.orgUnitIds, o ∈ rows'.orgUnitIds) ∧
      ∀ o r, hasRole db now u o r = true → hasRole db' now u o r = true := by
  refine ⟨List.nodup_dedup _, ?_, fun o => ?_, fun o => ⟨?_, ?_⟩, fun op db' hop hok => ?_⟩
  · obtain ⟨rows, hrows, hids⟩ : ∃ rows, resolveQuery db now c u unit = some rows ∧
        rows.orgUnitIds = scopeIds db now c u unit := hfk.resolveQuery_eq hu
    refine ⟨rows, hrows, ?_, fun o => ?_⟩
    · rw [hids]
      exact List.nodup_dedup _
    · rw [hids, mem_effectiveReadOrgs]
  · rw [mem_effectiveReadOrgs]
    exact mem_scopeIds_iff_hasRole hfk hclosure hu
  · exact hasRole_mono_role (by decide)
  · exact hasRole_mono_role (by decide)
  · have hw := AclOp.Widens.wider hop hok
    refine ⟨fun o ho => ?_, fun rows hrows => hw.resolveQuery hrows, fun o r ho => hw.hasRole ho⟩
    rw [mem_effectiveReadOrgs] at ho ⊢
    exact hw.scopeIds ho

/-- A unit below the root, and a reader who edits both through a group. -/
def groupReader : AclDb where
  org := OrgDb.empty.run [.createCompany 1 "Acme" "acme" 10,
    .insertOrgUnit ⟨11, 1, some 10, .team, "team", "Team"⟩]
  users := [{ id := 100, companyId := 1 }]
  groups := [⟨50, 1⟩]
  groupMembers := [⟨1, 50, 100⟩]
  memberships := [⟨200, 1, none, some 50, 10, .editor, .selfAndDescendants, none, 0, some 90⟩]

theorem groupReader_foreignKeys : groupReader.ForeignKeys where
  userIds := by decide
  userCompany := by decide
  memberUser := by decide
  memberGroup := by decide
  membershipUser := by
    intro m hm v hv
    obtain rfl := List.mem_singleton.mp hm
    cases hv
  membershipGroup := by
    intro m hm g hg
    obtain rfl := List.mem_singleton.mp hm
    obtain rfl := Option.some.inj hg
    decide
  membershipUnit := by decide

theorem groupReader_agrees :
    11 ∈ effectiveReadOrgs groupReader 7 1 100 10 ∧
      hasRole groupReader 7 100 11 .viewer = true := by
  have hexact : groupReader.org.ClosureExact := (OrgDb.empty_consistent.run _).closureExact
  have hagree := access_resolution_agrees groupReader_foreignKeys hexact
    (c := 1) (u := 100) (by decide) 10 7
  have hmem : 11 ∈ effectiveReadOrgs groupReader 7 1 100 10 := by decide
  exact ⟨hmem, ((hagree.2.2.1 11).mp hmem).2⟩

end Wikore
