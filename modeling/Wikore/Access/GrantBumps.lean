import Wikore.Access.GrantTriggers

/-! The triggers of V032 are complete and no wider than they need to be: a change of a grant or of
an owner bumps exactly the documents that it can concern, each once and with one event. -/

namespace Wikore

open Statement Query

/-- A key tells the document and the version. -/
theorem resyncKey_injective {d d' : Uuid} {v v' : Nat} (h : resyncKey d v = resyncKey d' v') :
    d = d' ∧ v = v' := by
  have hlen : ∀ u : Uuid, (Uuid.text u).toList.length = 36 := by
    intro u
    simp [Uuid.text, Uuid.digits]
  have hl := congrArg String.toList h
  simp only [resyncKey, String.toList_append, List.append_assoc, List.append_cancel_left_eq] at hl
  obtain ⟨htext, hrest⟩ := List.append_inj hl ((hlen d).trans (hlen d').symm)
  rw [List.append_cancel_left_eq, Nat.toList_repr, Nat.toList_repr] at hrest
  refine ⟨Uuid.text_injective (String.toList_inj.mp htext), ?_⟩
  rw [← Nat.ofDigitChars_ten_toDigits (n := v), hrest, Nat.ofDigitChars_ten_toDigits]

namespace ResyncDb

/-- Documents have keys of their own, and no event is ahead of its document: an event is enqueued
with the version that the bump has made. -/
structure EventsOk (db : ResyncDb) : Prop where
  documentIds : (db.documents.map fun d => d.id).Nodup
  eventKey : ∀ e ∈ db.outbox, e.idempotencyKey = resyncKey e.aggregateId e.payload.aclVersion
  notAhead : ∀ e ∈ db.outbox, ∀ d ∈ db.documents, e.companyId = d.companyId →
    e.aggregateId = d.id → e.payload.aclVersion ≤ d.aclVersion

/-- What the constraints and the triggers keep of the tables. -/
structure Valid (db : ResyncDb) : Prop extends EventsOk db where
  access : db.access.Valid

/-- The documents `hit` are bumped, each with one event. -/
structure Bumps (hit : DocumentRow → Bool) (db db' : ResyncDb) (new : List ResyncEvent) : Prop where
  org : db'.org = db.org
  grants : db'.resourceGrants = db.resourceGrants
  documents : db'.documents = db.documents.map fun d => if hit d then d.bump else d
  outbox : db'.outbox = db.outbox ++ new
  events : ∀ e ∈ new, ∃ d ∈ db.documents, hit d = true ∧ e = resyncEvent d.bump
  once : ∀ d ∈ db.documents, new.filter (·.aggregateId = d.id) =
    if hit d then [resyncEvent d.bump] else []

section Bumps

variable {db db' db'' : ResyncDb} {hit hit' : DocumentRow → Bool} {new new' : List ResyncEvent}
  {c : Uuid}

theorem EventsOk.atMostOne (h : db.EventsOk) (x : Uuid) :
    AtMostOne db.documents fun d => d.id = x := by
  intro a ha b hb hpa hpb
  refine List.inj_on_of_nodup_map h.documentIds ha hb ?_
  exact (of_decide_eq_true hpa).trans (of_decide_eq_true hpb).symm

theorem EventsOk.filter_id (h : db.EventsOk) {d : DocumentRow} (hd : d ∈ db.documents) :
    db.documents.filter (fun x => x.id = d.id) = [d] :=
  filter_eq_singleton (h.atMostOne d.id) h.documentIds.of_map hd (decide_eq_true rfl)

/-- The key of the next version of a document is free. -/
theorem EventsOk.fresh (h : db.EventsOk) {d : DocumentRow} (hd : d ∈ db.documents) :
    (resyncEvent d.bump).uniqueKey ∉ db.outbox.map ResyncEvent.uniqueKey := by
  intro hmem
  obtain ⟨e, he, hkey⟩ := List.mem_map.mp hmem
  obtain ⟨hc, hk⟩ := Prod.mk.inj hkey
  rw [h.eventKey e he] at hk
  obtain ⟨hid, hv⟩ := resyncKey_injective hk
  have hle := h.notAhead e he d hd hc hid
  rw [hv] at hle
  exact absurd hle (Nat.not_succ_le_self _)

/-- The events of the documents `hit` have keys of their own. -/
theorem EventsOk.nodup_events (h : db.EventsOk) (hit : DocumentRow → Bool) :
    (((db.documents.filter hit).map fun d => resyncEvent d.bump).map
      ResyncEvent.uniqueKey).Nodup := by
  rw [List.map_map]
  refine List.Nodup.map_on (fun a ha b hb heq => ?_) (h.documentIds.of_map.filter hit)
  obtain ⟨-, hk⟩ := Prod.mk.inj heq
  refine List.inj_on_of_nodup_map h.documentIds (List.mem_of_mem_filter ha)
    (List.mem_of_mem_filter hb) ?_
  exact (resyncKey_injective hk).1

theorem EventsOk.bumps (h : db.EventsOk) (hit : DocumentRow → Bool) :
    Bumps hit db
      { db with
        documents := db.documents.map fun d => if hit d then d.bump else d
        outbox := insertNew ResyncEvent.uniqueKey db.outbox
          ((db.documents.filter hit).map fun d => resyncEvent d.bump) }
      ((db.documents.filter hit).map fun d => resyncEvent d.bump) where
  org := rfl
  grants := rfl
  documents := rfl
  outbox := by
    refine insertNew_of_fresh (h.nodup_events hit) fun e he => ?_
    obtain ⟨d, hd, rfl⟩ := List.mem_map.mp he
    exact h.fresh (List.mem_of_mem_filter hd)
  events e he := by
    obtain ⟨d, hd, rfl⟩ := List.mem_map.mp he
    obtain ⟨hd, hhit⟩ := List.mem_filter.mp hd
    exact ⟨d, hd, hhit, rfl⟩
  once d hd := by
    have hone : (db.documents.filter hit).filter (fun x => decide (x.id = d.id)) =
        if hit d then [d] else [] := by
      rw [List.filter_comm, h.filter_id hd]
      cases hhit : hit d <;> simp [hhit]
    rw [List.filter_map]
    show ((db.documents.filter hit).filter fun x => decide (x.id = d.id)).map _ = _
    rw [hone]
    split <;> rfl

theorem bumps_none : Bumps (fun _ => false) db db [] where
  org := rfl
  grants := rfl
  documents := by simp
  outbox := (List.append_nil _).symm
  events := nofun
  once _ _ := rfl

theorem Bumps.congr (h : Bumps hit db db' new) (heq : ∀ d ∈ db.documents, hit d = hit' d) :
    Bumps hit' db db' new where
  org := h.org
  grants := h.grants
  documents := by
    rw [h.documents]
    apply List.map_congr_left
    intro d hd
    rw [heq d hd]
  outbox := h.outbox
  events e he := by
    obtain ⟨d, hd, hhit, rfl⟩ := h.events e he
    exact ⟨d, hd, heq d hd ▸ hhit, rfl⟩
  once d hd := by rw [h.once d hd, heq d hd]

theorem EventsOk.bumpDocsAndEnqueue (h : db.EventsOk) (c : Uuid) (ids : Option (List Uuid)) :
    ∃ new, Bumps (fun d => decide (d.companyId = c ∧ d.id ∈ ids.getD [])) db
      (bumpDocsAndEnqueue c ids db) new := by
  unfold Wikore.bumpDocsAndEnqueue
  split
  next => exact ⟨[], bumps_none.congr fun d _ => by simp⟩
  next => exact ⟨[], bumps_none.congr fun d _ => by simp⟩
  next ids _ => exact ⟨_, h.bumps fun d => decide (d.companyId = c ∧ d.id ∈ ids)⟩

theorem Bumps.mem (h : Bumps hit db db' new) {d : DocumentRow} (hd : d ∈ db.documents) :
    (if hit d then d.bump else d) ∈ db'.documents := by
  rw [h.documents]
  exact List.mem_map_of_mem hd

theorem bumped_id (b : Bool) (d : DocumentRow) : (if b then d.bump else d).id = d.id := by
  cases b <;> rfl

theorem bumped_companyId (b : Bool) (d : DocumentRow) :
    (if b then d.bump else d).companyId = d.companyId := by
  cases b <;> rfl

theorem le_bumped_aclVersion (b : Bool) (d : DocumentRow) :
    d.aclVersion ≤ (if b then d.bump else d).aclVersion := by
  cases b
  · exact Nat.le_refl _
  · exact Nat.le_succ _

/-- The bumped documents are the same to the queries about access. -/
theorem Bumps.access (h : Bumps hit db db' new) : db'.access = db.access := by
  have hdocs : db'.documents.map DocumentRow.toDocument =
      db.documents.map DocumentRow.toDocument := by
    rw [h.documents, List.map_map]
    apply List.map_congr_left
    intro d _
    show (if hit d then d.bump else d).toDocument = d.toDocument
    cases hit d <;> rfl
  rw [ResyncDb.access, ResyncDb.access, h.org, h.grants, hdocs]

theorem Bumps.eventsOk (h : Bumps hit db db' new) (hok : db.EventsOk) : db'.EventsOk where
  documentIds := by
    have hids : (db'.documents.map fun d => d.id) = db.documents.map fun d => d.id := by
      rw [h.documents, List.map_map]
      exact List.map_congr_left fun d _ => bumped_id (hit d) d
    rw [hids]
    exact hok.documentIds
  eventKey e he := by
    rw [h.outbox] at he
    rcases List.mem_append.mp he with he | he
    · exact hok.eventKey e he
    · obtain ⟨d, -, -, rfl⟩ := h.events e he
      rfl
  notAhead e he d' hd' hc hid := by
    rw [h.documents] at hd'
    obtain ⟨d, hd, rfl⟩ := List.mem_map.mp hd'
    rw [bumped_companyId] at hc
    rw [bumped_id] at hid
    rw [h.outbox] at he
    rcases List.mem_append.mp he with he | he
    · exact Nat.le_trans (hok.notAhead e he d hd hc hid) (le_bumped_aclVersion (hit d) d)
    · obtain ⟨x, hx, hhit, rfl⟩ := h.events e he
      obtain rfl : x = d := List.inj_on_of_nodup_map hok.documentIds hx hd hid
      rw [if_pos hhit]
      exact Nat.le_refl _

/-- Two bumps of different documents are one. -/
theorem Bumps.trans (h : Bumps hit db db' new) (h' : Bumps hit' db' db'' new')
    (hsame : ∀ d ∈ db.documents, hit' d.bump = hit' d)
    (hdisj : ∀ d ∈ db.documents, hit d = true → hit' d = false) :
    Bumps (fun d => hit d || hit' d) db db'' (new ++ new') where
  org := h'.org.trans h.org
  grants := h'.grants.trans h.grants
  documents := by
    rw [h'.documents, h.documents, List.map_map]
    apply List.map_congr_left
    intro d hd
    cases hhit : hit d with
    | false => simp [hhit]
    | true => simp [hhit, hsame d hd, hdisj d hd hhit]
  outbox := by rw [h'.outbox, h.outbox, List.append_assoc]
  events e he := by
    rcases List.mem_append.mp he with he | he
    · obtain ⟨d, hd, hhit, rfl⟩ := h.events e he
      exact ⟨d, hd, by simp [hhit], rfl⟩
    · obtain ⟨d', hd', hhit', rfl⟩ := h'.events e he
      rw [h.documents] at hd'
      obtain ⟨d, hd, rfl⟩ := List.mem_map.mp hd'
      cases hhit : hit d with
      | true =>
        rw [hhit, if_pos rfl, hsame d hd, hdisj d hd hhit] at hhit'
        cases hhit'
      | false =>
        rw [hhit] at hhit'
        exact ⟨d, hd, by simpa using Or.inr hhit', rfl⟩
  once d hd := by
    have honce := h'.once _ (h.mem hd)
    rw [bumped_id] at honce
    rw [List.filter_append, h.once d hd, honce]
    cases hhit : hit d with
    | false => simp
    | true => simp [hsame d hd, hdisj d hd hhit]

end Bumps

/-! ### The documents of a grant -/

/-- The document is a resource of the grant. -/
def Covers (db : ResyncDb) (g : ResourceGrant) (d : DocumentRow) : Prop :=
  g.companyId = d.companyId ∧ db.access.IsResource d.companyId g d.toDocument

section Covers

variable {db db' : ResyncDb} {g old : ResourceGrant} {d : DocumentRow}

theorem getD_arrayAgg (ids : List Uuid) : (arrayAgg ids).getD [] = ids := by
  rw [arrayAgg]
  split
  next h => exact h.symm
  next => rfl

/-- The trigger finds the documents that the access rule counts as resources. -/
theorem mem_grantAffectedDocs (h : db.EventsOk) (hd : d ∈ db.documents) :
    (d.companyId = g.companyId ∧ d.id ∈ (grantAffectedDocs db g).getD []) ↔ db.Covers g d := by
  rw [Covers, grantAffectedDocs, AccessDb.IsResource, eq_comm]
  refine and_congr_right fun hc => ?_
  cases g.resourceType with
  | document => simp [eq_comm]
  | wikiPage => simp
  | orgUnit =>
    simp only [getD_arrayAgg, List.mem_map, List.mem_filter, decide_eq_true_eq,
      ResourceGrant.CoversAt, hc, reduceCtorEq, false_and, true_and, false_or]
    constructor
    · rintro ⟨x, ⟨hx, -, rc, ⟨hrc, hcc, ha, hcov⟩, hde⟩, hid⟩
      obtain rfl : x = d := List.inj_on_of_nodup_map h.documentIds hx hd hid
      refine ⟨rc, hrc, hcc, ha, hde, ?_⟩
      cases happ : g.resourceAppliesTo with
      | selfOnly => simpa [happ] using hcov
      | selfAndDescendants => exact .inl rfl
    · rintro ⟨rc, hrc, hcc, ha, hde, hcov⟩
      exact ⟨d, ⟨hd, rfl, rc, ⟨hrc, hcc, ha, hcov.imp_right And.right⟩, hde⟩, rfl⟩

/-- Who may read a document depends on the grants that cover it. -/
theorem readable_congr (horg : db'.org = db.org) (hcov : ∀ g, db.Covers g d →
    (g ∈ db'.resourceGrants ↔ g ∈ db.resourceGrants)) {now : Nat} {s : Uuid} :
    db'.access.Readable now d.toDocument s ↔ db.access.Readable now d.toDocument s := by
  have hrule : ∀ g, (db'.access.IsResource d.companyId g d.toDocument ↔
      db.access.IsResource d.companyId g d.toDocument) ∧
      (db'.access.IsPrincipal d.companyId g s ↔ db.access.IsPrincipal d.companyId g s) := by
    intro g
    simp only [AccessDb.IsResource, AccessDb.IsPrincipal, access, horg, and_self]
  refine or_congr_right (exists_congr fun g => ?_)
  rw [(hrule g).1, (hrule g).2]
  constructor
  · rintro ⟨hg, hc, hl, hres, hp⟩
    exact ⟨(hcov g ⟨hc, hres⟩).mp hg, hc, hl, hres, hp⟩
  · rintro ⟨hg, hc, hl, hres, hp⟩
    exact ⟨(hcov g ⟨hc, hres⟩).mpr hg, hc, hl, hres, hp⟩

end Covers

end ResyncDb

/-- The change can concern the document: the grant before or after covers it, or the document gets
another owner. -/
def AclChange.Touches (db : ResyncDb) (d : DocumentRow) : AclChange → Prop
  | .insertGrant _ g => db.Covers g d
  | .updateGrant _ x g => ∃ old, db.resourceGrants.find? (fun o => o.id = x) = some old ∧
      (db.Covers old d ∨ db.Covers g d)
  | .deleteGrant x => ∃ old, db.resourceGrants.find? (fun o => o.id = x) = some old ∧
      db.Covers old d
  | .updateOwner c x owner => d.companyId = c ∧ d.id = x ∧ d.ownerOrgUnitId ≠ owner

namespace ResyncDb

/-- What a change makes of the tables: the documents that it touches are bumped, each with one
event, and the others keep their versions and their readers. -/
structure Changed (touched : DocumentRow → Prop) (db db' : ResyncDb) (new : List ResyncEvent) :
    Prop where
  valid : db'.Valid
  outbox : db'.outbox = db.outbox ++ new
  document : ∀ d ∈ db.documents, ∃ d' ∈ db'.documents, d'.companyId = d.companyId ∧ d'.id = d.id ∧
    d'.qdrantSyncedVersion = d.qdrantSyncedVersion ∧
    (touched d → d'.aclVersion = d.aclVersion + 1 ∧
      new.filter (·.aggregateId = d.id) = [resyncEvent d']) ∧
    (¬touched d → d'.aclVersion = d.aclVersion ∧ new.filter (·.aggregateId = d.id) = [] ∧
      ∀ now s, db'.access.Readable now d'.toDocument s ↔ db.access.Readable now d.toDocument s)

section Changed

variable {db db' : ResyncDb} {touched : DocumentRow → Prop} {hit : DocumentRow → Bool}
  {new : List ResyncEvent}

theorem Changed.refl (h : db.Valid) : Changed (fun _ => False) db db [] where
  valid := h
  outbox := (List.append_nil _).symm
  document d hd := ⟨d, hd, rfl, rfl, rfl, False.elim, fun _ => ⟨rfl, rfl, fun _ _ => Iff.rfl⟩⟩

theorem Changed.congr {touched' : DocumentRow → Prop} (h : Changed touched db db' new)
    (heq : ∀ d ∈ db.documents, touched d ↔ touched' d) : Changed touched' db db' new where
  valid := h.valid
  outbox := h.outbox
  document d hd := by
    obtain ⟨d', hd', hc, hid, hsync, hbump, hkeep⟩ := h.document d hd
    rw [heq d hd] at hbump hkeep
    exact ⟨d', hd', hc, hid, hsync, hbump, hkeep⟩

theorem eventsOk_grants (h : db.EventsOk) (grants : List ResourceGrant) :
    EventsOk { db with resourceGrants := grants } :=
  ⟨h.documentIds, h.eventKey, h.notAhead⟩

/-- The tables with other grants, whose resources and principals exist. -/
theorem Valid.withGrants (h : db.Valid) {grants : List ResourceGrant}
    (hnew : ∀ g ∈ grants, g ∈ db.resourceGrants ∨
      (db.org.HasUnit g.companyId g.principalId ∧ db.access.ResourceExists g)) :
    Valid { db with resourceGrants := grants } where
  toEventsOk := eventsOk_grants h.toEventsOk grants
  access :=
    { documentKey := h.access.documentKey
      closure := h.access.closure
      principalExists := fun g hg => by
        rcases hnew g hg with hg | hg
        · exact h.access.principalExists g hg
        · exact hg.1
      resourceExists := fun g hg => by
        rcases hnew g hg with hg | hg
        · exact h.access.resourceExists g hg
        · exact hg.2 }

/-- A change of the grants, followed by the bumps of the documents that it touches. -/
theorem Bumps.changed {grants : List ResourceGrant} (h : db.Valid)
    (hb : Bumps hit { db with resourceGrants := grants } db' new)
    (hhit : ∀ d ∈ db.documents, hit d = true ↔ touched d)
    (hcov : ∀ d ∈ db.documents, ¬touched d → ∀ g, db.Covers g d →
      (g ∈ grants ↔ g ∈ db.resourceGrants))
    (hnew : ∀ g ∈ grants, g ∈ db.resourceGrants ∨
      (db.org.HasUnit g.companyId g.principalId ∧ db.access.ResourceExists g)) :
    Changed touched db db' new where
  valid :=
    { toEventsOk := hb.eventsOk (eventsOk_grants h.toEventsOk grants)
      access := by
        rw [hb.access]
        exact (h.withGrants hnew).access }
  outbox := hb.outbox
  document d hd := by
    refine ⟨_, hb.mem hd, bumped_companyId _ d, bumped_id _ d, ?_, fun ht => ?_, fun ht => ?_⟩
    · cases hit d <;> rfl
    · rw [if_pos ((hhit d hd).mpr ht)]
      refine ⟨rfl, ?_⟩
      rw [hb.once d hd, if_pos ((hhit d hd).mpr ht)]
    · have hno : ¬hit d = true := fun hx => ht ((hhit d hd).mp hx)
      rw [if_neg hno]
      refine ⟨rfl, ?_, fun now s => ?_⟩
      · rw [hb.once d hd, if_neg hno]
      · rw [hb.access]
        refine readable_congr ?_ (hcov d hd ht)
        rfl

end Changed

end ResyncDb

/-! ### What the statements do -/

section Statements

variable {db db' : ResyncDb} {wikiPages : List (Uuid × Uuid)} {g : ResourceGrant} {x : Uuid}

theorem validateGrant_ok (h : validateGrant wikiPages g db = .ok () db') :
    db' = db ∧ db.org.HasUnit g.companyId g.principalId ∧ db.access.ResourceExists g := by
  obtain ⟨_, s1, h1, h2⟩ := bind_ok.mp h
  obtain ⟨rfl, rfl⟩ := get_ok.mp h1
  obtain ⟨_, s2, h3, h4⟩ := bind_ok.mp h2
  obtain ⟨hunit, rfl⟩ := raiseIf_ok.mp h3
  rw [AccessDb.ResourceExists]
  cases hrt : g.resourceType with
  | orgUnit =>
    rw [hrt] at h4
    obtain ⟨hres, rfl⟩ := raiseIf_ok.mp h4
    exact ⟨rfl, not_not.mp hunit, not_not.mp hres⟩
  | document =>
    rw [hrt] at h4
    obtain ⟨hres, rfl⟩ := raiseIf_ok.mp h4
    obtain ⟨y, hy, hc, hid⟩ := not_not.mp hres
    exact ⟨rfl, not_not.mp hunit, y.toDocument, List.mem_map_of_mem hy, hc, hid⟩
  | wikiPage =>
    rw [hrt] at h4
    obtain ⟨-, rfl⟩ := raiseIf_ok.mp h4
    exact ⟨rfl, not_not.mp hunit, trivial⟩

theorem checkGrant_ok {others : List ResourceGrant}
    (h : checkGrant wikiPages g others db = .ok () db') :
    db' = db ∧ db.org.HasUnit g.companyId g.principalId ∧ db.access.ResourceExists g := by
  obtain ⟨_, s1, h1, h2⟩ := bind_ok.mp h
  obtain ⟨_, s2, h3, h4⟩ := bind_ok.mp h2
  obtain ⟨_, s3, h5, h6⟩ := bind_ok.mp h4
  obtain ⟨_, s4, h7, h8⟩ := bind_ok.mp h6
  obtain ⟨_, s5, h9, h10⟩ := bind_ok.mp h8
  obtain ⟨rfl, hok⟩ := validateGrant_ok h1
  obtain ⟨-, rfl⟩ := raiseIf_ok.mp h3
  obtain ⟨-, rfl⟩ := raiseIf_ok.mp h5
  obtain ⟨-, rfl⟩ := raiseIf_ok.mp h7
  obtain ⟨rfl, rfl⟩ := get_ok.mp h9
  obtain ⟨-, rfl⟩ := raiseIf_ok.mp h10
  exact ⟨rfl, hok⟩

theorem insertGrant_ok (h : insertGrant wikiPages g db = .ok () db') :
    (db.org.HasUnit g.companyId g.principalId ∧ db.access.ResourceExists g) ∧
      db' = grantAclBump g { db with resourceGrants := db.resourceGrants ++ [g] } := by
  obtain ⟨_, s1, h1, h2⟩ := bind_ok.mp h
  obtain ⟨_, s2, h3, h4⟩ := bind_ok.mp h2
  obtain ⟨_, s3, h5, h6⟩ := bind_ok.mp h4
  obtain ⟨rfl, rfl⟩ := get_ok.mp h1
  obtain ⟨rfl, hok⟩ := checkGrant_ok h3
  refine ⟨hok, ?_⟩
  rw [← modify_ok.mp h6, ← modify_ok.mp h5]

theorem updateGrant_ok (h : updateGrant wikiPages x g db = .ok () db') :
    (db.resourceGrants.find? (fun o => o.id = x) = none ∧ db' = db) ∨
      ∃ old, db.resourceGrants.find? (fun o => o.id = x) = some old ∧
        (db.org.HasUnit g.companyId g.principalId ∧ db.access.ResourceExists g) ∧
        db' = grantAclBumpUpdate old g
          { db with resourceGrants := db.resourceGrants.map fun o => if o = old then g else o } := by
  obtain ⟨_, s1, h1, h2⟩ := bind_ok.mp h
  obtain ⟨rfl, rfl⟩ := get_ok.mp h1
  cases hold : db.resourceGrants.find? (fun o => o.id = x) with
  | none =>
    rw [hold] at h2
    obtain ⟨-, rfl⟩ := pure_ok.mp h2
    exact .inl ⟨rfl, rfl⟩
  | some old =>
    rw [hold] at h2
    obtain ⟨_, s2, h3, h4⟩ := bind_ok.mp h2
    obtain ⟨_, s3, h5, h6⟩ := bind_ok.mp h4
    obtain ⟨rfl, hok⟩ := checkGrant_ok h3
    refine .inr ⟨old, rfl, hok, ?_⟩
    rw [← modify_ok.mp h6, ← modify_ok.mp h5]

theorem deleteGrant_ok (h : deleteGrant x db = .ok () db') :
    (db.resourceGrants.find? (fun o => o.id = x) = none ∧ db' = db) ∨
      ∃ old, db.resourceGrants.find? (fun o => o.id = x) = some old ∧
        db' = grantAclBump old { db with resourceGrants := db.resourceGrants.filter (· ≠ old) } := by
  obtain ⟨_, s1, h1, h2⟩ := bind_ok.mp h
  obtain ⟨rfl, rfl⟩ := get_ok.mp h1
  cases hold : db.resourceGrants.find? (fun o => o.id = x) with
  | none =>
    rw [hold] at h2
    obtain ⟨-, rfl⟩ := pure_ok.mp h2
    exact .inl ⟨rfl, rfl⟩
  | some old =>
    rw [hold] at h2
    obtain ⟨_, s2, h3, h4⟩ := bind_ok.mp h2
    refine .inr ⟨old, rfl, ?_⟩
    rw [← modify_ok.mp h4, ← modify_ok.mp h3]

theorem updateOwner_ok {c owner : Uuid} (h : updateOwner c x owner db = .ok () db') :
    (db.findDocument c x = none ∧ db' = db) ∨ ∃ old, db.findDocument c x = some old ∧
      db' = if old.ownerOrgUnitId = owner then db.setOwner old owner
        else bumpDocsAndEnqueue c (some [x]) (db.setOwner old owner) := by
  obtain ⟨_, s1, h1, h2⟩ := bind_ok.mp h
  obtain ⟨rfl, rfl⟩ := get_ok.mp h1
  cases hold : db.findDocument c x with
  | none =>
    rw [hold] at h2
    obtain ⟨-, rfl⟩ := pure_ok.mp h2
    exact .inl ⟨rfl, rfl⟩
  | some old =>
    rw [hold] at h2
    obtain ⟨_, s2, h3, h4⟩ := bind_ok.mp h2
    obtain ⟨_, s3, h5, h6⟩ := bind_ok.mp h4
    obtain ⟨-, rfl⟩ := raiseIf_ok.mp h3
    refine .inr ⟨old, rfl, ?_⟩
    have hdb := modify_ok.mp h5
    rcases ite_ok.mp h6 with ⟨heq, h7⟩ | ⟨hne, h7⟩
    · obtain ⟨-, rfl⟩ := pure_ok.mp h7
      rw [if_pos heq, ← hdb]
    · rw [if_neg hne, ← modify_ok.mp h7, ← hdb]

end Statements

namespace ResyncDb

section Grants

variable {db : ResyncDb} {g old : ResourceGrant} {grants : List ResourceGrant}

/-- `INSERT` and `DELETE`: the documents of the grant are bumped. -/
theorem Valid.grantAclBump (h : db.Valid)
    (hcov : ∀ d, ¬db.Covers g d → ∀ g', db.Covers g' d → (g' ∈ grants ↔ g' ∈ db.resourceGrants))
    (hnew : ∀ g' ∈ grants, g' ∈ db.resourceGrants ∨
      (db.org.HasUnit g'.companyId g'.principalId ∧ db.access.ResourceExists g')) :
    ∃ new, Changed (db.Covers g) db (grantAclBump g { db with resourceGrants := grants }) new := by
  have hok := eventsOk_grants h.toEventsOk grants
  obtain ⟨new, hb⟩ := hok.bumpDocsAndEnqueue g.companyId (grantAffectedDocs _ g)
  refine ⟨new, hb.changed h (fun d hd => ?_) (fun d _ => hcov d) hnew⟩
  rw [decide_eq_true_eq]
  exact mem_grantAffectedDocs hok hd

/-- A bump does not change which grants cover a document. -/
theorem covers_congr {db' : ResyncDb} (horg : db'.org = db.org) {d d' : DocumentRow}
    (hd : d'.toDocument = d.toDocument) : db'.Covers g d' ↔ db.Covers g d := by
  rw [Covers, Covers, hd]
  simp only [AccessDb.IsResource, ResyncDb.access, horg]

/-- `UPDATE`: the documents of the grant before and of the grant after are bumped. -/
theorem Valid.grantAclBumpUpdate (h : db.Valid)
    (hcov : ∀ d, ¬(db.Covers old d ∨ db.Covers g d) → ∀ g', db.Covers g' d →
      (g' ∈ grants ↔ g' ∈ db.resourceGrants))
    (hnew : ∀ g' ∈ grants, g' ∈ db.resourceGrants ∨
      (db.org.HasUnit g'.companyId g'.principalId ∧ db.access.ResourceExists g')) :
    ∃ new, Changed (fun d => db.Covers old d ∨ db.Covers g d) db
      (grantAclBumpUpdate old g { db with resourceGrants := grants }) new := by
  have hok := eventsOk_grants h.toEventsOk grants
  rw [Wikore.grantAclBumpUpdate]
  split
  next hc =>
    obtain ⟨new, hb⟩ := hok.bumpDocsAndEnqueue g.companyId (arrayAgg _)
    refine ⟨new, hb.changed h (fun d hd => ?_) (fun d _ => hcov d) hnew⟩
    have hold := mem_grantAffectedDocs (g := old) hok hd
    have hg := mem_grantAffectedDocs (g := g) hok hd
    rw [hc] at hold
    simp only [getD_arrayAgg, List.mem_dedup, List.mem_append, decide_eq_true_eq, and_or_left]
    exact or_congr hold hg
  next hc =>
    -- the second bump finds the documents as the first one has left them
    obtain ⟨new, hb⟩ := hok.bumpDocsAndEnqueue old.companyId (grantAffectedDocs _ old)
    have hok' := hb.eventsOk hok
    obtain ⟨new', hb'⟩ := hok'.bumpDocsAndEnqueue g.companyId (grantAffectedDocs _ g)
    have hboth := hb.trans hb' (fun d _ => rfl) fun d _ hhit => by
      have hne : d.companyId ≠ g.companyId := by
        rw [(of_decide_eq_true hhit).1]
        exact hc
      simp [hne]
    refine ⟨_, hboth.changed h (fun d hd => ?_) (fun d _ => hcov d) hnew⟩
    have hold := mem_grantAffectedDocs (g := old) hok hd
    have hg := mem_grantAffectedDocs (g := g) hok' (hb.mem hd)
    rw [bumped_companyId, bumped_id] at hg
    rw [Bool.or_eq_true, decide_eq_true_eq, decide_eq_true_eq]
    refine or_congr hold (hg.trans ?_)
    refine covers_congr hb.org ?_
    split <;> rfl

end Grants

section Owner

variable {db db' : ResyncDb} {old d : DocumentRow} {c x owner : Uuid}

theorem findDocument_some (h : db.findDocument c x = some d) :
    d ∈ db.documents ∧ d.companyId = c ∧ d.id = x := by
  have hp := List.find?_some h
  exact ⟨List.mem_of_find?_eq_some h, of_decide_eq_true hp⟩

theorem EventsOk.findDocument_of_mem (h : db.EventsOk) (hd : d ∈ db.documents) :
    db.findDocument d.companyId d.id = some d := by
  have hone : AtMostOne db.documents fun y => y.companyId = d.companyId ∧ y.id = d.id := by
    intro a ha b hb hpa hpb
    refine List.inj_on_of_nodup_map h.documentIds ha hb ?_
    exact (of_decide_eq_true hpa).2.trans (of_decide_eq_true hpb).2.symm
  exact (find?_eq_some_iff hone).mpr ⟨hd, by simp⟩

section Reassign

/-! The key of a document and the columns of V032 do not change with its owner. -/

@[simp] theorem reassign_id : (DocumentRow.reassign old owner d).id = d.id := by
  rw [DocumentRow.reassign]
  split <;> rfl

@[simp] theorem reassign_companyId : (DocumentRow.reassign old owner d).companyId = d.companyId := by
  rw [DocumentRow.reassign]
  split <;> rfl

@[simp] theorem reassign_aclVersion :
    (DocumentRow.reassign old owner d).aclVersion = d.aclVersion := by
  rw [DocumentRow.reassign]
  split <;> rfl

@[simp] theorem reassign_qdrantSyncedVersion :
    (DocumentRow.reassign old owner d).qdrantSyncedVersion = d.qdrantSyncedVersion := by
  rw [DocumentRow.reassign]
  split <;> rfl

end Reassign

theorem setOwner_self (h : old.ownerOrgUnitId = owner) : db.setOwner old owner = db := by
  have hid : ∀ d ∈ db.documents, DocumentRow.reassign old owner d = id d := by
    intro d _
    rw [DocumentRow.reassign]
    split
    next hd =>
      rw [hd, ← h]
      rfl
    next => rfl
  rw [setOwner, List.map_congr_left hid, List.map_id]

theorem EventsOk.documentKey (h : db.EventsOk) :
    ∀ d ∈ db.access.documents, ∀ d' ∈ db.access.documents, d.id = d'.id → d = d' := by
  intro d hd d' hd' hid
  obtain ⟨y, hy, rfl⟩ := List.mem_map.mp hd
  obtain ⟨y', hy', rfl⟩ := List.mem_map.mp hd'
  rw [List.inj_on_of_nodup_map h.documentIds hy hy' hid]

theorem Valid.setOwner (h : db.Valid) (old : DocumentRow) (owner : Uuid) :
    (db.setOwner old owner).Valid := by
  have hok : (db.setOwner old owner).EventsOk :=
    { documentIds := by
        rw [ResyncDb.setOwner, List.map_map]
        simpa [Function.comp_def] using h.documentIds
      eventKey := h.eventKey
      notAhead := by
        intro e he d' hd' hc hid
        obtain ⟨d, hd, rfl⟩ := List.mem_map.mp hd'
        rw [reassign_companyId] at hc
        rw [reassign_id] at hid
        rw [reassign_aclVersion]
        exact h.notAhead e he d hd hc hid }
  refine { hok with access := ⟨hok.documentKey, h.access.closure, h.access.principalExists, ?_⟩ }
  intro g hg
  have hres := h.access.resourceExists g hg
  rw [AccessDb.ResourceExists] at hres ⊢
  split
  next hrt =>
    rw [hrt] at hres
    exact hres
  next hrt =>
    rw [hrt] at hres
    obtain ⟨y, hy, hc, hid⟩ := hres
    obtain ⟨d, hd, rfl⟩ := List.mem_map.mp hy
    refine ⟨(DocumentRow.reassign old owner d).toDocument, ?_, ?_, ?_⟩
    · exact List.mem_map_of_mem (List.mem_map_of_mem hd)
    · rw [← hc]
      exact reassign_companyId
    · rw [← hid]
      exact reassign_id
  next => trivial

/-- The document with the new owner is bumped. -/
theorem Valid.updateOwner (h : db.Valid) (hold : db.findDocument c x = some old)
    (hne : old.ownerOrgUnitId ≠ owner) :
    ∃ new, Changed (fun d => d.companyId = c ∧ d.id = x ∧ d.ownerOrgUnitId ≠ owner) db
      (bumpDocsAndEnqueue c (some [x]) (db.setOwner old owner)) new := by
  have hval := h.setOwner old owner
  obtain ⟨new, hb⟩ := hval.bumpDocsAndEnqueue c (some [x])
  obtain ⟨hmem, hcold, hxold⟩ := findDocument_some hold
  have hhit : ∀ d ∈ db.documents, (d.companyId = c ∧ d.id ∈ (some [x]).getD []) ↔ d = old := by
    intro d hd
    simp only [Option.getD_some, List.mem_singleton]
    constructor
    · exact fun hk => List.inj_on_of_nodup_map h.documentIds hd hmem (hk.2.trans hxold.symm)
    · rintro rfl
      exact ⟨hcold, hxold⟩
  refine ⟨new, ⟨hb.eventsOk hval.toEventsOk, by rw [hb.access]; exact hval.access⟩, hb.outbox,
    fun d hd => ?_⟩
  have hd' := List.mem_map_of_mem (f := DocumentRow.reassign old owner) hd
  have hkey : decide ((DocumentRow.reassign old owner d).companyId = c ∧
      (DocumentRow.reassign old owner d).id ∈ (some [x]).getD []) = decide (d = old) := by
    rw [reassign_companyId, reassign_id, decide_eq_decide]
    exact hhit d hd
  have hone : new.filter (·.aggregateId = d.id) =
      if decide (d = old) then [resyncEvent (DocumentRow.reassign old owner d).bump] else [] := by
    have honce := hb.once _ hd'
    rwa [hkey, reassign_id] at honce
  refine ⟨_, hb.mem hd', ?_, ?_, ?_, fun ht => ?_, fun ht => ?_⟩
  · rw [bumped_companyId, reassign_companyId]
  · rw [bumped_id, reassign_id]
  · split <;> simp [DocumentRow.bump]
  · have hdo : d = old := (hhit d hd).mp ⟨ht.1, List.mem_singleton.mpr ht.2.1⟩
    rw [hone, hkey, if_pos (decide_eq_true hdo), if_pos (decide_eq_true hdo)]
    exact ⟨congrArg (· + 1) reassign_aclVersion, rfl⟩
  · have hdo : d ≠ old := by
      rintro rfl
      exact ht ⟨hcold, hxold, hne⟩
    have hsame : DocumentRow.reassign old owner d = d := if_neg hdo
    rw [hone, hkey, if_neg (by simpa using hdo), if_neg (by simpa using hdo), hsame]
    refine ⟨rfl, rfl, fun now s => ?_⟩
    rw [hb.access]
    refine readable_congr ?_ fun g _ => ?_
    · rfl
    · exact Iff.rfl

end Owner

/-- Every change that is accepted. -/
theorem Valid.change {db db' : ResyncDb} (h : db.Valid) {op : AclChange}
    (hop : op.statement db = .ok () db') : ∃ new, Changed (op.Touches db) db db' new := by
  cases op with
  | insertGrant wikiPages g =>
    obtain ⟨hnew, rfl⟩ := insertGrant_ok hop
    refine h.grantAclBump (fun d hno g' hg' => ?_) fun g' hg' => ?_
    · rw [List.mem_append, List.mem_singleton, or_iff_left]
      rintro rfl
      exact hno hg'
    · rcases List.mem_append.mp hg' with hg' | hg'
      · exact .inl hg'
      · rw [List.mem_singleton.mp hg']
        exact .inr hnew
  | updateGrant wikiPages x g =>
    rcases updateGrant_ok hop with ⟨hnone, rfl⟩ | ⟨old, hold, hnew, rfl⟩
    · refine ⟨[], (Changed.refl h).congr fun d _ => ?_⟩
      simp [AclChange.Touches, hnone]
    · have hcov : ∀ d, ¬(db.Covers old d ∨ db.Covers g d) → ∀ g', db.Covers g' d →
          (g' ∈ db.resourceGrants.map (fun o => if o = old then g else o) ↔
            g' ∈ db.resourceGrants) := by
        -- neither row covers the document, so the row that does is another
        intro d hno g' hg'
        rw [not_or] at hno
        constructor
        · intro hm
          obtain ⟨o, ho, heq⟩ := List.mem_map.mp hm
          split at heq
          next => exact absurd (heq ▸ hg') hno.2
          next => exact heq ▸ ho
        · intro hm
          refine List.mem_map.mpr ⟨g', hm, if_neg ?_⟩
          rintro rfl
          exact hno.1 hg'
      obtain ⟨new, hch⟩ := h.grantAclBumpUpdate hcov fun g' hg' => by
        obtain ⟨o, ho, rfl⟩ := List.mem_map.mp hg'
        split
        · exact .inr hnew
        · exact .inl ho
      refine ⟨new, hch.congr fun d _ => ?_⟩
      simp [AclChange.Touches, hold]
  | deleteGrant x =>
    rcases deleteGrant_ok hop with ⟨hnone, rfl⟩ | ⟨old, hold, rfl⟩
    · refine ⟨[], (Changed.refl h).congr fun d _ => ?_⟩
      simp [AclChange.Touches, hnone]
    · have hcov : ∀ d, ¬db.Covers old d → ∀ g', db.Covers g' d →
          (g' ∈ db.resourceGrants.filter (· ≠ old) ↔ g' ∈ db.resourceGrants) := by
        intro d hno g' hg'
        have hne : g' ≠ old := by
          rintro rfl
          exact hno hg'
        simp [hne]
      obtain ⟨new, hch⟩ := h.grantAclBump hcov fun g' hg' => .inl (List.mem_of_mem_filter hg')
      refine ⟨new, hch.congr fun d _ => ?_⟩
      simp [AclChange.Touches, hold]
  | updateOwner c x owner =>
    rcases updateOwner_ok hop with ⟨hnone, rfl⟩ | ⟨old, hold, rfl⟩
    · refine ⟨[], (Changed.refl h).congr fun d hd => iff_of_false id ?_⟩
      rintro ⟨rfl, rfl, -⟩
      rw [h.findDocument_of_mem hd] at hnone
      cases hnone
    · split
      next heq =>
        rw [setOwner_self heq]
        refine ⟨[], (Changed.refl h).congr fun d hd => iff_of_false id ?_⟩
        rintro ⟨rfl, rfl, hne⟩
        rw [h.findDocument_of_mem hd] at hold
        cases hold
        exact hne heq
      next hne => exact h.updateOwner hold hne

end ResyncDb

/-- Every change of a grant or of an owner that is accepted, whichever columns it changes: a
document whose scopes differ before and after has its `acl_version` raised by one and one new event,
in its company and with the new version; and a document that neither the grant before nor the grant
after covers, and that keeps its owner, keeps its version and has no new event. -/
theorem aclChange_bumps {db db' : ResyncDb} (h : db.Valid) {op : AclChange}
    (hop : op.statement db = .ok () db') (now : Nat) :
    ∃ new, db'.outbox = db.outbox ++ new ∧ ∀ d ∈ db.documents, ∃ d',
      db'.findDocument d.companyId d.id = some d' ∧
      ((¬∀ s, s ∈ fetchAccessScopes db.access now d.companyId d.id ↔
          s ∈ fetchAccessScopes db'.access now d.companyId d.id) →
        d'.aclVersion = d.aclVersion + 1 ∧
          new.filter (·.aggregateId = d.id) = [resyncEvent d']) ∧
      (¬op.Touches db d →
        d'.aclVersion = d.aclVersion ∧ new.filter (·.aggregateId = d.id) = []) := by
  obtain ⟨new, hch⟩ := h.change hop
  refine ⟨new, hch.outbox, fun d hd => ?_⟩
  obtain ⟨d', hd', hc, hid, -, hbump, hkeep⟩ := hch.document d hd
  refine ⟨d', ?_, fun hdiff => ?_, fun ht => ⟨(hkeep ht).1, (hkeep ht).2.1⟩⟩
  · rw [← hc, ← hid]
    exact hch.valid.findDocument_of_mem hd'
  · by_cases ht : op.Touches db d
    · exact hbump ht
    · -- the readers of an untouched document are the same
      refine absurd (fun s => ?_) hdiff
      have hs := (hkeep ht).2.2 now s
      rw [← mem_fetchAccessScopes hch.valid.access (List.mem_map_of_mem hd'),
        ← mem_fetchAccessScopes h.access (List.mem_map_of_mem hd), hc, hid] at hs
      exact hs.symm

/-- A document of the team 11, whose parent is the root 10 of company 1. -/
def policyDb : ResyncDb where
  org := OrgDb.empty.run [.createCompany 1 "Acme" "acme" 10,
    .insertOrgUnit ⟨11, 1, some 10, .team, "team", "Team"⟩,
    .insertOrgUnit ⟨12, 1, some 10, .project, "project", "Project"⟩]
  documents := [{ id := 100, companyId := 1, ownerOrgUnitId := 11 }]
  resourceGrants := []
  outbox := []

/-- The project 12 may read what the units below the root own. -/
def policyGrant : ResourceGrant :=
  ⟨200, 1, .orgUnit, 10, .orgUnit, 12, .read, .selfAndDescendants, .selfOnly, none⟩

theorem policyDb_valid : policyDb.Valid where
  documentIds := by decide
  eventKey := nofun
  notAhead := nofun
  access :=
    { documentKey := by decide
      closure := (OrgDb.empty_consistent.run _).toTreeOk.closureIsReflTrans
      principalExists := nofun
      resourceExists := nofun }

theorem policy_grant_bumps :
    let op := AclChange.insertGrant [] policyGrant
    let db' := (exec op.statement policyDb).1
    (exec op.statement policyDb).2 = none ∧
      (∃ new, db'.outbox = policyDb.outbox ++ new ∧ ∀ d ∈ policyDb.documents, ∃ d',
        db'.findDocument d.companyId d.id = some d' ∧ d'.aclVersion = d.aclVersion + 1 ∧
          new.filter (·.aggregateId = d.id) = [resyncEvent d']) := by
  have hnone : (exec (AclChange.insertGrant [] policyGrant).statement policyDb).2 = none := by
    decide
  obtain ⟨new, hout, hdoc⟩ := aclChange_bumps policyDb_valid (ok_of_exec hnone) 0
  refine ⟨hnone, new, hout, fun d hd => ?_⟩
  obtain ⟨d', hfind, hbump, -⟩ := hdoc d hd
  refine ⟨d', hfind, hbump fun hsame => ?_⟩
  rw [List.mem_singleton.mp hd] at hsame
  -- the project reads the document afterwards and not before
  have hafter : (12 : Uuid) ∈ fetchAccessScopes
      (exec (AclChange.insertGrant [] policyGrant).statement policyDb).1.access 0 1 100 := by
    decide
  have hbefore : (12 : Uuid) ∉ fetchAccessScopes policyDb.access 0 1 100 := by
    decide
  exact hbefore ((hsame 12).mpr hafter)

end Wikore
