import Wikore.Scheduler.EdgeFreshness

/-! The points of a deleted edge.  The delete trigger lists the points on record, so a point that is
written but not yet on record when the edge goes, or written afterwards, is in no event. -/

namespace Wikore

open Transition

namespace EdgeWorld

/-- An open event lists the point, and no cleanup worker is about to mark the event completed. -/
def AwaitsDeletion (w : EdgeWorld) (p : Uuid) : Prop :=
  ∃ k e ids, w.events[k]? = some e ∧ e.job = .deleteEdgePoints ids ∧ p ∈ ids ∧ e.completed = false ∧
    ∀ x ∈ w.workers, x.event = k → x.phase ≠ .ended true

/-- The edge is removed when all of its points are on record, and a point is upserted while the edge
lives or while the point awaits deletion. -/
def Traced (computePointId : Uuid → Nat → Uuid) (w : EdgeWorld) : EdgeAction → Prop
  | .remove => ∀ p, w.points p ≠ none → p ∈ w.embeddings.map EdgeEmbedding.qdrantPointId
  | .upsertRaw i reply =>
    match w.workers[i]? with
    | some ⟨_, .upsertEdgeVector m f _, .prepared _⟩ =>
      reply ≠ .failed → w.edge = none → w.AwaitsDeletion (computePointId m f)
    | _ => True
  | _ => True

variable {computePointId : Uuid → Nat → Uuid} {w w' : EdgeWorld} {p : Uuid} {i : Nat}

theorem AwaitsDeletion.mono (h : w.AwaitsDeletion p)
    (hevents : ∀ k e ids, w.events[k]? = some e → e.job = .deleteEdgePoints ids → p ∈ ids →
      e.completed = false → (∀ x ∈ w.workers, x.event = k → x.phase ≠ .ended true) →
      ∃ e', w'.events[k]? = some e' ∧ e'.job = e.job ∧ e'.completed = false)
    (hworkers : ∀ k e ids, w.events[k]? = some e → e.job = .deleteEdgePoints ids → p ∈ ids →
      ∀ x ∈ w'.workers, x.event = k → x ∈ w.workers ∨ x.phase ≠ .ended true) :
    w'.AwaitsDeletion p := by
  obtain ⟨k, e, ids, hk, hj, hp, hc, hx⟩ := h
  obtain ⟨e', hk', hj', hc'⟩ := hevents k e ids hk hj hp hc hx
  refine ⟨k, e', ids, hk', hj'.trans hj, hp, hc', fun x hmem hxk => ?_⟩
  rcases hworkers k e ids hk hj hp x hmem hxk with hmem | hphase
  · exact hx x hmem hxk
  · exact hphase

/-- Only the workers change. -/
theorem AwaitsDeletion.of_workers (h : w.AwaitsDeletion p) (heq : w'.events = w.events)
    (hworkers : ∀ k e ids, w.events[k]? = some e → e.job = .deleteEdgePoints ids → p ∈ ids →
      ∀ x ∈ w'.workers, x.event = k → x ∈ w.workers ∨ x.phase ≠ .ended true) :
    w'.AwaitsDeletion p :=
  h.mono (fun _ e _ hk _ _ hc _ => ⟨e, by rw [heq, hk], rfl, hc⟩) hworkers

/-- A worker of an upsert event moves on. -/
theorem AwaitsDeletion.setPhase (hsound : Sound computePointId w) (h : w.AwaitsDeletion p)
    {k f v : Nat} {m : Uuid} {phase phase' : EdgePhase}
    (hi : w.workers[i]? = some ⟨k, .upsertEdgeVector m f v, phase⟩) :
    (w.setPhase i ⟨k, .upsertEdgeVector m f v, phase⟩ phase').AwaitsDeletion p := by
  refine h.of_workers rfl fun k' e ids hk hj _ x hx hxk => ?_
  rcases List.mem_or_eq_of_mem_set hx with hx | rfl
  · exact .inl hx
  · -- the event of this worker is no delete event
    have hcopy := hsound.copies _ (List.mem_of_getElem? hi)
    rw [show k = k' from hxk, jobs, List.getElem?_map, hk, Option.map_some, hj] at hcopy
    cases hcopy

theorem AwaitsDeletion.setEvent (h : w.AwaitsDeletion p) {k : Nat} {e e' : EdgeEvent}
    (hk : w.events[k]? = some e) (hj : e'.job = e.job)
    (hc : e.completed = false → (∀ x ∈ w.workers, x.event = k → x.phase ≠ .ended true) →
      e'.completed = false) : (w.setEvent k e').AwaitsDeletion p := by
  refine h.mono (fun k' f ids hk' hjob hp hopen hx => ?_) fun k' f ids _ _ _ x hx _ => .inl hx
  by_cases heq : k = k'
  · subst heq
    obtain rfl : e = f := Option.some.inj (hk.symm.trans hk')
    exact ⟨e', List.getElem?_set_self (List.getElem?_eq_some_iff.mp hk).1, hj, hc hopen hx⟩
  · exact ⟨f, (List.getElem?_set_ne heq).trans hk', rfl, hopen⟩

theorem AwaitsDeletion.eraseIdx (h : w.AwaitsDeletion p) (i : Nat) :
    ({ w with workers := w.workers.eraseIdx i } : EdgeWorld).AwaitsDeletion p :=
  h.of_workers rfl fun _ _ _ _ _ _ _ hx _ => .inl (List.mem_of_mem_eraseIdx hx)

/-- Every point of an edge that is gone awaits its deletion. -/
def Collected (w : EdgeWorld) : Prop := w.edge = none → ∀ p, w.points p ≠ none → w.AwaitsDeletion p

namespace Collected

theorem removed (hsound : Sound computePointId w)
    (htraced : ∀ p, w.points p ≠ none → p ∈ w.embeddings.map EdgeEmbedding.qdrantPointId) :
    Collected { w with
      edge := none, events := w.events ++ w.enqueueDelete, embeddings := [] } := by
  intro _ p hp
  have hmem := htraced p hp
  have hne : w.embeddings ≠ [] := by
    rintro heq
    rw [heq] at hmem
    cases hmem
  have hevent : (w.events ++ w.enqueueDelete)[w.events.length]? =
      some ⟨.deleteEdgePoints (w.embeddings.map EdgeEmbedding.qdrantPointId), false, false⟩ := by
    rw [enqueueDelete, if_neg hne, List.getElem?_append_right (Nat.le_refl _), Nat.sub_self]
    rfl
  refine ⟨w.events.length, _, _, hevent, rfl, hmem, rfl, fun x hx hxk => ?_⟩
  have hlt := (List.getElem?_eq_some_iff.mp (hsound.copies x hx)).1
  rw [jobs, List.length_map] at hlt
  omega

/-- The cleanup worker of an event that lists the point has just ended. -/
theorem cleaned (hsound : Sound computePointId w) (h : w.AwaitsDeletion p) {k : Nat}
    {ids : List Uuid} {completed : Bool}
    (hi : w.workers[i]? = some ⟨k, .deleteEdgePoints ids, .claimed⟩)
    (hids : p ∈ ids → completed = false) :
    (w.setPhase i ⟨k, .deleteEdgePoints ids, .claimed⟩ (.ended completed)).AwaitsDeletion p := by
  refine h.of_workers rfl fun k' e ids' hk hj hp x hx hxk => ?_
  rcases List.mem_or_eq_of_mem_set hx with hx | rfl
  · exact .inl hx
  · have hcopy := hsound.copies _ (List.mem_of_getElem? hi)
    rw [show k = k' from hxk, jobs, List.getElem?_map, hk, Option.map_some, hj] at hcopy
    cases hcopy
    rw [hids hp]
    refine .inr fun hended => ?_
    cases hended

theorem step (hsound : Sound computePointId w) (h : w.Collected) (a : EdgeAction)
    (htraced : w.Traced computePointId a) : (w.step computePointId a).Collected := by
  have hs : EdgeStep computePointId w a (w.step computePointId a) := edge_step a
  generalize w.step computePointId a = w' at hs ⊢
  cases hs with
  | idle => exact h
  | created => nofun
  | updated => nofun
  | removed => exact removed hsound htraced
  | enabled => exact fun he p hp => (h he p hp).of_workers rfl fun _ _ _ _ _ _ x hx _ => .inl hx
  | @claimed k e hk hc =>
    intro he p hp
    have hset : (w.setEvent k { e with claimed := true }).AwaitsDeletion p :=
      (h he p hp).setEvent hk rfl fun hopen _ => hopen
    refine hset.of_workers rfl fun _ _ _ _ _ _ x hx _ => ?_
    rcases List.mem_append.mp hx with hx | hx
    · exact .inl hx
    · rw [List.mem_singleton.mp hx]
      exact .inr nofun
  | released hk => exact fun he p hp => (h he p hp).setEvent hk rfl fun hopen _ => hopen
  | moved hi => exact fun he p hp => (h he p hp).setPhase hsound hi
  | @upserted i k m f v live reply hi hr =>
    intro he p hp
    have hawait : w.AwaitsDeletion p := by
      by_cases hpid : p = computePointId m f
      · rw [hpid]
        simp only [Traced, hi] at htraced
        exact htraced hr he
      · exact h he p fun hnone => hp ((Function.update_of_ne hpid _ _).trans hnone)
    have hphase : (w.setPhase i ⟨k, .upsertEdgeVector m f v, .prepared live⟩
        (if reply = .ok then .upserted live else .ended false)).AwaitsDeletion p :=
      hawait.setPhase hsound hi
    exact hphase.of_workers rfl fun _ _ _ _ _ _ x hx _ => .inl hx
  | booked hi hlive => exact fun he => absurd he hlive
  | refused hi => exact fun he p hp => (h he p hp).setPhase hsound hi
  | @deleted i k ids reply completed hi =>
    intro he p hp
    by_cases hmem : p ∈ ids
    · exact absurd (if_pos hmem) hp
    · have hold : w.points p ≠ none := fun hnone => hp ((if_neg hmem).trans hnone)
      have hphase : (w.setPhase i ⟨k, .deleteEdgePoints ids, .claimed⟩
          (.ended completed)).AwaitsDeletion p :=
        cleaned hsound (h he p hold) hi fun hin => absurd hin hmem
      exact hphase.of_workers rfl fun _ _ _ _ _ _ x hx _ => .inl hx
  | @unreached i k ids reply hi =>
    intro he p hp
    refine cleaned hsound (h he p hp) hi fun hin => ?_
    exact decide_eq_false (List.ne_nil_of_mem hin)
  | @marked i k job completed reply e hi hk =>
    intro he p hp
    have hset : (w.setEvent k { e with
        claimed := false, completed := e.completed || completed }).AwaitsDeletion p := by
      refine (h he p hp).setEvent hk rfl fun hopen hx => ?_
      have hended := hx _ (List.mem_of_getElem? hi) rfl
      cases completed with
      | false => simp [hopen]
      | true => exact absurd rfl hended
    exact hset.eraseIdx i
  | unmarked => exact fun he p hp => (h he p hp).eraseIdx _
  | crashed i => exact fun he p hp => (h he p hp).eraseIdx i

end Collected

end EdgeWorld

/-- In every run that keeps track of the points, a deleted edge whose events are completed has no
point left once every worker is done. -/
theorem no_orphan_edge_points (computePointId : Uuid → Nat → Uuid) (enabled : List Uuid)
    (as : List EdgeAction)
    (hrun : Along (EdgeWorld.step computePointId) (EdgeWorld.Traced computePointId) (.init enabled)
      as) :
    let w := run (EdgeWorld.step computePointId) (.init enabled) as
    w.edge = none → (∀ e ∈ w.events, e.completed = true) → w.workers = [] →
      ∀ p, w.points p = none := by
  intro w hgone hdone hidle p
  have hinv : w.Sound computePointId ∧ w.Collected := by
    refine run_invariant_of (P := fun w => w.Sound computePointId ∧ w.Collected)
      ⟨.init enabled, fun _ _ hp => absurd rfl hp⟩ hrun fun v a h htraced => ?_
    exact ⟨h.1.step a, h.2.step h.1 a htraced⟩
  by_contra hp
  obtain ⟨k, e, ids, hk, -, -, hopen, -⟩ := hinv.2 hgone p hp
  rw [hdone e (List.mem_of_getElem? hk)] at hopen
  cases hopen

/-- The edge is indexed, removed and cleaned up. -/
def citationRemoved : List EdgeAction :=
  .create :: .claim 0 :: embedUpTo 0 ++ embedFrom 0 ++
    [.remove, .claim 1, .deletePointsById 0 .ok, .mark 0 .ok]

theorem citation_removed_clean :
    let w := run (EdgeWorld.step citationPointId) (.init [citationModel]) citationRemoved
    w.created = true ∧ w.edge = none ∧ (∀ e ∈ w.events, e.completed = true) ∧ w.workers = [] ∧
      ∀ p, w.points p = none := by
  have hrun : Along (EdgeWorld.step citationPointId) (EdgeWorld.Traced citationPointId)
      (.init [citationModel]) citationRemoved := by
    refine ⟨trivial, trivial, trivial, trivial, trivial, trivial, fun _ => nofun, trivial,
      trivial, fun p hp => ?_, trivial, trivial, trivial, trivial⟩
    by_cases hpid : p = citationPointId citationModel 1
    · subst hpid
      decide
    · exact absurd (Function.update_of_ne hpid _ _) hp
  refine ⟨by decide, by decide, by decide, by decide, ?_⟩
  exact no_orphan_edge_points citationPointId [citationModel] citationRemoved hrun
    (by decide) (by decide) (by decide)

/-- A worker loads the edge, which is removed before the Qdrant upsert.  The bookkeeping fails, and
the next attempt finds no edge. -/
def citationOrphaned : List EdgeAction :=
  .create :: .claim 0 :: embedUpTo 0 ++ .remove :: embedFrom 0 ++
    [.claim 0, .loadLiveEdge 0 .ok, .mark 0 .ok]

theorem citation_orphan_left :
    let w := run (EdgeWorld.step citationPointId) (.init [citationModel]) citationOrphaned
    w.created = true ∧ w.edge = none ∧ (∀ e ∈ w.events, e.completed = true) ∧ w.workers = [] ∧
      ¬∀ p, w.points p = none := by
  refine ⟨by decide, by decide, by decide, by decide, fun h => ?_⟩
  have hpoint := h (citationPointId citationModel 1)
  revert hpoint
  decide

end Wikore
