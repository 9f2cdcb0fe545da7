import Wikore.Access.Epochs
import Wikore.Lib.Transition

/-! `CachedAccessResolver::resolve` as a system of concurrent calls.  Committed transactions, the
passing of time and the single steps of any number of calls (the Redis get, the query that validates
the epochs, the resolver's query, the Redis set) come in any order. -/

namespace Wikore

open Statement Stamp Transition

/-- The parts of the cache key `lr:eff:<company>:<user>:<unit>`. -/
structure ScopeKey where
  company : Uuid
  user : Uuid
  unit : Uuid
deriving DecidableEq, Repr

structure AccessScope where
  orgUnitIds : List Uuid
  cacheUntil : Nat
  accessEpoch : Nat
  scopeEpoch : Nat
deriving DecidableEq, Repr

structure CachedScopeDto where
  orgUnitIds : List Uuid
  accessEpoch : Nat
  scopeEpoch : Nat
  cacheUntilMs : Nat
deriving DecidableEq, Repr

/-- How far a call has come.  A call that returned from the cache remembers the database and the
instant of its validating query. -/
inductive CallPhase
  | started
  | found (dto : CachedScopeDto)
  | missed
  | queried (rows : ResolvedRows)
  | stamped (scope : AccessScope)
  | served (scope : AccessScope) (validated : AclDb) (validatedAt : Nat)
  | resolved (scope : AccessScope)
  | failed
deriving DecidableEq, Repr

/-- A call of `CachedAccessResolver::resolve`; `now` is the instant that it captured first. -/
structure ResolveCall where
  key : ScopeKey
  now : Nat
  phase : CallPhase
deriving DecidableEq, Repr

structure CacheWorld where
  db : AclDb
  clock : Nat
  cache : List (ScopeKey × CachedScopeDto)
  calls : List ResolveCall
deriving DecidableEq, Repr

/-- `kDefaultTtl`: five minutes, in microseconds. -/
def kDefaultTtl : Nat := 300000000

/-- The earlier of the default end and the earliest expiry, which the query has floored to the
millisecond. -/
def clampUntil (default : Nat) : Option Nat → Nat
  | none => default
  | some ms => min default (ms * 1000)

theorem clampUntil_le (default ms : Nat) : clampUntil default (some ms) / 1000 ≤ ms := by
  simp only [clampUntil]
  omega

/-- `cache_until` of the resolver. -/
def cacheUntil (clock : Nat) (minExpiryMs : Option Nat) : Nat :=
  clampUntil (clock + kDefaultTtl) minExpiryMs

inductive CacheAction
  | commit (ops : List AclOp)
  | tick (d : Nat)
  | call (key : ScopeKey)
  /-- `Redis::get`; an unreachable server answers like a missing key. -/
  | redisGet (i : Nat) (reachable : Bool)
  | validate (i : Nat) (ok : Bool)
  /-- The resolver's query; `pgNow` is the `now()` of its statement. -/
  | resolve (i : Nat) (pgNow : Nat) (ok : Bool)
  | stamp (i : Nat)
  | redisSet (i : Nat) (ok : Bool)
  | evict (key : ScopeKey)
deriving DecidableEq, Repr

namespace CacheWorld

def lookup (w : CacheWorld) (key : ScopeKey) : Option CachedScopeDto :=
  (w.cache.find? fun e => e.1 = key).map Prod.snd

def setPhase (w : CacheWorld) (i : Nat) (call : ResolveCall) (phase : CallPhase) : CacheWorld :=
  { w with calls := w.calls.set i { call with phase } }

/-- The fast path as far as the expiry check. -/
def getPhase (w : CacheWorld) (call : ResolveCall) (reachable : Bool) : CallPhase :=
  match w.lookup call.key with
  | some dto =>
    if reachable = true ∧ call.now / 1000 < dto.cacheUntilMs then .found dto else .missed
  | none => .missed

/-- The comparison with the live epochs; a failed query falls through to a full resolve. -/
def validatePhase (w : CacheWorld) (call : ResolveCall) (dto : CachedScopeDto) (ok : Bool) :
    CallPhase :=
  if ok = true ∧
      epochs w.db call.key.company call.key.user = some (dto.accessEpoch, dto.scopeEpoch) then
    .served ⟨dto.orgUnitIds, dto.cacheUntilMs * 1000, dto.accessEpoch, dto.scopeEpoch⟩ w.db w.clock
  else .missed

def resolvePhase (w : CacheWorld) (call : ResolveCall) (pgNow : Nat) (ok : Bool) : CallPhase :=
  if ok then
    match resolveQuery w.db pgNow call.key.company call.key.user call.key.unit with
    | some rows => .queried rows
    | none => .failed
  else .failed

def stampedScope (w : CacheWorld) (rows : ResolvedRows) : AccessScope :=
  ⟨rows.orgUnitIds, cacheUntil w.clock rows.minExpiryMs, rows.accessEpoch, rows.scopeEpoch⟩

/-- `Redis::set`, for a lifetime of at least one second. -/
def store (w : CacheWorld) (call : ResolveCall) (scope : AccessScope) (ok : Bool) : CacheWorld :=
  if ok = true ∧ 0 < (scope.cacheUntil - call.now) / 1000000 then
    { w with cache := (call.key, ⟨scope.orgUnitIds, scope.accessEpoch, scope.scopeEpoch,
        scope.cacheUntil / 1000⟩) :: w.cache.filter fun e => e.1 ≠ call.key }
  else w

/-- One step of the system.  An action that a call is not ready for does nothing. -/
def step (w : CacheWorld) : CacheAction → CacheWorld
  | .commit ops => { w with db := (exec (transaction ops) w.db).1 }
  | .tick d => { w with clock := w.clock + d }
  | .call key => { w with calls := w.calls ++ [⟨key, w.clock, .started⟩] }
  | .redisGet i reachable =>
    match w.calls[i]? with
    | some call =>
      match call.phase with
      | .started => w.setPhase i call (w.getPhase call reachable)
      | _ => w
    | none => w
  | .validate i ok =>
    match w.calls[i]? with
    | some call =>
      match call.phase with
      | .found dto => w.setPhase i call (w.validatePhase call dto ok)
      | _ => w
    | none => w
  | .resolve i pgNow ok =>
    match w.calls[i]? with
    | some call =>
      match call.phase with
      | .missed =>
        if call.now ≤ pgNow ∧ pgNow ≤ w.clock then
          w.setPhase i call (w.resolvePhase call pgNow ok)
        else w
      | _ => w
    | none => w
  | .stamp i =>
    match w.calls[i]? with
    | some call =>
      match call.phase with
      | .queried rows => w.setPhase i call (.stamped (w.stampedScope rows))
      | _ => w
    | none => w
  | .redisSet i ok =>
    match w.calls[i]? with
    | some call =>
      match call.phase with
      | .stamped scope => (w.store call scope ok).setPhase i call (.resolved scope)
      | _ => w
    | none => w
  | .evict key => { w with cache := w.cache.filter fun e => e.1 ≠ key }

/-- A database before the first call. -/
def init (db : AclDb) (clock : Nat) : CacheWorld := ⟨db, clock, [], []⟩

end CacheWorld

/-! ### What a step can do -/

/-- A scope that the system holds, in the cache or in a call; `untilMs` is the end of its
lifetime. -/
structure HeldScope where
  key : ScopeKey
  orgUnitIds : List Uuid
  accessEpoch : Nat
  scopeEpoch : Nat
  untilMs : Option Nat
deriving DecidableEq, Repr

def CachedScopeDto.held (key : ScopeKey) (dto : CachedScopeDto) : HeldScope :=
  ⟨key, dto.orgUnitIds, dto.accessEpoch, dto.scopeEpoch, some dto.cacheUntilMs⟩

def ResolvedRows.held (key : ScopeKey) (rows : ResolvedRows) : HeldScope :=
  ⟨key, rows.orgUnitIds, rows.accessEpoch, rows.scopeEpoch, rows.minExpiryMs⟩

def AccessScope.held (key : ScopeKey) (scope : AccessScope) : HeldScope :=
  ⟨key, scope.orgUnitIds, scope.accessEpoch, scope.scopeEpoch, some (scope.cacheUntil / 1000)⟩

def ResolveCall.held (call : ResolveCall) : Option HeldScope :=
  match call.phase with
  | .found dto => some (dto.held call.key)
  | .queried rows => some (rows.held call.key)
  | .stamped scope => some (scope.held call.key)
  | .started | .missed | .served _ _ _ | .resolved _ | .failed => none

/-- The same scope, ending no later. -/
structure HeldScope.Shortens (h h0 : HeldScope) : Prop where
  key : h.key = h0.key
  orgUnitIds : h.orgUnitIds = h0.orgUnitIds
  accessEpoch : h.accessEpoch = h0.accessEpoch
  scopeEpoch : h.scopeEpoch = h0.scopeEpoch
  untilMs : ∀ x, h0.untilMs = some x → ∃ y, h.untilMs = some y ∧ y ≤ x

theorem HeldScope.Shortens.refl (h : HeldScope) : h.Shortens h :=
  ⟨rfl, rfl, rfl, rfl, fun x hx => ⟨x, hx, Nat.le_refl _⟩⟩

namespace CacheWorld

variable {w : CacheWorld} {a : CacheAction}

def Holds (w : CacheWorld) (h : HeldScope) : Prop :=
  (∃ e ∈ w.cache, h = e.2.held e.1) ∨ ∃ call ∈ w.calls, call.held = some h

/-- What an action makes of the phase of call `i`. -/
inductive PhaseStep (w : CacheWorld) (i : Nat) (call : ResolveCall) : CacheAction → CallPhase → Prop
  | get (reachable : Bool) : call.phase = .started →
      PhaseStep w i call (.redisGet i reachable) (w.getPhase call reachable)
  | validate (dto : CachedScopeDto) (ok : Bool) : call.phase = .found dto →
      PhaseStep w i call (.validate i ok) (w.validatePhase call dto ok)
  | resolve (pgNow : Nat) (ok : Bool) : call.phase = .missed → pgNow ≤ w.clock →
      PhaseStep w i call (.resolve i pgNow ok) (w.resolvePhase call pgNow ok)
  | stamp (rows : ResolvedRows) : call.phase = .queried rows →
      PhaseStep w i call (.stamp i) (.stamped (w.stampedScope rows))
  | set (scope : AccessScope) (ok : Bool) : call.phase = .stamped scope →
      PhaseStep w i call (.redisSet i ok) (.resolved scope)

theorem store_calls (call : ResolveCall) (scope : AccessScope) (ok : Bool) :
    (w.store call scope ok).calls = w.calls := by
  unfold store
  split <;> rfl

theorem mem_setPhase {i : Nat} {call x : ResolveCall} {phase : CallPhase}
    (hx : x ∈ (w.setPhase i call phase).calls) : x ∈ w.calls ∨ x = { call with phase } :=
  List.mem_or_eq_of_mem_set hx

/-- A call of the next state was there before, has just begun or has taken one step. -/
theorem mem_calls_step {x : ResolveCall} (hx : x ∈ (w.step a).calls) :
    x ∈ w.calls ∨ (∃ key, x = ⟨key, w.clock, .started⟩) ∨
      ∃ i call phase, w.calls[i]? = some call ∧ PhaseStep w i call a phase ∧
        x = { call with phase } := by
  cases a with
  | commit ops => exact .inl hx
  | tick d => exact .inl hx
  | call key =>
    rcases List.mem_append.mp hx with hx | hx
    · exact .inl hx
    · exact .inr (.inl ⟨key, List.mem_singleton.mp hx⟩)
  | redisGet i reachable =>
    simp only [step] at hx
    split at hx
    next call hi =>
      split at hx
      next hp =>
        exact (mem_setPhase hx).imp_right fun he => .inr ⟨i, call, _, hi, .get reachable hp, he⟩
      next => exact .inl hx
    next => exact .inl hx
  | validate i ok =>
    simp only [step] at hx
    split at hx
    next call hi =>
      split at hx
      next dto hp =>
        exact (mem_setPhase hx).imp_right fun he => .inr ⟨i, call, _, hi, .validate dto ok hp, he⟩
      next => exact .inl hx
    next => exact .inl hx
  | resolve i pgNow ok =>
    simp only [step] at hx
    split at hx
    next call hi =>
      split at hx
      next hp =>
        split at hx
        next hle =>
          exact (mem_setPhase hx).imp_right fun he =>
            .inr ⟨i, call, _, hi, .resolve pgNow ok hp hle.2, he⟩
        next => exact .inl hx
      next => exact .inl hx
    next => exact .inl hx
  | stamp i =>
    simp only [step] at hx
    split at hx
    next call hi =>
      split at hx
      next rows hp =>
        exact (mem_setPhase hx).imp_right fun he => .inr ⟨i, call, _, hi, .stamp rows hp, he⟩
      next => exact .inl hx
    next => exact .inl hx
  | redisSet i ok =>
    simp only [step] at hx
    split at hx
    next call hi =>
      split at hx
      next scope hp =>
        have hset := mem_setPhase hx
        rw [store_calls] at hset
        exact hset.imp_right fun he => .inr ⟨i, call, _, hi, .set scope ok hp, he⟩
      next => exact .inl hx
    next => exact .inl hx
  | evict key => exact .inl hx

theorem mem_store {call : ResolveCall} {scope : AccessScope} {ok : Bool}
    {e : ScopeKey × CachedScopeDto} (he : e ∈ (w.store call scope ok).cache) :
    e ∈ w.cache ∨ e.2.held e.1 = scope.held call.key := by
  unfold store at he
  split at he
  · rcases List.mem_cons.mp he with rfl | he
    · exact .inr rfl
    · exact .inl (List.mem_filter.mp he).1
  · exact .inl he

/-- An entry of the next state was there before, or a call has just written it. -/
theorem mem_cache_step {e : ScopeKey × CachedScopeDto} (he : e ∈ (w.step a).cache) :
    e ∈ w.cache ∨ ∃ call ∈ w.calls, call.held = some (e.2.held e.1) := by
  cases a with
  | redisSet i ok =>
    simp only [step] at he
    split at he
    next call hi =>
      split at he
      next scope hp =>
        refine (mem_store he).imp_right fun heq => ⟨call, List.mem_of_getElem? hi, ?_⟩
        rw [ResolveCall.held, hp, heq]
      next => exact .inl he
    next => exact .inl he
  | evict key => exact .inl (List.mem_filter.mp he).1
  | commit ops => exact .inl he
  | tick d => exact .inl he
  | call key => exact .inl he
  | redisGet i reachable =>
    simp only [step] at he
    (repeat' split at he) <;> exact .inl he
  | validate i ok =>
    simp only [step] at he
    (repeat' split at he) <;> exact .inl he
  | resolve i pgNow ok =>
    simp only [step] at he
    (repeat' split at he) <;> exact .inl he
  | stamp i =>
    simp only [step] at he
    (repeat' split at he) <;> exact .inl he

theorem Holds.of_lookup {key : ScopeKey} {dto : CachedScopeDto} (h : w.lookup key = some dto) :
    w.Holds (dto.held key) := by
  obtain ⟨e, he, rfl⟩ := Option.map_eq_some_iff.mp h
  have hkey : e.1 = key := by simpa using List.find?_some he
  exact .inl ⟨e, List.mem_of_find?_eq_some he, by rw [hkey]⟩

theorem Holds.of_get {call : ResolveCall} {reachable : Bool} {h : HeldScope}
    (hheld : ({ call with phase := w.getPhase call reachable } : ResolveCall).held = some h) :
    w.Holds h := by
  unfold getPhase at hheld
  cases hl : w.lookup call.key with
  | none =>
    rw [hl] at hheld
    cases hheld
  | some dto =>
    simp only [hl] at hheld
    by_cases hfresh : reachable = true ∧ call.now / 1000 < dto.cacheUntilMs
    · rw [if_pos hfresh] at hheld
      cases hheld
      exact .of_lookup hl
    · rw [if_neg hfresh] at hheld
      cases hheld

theorem held_validatePhase (call : ResolveCall) (dto : CachedScopeDto) (ok : Bool) :
    ({ call with phase := w.validatePhase call dto ok } : ResolveCall).held = none := by
  unfold validatePhase
  split <;> rfl

theorem held_resolvePhase {call : ResolveCall} {pgNow : Nat} {ok : Bool} {h : HeldScope}
    (hheld : ({ call with phase := w.resolvePhase call pgNow ok } : ResolveCall).held = some h) :
    ∃ rows, resolveQuery w.db pgNow call.key.company call.key.user call.key.unit = some rows ∧
      h = rows.held call.key := by
  unfold resolvePhase at hheld
  cases ok with
  | false => cases hheld
  | true =>
    simp only [if_true] at hheld
    cases hq : resolveQuery w.db pgNow call.key.company call.key.user call.key.unit with
    | none =>
      rw [hq] at hheld
      cases hheld
    | some rows =>
      rw [hq] at hheld
      cases hheld
      exact ⟨rows, rfl, rfl⟩

/-- A scope that is held after a step was held before it, ending no earlier, or is the result of the
resolver's query. -/
theorem Holds.of_step {h : HeldScope} (hh : (w.step a).Holds h) :
    (∃ h0, w.Holds h0 ∧ h.Shortens h0) ∨
      ∃ i pgNow ok call rows, a = .resolve i pgNow ok ∧ w.calls[i]? = some call ∧ pgNow ≤ w.clock ∧
        resolveQuery w.db pgNow call.key.company call.key.user call.key.unit = some rows ∧
        h = rows.held call.key := by
  rcases hh with ⟨e, he, rfl⟩ | ⟨x, hx, hheld⟩
  · refine .inl ⟨_, ?_, .refl _⟩
    rcases mem_cache_step he with he | hcall
    · exact .inl ⟨e, he, rfl⟩
    · exact .inr hcall
  · rcases mem_calls_step hx with hx | ⟨key, rfl⟩ | ⟨i, call, phase, hi, hstep, rfl⟩
    · exact .inl ⟨h, .inr ⟨x, hx, hheld⟩, .refl h⟩
    · cases hheld
    · cases hstep with
      | get reachable hp => exact .inl ⟨h, .of_get hheld, .refl h⟩
      | validate dto ok hp =>
        rw [held_validatePhase] at hheld
        cases hheld
      | resolve pgNow ok hp hle =>
        obtain ⟨rows, hq, rfl⟩ := held_resolvePhase hheld
        exact .inr ⟨i, pgNow, ok, call, rows, rfl, hi, hle, hq, rfl⟩
      | stamp rows hp =>
        cases hheld
        refine .inl ⟨rows.held call.key, .inr ⟨call, List.mem_of_getElem? hi, ?_⟩, ?_⟩
        · rw [ResolveCall.held, hp]
        · refine ⟨rfl, rfl, rfl, rfl, fun ms hms => ⟨_, rfl, ?_⟩⟩
          have hms' : rows.minExpiryMs = some ms := hms
          rw [stampedScope, hms']
          exact clampUntil_le (w.clock + kDefaultTtl) ms
      | set scope ok hp => cases hheld

end CacheWorld

/-! ### Where a held scope comes from -/

theorem minExpiry_le {es : List (Option Nat)} {e : Nat} (h : some e ∈ es) :
    ∃ x, minExpiry es = some x ∧ x ≤ e := by
  induction es with
  | nil => cases h
  | cons o es ih =>
    rcases List.mem_cons.mp h with rfl | h
    · cases hrest : minExpiry es with
      | none => exact ⟨e, by simp [minExpiry, hrest], Nat.le_refl _⟩
      | some y => exact ⟨min e y, by simp [minExpiry, hrest], Nat.min_le_left _ _⟩
    · obtain ⟨x, hx, hle⟩ := ih h
      cases o with
      | none => exact ⟨x, by simp [minExpiry, hx], hle⟩
      | some y => exact ⟨min y x, by simp [minExpiry, hx], Nat.le_trans (Nat.min_le_right _ _) hle⟩

/-- The scope was computed at the instant `t` on the database `db`, and ends before every membership
that was alive then. -/
structure ComputedOn (h : HeldScope) (db : AclDb) (t : Nat) : Prop where
  ids : ∀ x, x ∈ h.orgUnitIds ↔ x ∈ scopeIds db t h.key.company h.key.user h.key.unit
  epochs : epochs db h.key.company h.key.user = some (h.accessEpoch, h.scopeEpoch)
  expiry : ∀ m ∈ liveMemberships db t h.key.company h.key.user, ∀ e, m.expiresAt = some e →
    ∃ ms, h.untilMs = some ms ∧ ms ≤ e / 1000

theorem ComputedOn.shorten {h h0 : HeldScope} {db : AclDb} {t : Nat} (hc : ComputedOn h0 db t)
    (hs : h.Shortens h0) : ComputedOn h db t := by
  constructor
  · rw [hs.key, hs.orgUnitIds]
    exact hc.ids
  · rw [hs.key, hs.accessEpoch, hs.scopeEpoch]
    exact hc.epochs
  · rw [hs.key]
    intro m hm e he
    obtain ⟨ms, hms, hle⟩ := hc.expiry m hm e he
    obtain ⟨y, hy, hle'⟩ := hs.untilMs ms hms
    exact ⟨y, hy, Nat.le_trans hle' hle⟩

/-- The rows of the resolver's query are computed on the database that it reads. -/
theorem ComputedOn.of_query {db : AclDb} {pgNow : Nat} {key : ScopeKey} {rows : ResolvedRows}
    (h : resolveQuery db pgNow key.company key.user key.unit = some rows) :
    ComputedOn (rows.held key) db pgNow := by
  obtain ⟨⟨a, s⟩, he, rfl⟩ := Option.map_eq_some_iff.mp h
  refine ⟨fun _ => Iff.rfl, he, fun m hm e hexp => ?_⟩
  have hin : some e ∈ (liveMemberships db pgNow key.company key.user).map Membership.expiresAt :=
    List.mem_map.mpr ⟨m, hm, hexp⟩
  obtain ⟨x, hx, hxe⟩ := minExpiry_le hin
  exact ⟨x / 1000, by simp [ResolvedRows.held, hx], Nat.div_le_div_right hxe⟩

/-- The scope was computed on a database that `db` has developed from. -/
def Provenance (db : AclDb) (clock : Nat) (h : HeldScope) : Prop :=
  ∃ dbr t, ComputedOn h dbr t ∧ t ≤ clock ∧ Tracked dbr db

theorem Provenance.mono {db db' : AclDb} {clock clock' : Nat} {h : HeldScope}
    (hp : Provenance db clock h) (hdb : Tracked db db') (hclock : clock ≤ clock') :
    Provenance db' clock' h := by
  obtain ⟨dbr, t, hcomp, ht, htrack⟩ := hp
  exact ⟨dbr, t, hcomp, Nat.le_trans ht hclock, htrack.trans hdb⟩

/-- What a call that returned from the cache was given: the scope on the database of its validating
query, at an instant between the captured `now` and the validation; and the scope at the captured
`now` itself unless a membership that was alive then had expired by the validation. -/
structure ServedExactly (call : ResolveCall) (scope : AccessScope) (db : AclDb) (at_ : Nat) :
    Prop where
  between : ∃ t, call.now ≤ t ∧ t ≤ at_ ∧ ∀ x, x ∈ scope.orgUnitIds ↔
    x ∈ scopeIds db t call.key.company call.key.user call.key.unit
  atNow : (∀ m ∈ liveMemberships db call.now call.key.company call.key.user,
      ∀ e, m.expiresAt = some e → at_ < e) →
    ∀ x, x ∈ scope.orgUnitIds ↔
      x ∈ scopeIds db call.now call.key.company call.key.user call.key.unit

theorem unexpired_mono {t t' : Nat} (h : t ≤ t') {e : Option Nat}
    (he : unexpired t' e = true) : unexpired t e = true := by
  cases e with
  | none => rfl
  | some e =>
    have : t' < e := by simpa [unexpired] using he
    simp only [unexpired, decide_eq_true_eq]
    omega

theorem mem_liveMemberships {db : AclDb} {t : Nat} {c u : Uuid} {m : Membership} :
    m ∈ liveMemberships db t c u ↔
      m ∈ readerMemberships db c u ∧ unexpired t m.expiresAt = true := by
  rw [liveMemberships, List.mem_filter]

theorem scopeIds_unexpired {db : AclDb} {c u : Uuid} {t t' : Nat} (hle : t ≤ t')
    (h : ∀ m ∈ readerMemberships db c u, ∀ e, m.expiresAt = some e → t < e → t' < e)
    (unit x : Uuid) : x ∈ scopeIds db t c u unit ↔ x ∈ scopeIds db t' c u unit := by
  refine scopeIds_congr (SameInputs.refl c u db) (fun m hm => ?_) unit x
  constructor
  · intro hlive
    cases hexp : m.expiresAt with
    | none => rfl
    | some e =>
      rw [hexp] at hlive
      have hlt : t < e := by simpa [unexpired] using hlive
      simpa [unexpired] using h m hm e hexp hlt
  · exact unexpired_mono hle

/-- A scope that is fresh at `now` and carries the current epochs is exact at the later of `now` and
the instant it was computed at. -/
theorem Provenance.exact {db : AclDb} {clock now : Nat} {h : HeldScope} {ms : Nat}
    (hp : Provenance db clock h) (huntil : h.untilMs = some ms) (hnow : now ≤ clock)
    (hfresh : now / 1000 < ms)
    (he : epochs db h.key.company h.key.user = some (h.accessEpoch, h.scopeEpoch)) :
    ∃ t, now ≤ t ∧ t ≤ clock ∧ ∀ x, x ∈ h.orgUnitIds ↔
      x ∈ scopeIds db t h.key.company h.key.user h.key.unit := by
  obtain ⟨dbr, t0, hcomp, ht0, htrack⟩ := hp
  have hsame : SameInputs h.key.company h.key.user dbr db :=
    (htrack.guard h.key.company h.key.user).same_of_eq (he.trans hcomp.epochs.symm) hcomp.epochs
  by_cases hle : now ≤ t0
  · refine ⟨t0, hle, ht0, fun x => (hcomp.ids x).trans ?_⟩
    exact scopeIds_congr hsame (fun _ _ => Iff.rfl) h.key.unit x
  · refine ⟨now, Nat.le_refl _, hnow, fun x => (hcomp.ids x).trans ?_⟩
    refine scopeIds_congr hsame (fun m hm => ?_) h.key.unit x
    constructor
    · -- a membership that was alive when the scope was computed outlives the entry
      intro hlive
      cases hexp : m.expiresAt with
      | none => rfl
      | some e =>
        obtain ⟨ms', hms', hle'⟩ := hcomp.expiry m (mem_liveMemberships.mpr ⟨hm, hlive⟩) e hexp
        obtain rfl : ms = ms' := Option.some.inj (huntil.symm.trans hms')
        simp only [unexpired, decide_eq_true_eq]
        omega
    · exact unexpired_mono (by omega)

theorem Provenance.served {db : AclDb} {clock : Nat} {call : ResolveCall} {dto : CachedScopeDto}
    (hp : Provenance db clock (dto.held call.key)) (hnow : call.now ≤ clock)
    (hfresh : call.now / 1000 < dto.cacheUntilMs)
    (he : epochs db call.key.company call.key.user = some (dto.accessEpoch, dto.scopeEpoch)) :
    ServedExactly call
      ⟨dto.orgUnitIds, dto.cacheUntilMs * 1000, dto.accessEpoch, dto.scopeEpoch⟩ db clock := by
  obtain ⟨t, hle, hclock, hids⟩ := hp.exact rfl hnow hfresh he
  refine ⟨⟨t, hle, hclock, hids⟩, fun hnone x => (hids x).trans ?_⟩
  refine (scopeIds_unexpired hle (fun m hm e hexp hlt => ?_) call.key.unit x).symm
  have hlive : unexpired call.now m.expiresAt = true := by simpa [unexpired, hexp] using hlt
  have := hnone m (mem_liveMemberships.mpr ⟨hm, hlive⟩) e hexp
  omega

/-! ### The invariant -/

namespace CacheWorld

structure Inv (w : CacheWorld) : Prop where
  principalOk : w.db.PrincipalOk
  held : ∀ h, w.Holds h → Provenance w.db w.clock h
  started : ∀ call ∈ w.calls, call.now ≤ w.clock
  found : ∀ call ∈ w.calls, ∀ dto, call.phase = .found dto → call.now / 1000 < dto.cacheUntilMs
  served : ∀ call ∈ w.calls, ∀ scope dbv at_, call.phase = .served scope dbv at_ →
    ServedExactly call scope dbv at_

variable {w : CacheWorld}

theorem step_tracked (h : w.db.PrincipalOk) (a : CacheAction) : Tracked w.db (w.step a).db := by
  cases a with
  | commit ops =>
    exact exec_preserves (P := fun db => Tracked w.db db) (Tracked.refl h)
      fun _ hok => transaction_tracked h hok
  | redisSet i ok =>
    have hdb : (w.step (.redisSet i ok)).db = w.db := by
      simp only [step, store]
      (repeat' split) <;> rfl
    rw [hdb]
    exact Tracked.refl h
  | _ =>
    simp only [step]
    (repeat' split) <;> exact Tracked.refl h

theorem le_clock_step (a : CacheAction) : w.clock ≤ (w.step a).clock := by
  cases a with
  | tick d => exact Nat.le_add_right _ _
  | _ =>
    simp only [step, store]
    (repeat' split) <;> exact Nat.le_refl _

theorem found_of_get {call : ResolveCall} {reachable : Bool} {dto : CachedScopeDto}
    (h : w.getPhase call reachable = .found dto) : call.now / 1000 < dto.cacheUntilMs := by
  unfold getPhase at h
  split at h
  next dto' _ =>
    split at h
    next hfresh =>
      cases h
      exact hfresh.2
    next => cases h
  next => cases h

theorem Inv.validate (h : Inv w) {call : ResolveCall} (hcall : call ∈ w.calls)
    {dto : CachedScopeDto} (hp : call.phase = .found dto) {ok : Bool} {scope : AccessScope}
    {dbv : AclDb} {at_ : Nat} (hv : w.validatePhase call dto ok = .served scope dbv at_) :
    ServedExactly call scope dbv at_ := by
  unfold validatePhase at hv
  split at hv
  next hvalid =>
    cases hv
    have hheld : w.Holds (dto.held call.key) := .inr ⟨call, hcall, by rw [ResolveCall.held, hp]⟩
    exact (h.held _ hheld).served (h.started call hcall) (h.found call hcall dto hp) hvalid.2
  next => cases hv

theorem Inv.step (h : Inv w) (a : CacheAction) : Inv (w.step a) := by
  have htrack := step_tracked h.principalOk a
  have hclock : w.clock ≤ (w.step a).clock := le_clock_step a
  constructor
  · exact htrack.principalOk
  · intro x hx
    rcases hx.of_step with ⟨h0, hheld, hs⟩ | ⟨i, pgNow, ok, call, rows, -, -, hle, hq, rfl⟩
    · obtain ⟨dbr, t, hcomp, ht, hdb⟩ := (h.held h0 hheld).mono htrack hclock
      exact ⟨dbr, t, hcomp.shorten hs, ht, hdb⟩
    · exact ⟨w.db, pgNow, .of_query hq, Nat.le_trans hle hclock, htrack⟩
  · intro x hx
    rcases mem_calls_step hx with hx | ⟨key, rfl⟩ | ⟨i, call, phase, hi, -, rfl⟩
    · exact Nat.le_trans (h.started x hx) hclock
    · exact hclock
    · exact Nat.le_trans (h.started call (List.mem_of_getElem? hi)) hclock
  · intro x hx dto hp
    rcases mem_calls_step hx with hx | ⟨key, rfl⟩ | ⟨i, call, phase, hi, hstep, rfl⟩
    · exact h.found x hx dto hp
    · cases hp
    · cases hstep with
      | get reachable hstart => exact found_of_get hp
      | validate dto' ok hfound =>
        simp only [validatePhase] at hp
        split at hp <;> cases hp
      | resolve pgNow ok hmissed hle =>
        simp only [resolvePhase] at hp
        (repeat' split at hp) <;> cases hp
      | stamp rows hrows => cases hp
      | set scope ok hscope => cases hp
  · intro x hx scope dbv at_ hp
    rcases mem_calls_step hx with hx | ⟨key, rfl⟩ | ⟨i, call, phase, hi, hstep, rfl⟩
    · exact h.served x hx scope dbv at_ hp
    · cases hp
    · cases hstep with
      | get reachable hstart =>
        simp only [getPhase] at hp
        (repeat' split at hp) <;> cases hp
      | validate dto ok hfound =>
        obtain ⟨hb, ha⟩ := h.validate (List.mem_of_getElem? hi) hfound hp
        exact ⟨hb, ha⟩
      | resolve pgNow ok hmissed hle =>
        simp only [resolvePhase] at hp
        (repeat' split at hp) <;> cases hp
      | stamp rows hrows => cases hp
      | set scope' ok hscope => cases hp

theorem not_holds_init {db : AclDb} {clock : Nat} {h : HeldScope} : ¬(init db clock).Holds h := by
  rintro (⟨e, he, -⟩ | ⟨call, hcall, -⟩)
  · cases he
  · cases hcall

theorem Inv.init {db : AclDb} (h : db.PrincipalOk) (clock : Nat) :
    Inv (CacheWorld.init db clock) where
  principalOk := h
  held := fun _ hx => absurd hx not_holds_init
  started := by
    intro call hc
    cases hc
  found := by
    intro call hc
    cases hc
  served := by
    intro call hc
    cases hc

/-- Every scope that is held was computed on the database that some step of the run read. -/
theorem computed_in_run (db : AclDb) (clock : Nat) (acts : List CacheAction) {h : HeldScope}
    (hh : (run CacheWorld.step (CacheWorld.init db clock) acts).Holds h) :
    ∃ pre, pre <+: acts ∧ ∃ t ≤ (run CacheWorld.step (CacheWorld.init db clock) pre).clock,
      ComputedOn h (run CacheWorld.step (CacheWorld.init db clock) pre).db t := by
  induction acts using List.reverseRecOn generalizing h with
  | nil => exact absurd hh not_holds_init
  | append_singleton acts a ih =>
    have hpre : ∀ {pre}, pre <+: acts → pre <+: acts ++ [a] := fun hp =>
      hp.trans (List.prefix_append acts [a])
    rw [run_append] at hh
    rcases Holds.of_step hh with ⟨h0, hheld, hs⟩ | ⟨i, pgNow, ok, call, rows, -, -, hle, hq, rfl⟩
    · obtain ⟨pre, hp, t, ht, hcomp⟩ := ih hheld
      exact ⟨pre, hpre hp, t, ht, hcomp.shorten hs⟩
    · exact ⟨acts, List.prefix_append acts [a], pgNow, hle, .of_query hq⟩

theorem Inv.run {db : AclDb} (h : db.PrincipalOk) (clock : Nat) (acts : List CacheAction) :
    Inv (run CacheWorld.step (CacheWorld.init db clock) acts) :=
  run_invariant (Inv.init h clock) fun _ a hw => hw.step a

end CacheWorld

/-- A transaction that leaves a user's two epochs as they are leaves every scope of the user. -/
theorem transaction_bumps {db db' : AclDb} (h : Tracked db db') {c u : Uuid} {a' s' : Nat}
    (he : epochs db' c u = some (a', s')) :
    ∃ a s, epochs db c u = some (a, s) ∧ a ≤ a' ∧ s ≤ s' ∧
      (a < a' ∨ s < s' ∨ ∀ t unit x, x ∈ scopeIds db t c u unit ↔ x ∈ scopeIds db' t c u unit) := by
  obtain ⟨⟨a, s⟩, hold, ⟨ha, hs⟩, hsame⟩ := h.guard c u (a', s') he
  refine ⟨a, s, hold, ha, hs, ?_⟩
  by_cases heq : (a, s) = (a', s')
  · refine .inr (.inr fun t unit x => ?_)
    exact scopeIds_congr (hsame heq) (fun _ _ => Iff.rfl) unit x
  · simp only [Prod.mk.injEq, not_and_or] at heq
    simp only at ha hs
    omega

/-- In every run, a scope that is returned from the cache is the resolver's on the database of the
validating query; a committed transaction that changes a scope moves an epoch; and an entry was
computed on the database that some steps of the run had left, at an instant up to then, carries the
epochs of that database, and ends before every membership that was alive at that instant. -/
theorem scopeCache_exact {db : AclDb} (h : db.PrincipalOk) (clock : Nat)
    (acts : List CacheAction) :
    let w := run CacheWorld.step (CacheWorld.init db clock) acts
    (∀ call ∈ w.calls, ∀ scope dbv at_, call.phase = .served scope dbv at_ →
      ServedExactly call scope dbv at_) ∧
    (∀ ops db', transaction ops w.db = .ok () db' → ∀ c u a' s', epochs db' c u = some (a', s') →
      ∃ a s, epochs w.db c u = some (a, s) ∧ a ≤ a' ∧ s ≤ s' ∧ (a < a' ∨ s < s' ∨
        ∀ t unit x, x ∈ scopeIds w.db t c u unit ↔ x ∈ scopeIds db' t c u unit)) ∧
    (∀ e ∈ w.cache, ∃ pre, pre <+: acts ∧
      let wr := run CacheWorld.step (CacheWorld.init db clock) pre
      ∃ t ≤ wr.clock, (∀ x, x ∈ e.2.orgUnitIds ↔
          x ∈ scopeIds wr.db t e.1.company e.1.user e.1.unit) ∧
        epochs wr.db e.1.company e.1.user = some (e.2.accessEpoch, e.2.scopeEpoch) ∧
        ∀ m ∈ liveMemberships wr.db t e.1.company e.1.user, ∀ exp, m.expiresAt = some exp →
          e.2.cacheUntilMs * 1000 ≤ exp) := by
  intro w
  have hw : w.Inv := CacheWorld.Inv.run h clock acts
  refine ⟨?_, ?_, ?_⟩
  · exact hw.served
  · intro ops db' hok c u a' s' he
    exact transaction_bumps (transaction_tracked hw.principalOk hok) he
  · intro e he
    obtain ⟨pre, hpre, t, ht, hcomp⟩ := CacheWorld.computed_in_run db clock acts (.inl ⟨e, he, rfl⟩)
    refine ⟨pre, hpre, t, ht, hcomp.ids, hcomp.epochs, fun m hm exp hexp => ?_⟩
    obtain ⟨ms, hms, hle⟩ := hcomp.expiry m hm exp hexp
    obtain rfl : e.2.cacheUntilMs = ms := Option.some.inj hms
    omega

/-- One unit, and a reader whose only membership there ends at `expires`. -/
def soleReader (expires : Option Nat) : AclDb where
  org := ⟨[{ id := 1, name := "Acme", slug := "acme" }], [⟨10, 1, none, .root, "hq", "HQ"⟩],
    [⟨1, 10, 10, 0⟩], false⟩
  users := [{ id := 100, companyId := 1 }]
  groups := []
  groupMembers := []
  memberships := [⟨200, 1, some 100, none, 10, .viewer, .selfOnly, none, 0, expires⟩]

/-- The first call reads the clock, the membership ends, and a second call fills the cache before
the first looks into it. -/
def expiryBetween : List CacheAction :=
  [.call ⟨1, 100, 10⟩, .tick 20, .call ⟨1, 100, 10⟩, .redisGet 1 true, .resolve 1 60 true, .stamp 1,
    .redisSet 1 true, .redisGet 0 true, .validate 0 true]

theorem expired_membership_not_served :
    ∃ call ∈ (run CacheWorld.step (CacheWorld.init (soleReader (some 50)) 40) expiryBetween).calls,
      ∃ scope dbv at_, call.phase = .served scope dbv at_ ∧
        ¬∀ x, x ∈ scope.orgUnitIds ↔
          x ∈ scopeIds dbv call.now call.key.company call.key.user call.key.unit := by
  refine ⟨⟨⟨1, 100, 10⟩, 40, .served ⟨[], 300000000, 1, 1⟩ (soleReader (some 50)) 60⟩,
    by decide, _, _, _, rfl, fun h => ?_⟩
  exact absurd ((h 10).mpr (by decide)) (by decide)

/-- A call fills the cache and a later one is served from it. -/
def fillThenServe : List CacheAction :=
  [.call ⟨1, 100, 10⟩, .redisGet 0 true, .resolve 0 40 true, .stamp 0, .redisSet 0 true,
    .call ⟨1, 100, 10⟩, .redisGet 1 true, .validate 1 true]

theorem second_call_served :
    let w := run CacheWorld.step (CacheWorld.init (soleReader none) 40) fillThenServe
    let call : ResolveCall :=
      ⟨⟨1, 100, 10⟩, 40, .served ⟨[10], 300000000, 1, 1⟩ (soleReader none) 40⟩
    call ∈ w.calls ∧ ServedExactly call ⟨[10], 300000000, 1, 1⟩ (soleReader none) 40 := by
  have hmem : (⟨⟨1, 100, 10⟩, 40, .served ⟨[10], 300000000, 1, 1⟩ (soleReader none) 40⟩ :
      ResolveCall) ∈ (run CacheWorld.step (CacheWorld.init (soleReader none) 40) fillThenServe).calls :=
    by decide
  have hok : (soleReader none).PrincipalOk := by
    intro m hm
    obtain rfl := List.mem_singleton.mp hm
    decide
  exact ⟨hmem, (scopeCache_exact hok 40 fillThenServe).1 _ hmem _ _ _ rfl⟩

end Wikore
