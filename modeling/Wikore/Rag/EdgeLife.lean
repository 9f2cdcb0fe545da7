import Wikore.Rag.EdgeTables

/-! The life of one edge id: what a statement or a deferred trigger can do to the edge of this id,
to its endpoints and to its history, and the invariant that these steps keep. -/

namespace Wikore

open Timeline

/-- What the tables hold under one edge id. -/
structure EdgeLife where
  edge : Option EdgeRow
  endpoints : List EdgeEndpoint
  rows : List (Version Uuid EdgeVersion)

def EdgeLife.endpoint (v : EdgeLife) (i : Fin 2) : Option EdgeEndpoint :=
  v.endpoints.find? fun ep => ep.ordinal = i

/-- The edge with its endpoints, where these are there. -/
def EdgeLife.current (v : EdgeLife) : Option EdgeSnapshot := do
  let edge ← v.edge
  let ep0 ← v.endpoint 0
  let ep1 ← v.endpoint 1
  pure (.of edge ep0 ep1)

/-- A row of the history that is written at `τ`. -/
def versionAt (x : Uuid) (τ : Nat) (kind : ChangeKind) (edge : EdgeRow) (ep0 ep1 : EdgeEndpoint) :
    Version Uuid EdgeVersion :=
  ⟨x, ⟨.of edge ep0 ep1, kind⟩, τ, if kind = .delete then some τ else none⟩

/-- A step at the instant `τ`.  `queued` says that a deferred event of the edge waits after it. -/
inductive LifeStep (x : Uuid) (τ : Nat) (queued : Prop) : EdgeLife → EdgeLife → Prop
  | keep (v : EdgeLife) : LifeStep x τ queued v v
  | insert {eps : List EdgeEndpoint} (e : EdgeRow) (hq : queued) :
      LifeStep x τ queued ⟨none, eps, []⟩ ⟨some e, eps, []⟩
  | attach {e : EdgeRow} {eps : List EdgeEndpoint} {rows : List (Version Uuid EdgeVersion)}
      (ep : EdgeEndpoint) (hnew : ∀ o ∈ eps, o.ordinal ≠ ep.ordinal) :
      LifeStep x τ queued ⟨some e, eps, rows⟩ ⟨some e, eps ++ [ep], rows⟩
  | amend {old : EdgeRow} {eps : List EdgeEndpoint} (new : EdgeRow) :
      LifeStep x τ queued ⟨some old, eps, []⟩ ⟨some new, eps, []⟩
  | update {v : EdgeLife} (old new : EdgeRow) (ep0 ep1 : EdgeEndpoint) (hold : v.edge = some old)
      (hrows : v.rows ≠ []) (h0 : v.endpoint 0 = some ep0) (h1 : v.endpoint 1 = some ep1) :
      LifeStep x τ queued v ⟨some new, v.endpoints,
        v.rows.map (Version.close τ) ++ [versionAt x τ .update new ep0 ep1]⟩
  | cancel {old : EdgeRow} {eps : List EdgeEndpoint} :
      LifeStep x τ queued ⟨some old, eps, []⟩ ⟨none, [], []⟩
  | delete {v : EdgeLife} (old : EdgeRow) (ep0 ep1 : EdgeEndpoint) (hold : v.edge = some old)
      (hrows : v.rows ≠ []) :
      LifeStep x τ queued v ⟨none, [],
        v.rows.map (Version.close τ) ++ [versionAt x τ .delete old ep0 ep1]⟩
  | snapshot {v : EdgeLife} (e : EdgeRow) (ep0 ep1 : EdgeEndpoint) (hedge : v.edge = some e)
      (hopen : opened v.rows = []) (hcount : v.endpoints.length = 2)
      (h0 : v.endpoint 0 = some ep0) (h1 : v.endpoint 1 = some ep1) :
      LifeStep x τ queued v ⟨some e, v.endpoints,
        v.rows.map (Version.close τ) ++ [versionAt x τ .insert e ep0 ep1]⟩

/-- An id is fresh while it has no history: then an edge with this id waits for its deferred event.
Otherwise the history begins with an insertion, is contiguous, and tells what the edge was. -/
inductive SoundLife (pending : Prop) (now : Nat) (log : List (Nat × Option EdgeSnapshot)) :
    EdgeLife → Prop
  | fresh {edge : Option EdgeRow} {eps : List EdgeEndpoint} (hp : edge ≠ none → pending) :
      SoundLife pending now log ⟨edge, eps, []⟩
  | recorded {v : EdgeLife} {r0 : Version Uuid EdgeVersion} (hhead : v.rows.head? = some r0)
      (hkind : r0.value.changeKind = .insert) (hchain : Contiguous v.rows)
      (hrec : Records EdgeVersion.snapshot r0.start now v.rows log v.current)
      (hlive : v.edge ≠ none → v.endpoints.length = 2 ∧ v.current ≠ none) :
      SoundLife pending now log v

namespace EdgeLife

variable {v : EdgeLife} {e : EdgeRow} {ep0 ep1 : EdgeEndpoint}

theorem current_eq (he : v.edge = some e) (h0 : v.endpoint 0 = some ep0)
    (h1 : v.endpoint 1 = some ep1) : v.current = some (.of e ep0 ep1) := by
  simp [current, he, h0, h1]

theorem current_none (he : v.edge = none) : v.current = none := by
  simp [current, he]

/-- An edge with both endpoints has one at every ordinal. -/
theorem endpoint_isSome (h : v.current ≠ none) (i : Fin 2) : ∃ ep, v.endpoint i = some ep := by
  unfold current at h
  cases he : v.edge with
  | none => simp [he] at h
  | some e =>
    cases h0 : v.endpoint 0 with
    | none => simp [he, h0] at h
    | some ep0 =>
      cases h1 : v.endpoint 1 with
      | none => simp [he, h0, h1] at h
      | some ep1 =>
        match i with
        | 0 => exact ⟨ep0, h0⟩
        | 1 => exact ⟨ep1, h1⟩

end EdgeLife

/-- The first version stays the first, from the same start, with the same value. -/
theorem head_close_append {rows : List (Version Uuid EdgeVersion)} {r0 : Version Uuid EdgeVersion}
    (h : rows.head? = some r0) (τ : Nat) (more : List (Version Uuid EdgeVersion)) :
    (rows.map (Version.close τ) ++ more).head? = some (r0.close τ) := by
  cases rows with
  | nil => simp at h
  | cons r rows =>
    obtain rfl := Option.some.inj h
    rfl

section

variable {x : Uuid} {τ now : Nat} {queued pending pending' : Prop} {v v' : EdgeLife}
  {log : List (Nat × Option EdgeSnapshot)}

/-- A fresh edge that has been taken away, or has been recorded, waits for nothing. -/
theorem SoundLife.settle (h : SoundLife pending now log v) (hv : v.edge ≠ none → v.rows ≠ []) :
    SoundLife pending' now log v := by
  cases h with
  | fresh hp => exact .fresh fun he => absurd rfl (hv he)
  | recorded hhead hkind hchain hrec hlive => exact .recorded hhead hkind hchain hrec hlive

theorem SoundLife.mono (h : SoundLife pending now log v) (hle : now ≤ τ)
    (hp : pending → pending') : SoundLife pending' τ log v := by
  cases h with
  | fresh hp' => exact .fresh fun he => hp (hp' he)
  | recorded hhead hkind hchain hrec hlive =>
    exact .recorded hhead hkind hchain (hrec.mono hle) hlive

/-- A recorded edge has an open version. -/
theorem opened_ne_nil {since : Nat} {c : EdgeSnapshot}
    (hrec : Records EdgeVersion.snapshot since now v.rows log v.current)
    (hc : v.current = some c) : opened v.rows ≠ [] := by
  intro hnil
  have hcur := hrec.current
  rw [hnil, hc] at hcur
  cases hcur

/-- Every step keeps the life of an id sound, and the log takes what the step left. -/
theorem SoundLife.step (h : SoundLife pending now log v) (hstep : LifeStep x τ queued v v')
    (hτ : now < τ) (hp : pending → pending') (hq : queued → pending') :
    SoundLife pending' τ (log ++ [(τ, v'.current)]) v' := by
  cases h with
  | fresh hpend =>
    cases hstep with
    | keep => exact .fresh fun he => hp (hpend he)
    | insert e hqueued => exact .fresh fun _ => hq hqueued
    | attach ep => exact .fresh fun _ => hp (hpend (by simp))
    | amend new => exact .fresh fun _ => hp (hpend (by simp))
    | update _ _ _ _ _ hrows => exact absurd rfl hrows
    | cancel => exact .fresh fun he => absurd rfl he
    | delete _ _ _ _ hrows => exact absurd rfl hrows
    | snapshot e ep0 ep1 hedge _ hcount h0 h1 =>
      have hcur := EdgeLife.current_eq (v := ⟨some e, _, [versionAt x τ .insert e ep0 ep1]⟩) rfl h0 h1
      refine .recorded rfl rfl (List.isChain_singleton _) ?_ fun _ => ⟨hcount, by simp [hcur]⟩
      rw [List.map_nil, List.nil_append, hcur]
      exact Records.first (r := versionAt x τ .insert e ep0 ep1) (Nat.le_refl τ) rfl
  | recorded hhead hkind hchain hrec hlive =>
    cases hstep with
    | keep => exact .recorded hhead hkind hchain (hrec.tick hτ) hlive
    | insert => cases hhead
    | attach ep hnew =>
      -- both ordinals are taken
      obtain ⟨ep', hep⟩ := EdgeLife.endpoint_isSome (hlive (by simp)).2 ep.ordinal
      have hmem := List.mem_of_find?_eq_some hep
      have hord := List.find?_some hep
      exact absurd (by simpa using hord) (hnew ep' hmem)
    | amend => cases hhead
    | update old new ep0 ep1 hold _ h0 h1 =>
      have hopen := opened_ne_nil hrec (EdgeLife.current_eq hold h0 h1)
      have hlive' := hlive (by simp [hold])
      have hcur : EdgeLife.current ⟨some new, v.endpoints,
          v.rows.map (Version.close τ) ++ [versionAt x τ .update new ep0 ep1]⟩ =
          some (.of new ep0 ep1) := EdgeLife.current_eq rfl h0 h1
      refine .recorded (head_close_append hhead τ _) (by simpa using hkind)
        (hchain.put hopen rfl) ?_ fun _ => ⟨hlive'.1, by simp [hcur]⟩
      rw [hcur, Version.close_start]
      exact hrec.put (r := versionAt x τ .update new ep0 ep1) hτ rfl rfl
    | cancel => cases hhead
    | delete old ep0 ep1 hold =>
      obtain ⟨c, hc⟩ := Option.ne_none_iff_exists'.mp (hlive (by simp [hold])).2
      refine .recorded (head_close_append hhead τ _) (by simpa using hkind)
        (hchain.put (opened_ne_nil hrec hc) rfl) ?_ fun he => absurd rfl he
      rw [EdgeLife.current_none rfl, Version.close_start]
      exact hrec.drop (r := versionAt x τ .delete old ep0 ep1) hτ rfl rfl
    | snapshot e ep0 ep1 hedge hopen _ h0 h1 =>
      exact absurd hopen (opened_ne_nil hrec (EdgeLife.current_eq hedge h0 h1))

end

end Wikore
