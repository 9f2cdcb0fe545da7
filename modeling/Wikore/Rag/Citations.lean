import Mathlib.Data.List.Nodup
import Wikore.Rag.ContextBuilder

/-! The citations of a prompt: which block stands for which chunk and which edge, however chunks are
shared between the items and whichever items are left out. -/

namespace Wikore.ContextBuilder

open Fallible Query

/-- The chunks that an item shows, with the texts that it has for them. -/
def AllowedEvidence.mentions : AllowedEvidence → List (Bytes × Bytes)
  | .chunk c => [(c.chunkId, c.text)]
  | .relationship r =>
    [(r.endpoint0.chunkId, r.endpoint0.text), (r.endpoint1.chunkId, r.endpoint1.text)]

def AllowedEvidence.edgeIds : AllowedEvidence → List Bytes
  | .chunk _ => []
  | .relationship r => [r.edgeId]

/-- What an item that is accepted makes pending. -/
def Rendering.pendingOf (s : Rendering) : AllowedEvidence → List Pending
  | .chunk c => (s.assign [] c.chunkId c.text).2
  | .relationship r => (s.assignBoth r).2.2

/-- The blocks that an item adds when it is accepted. -/
def Rendering.itemBlocks (s : Rendering) (ev : AllowedEvidence) : List Block :=
  (s.pendingOf ev).map (fun p => .source p.srcN p.text) ++
    match ev with
    | .chunk _ => []
    | .relationship r => [.relationship s.nextRel r (s.assignBoth r).1 (s.assignBoth r).2.1]

/-- The accepted items of a build, each with the blocks that it added. -/
def emitted (counter : TokenCounter) (query : Bytes) (evidence : List AllowedEvidence)
    (opts : ContextBuilderOptions) : List (AllowedEvidence × List Block) :=
  taken (visitItem counter opts (queryBlock query)) (fun s ev => (ev, s.itemBlocks ev)) {} evidence

/-- The label `n` is that of the chunk or edge `id` in a list of ids. -/
def Denotes (ids : List Bytes) (n : Nat) (id : Bytes) : Prop := 1 ≤ n ∧ ids[n - 1]? = some id

/-- The block is one that the item asks for. -/
def Block.BelongsTo (ev : AllowedEvidence) : Block → Prop
  | .source _ text => ∃ id, (id, text) ∈ ev.mentions
  | .relationship _ r _ _ => ev = .relationship r

/-! ### One equation for all items -/

section Steps

variable {counter : TokenCounter} {opts : ContextBuilderOptions} {q : Bytes} {s s' : Rendering}

/-- The state after an item is accepted. -/
def Rendering.accept (s : Rendering) (ev : AllowedEvidence) : Rendering :=
  { (s.pendingOf ev).foldl Rendering.emplace s with
    evidenceBlocks := s.evidenceBlocks ++ (s.itemBlocks ev).flatMap Block.render
    nextSrc := s.nextSrc + (s.pendingOf ev).length
    sourceEdgeIds := s.sourceEdgeIds ++ ev.edgeIds
    nextRel := s.nextRel + ev.edgeIds.length
    included := s.included + 1 }

theorem foldl_emplace (s : Rendering) (pending : List Pending) :
    pending.foldl Rendering.emplace s =
      { s with
        chunkSrcIndex := insertNew Prod.fst s.chunkSrcIndex
          (pending.map fun p => (p.chunkId, p.srcN))
        sourceChunkIds := s.sourceChunkIds ++ pending.map Pending.chunkId } := by
  induction pending generalizing s with
  | nil => simp [insertNew]
  | cons p pending ih =>
    rw [List.foldl_cons, ih]
    simp only [Rendering.emplace, List.map_cons, List.append_assoc, List.singleton_append,
      ← insertNew_append]

theorem visitItem_accept {ev : AllowedEvidence} (h : visitItem counter opts q s ev = .ok (some s')) :
    (s.included : Int) < opts.maxEvidenceItems ∧ s' = s.accept ev := by
  obtain ⟨hcap, s1, hvisit, rfl⟩ := visitItem_ok h
  refine ⟨hcap, ?_⟩
  cases ev with
  | chunk c =>
    obtain ⟨⟨n, hn⟩, rfl⟩ | ⟨hnone, -, rfl⟩ := visitChunk_ok hvisit
    · simp [Rendering.accept, Rendering.pendingOf, Rendering.itemBlocks, Rendering.assign, hn,
        AllowedEvidence.edgeIds]
    · simp [Rendering.accept, Rendering.pendingOf, Rendering.itemBlocks, Rendering.assign, hnone,
        AllowedEvidence.edgeIds, Block.render, Rendering.emplace]
  | relationship r =>
    obtain ⟨-, rfl⟩ := visitRelationship_ok hvisit
    simp [Rendering.accept, Rendering.pendingOf, Rendering.itemBlocks, AllowedEvidence.edgeIds,
      Block.render, foldl_emplace, List.flatMap_map]

end Steps

/-! ### Labels -/

section Labels

variable {s : Rendering} {sources : List (Bytes × Bytes)} {pending : List Pending}

/-- The chunk with the text that a pending entry has for it. -/
def Pending.mention (p : Pending) : Bytes × Bytes := (p.chunkId, p.text)

/-- The index and the next label are those of a list of sources. -/
structure Indexed (s : Rendering) (sources : List (Bytes × Bytes)) : Prop where
  index : s.chunkSrcIndex = (sources.map Prod.fst).zipIdx 1
  next : s.nextSrc = sources.length + 1

/-- The labels of the pending entries go on from those of the sources. -/
def Numbered (sources : List (Bytes × Bytes)) (pending : List Pending) : Prop :=
  pending.map Pending.srcN = List.range' (sources.length + 1) pending.length

/-- The label of a pending entry is its place among the sources. -/
theorem Numbered.place (h : Numbered sources pending) {p : Pending} (hp : p ∈ pending) :
    1 ≤ p.srcN ∧ (sources ++ pending.map Pending.mention)[p.srcN - 1]? = some p.mention := by
  obtain ⟨k, hk⟩ := List.getElem?_of_mem hp
  obtain ⟨hlt, -⟩ := List.getElem?_eq_some_iff.mp hk
  have hn : p.srcN = sources.length + 1 + k := by
    have hget : (pending.map Pending.srcN)[k]? = some p.srcN := by
      rw [List.getElem?_map, hk, Option.map_some]
    rw [h, List.getElem?_range' hlt] at hget
    simpa using hget.symm
  refine ⟨by omega, ?_⟩
  rw [List.getElem?_append_right (by omega), show p.srcN - 1 - sources.length = k by omega,
    List.getElem?_map, hk, Option.map_some]

theorem Denotes.append {ids : List Bytes} {n : Nat} {id : Bytes} (h : Denotes ids n id)
    (more : List Bytes) : Denotes (ids ++ more) n id := by
  refine ⟨h.1, ?_⟩
  obtain ⟨hlt, -⟩ := List.getElem?_eq_some_iff.mp h.2
  rw [List.getElem?_append_left hlt]
  exact h.2

theorem denotes_concat (ids : List Bytes) (id : Bytes) :
    Denotes (ids ++ [id]) (ids.length + 1) id := by
  refine ⟨Nat.le_add_left 1 _, ?_⟩
  rw [Nat.add_sub_cancel, List.getElem?_append_right (Nat.le_refl _), Nat.sub_self]
  rfl

theorem Indexed.srcOf_some (h : Indexed s sources) {id : Bytes} {n : Nat}
    (hn : s.srcOf id = some n) : Denotes (sources.map Prod.fst) n id := by
  rw [Rendering.srcOf, h.index, Option.map_eq_some_iff] at hn
  obtain ⟨⟨id', n'⟩, hfind, rfl⟩ := hn
  have hid : id' = id := by simpa using List.find?_some hfind
  have hmem := List.mem_of_find?_eq_some hfind
  rw [hid] at hmem
  exact List.mk_mem_zipIdx_iff_le_and_getElem?_sub.mp hmem

theorem Indexed.srcOf_none (h : Indexed s sources) {id : Bytes} (hn : s.srcOf id = none) :
    id ∉ sources.map Prod.fst := by
  rw [Rendering.srcOf, h.index, Option.map_eq_none_iff, List.find?_eq_none] at hn
  intro hid
  obtain ⟨i, hi⟩ := List.getElem?_of_mem hid
  have hmem : (id, i + 1) ∈ (sources.map Prod.fst).zipIdx 1 :=
    List.mk_mem_zipIdx_iff_le_and_getElem?_sub.mpr ⟨by omega, by simpa using hi⟩
  exact hn (id, i + 1) hmem (by simp)

/-- What an assignment of a label to a chunk leaves: a numbering that goes on from the sources, with
the chunk after them if it was not there, and the label that denotes it. -/
structure Assigned (sources : List (Bytes × Bytes)) (pending : List Pending) (id text : Bytes)
    (assigned : Nat × List Pending) : Prop where
  numbered : Numbered sources assigned.2
  added : sources ++ assigned.2.map Pending.mention =
    insertNew Prod.fst (sources ++ pending.map Pending.mention) [(id, text)]
  denotes : Denotes ((sources ++ assigned.2.map Pending.mention).map Prod.fst) assigned.1 id

/-- The chunk has a label. -/
theorem Numbered.assigned_of_denotes (hnum : Numbered sources pending) {id : Bytes} {n : Nat}
    (text : Bytes) (h : Denotes ((sources ++ pending.map Pending.mention).map Prod.fst) n id) :
    Assigned sources pending id text (n, pending) where
  numbered := hnum
  added := (insertNew_of_mem (List.mem_of_getElem? h.2)).symm
  denotes := h

/-- The chunk has no label and takes the next one. -/
theorem Numbered.assigned_of_not_mem (hnum : Numbered sources pending) {id : Bytes} (text : Bytes)
    (h : id ∉ (sources ++ pending.map Pending.mention).map Prod.fst) :
    Assigned sources pending id text (sources.length + 1 + pending.length,
      pending ++ [⟨sources.length + 1 + pending.length, id, text⟩]) := by
  have hadd : ∀ n, sources ++ (pending ++ [(⟨n, id, text⟩ : Pending)]).map Pending.mention =
      sources ++ pending.map Pending.mention ++ [(id, text)] := by
    intro n
    rw [List.map_append, List.append_assoc]
    rfl
  constructor
  case numbered =>
    rw [Numbered] at hnum ⊢
    rw [List.map_append, hnum, List.length_append, List.length_singleton, ← List.range'_append_1]
    rfl
  case added => rw [hadd, insertNew_of_not_mem h]
  case denotes =>
    rw [hadd, List.map_append]
    have hlen : sources.length + 1 + pending.length =
        ((sources ++ pending.map Pending.mention).map Prod.fst).length + 1 := by
      rw [List.length_map, List.length_append, List.length_map]
      omega
    rw [hlen]
    exact denotes_concat _ id

/-- `assign` finds the label of the chunk, or makes the chunk pending with the next label. -/
theorem Indexed.assign (h : Indexed s sources) (hnum : Numbered sources pending)
    (id text : Bytes) : Assigned sources pending id text (s.assign pending id text) := by
  rw [Rendering.assign]
  split
  next n hn =>
    apply hnum.assigned_of_denotes
    rw [List.map_append]
    exact (h.srcOf_some hn).append _
  next hnone =>
    split
    next p hp =>
      have hid : p.chunkId = id := by simpa using List.find?_some hp
      obtain ⟨hpos, hplace⟩ := hnum.place (List.mem_of_find?_eq_some hp)
      refine hnum.assigned_of_denotes text ⟨hpos, ?_⟩
      rw [List.getElem?_map, hplace, Option.map_some, ← hid]
      rfl
    next hfind =>
      rw [h.next]
      apply hnum.assigned_of_not_mem
      rw [List.map_append, List.mem_append]
      rintro (hid | hid)
      · exact h.srcOf_none hnone hid
      · obtain ⟨m, hm, hmid⟩ := List.mem_map.mp hid
        obtain ⟨p, hp, rfl⟩ := List.mem_map.mp hm
        exact List.find?_eq_none.mp hfind p hp (decide_eq_true hmid)

/-- The pending entries of an item are its mentions of chunks that have no label yet. -/
theorem Indexed.pendingOf (h : Indexed s sources) (ev : AllowedEvidence) :
    Numbered sources (s.pendingOf ev) ∧
      sources ++ (s.pendingOf ev).map Pending.mention = insertNew Prod.fst sources ev.mentions := by
  have hnil : Numbered sources [] := rfl
  cases ev with
  | chunk c =>
    have hassign := h.assign hnil c.chunkId c.text
    refine ⟨hassign.numbered, hassign.added.trans ?_⟩
    rw [List.map_nil, List.append_nil]
    rfl
  | relationship r =>
    have hfirst := h.assign hnil r.endpoint0.chunkId r.endpoint0.text
    have hsecond := h.assign hfirst.numbered r.endpoint1.chunkId r.endpoint1.text
    refine ⟨hsecond.numbered, hsecond.added.trans ?_⟩
    rw [hfirst.added, List.map_nil, List.append_nil, ← insertNew_append]
    rfl

/-- The labels of the two endpoints denote them. -/
theorem Indexed.assignBoth (h : Indexed s sources) (r : AllowedRelationship) :
    Denotes ((sources ++ (s.assignBoth r).2.2.map Pending.mention).map Prod.fst)
        (s.assignBoth r).1 r.endpoint0.chunkId ∧
      Denotes ((sources ++ (s.assignBoth r).2.2.map Pending.mention).map Prod.fst)
        (s.assignBoth r).2.1 r.endpoint1.chunkId := by
  have hnil : Numbered sources [] := rfl
  have hfirst := h.assign hnil r.endpoint0.chunkId r.endpoint0.text
  have hsecond := h.assign hfirst.numbered r.endpoint1.chunkId r.endpoint1.text
  refine ⟨?_, hsecond.denotes⟩
  -- The second endpoint only adds to what the first one left.
  obtain ⟨more, hmore⟩ := prefix_insertNew Prod.fst
    (sources ++ (s.assign [] r.endpoint0.chunkId r.endpoint0.text).2.map Pending.mention)
    [(r.endpoint1.chunkId, r.endpoint1.text)]
  have hboth : (s.assignBoth r).2.2 = (s.assign (s.assign [] r.endpoint0.chunkId
    r.endpoint0.text).2 r.endpoint1.chunkId r.endpoint1.text).2 := rfl
  rw [hboth, hsecond.added, ← hmore, List.map_append]
  exact hfirst.denotes.append _

end Labels

/-! ### The prompt -/

section Rendered

variable {s : Rendering} {em : List (AllowedEvidence × List Block)}

/-- The chunks that items show, each with the text that the first of them has for it. -/
def sourcesOf (em : List (AllowedEvidence × List Block)) : List (Bytes × Bytes) :=
  insertNew Prod.fst [] (em.flatMap fun e => e.1.mentions)

/-- The blocks of the accepted items in the order of the prompt. -/
def blocksOf (em : List (AllowedEvidence × List Block)) : List Block := em.flatMap Prod.snd

def edgesOf (em : List (AllowedEvidence × List Block)) : List Bytes :=
  em.flatMap fun e => e.1.edgeIds

/-- The loop variables after the items of `em` were accepted. -/
structure Rendered (s : Rendering) (em : List (AllowedEvidence × List Block)) : Prop where
  indexed : Indexed s (sourcesOf em)
  blocks : s.evidenceBlocks = (blocksOf em).flatMap Block.render
  ids : s.sourceChunkIds = (sourcesOf em).map Prod.fst
  edges : s.sourceEdgeIds = edgesOf em
  nextRel : s.nextRel = (edgesOf em).length + 1
  included : s.included = em.length

/-- The labels of the blocks of accepted items. -/
structure Labelled (em : List (AllowedEvidence × List Block)) : Prop where
  sources : (blocksOf em).filterMap Block.sourceLabel = List.range' 1 (sourcesOf em).length
  relationships : (blocksOf em).filterMap Block.relationshipLabel =
    List.range' 1 (edgesOf em).length
  text : ∀ n text, .source n text ∈ blocksOf em →
    1 ≤ n ∧ ∃ id, (sourcesOf em)[n - 1]? = some (id, text)
  edge : ∀ n r a b, .relationship n r a b ∈ blocksOf em →
    Denotes (edgesOf em) n r.edgeId ∧
      Denotes ((sourcesOf em).map Prod.fst) a r.endpoint0.chunkId ∧
      Denotes ((sourcesOf em).map Prod.fst) b r.endpoint1.chunkId
  belongs : ∀ e ∈ em, ∀ b ∈ e.2, Block.BelongsTo e.1 b

theorem sourcesOf_concat (em : List (AllowedEvidence × List Block)) (ev : AllowedEvidence)
    (blocks : List Block) :
    sourcesOf (em ++ [(ev, blocks)]) = insertNew Prod.fst (sourcesOf em) ev.mentions := by
  simp only [sourcesOf, List.flatMap_append, insertNew_append, List.flatMap_singleton]

theorem blocksOf_concat (em : List (AllowedEvidence × List Block)) (ev : AllowedEvidence)
    (blocks : List Block) : blocksOf (em ++ [(ev, blocks)]) = blocksOf em ++ blocks := by
  simp only [blocksOf, List.flatMap_append, List.flatMap_singleton]

theorem edgesOf_concat (em : List (AllowedEvidence × List Block)) (ev : AllowedEvidence)
    (blocks : List Block) : edgesOf (em ++ [(ev, blocks)]) = edgesOf em ++ ev.edgeIds := by
  simp only [edgesOf, List.flatMap_append, List.flatMap_singleton]

theorem sourcesOf_nodup (em : List (AllowedEvidence × List Block)) :
    ((sourcesOf em).map Prod.fst).Nodup := by
  have hnil : (([] : List (Bytes × Bytes)).map Prod.fst).Nodup := List.nodup_nil
  exact nodup_insertNew hnil _

/-- After an item is accepted the sources are those before and the pending ones. -/
theorem Rendered.sourcesOf_accept (h : Rendered s em) (ev : AllowedEvidence) :
    sourcesOf (em ++ [(ev, s.itemBlocks ev)]) =
      sourcesOf em ++ (s.pendingOf ev).map Pending.mention := by
  rw [sourcesOf_concat, (h.indexed.pendingOf ev).2]

theorem Rendered.accept (h : Rendered s em) (ev : AllowedEvidence) :
    Rendered (s.accept ev) (em ++ [(ev, s.itemBlocks ev)]) := by
  have hnum := (h.indexed.pendingOf ev).1
  have hsources := h.sourcesOf_accept ev
  have hkeys : ((s.pendingOf ev).map Pending.mention).map Prod.fst =
      (s.pendingOf ev).map Pending.chunkId := by
    rw [List.map_map]
    rfl
  constructor
  case indexed =>
    constructor
    · have hentries : (s.pendingOf ev).map (fun p => (p.chunkId, p.srcN)) =
          ((s.pendingOf ev).map Pending.chunkId).zipIdx ((sourcesOf em).length + 1) := by
        rw [List.zipIdx_eq_zip_range', List.length_map, ← hnum, List.zip_map']
      have hnodup := sourcesOf_nodup (em ++ [(ev, s.itemBlocks ev)])
      rw [hsources, List.map_append, hkeys] at hnodup ⊢
      simp only [Rendering.accept, foldl_emplace]
      rw [insertNew_of_fresh, h.indexed.index, hentries, List.zipIdx_append, List.length_map,
        Nat.add_comm]
      · rw [List.map_map]
        exact (List.nodup_append.mp hnodup).2.1
      · intro x hx hmem
        obtain ⟨p, hp, rfl⟩ := List.mem_map.mp hx
        rw [h.indexed.index, List.zipIdx_map_fst] at hmem
        exact (List.nodup_append.mp hnodup).2.2 p.chunkId hmem p.chunkId
          (List.mem_map_of_mem hp) rfl
    · simp only [Rendering.accept, h.indexed.next, hsources, List.length_append, List.length_map]
      omega
  case blocks =>
    simp only [Rendering.accept, h.blocks, blocksOf_concat, List.flatMap_append]
  case ids =>
    rw [hsources, List.map_append, hkeys, ← h.ids]
    simp only [Rendering.accept, foldl_emplace]
  case edges => simp only [Rendering.accept, h.edges, edgesOf_concat]
  case nextRel =>
    simp only [Rendering.accept, h.nextRel, edgesOf_concat, List.length_append]
    omega
  case included =>
    simp only [Rendering.accept, h.included, List.length_append, List.length_singleton]

/-! The blocks of one item. -/

theorem itemBlocks_sourceLabels (s : Rendering) (ev : AllowedEvidence) :
    (s.itemBlocks ev).filterMap Block.sourceLabel = (s.pendingOf ev).map Pending.srcN := by
  cases ev with
  | chunk c => simp [Rendering.itemBlocks, List.filterMap_map, Function.comp_def, Block.sourceLabel]
  | relationship r =>
    simp [Rendering.itemBlocks, List.filterMap_map, Function.comp_def, Block.sourceLabel]

theorem itemBlocks_relationshipLabels (s : Rendering) (ev : AllowedEvidence) :
    (s.itemBlocks ev).filterMap Block.relationshipLabel =
      List.range' s.nextRel ev.edgeIds.length := by
  cases ev with
  | chunk c =>
    simp [Rendering.itemBlocks, List.filterMap_map, Function.comp_def, Block.relationshipLabel,
      AllowedEvidence.edgeIds]
  | relationship r =>
    simp [Rendering.itemBlocks, List.filterMap_map, Function.comp_def, Block.relationshipLabel,
      AllowedEvidence.edgeIds]

theorem mem_itemBlocks_source {ev : AllowedEvidence} {n : Nat} {text : Bytes}
    (h : .source n text ∈ s.itemBlocks ev) :
    ∃ p ∈ s.pendingOf ev, n = p.srcN ∧ text = p.text := by
  cases ev with
  | chunk c => simpa [Rendering.itemBlocks, eq_comm] using h
  | relationship r => simpa [Rendering.itemBlocks, eq_comm] using h

theorem mem_itemBlocks_relationship {ev : AllowedEvidence} {n a b : Nat} {r : AllowedRelationship}
    (h : .relationship n r a b ∈ s.itemBlocks ev) :
    ev = .relationship r ∧ n = s.nextRel ∧ a = (s.assignBoth r).1 ∧ b = (s.assignBoth r).2.1 := by
  cases ev with
  | chunk c => simp [Rendering.itemBlocks] at h
  | relationship r' =>
    obtain ⟨rfl, rfl, rfl, rfl⟩ : n = s.nextRel ∧ r = r' ∧ a = (s.assignBoth r').1 ∧
        b = (s.assignBoth r').2.1 := by simpa [Rendering.itemBlocks] using h
    exact ⟨rfl, rfl, rfl, rfl⟩

/-- A pending entry has the text that the item has for its chunk. -/
theorem Rendered.mention_mem (h : Rendered s em) {ev : AllowedEvidence} {p : Pending}
    (hp : p ∈ s.pendingOf ev) : p.mention ∈ ev.mentions := by
  have hadd := (h.indexed.pendingOf ev).2
  have hnodup := sourcesOf_nodup (em ++ [(ev, s.itemBlocks ev)])
  rw [h.sourcesOf_accept, List.map_append] at hnodup
  have hmem : p.mention ∈ (s.pendingOf ev).map Pending.mention := List.mem_map_of_mem hp
  have hin : p.mention ∈ insertNew Prod.fst (sourcesOf em) ev.mentions :=
    hadd ▸ List.mem_append_right _ hmem
  rcases mem_or_mem_of_mem_insertNew hin with hold | hnew
  · exact absurd rfl ((List.nodup_append.mp hnodup).2.2 _ (List.mem_map_of_mem hold) _
      (List.mem_map_of_mem hmem))
  · exact hnew

theorem Labelled.accept (hl : Labelled em) (h : Rendered s em) (ev : AllowedEvidence) :
    Labelled (em ++ [(ev, s.itemBlocks ev)]) := by
  have hnum := (h.indexed.pendingOf ev).1
  have hsources := h.sourcesOf_accept ev
  constructor
  case sources =>
    rw [blocksOf_concat, List.filterMap_append, hl.sources, itemBlocks_sourceLabels, hnum, hsources,
      List.length_append, List.length_map, ← List.range'_append_1, Nat.add_comm 1]
  case relationships =>
    rw [blocksOf_concat, List.filterMap_append, hl.relationships, itemBlocks_relationshipLabels,
      h.nextRel, edgesOf_concat, List.length_append, ← List.range'_append_1, Nat.add_comm 1]
  case text =>
    intro n text hmem
    rw [blocksOf_concat, List.mem_append] at hmem
    rw [hsources]
    rcases hmem with hmem | hmem
    · obtain ⟨hpos, id, hget⟩ := hl.text n text hmem
      obtain ⟨hlt, -⟩ := List.getElem?_eq_some_iff.mp hget
      exact ⟨hpos, id, by rw [List.getElem?_append_left hlt, hget]⟩
    · obtain ⟨p, hp, rfl, rfl⟩ := mem_itemBlocks_source hmem
      obtain ⟨hpos, hplace⟩ := hnum.place hp
      exact ⟨hpos, p.chunkId, hplace⟩
  case edge =>
    intro n r a b hmem
    rw [blocksOf_concat, List.mem_append] at hmem
    rw [hsources, edgesOf_concat, List.map_append]
    rcases hmem with hmem | hmem
    · obtain ⟨hedge, ha, hb⟩ := hl.edge n r a b hmem
      exact ⟨hedge.append _, ha.append _, hb.append _⟩
    · obtain ⟨rfl, rfl, rfl, rfl⟩ := mem_itemBlocks_relationship hmem
      obtain ⟨ha, hb⟩ := h.indexed.assignBoth r
      rw [List.map_append] at ha hb
      refine ⟨?_, ha, hb⟩
      rw [h.nextRel]
      exact denotes_concat _ r.edgeId
  case belongs =>
    intro e he b hb
    rcases List.mem_append.mp he with he | he
    · exact hl.belongs e he b hb
    · obtain rfl := List.mem_singleton.mp he
      cases b with
      | source n text =>
        obtain ⟨p, hp, -, rfl⟩ := mem_itemBlocks_source hb
        exact ⟨p.chunkId, h.mention_mem hp⟩
      | relationship n r srcA srcB => exact (mem_itemBlocks_relationship hb).1

theorem rendered_nil : Rendered {} [] := by
  constructor <;> first | rfl | exact ⟨rfl, rfl⟩

theorem labelled_nil : Labelled [] := by
  constructor <;> first | rfl | simp [blocksOf]

/-- The text of a source is the one of the first accepted item that shows the chunk. -/
theorem find?_mentions {n : Nat} {id text : Bytes} (h : (sourcesOf em)[n]? = some (id, text)) :
    (em.flatMap fun e => e.1.mentions).find? (fun m => decide (m.1 = id)) = some (id, text) := by
  have hkey : AtMostOne (sourcesOf em) fun m => decide (m.1 = id) := by
    intro m hm m' hm' hid hid'
    exact List.inj_on_of_nodup_map (sourcesOf_nodup em) hm hm'
      ((of_decide_eq_true hid).trans (of_decide_eq_true hid').symm)
  have hfind : (sourcesOf em).find? (fun m => decide (m.1 = id)) = some (id, text) :=
    (find?_eq_some_iff hkey).mpr ⟨List.mem_of_getElem? h, decide_eq_true rfl⟩
  rwa [sourcesOf, find?_insertNew, List.nil_append] at hfind

end Rendered

/-- The blocks of the accepted items `em` are the evidence part of the message; the sources are
labelled 1, 2, ... in the order of the blocks, and each holds the text under which its chunk was
first accepted; the relationships are labelled in the same way, and each names its edge and the
chunks of its two endpoints; no block is left behind by an item that was not accepted. -/
structure CitationIntegrity (query : Bytes) (maxEvidenceItems : Int)
    (em : List (AllowedEvidence × List Block)) (out : PromptContext) : Prop where
  message : out.userMessage = (blocksOf em).flatMap Block.render ++ queryBlock query
  nodup : out.sourceChunkIds.Nodup
  sourceLabels : (blocksOf em).filterMap Block.sourceLabel =
    List.range' 1 out.sourceChunkIds.length
  sourceText : ∀ n text, .source n text ∈ blocksOf em →
    ∃ id, Denotes out.sourceChunkIds n id ∧
      (em.flatMap fun e => e.1.mentions).find? (fun m => m.1 = id) = some (id, text)
  relationshipLabels : (blocksOf em).filterMap Block.relationshipLabel =
    List.range' 1 out.sourceEdgeIds.length
  relationship : ∀ n r a b, .relationship n r a b ∈ blocksOf em →
    Denotes out.sourceEdgeIds n r.edgeId ∧
      Denotes out.sourceChunkIds a r.endpoint0.chunkId ∧
      Denotes out.sourceChunkIds b r.endpoint1.chunkId ∧
      ∃ left right, [left, right].Perm [(a, r.endpoint0), (b, r.endpoint1)] ∧
        (Block.relationship n r a b).render = relationshipLines n r left right
  belongs : ∀ e ∈ em, ∀ b ∈ e.2, Block.BelongsTo e.1 b
  included : out.evidenceIncluded = em.length ∧ (out.evidenceIncluded : Int) ≤ maxEvidenceItems

section Build

variable {counter : TokenCounter} {companyId query : Bytes} {evidence : List AllowedEvidence}
  {opts : ContextBuilderOptions} {out : PromptContext}

/-- The state at the end of the loop of a build. -/
theorem rendered_of_build (h : build counter companyId query evidence opts = .ok out) :
    ∃ s, Rendered s (emitted counter query evidence opts) ∧
      Labelled (emitted counter query evidence opts) ∧
      ((emitted counter query evidence opts).length : Int) ≤ opts.maxEvidenceItems ∧
      out.userMessage = s.evidenceBlocks ++ queryBlock query ∧
      out.sourceChunkIds = s.sourceChunkIds ∧ out.sourceEdgeIds = s.sourceEdgeIds ∧
      out.evidenceIncluded = s.included := by
  obtain ⟨hopts, -, -, s, hselect, tokens, -, rfl⟩ := build_ok h
  have hmax := (checkOptions_ok hopts).2.2.2
  -- Each accepted item keeps the three facts; the items left out change nothing.
  obtain ⟨hr, hl, hcap⟩ : Rendered s ([] ++ emitted counter query evidence opts) ∧
      Labelled ([] ++ emitted counter query evidence opts) ∧
      (([] ++ emitted counter query evidence opts).length : Int) ≤ opts.maxEvidenceItems := by
    refine select_invariant
      (P := fun s em => Rendered s em ∧ Labelled em ∧ (em.length : Int) ≤ opts.maxEvidenceItems)
      (fun s ev => (ev, s.itemBlocks ev)) [] ⟨rendered_nil, labelled_nil, hmax⟩ ?_ hselect
    rintro s em ev s' ⟨hr, hl, -⟩ hstep
    obtain ⟨hlt, rfl⟩ := visitItem_accept hstep
    refine ⟨hr.accept ev, hl.accept hr ev, ?_⟩
    rw [hr.included] at hlt
    rw [List.length_append, List.length_singleton]
    omega
  rw [List.nil_append] at hr hl hcap
  exact ⟨s, hr, hl, hcap, rfl, rfl, rfl, rfl⟩

theorem length_labels (blocks : List Block) :
    (blocks.filterMap Block.sourceLabel).length + (blocks.filterMap Block.relationshipLabel).length =
      blocks.length := by
  induction blocks with
  | nil => rfl
  | cons b blocks ih =>
    cases b with
    | source n text =>
      simp only [List.filterMap_cons, Block.sourceLabel, Block.relationshipLabel, List.length_cons]
      omega
    | relationship n r srcA srcB =>
      simp only [List.filterMap_cons, Block.sourceLabel, Block.relationshipLabel, List.length_cons]
      omega

theorem length_le_render (blocks : List Block) :
    blocks.length ≤ (blocks.flatMap Block.render).length := by
  induction blocks with
  | nil => exact Nat.le_refl 0
  | cons b blocks ih =>
    have hpos := List.length_pos_iff.mpr b.render_ne_nil
    rw [List.flatMap_cons, List.length_append, List.length_cons]
    omega

/-- Every label is below the number of bytes of the prompt, and so in the range of an `int`. -/
theorem labels_lt (h : build counter companyId query evidence opts = .ok out) :
    out.sourceChunkIds.length + out.sourceEdgeIds.length + 2 < 2 ^ 31 := by
  obtain ⟨s, hr, hl, -, hmessage, hids, hedges, -⟩ := rendered_of_build h
  obtain ⟨hsum, -, hmax⟩ := promptBytes_of_build h
  have hcount := length_labels (blocksOf (emitted counter query evidence opts))
  have hrender := length_le_render (blocksOf (emitted counter query evidence opts))
  rw [hl.sources, hl.relationships, List.length_range', List.length_range'] at hcount
  rw [hids, hr.ids, List.length_map, hedges, hr.edges]
  rw [hmessage, hr.blocks, List.length_append] at hsum
  have hlt : kContextBuilderMaxBytes + 2 < 2 ^ 31 := by decide
  omega

end Build

/-- For every counter, tenant, query, options and evidence, with any sharing of chunks: the
citations of a prompt that is built are those of its accepted items, which stand in the order of
the evidence. -/
theorem build_citations (counter : TokenCounter) (companyId query : Bytes)
    (evidence : List AllowedEvidence) (opts : ContextBuilderOptions) (out : PromptContext)
    (h : build counter companyId query evidence opts = .ok out) :
    ((emitted counter query evidence opts).map Prod.fst).Sublist evidence ∧
      CitationIntegrity query opts.maxEvidenceItems (emitted counter query evidence opts) out := by
  obtain ⟨s, hr, hl, hcap, hmessage, hids, hedges, hincluded⟩ := rendered_of_build h
  refine ⟨taken_sublist Prod.fst fun _ _ => rfl, ?_⟩
  constructor
  case message => rw [hmessage, hr.blocks]
  case nodup =>
    rw [hids, hr.ids]
    exact sourcesOf_nodup _
  case sourceLabels => rw [hids, hr.ids, List.length_map, hl.sources]
  case sourceText =>
    intro n text hmem
    obtain ⟨hpos, id, hget⟩ := hl.text n text hmem
    refine ⟨id, ⟨hpos, ?_⟩, find?_mentions hget⟩
    rw [hids, hr.ids, List.getElem?_map, hget, Option.map_some]
  case relationshipLabels => rw [hedges, hr.edges, hl.relationships]
  case relationship =>
    intro n r a b hmem
    obtain ⟨hedge, ha, hb⟩ := hl.edge n r a b hmem
    rw [hids, hr.ids, hedges, hr.edges]
    exact ⟨hedge, ha, hb, formatRelationshipBlock_sides n r a b⟩
  case belongs => exact hl.belongs
  case included =>
    rw [hincluded, hr.included]
    exact ⟨rfl, hcap⟩

/-- The chunk 2 has the text that the edge had for it, and the edge that does not fit leaves no
block. -/
theorem handbook_citations :
    CitationIntegrity (utf8 "How long?") 20
        (emitted byteUpperBoundTokenCounter (utf8 "How long?") handbookEvidence handbookOptions)
        handbookPrompt ∧
      (blocksOf (emitted byteUpperBoundTokenCounter (utf8 "How long?") handbookEvidence
        handbookOptions)).filterMap Block.sourceLabel = [1, 2] :=
  have h := build_citations byteUpperBoundTokenCounter (utf8 "acme") (utf8 "How long?")
    handbookEvidence handbookOptions handbookPrompt build_handbookEvidence
  ⟨h.2, h.2.sourceLabels⟩

end Wikore.ContextBuilder
