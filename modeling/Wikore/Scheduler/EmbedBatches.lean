import Wikore.Rag.Embedder
import Wikore.Schema.Types

/-! `OutboxWorker::process` up to its upsert: the chunks of a version are embedded batch by batch,
and the embeddings are put together with the chunks by their places. -/

namespace Wikore.Embedder

open Fallible Sorting ContextBuilder

structure ClaimedEvent where
  id : String
  companyId : String
  aggregateId : String
  documentId : String
  embedModelId : String
deriving DecidableEq, Repr

structure WorkerOptions where
  embedBatchSize : Nat := 32
  expectedEmbedModel : String := ""
  batchPositive : 0 < embedBatchSize := by decide

/-- The fields of a chunk that an ACL change can change. -/
structure AclFields where
  scope : List String
  sensitivity : String
  lifecycle : String
  activatedAt : Option String
  supersededAt : Option String
  owner : String
  aclVersion : Int
deriving DecidableEq, Repr

/-- A row of the query for the chunks. -/
structure DbChunk where
  chunkId : String
  chunkIndex : Int
  content : Bytes
  acl : AclFields
  sectionId : Option String := none
  sectionHeading : Option String := none
  authorityLevel : Int := 50
deriving DecidableEq, Repr

structure ChunkPayload where
  companyId : String
  documentId : String
  documentVersionId : String
  ownerOrgUnitId : Option String
  chunkId : String
  chunkIndex : Int
  authorityLevel : Int
  accessScopeIds : List String
  sensitivityLabel : String
  lifecycleStatus : String
  aclVersion : Int
  activatedAt : Option String
  supersededAt : Option String
  sectionId : Option String
  sectionHeading : Option String
  payloadSchemaVersion : Int := 3
deriving DecidableEq, Repr

structure UpsertPoint (S : Type) where
  id : String
  vector : List S
  payload : ChunkPayload

/-! ### Point ids -/

/-- The URL namespace of RFC 4122. -/
def kNs : Bytes :=
  [0x6b, 0xa7, 0xb8, 0x11, 0x9d, 0xad, 0x11, 0xd1, 0x80, 0xb4, 0x00, 0xc0, 0x4f, 0xd4, 0x30, 0xc8]

/-- A byte of the digest, with the bits of the version and of the variant set. -/
def stampByte (hash : Fin 20 → UInt8) (i : Fin 20) : UInt8 :=
  if i = 6 then (hash i &&& 0x0f) ||| 0x50
  else if i = 8 then (hash i &&& 0x3f) ||| 0x80
  else hash i

/-- `"%02x"`. -/
def hexByte (b : UInt8) : List Char := [hexDigit (b.toNat / 16), hexDigit (b.toNat % 16)]

/-- `rag::uuid_v5`; `sha1` is the digest of OpenSSL, which may fail. -/
def uuidV5 (sha1 : Bytes → Option (Fin 20 → UInt8)) (name : Bytes) : Option String :=
  (sha1 (kNs ++ name)).map fun hash =>
    let hex := fun (is : List (Fin 20)) => is.flatMap fun i => hexByte (stampByte hash i)
    String.ofList (hex [0, 1, 2, 3] ++ '-' :: hex [4, 5] ++ '-' :: hex [6, 7] ++ '-' :: hex [8, 9] ++
      '-' :: hex [10, 11, 12, 13, 14, 15])

/-- The text that the id of a chunk's point is made of. -/
def pointName (chunkId embedModelId : String) : Bytes := utf8 (chunkId ++ ":" ++ embedModelId)

/-! ### The worker -/

/-- A read past the end of a vector has no meaning; every other failure is an error. -/
inductive Failure
  | undefined
  | error (e : Error)
deriving DecidableEq, Repr

def orFail {α : Type} : Except Error α → Except Failure α
  | .ok a => .ok a
  | .error e => .error (.error e)

/-- What a call of `process` gets from the database. -/
structure WorkerReads where
  /-- The row of `embedding_models`. -/
  model : Except Error (Option String)
  chunks : Except Error (List DbChunk)
  begin : Except Error Unit
  /-- The second read, under the advisory lock. -/
  fresh : Except Error (List (String × AclFields))

/-- How far `process` comes. -/
inductive Progress (S : Type)
  | zeroChunks
  | upserting (points : List (UpsertPoint S))

section Process

variable {S : Type} (sort : List (EmbedData S) → List (EmbedData S)) (dims : Int32) (model : Bytes)
  (service : Nat → EmbedRequest → EmbedReply S) (sha1 : Bytes → Option (Fin 20 → UInt8))
  (opts : WorkerOptions) (ev : ClaimedEvent)

/-- `LlamaEmbedder::embed_batch`, the request `k` that the worker sends. -/
def embedBatch (k : Nat) (texts : List Bytes) : Except Error (List (List S)) :=
  doEmbed sort dims texts (service k ⟨model, texts⟩)

def chunkPayload (chunk : DbChunk) : ChunkPayload where
  companyId := ev.companyId
  documentId := ev.documentId
  documentVersionId := ev.aggregateId
  ownerOrgUnitId := some chunk.acl.owner
  chunkId := chunk.chunkId
  chunkIndex := chunk.chunkIndex
  authorityLevel := chunk.authorityLevel
  accessScopeIds := chunk.acl.scope
  sensitivityLabel := chunk.acl.sensitivity
  lifecycleStatus := chunk.acl.lifecycle
  aclVersion := chunk.acl.aclVersion
  activatedAt := chunk.acl.activatedAt
  supersededAt := chunk.acl.supersededAt
  sectionId := chunk.sectionId
  sectionHeading := chunk.sectionHeading

def upsertPoint (chunk : DbChunk) (vector : List S) : Except Failure (UpsertPoint S) :=
  match uuidV5 sha1 (pointName chunk.chunkId ev.embedModelId) with
  | none => .error (.error (.unavailable
      ("uuid_v5 returned nullopt for chunk " ++ chunk.chunkId ++
        " (OpenSSL EVP allocation failed); will retry")))
  | some id => .ok ⟨id, vector, chunkPayload ev chunk⟩

/-- The loop over the embeddings of a batch that starts at chunk `i`, from place `j` on. -/
def pointsOfBatch (chunks : List DbChunk) (i j : Nat) :
    List (List S) → Except Failure (List (UpsertPoint S))
  | [] => .ok []
  | v :: vs =>
    match chunks[i + j]? with
    | none => .error .undefined
    | some chunk => do
      let point ← upsertPoint sha1 ev chunk v
      let points ← pointsOfBatch chunks i (j + 1) vs
      .ok (point :: points)

/-- The texts of the batch that starts at chunk `i`. -/
def batchTexts (chunks : List DbChunk) (i : Nat) : List Bytes :=
  ((chunks.drop i).take opts.embedBatchSize).map DbChunk.content

/-- The loop over the batches, from chunk `i` on; `k` requests were sent before. -/
def embedBatches (chunks : List DbChunk) (i k : Nat) : Except Failure (List (UpsertPoint S)) :=
  if _ : i < chunks.length then do
    let vectors ← orFail (embedBatch sort dims model service k (batchTexts opts chunks i))
    let points ← pointsOfBatch sha1 ev chunks i 0 vectors
    let rest ← embedBatches chunks (i + opts.embedBatchSize) (k + 1)
    .ok (points ++ rest)
  else .ok []
termination_by chunks.length - i
decreasing_by
  have := opts.batchPositive
  omega

/-- The fields that an ACL change may have changed since the first read. -/
def refresh (fresh : List (String × AclFields)) (p : UpsertPoint S) : UpsertPoint S :=
  match fresh.find? fun row => row.1 = p.payload.chunkId with
  | none => p
  | some (_, f) =>
    { p with payload :=
      { p.payload with
        accessScopeIds := f.scope
        sensitivityLabel := f.sensitivity
        lifecycleStatus := f.lifecycle
        activatedAt := f.activatedAt
        supersededAt := f.supersededAt
        ownerOrgUnitId := some f.owner
        aclVersion := f.aclVersion } }

/-- `OutboxWorker::process` up to the call of `upsert`. -/
def process (reads : WorkerReads) : Except Failure (Progress S) := do
  rejectIf (opts.expectedEmbedModel ≠ "" ∧ ev.embedModelId ≠ opts.expectedEmbedModel)
    (.error (.invalidState ("outbox: event embed_model_id=" ++ ev.embedModelId ++
      " does not match this scheduler's configured model=" ++ opts.expectedEmbedModel ++
      "; route to a scheduler instance bound to the correct model")))
  let row ← orFail reads.model
  rejectIf (row = none)
    (.error (.invalidState ("outbox: embed_model_id=" ++ ev.embedModelId ++
      " not in embedding_models registry")))
  let chunks ← orFail reads.chunks
  if chunks = [] then .ok .zeroChunks
  else do
    let points ← embedBatches sort dims model service sha1 opts ev chunks 0 0
    orFail reads.begin
    let fresh ← orFail reads.fresh
    .ok (.upserting (points.map (refresh fresh)))

end Process

/-! ### Alignment -/

section Alignment

variable {S : Type} {sort : List (EmbedData S) → List (EmbedData S)} {dims : Int32} {model : Bytes}
  {service : Nat → EmbedRequest → EmbedReply S} {sha1 : Bytes → Option (Fin 20 → UInt8)}
  {opts : WorkerOptions} {ev : ClaimedEvent} {chunks : List DbChunk}

variable (model service opts chunks) in
/-- The service returned `vector` for the content of chunk `n`: it is the embedding of the only entry
that claims the content's place in the request of its batch. -/
def ReturnedFor (n : Nat) (content : Bytes) (vector : List S) : Prop :=
  let k := n / opts.embedBatchSize
  let texts := batchTexts opts chunks (k * opts.embedBatchSize)
  texts[n % opts.embedBatchSize]? = some content ∧
    ∃ body data, service k ⟨model, texts⟩ = .json body ∧ body.readJson = some data ∧
      ∃ e ∈ data, e.index.toInt = (n % opts.embedBatchSize : Nat) ∧ vector = e.embedding ∧
        ∀ e' ∈ data, e'.index = e.index → e' = e

variable (model service sha1 opts ev chunks) in
/-- The point is the one of chunk `n`. -/
def PointOf (n : Nat) (chunk : DbChunk) (p : UpsertPoint S) : Prop :=
  p.payload.chunkId = chunk.chunkId ∧
    uuidV5 sha1 (pointName chunk.chunkId ev.embedModelId) = some p.id ∧
    ReturnedFor model service opts chunks n chunk.content p.vector

variable (model service sha1 opts ev chunks) in
/-- One point for each chunk from chunk `i` on, in their order. -/
def AlignedFrom (i : Nat) (points : List (UpsertPoint S)) : Prop :=
  points.length = chunks.length - i ∧ ∀ j p, points[j]? = some p →
    ∃ chunk, chunks[i + j]? = some chunk ∧ PointOf model service sha1 opts ev chunks (i + j) chunk p

theorem orFail_ok {α : Type} {x : Except Error α} {a : α} : orFail x = .ok a ↔ x = .ok a := by
  cases x <;> simp [orFail]

theorem upsertPoint_ok {chunk : DbChunk} {v : List S} {p : UpsertPoint S} :
    upsertPoint sha1 ev chunk v = .ok p ↔
      uuidV5 sha1 (pointName chunk.chunkId ev.embedModelId) = some p.id ∧ p.vector = v ∧
        p.payload = chunkPayload ev chunk := by
  unfold upsertPoint
  cases uuidV5 sha1 (pointName chunk.chunkId ev.embedModelId) with
  | none => simp
  | some id =>
    cases p
    simp [eq_comm]

/-- The points of a batch are those of its chunks, with the embeddings of their places. -/
theorem pointsOfBatch_ok {i j : Nat} {vectors : List (List S)} {points : List (UpsertPoint S)}
    (h : pointsOfBatch sha1 ev chunks i j vectors = .ok points) :
    points.length = vectors.length ∧ ∀ m p, points[m]? = some p →
      ∃ chunk, chunks[i + (j + m)]? = some chunk ∧
        uuidV5 sha1 (pointName chunk.chunkId ev.embedModelId) = some p.id ∧
        vectors[m]? = some p.vector ∧ p.payload = chunkPayload ev chunk := by
  induction vectors generalizing j points with
  | nil =>
    obtain rfl := Except.ok.inj h
    simp
  | cons v vs ih =>
    unfold pointsOfBatch at h
    cases hc : chunks[i + j]? with
    | none =>
      rw [hc] at h
      cases h
    | some chunk =>
      simp only [hc, bind_ok] at h
      obtain ⟨p, hp, ps, hps, h⟩ := h
      obtain rfl := Except.ok.inj h
      obtain ⟨hid, hvec, hpay⟩ := upsertPoint_ok.mp hp
      obtain ⟨hlen, hrest⟩ := ih hps
      refine ⟨by simp [hlen], fun m p' hm => ?_⟩
      cases m with
      | zero =>
        obtain rfl : p = p' := by simpa using hm
        exact ⟨chunk, hc, hid, by simp [hvec], hpay⟩
      | succ m =>
        obtain ⟨chunk', hc', hrest'⟩ := hrest m p' (by simpa using hm)
        refine ⟨chunk', ?_, by simpa using hrest'⟩
        rwa [show j + (m + 1) = j + 1 + m by omega]

/-- The embeddings of a batch are those that the service returned for its places. -/
theorem embedBatch_ok (hsort : SortsByIndex sort) {k : Nat} {texts : List Bytes}
    {vectors : List (List S)} (h : embedBatch sort dims model service k texts = .ok vectors) :
    vectors.length = texts.length ∧
      ∃ body data, service k ⟨model, texts⟩ = .json body ∧ body.readJson = some data ∧
      ∀ (j : Nat) v, vectors[j]? = some v → ∃ e ∈ data, e.index.toInt = j ∧ v = e.embedding ∧
        ∀ e' ∈ data, e'.index = e.index → e' = e := by
  unfold embedBatch at h
  obtain ⟨body, hbody, hkeys, hok⟩ := doEmbed_ok.mp h
  obtain ⟨hperm, -, rfl⟩ := (embeddingsOf_ok hsort).mp hok
  refine ⟨?_, body, _, hbody, if_neg hkeys, fun j v hv => ?_⟩
  · have hlen := hperm.length_eq
    simp only [indices, positions, List.length_map, List.length_range] at hlen
    rw [List.length_map, hsort.length_eq, List.length_map, hlen]
  · rw [List.getElem?_map] at hv
    obtain ⟨e, he, rfl⟩ := Option.map_eq_some_iff.mp hv
    obtain ⟨hmem, hindex, honly⟩ := sorted_entry hsort hperm he
    exact ⟨e, hmem, hindex, rfl, honly⟩

theorem length_batchTexts (i : Nat) :
    (batchTexts opts chunks i).length = min opts.embedBatchSize (chunks.length - i) := by
  simp [batchTexts]

theorem batchTexts_getElem? {i j : Nat} (hj : j < opts.embedBatchSize) :
    (batchTexts opts chunks i)[j]? = chunks[i + j]?.map DbChunk.content := by
  simp [batchTexts, hj]

/-- The points of the batch that starts at chunk `i`, the one of request `k`. -/
theorem batch_aligned (hsort : SortsByIndex sort) {i k : Nat} (hi : i = k * opts.embedBatchSize)
    {vectors : List (List S)} {points : List (UpsertPoint S)}
    (hvec : embedBatch sort dims model service k (batchTexts opts chunks i) = .ok vectors)
    (hpoints : pointsOfBatch sha1 ev chunks i 0 vectors = .ok points) :
    points.length = min opts.embedBatchSize (chunks.length - i) ∧ ∀ j p, points[j]? = some p →
      ∃ chunk, chunks[i + j]? = some chunk ∧
        PointOf model service sha1 opts ev chunks (i + j) chunk p := by
  obtain ⟨hvlen, body, data, hbody, hdata, hentries⟩ := embedBatch_ok hsort hvec
  obtain ⟨hplen, hof⟩ := pointsOfBatch_ok hpoints
  rw [length_batchTexts] at hvlen
  refine ⟨hplen.trans hvlen, fun j p hp => ?_⟩
  obtain ⟨chunk, hchunk, hid, hv, hpay⟩ := hof j p hp
  rw [Nat.zero_add] at hchunk
  have hj : j < opts.embedBatchSize := by
    have := (List.getElem?_eq_some_iff.mp hp).1
    omega
  -- the place of the chunk in its batch
  have hdiv : (i + j) / opts.embedBatchSize = k := by
    rw [hi, Nat.mul_comm, Nat.mul_add_div opts.batchPositive, Nat.div_eq_of_lt hj, Nat.add_zero]
  have hmod : (i + j) % opts.embedBatchSize = j := by
    rw [hi, Nat.mul_comm, Nat.mul_add_mod, Nat.mod_eq_of_lt hj]
  refine ⟨chunk, hchunk, by rw [hpay]; rfl, hid, ?_⟩
  unfold ReturnedFor
  simp only [hdiv, hmod, ← hi]
  refine ⟨?_, body, data, hbody, hdata, hentries j p.vector hv⟩
  rw [batchTexts_getElem? hj, hchunk, Option.map_some]

/-- The loop over the batches, by induction on what is left of the chunks. -/
theorem embedBatches_aligned (hsort : SortsByIndex sort) {i k : Nat}
    (hi : i = k * opts.embedBatchSize) {points : List (UpsertPoint S)}
    (h : embedBatches sort dims model service sha1 opts ev chunks i k = .ok points) :
    AlignedFrom model service sha1 opts ev chunks i points := by
  induction i, k using embedBatches.induct opts chunks generalizing points with
  | case2 i k hend =>
    rw [embedBatches, dif_neg hend] at h
    obtain rfl := Except.ok.inj h
    exact ⟨by simp; omega, by simp⟩
  | case1 i k hlt ih =>
    rw [embedBatches, dif_pos hlt] at h
    simp only [bind_ok, orFail_ok] at h
    obtain ⟨vectors, hvec, ps, hps, rest, hrest, h⟩ := h
    obtain rfl := Except.ok.inj h
    obtain ⟨hlen, hbatch⟩ := batch_aligned hsort hi hvec hps
    obtain ⟨hrestLen, hrestOf⟩ := ih (by rw [hi, Nat.add_mul, Nat.one_mul]) hrest
    refine ⟨by rw [List.length_append]; omega, fun j p hp => ?_⟩
    by_cases hj : j < ps.length
    · rw [List.getElem?_append_left hj] at hp
      exact hbatch j p hp
    · rw [List.getElem?_append_right (by omega)] at hp
      have hin := (List.getElem?_eq_some_iff.mp hp).1
      obtain ⟨chunk, hchunk, hof⟩ := hrestOf (j - ps.length) p hp
      -- a batch that is followed by another one is full
      have hplace : i + opts.embedBatchSize + (j - ps.length) = i + j := by omega
      rw [hplace] at hchunk hof
      exact ⟨chunk, hchunk, hof⟩

/-- The second read leaves the chunk, the id and the vector of a point. -/
theorem refresh_frame (fresh : List (String × AclFields)) (p : UpsertPoint S) :
    (refresh fresh p).payload.chunkId = p.payload.chunkId ∧ (refresh fresh p).id = p.id ∧
      (refresh fresh p).vector = p.vector := by
  unfold refresh
  split <;> exact ⟨rfl, rfl, rfl⟩

variable (model service sha1 opts ev chunks) in
/-- The points are one for each chunk, each of its own chunk. -/
def Aligned (points : List (UpsertPoint S)) : Prop :=
  points.map (fun p => p.payload.chunkId) = chunks.map DbChunk.chunkId ∧
    ∀ n p, points[n]? = some p → ∃ chunk, chunks[n]? = some chunk ∧
      PointOf model service sha1 opts ev chunks n chunk p

theorem AlignedFrom.aligned {points : List (UpsertPoint S)}
    (h : AlignedFrom model service sha1 opts ev chunks 0 points)
    (fresh : List (String × AclFields)) :
    Aligned model service sha1 opts ev chunks (points.map (refresh fresh)) := by
  obtain ⟨hlen, hof⟩ := h
  have hpoint : ∀ n p, (points.map (refresh fresh))[n]? = some p → ∃ chunk,
      chunks[n]? = some chunk ∧ PointOf model service sha1 opts ev chunks n chunk p := by
    intro n p hp
    rw [List.getElem?_map] at hp
    obtain ⟨q, hq, rfl⟩ := Option.map_eq_some_iff.mp hp
    obtain ⟨chunk, hchunk, hof⟩ := hof n q hq
    rw [Nat.zero_add] at hchunk hof
    obtain ⟨hid, hpointId, hvec⟩ := refresh_frame fresh q
    refine ⟨chunk, hchunk, ?_⟩
    rw [PointOf, hid, hpointId, hvec]
    exact hof
  have hsize : (points.map (refresh fresh)).length = chunks.length := by simpa using hlen
  revert hpoint hsize
  generalize points.map (refresh fresh) = ps
  intro hpoint hsize
  refine ⟨List.ext_getElem? fun n => ?_, hpoint⟩
  rw [List.getElem?_map, List.getElem?_map]
  cases hp : ps[n]? with
  | none =>
    rw [List.getElem?_eq_none_iff] at hp
    rw [List.getElem?_eq_none (hsize ▸ hp)]
    rfl
  | some p =>
    obtain ⟨chunk, hchunk, hof⟩ := hpoint n p hp
    rw [hchunk, Option.map_some, Option.map_some, hof.1]

/-- What `process` hands to `upsert`. -/
theorem process_aligned (hsort : SortsByIndex sort) {reads : WorkerReads}
    {points : List (UpsertPoint S)}
    (h : process sort dims model service sha1 opts ev reads = .ok (.upserting points)) :
    ∃ chunks, reads.chunks = .ok chunks ∧ Aligned model service sha1 opts ev chunks points := by
  simp only [process, bind_ok, orFail_ok] at h
  obtain ⟨-, -, row, -, -, -, chunks, hchunks, h⟩ := h
  refine ⟨chunks, hchunks, ?_⟩
  split at h
  · cases h
  · simp only [bind_ok, orFail_ok] at h
    obtain ⟨ps, hps, -, -, fresh, -, h⟩ := h
    obtain rfl := Progress.upserting.inj (Except.ok.inj h)
    exact (embedBatches_aligned hsort (by simp) hps).aligned fresh

/-- No read of `chunks` is past its end. -/
theorem pointsOfBatch_defined {i j : Nat} {vectors : List (List S)}
    (hlen : i + j + vectors.length ≤ chunks.length) :
    pointsOfBatch sha1 ev chunks i j vectors ≠ .error .undefined := by
  induction vectors generalizing j with
  | nil => simp [pointsOfBatch]
  | cons v vs ih =>
    rw [List.length_cons] at hlen
    have hget : chunks[i + j]? = some chunks[i + j] := List.getElem?_eq_getElem (by omega)
    have hrest := ih (j := j + 1) (by omega)
    simp only [pointsOfBatch, hget, upsertPoint]
    cases uuidV5 sha1 (pointName chunks[i + j].chunkId ev.embedModelId) with
    | none => simp [bind, Except.bind]
    | some id =>
      cases hps : pointsOfBatch sha1 ev chunks i (j + 1) vs with
      | ok ps => simp [bind, Except.bind]
      | error f =>
        rw [hps] at hrest
        simpa [bind, Except.bind] using hrest

theorem orFail_defined {α : Type} (x : Except Error α) : orFail x ≠ .error .undefined := by
  cases x <;> simp [orFail]

theorem bind_defined {α β : Type} {x : Except Failure α} {f : α → Except Failure β}
    (hx : x ≠ .error .undefined) (hf : ∀ a, x = .ok a → f a ≠ .error .undefined) :
    (x >>= f) ≠ .error .undefined := by
  cases x with
  | ok a => exact hf a rfl
  | error e =>
    intro h
    exact hx (congrArg Except.error (Except.error.inj h))

theorem embedBatches_defined (hsort : SortsByIndex sort) (i k : Nat) :
    embedBatches sort dims model service sha1 opts ev chunks i k ≠ .error .undefined := by
  induction i, k using embedBatches.induct opts chunks with
  | case2 i k hend =>
    rw [embedBatches, dif_neg hend]
    simp
  | case1 i k hlt ih =>
    rw [embedBatches, dif_pos hlt]
    refine bind_defined (orFail_defined _) fun vectors hvec => ?_
    obtain ⟨hlen, -⟩ := embedBatch_ok hsort (orFail_ok.mp hvec)
    rw [length_batchTexts] at hlen
    refine bind_defined (pointsOfBatch_defined (by omega)) fun points _ => ?_
    exact bind_defined ih fun rest _ => by simp

/-- Nor is one in the whole of `process`. -/
theorem process_defined (hsort : SortsByIndex sort) (reads : WorkerReads) :
    process sort dims model service sha1 opts ev reads ≠ .error .undefined := by
  have hreject : ∀ (c : Prop) [Decidable c] (e : Error),
      rejectIf c (Failure.error e) ≠ .error .undefined := by
    intro c _ e
    unfold rejectIf
    split <;> simp
  refine bind_defined (hreject _ _) fun _ _ => ?_
  refine bind_defined (orFail_defined _) fun row _ => ?_
  refine bind_defined (hreject _ _) fun _ _ => ?_
  refine bind_defined (orFail_defined _) fun chunks _ => ?_
  split
  · simp
  · refine bind_defined (embedBatches_defined hsort 0 0) fun points _ => ?_
    refine bind_defined (orFail_defined _) fun _ _ => ?_
    exact bind_defined (orFail_defined _) fun fresh _ => by simp

end Alignment

/-- Every point that `process` hands to `upsert` is that of its own chunk; and `do_embed` accepts
what it should accept exactly when the response is neither a right one with an unknown key nor one
that is only right with the defaults of missing keys and the lengths of its vectors modulo 2³². -/
theorem vectors_aligned_iff {S : Type} {sort : List (EmbedData S) → List (EmbedData S)}
    (hsort : SortsByIndex sort) (dims : Int32) (model : Bytes)
    (service : Nat → EmbedRequest → EmbedReply S) (sha1 : Bytes → Option (Fin 20 → UInt8))
    (opts : WorkerOptions) (ev : ClaimedEvent) (reads : WorkerReads) (texts : List Bytes)
    (body : EmbedBody S) :
    ((∀ points, process sort dims model service sha1 opts ev reads = .ok (.upserting points) →
        ∃ chunks, reads.chunks = .ok chunks ∧ Aligned model service sha1 opts ev chunks points) ∧
      AcceptsExactly sort dims texts body) ↔
      ¬UnknownKey dims texts body ∧ ¬TakenForRight dims texts body := by
  rw [acceptsExactly_iff hsort]
  exact and_iff_right fun points h => process_aligned hsort h

/-- `std::sort` by the index, as a merge sort. -/
def sortByIndex (data : List (EmbedData Nat)) : List (EmbedData Nat) :=
  data.mergeSort fun a b => decide (a.index.toInt ≤ b.index.toInt)

theorem sortByIndex_sorts : SortsByIndex sortByIndex := mergeSort_sorts _

/-- A service that answers with the length of each text, the last text first. -/
def lengthService (_ : Nat) (request : EmbedRequest) : EmbedReply Nat :=
  .json ⟨some (request.input.mapIdx fun i text =>
    ⟨some [text.length], some (Int32.ofNat i), []⟩).reverse, []⟩

def policyAcl : AclFields := ⟨["10"], "internal", "active", none, none, "10", 1⟩

/-- Three chunks that are embedded two at a time. -/
def policyReads : WorkerReads where
  model := .ok (some "1")
  chunks := .ok [⟨"a", 0, utf8 "Leave", policyAcl, none, none, 50⟩,
    ⟨"b", 1, utf8 "Travel cost", policyAcl, none, none, 50⟩,
    ⟨"c", 2, utf8 "Security", policyAcl, none, none, 50⟩]
  begin := .ok ()
  fresh := .ok []

def policyEvent : ClaimedEvent := ⟨"e", "1", "2", "3", "bge-m3"⟩

/-- The worker comes to its upsert with the vectors of the texts' own lengths. -/
theorem policy_upserts : ∃ points,
    process sortByIndex 1 (utf8 "bge-m3") lengthService (fun _ => some fun _ => 7)
        { embedBatchSize := 2 } policyEvent policyReads = .ok (.upserting points) ∧
      points.map (fun p => (p.payload.chunkId, p.vector)) = [("a", [5]), ("b", [11]), ("c", [8])] := by
  have hleave : (utf8 "Leave").length = 5 := by decide
  have htravel : (utf8 "Travel cost").length = 11 := by decide
  have hsecurity : (utf8 "Security").length = 8 := by decide
  have hfirst : sortByIndex [⟨[11], 1⟩, ⟨[5], 0⟩] = [⟨[5], 0⟩, ⟨[11], 1⟩] := by
    simp [sortByIndex, List.mergeSort, List.MergeSort.Internal.splitInTwo]
  have hsecond : sortByIndex [⟨[8], 0⟩] = [⟨[8], 0⟩] := by
    simp [sortByIndex]
  simp [process, policyReads, embedBatches, embedBatch, batchTexts, lengthService, doEmbed,
    EmbedBody.readJson, EmbedBody.HasOtherKeys, EmbedBody.entries, EmbedEntry.read, embeddingsOf, orFail,
    rejectIf, bind, Except.bind, checkEntries, pointsOfBatch, upsertPoint, uuidV5, refresh,
    chunkPayload, hleave, htravel, hsecurity, hfirst, hsecond, intOfSize]

/-- The response to the first two of the texts. -/
def policyBody : EmbedBody Nat := ⟨some [⟨some [11], some 1, []⟩, ⟨some [5], some 0, []⟩], []⟩

theorem policy_aligned : ∃ chunks points, policyReads.chunks = .ok chunks ∧
    points.map (fun p => (p.payload.chunkId, p.vector)) = [("a", [5]), ("b", [11]), ("c", [8])] ∧
    Aligned (utf8 "bge-m3") lengthService (fun _ => some fun _ => 7) { embedBatchSize := 2 }
      policyEvent chunks points := by
  have hkeys : ¬policyBody.HasOtherKeys := by
    simp [EmbedBody.HasOtherKeys, policyBody, EmbedBody.entries]
  have hexact : ¬TakenForRight 1 [utf8 "Leave", utf8 "Travel cost"] policyBody := by
    rintro ⟨-, -, e, he, hwrong⟩
    simp only [policyBody, EmbedBody.entries, Option.getD_some, List.mem_cons, List.not_mem_nil,
      or_false] at he
    rcases he with rfl | rfl <;> simp at hwrong
  have hboth := (vectors_aligned_iff sortByIndex_sorts 1 (utf8 "bge-m3") lengthService
    (fun _ => some fun _ => 7) { embedBatchSize := 2 } policyEvent policyReads
    [utf8 "Leave", utf8 "Travel cost"] policyBody).mpr ⟨fun h => hkeys h.2, hexact⟩
  obtain ⟨points, hrun, hvectors⟩ := policy_upserts
  obtain ⟨chunks, hchunks, haligned⟩ := hboth.1 points hrun
  exact ⟨chunks, points, hchunks, hvectors, haligned⟩

/-- A response as OpenAI-compatible servers write it. -/
def openAiBody : EmbedBody Nat := ⟨some [⟨some [1], some 0, ["object"]⟩], ["object", "model", "usage"]⟩

/-- That response is refused; one without an index and one with a vector of 2³² numbers more than
the dimension are accepted. -/
theorem responses_misjudged :
    ¬AcceptsExactly sortByIndex 1 [utf8 "Leave"] openAiBody ∧
      ¬AcceptsExactly sortByIndex 1 [utf8 "Leave"] ⟨some [⟨some [1], none, []⟩], []⟩ ∧
      ¬AcceptsExactly sortByIndex 4 [utf8 "Leave"]
        ⟨some [⟨some (List.replicate (2 ^ 32 + 4) 0), some 0, []⟩], []⟩ := by
  have hnone : ∀ e : EmbedEntry Nat, e.otherKeys = [] →
      ¬EmbedBody.HasOtherKeys ⟨some [e], []⟩ := by
    intro e he
    simp [EmbedBody.HasOtherKeys, EmbedBody.entries, he]
  refine ⟨?_, ?_, ?_⟩
  · rw [acceptsExactly_iff sortByIndex_sorts]
    refine fun h => h.1 ⟨⟨List.Perm.refl _, ?_⟩, .inl (by decide)⟩
    intro e he
    obtain rfl := List.mem_singleton.mp he
    exact ⟨[1], rfl, rfl⟩
  · rw [acceptsExactly_iff sortByIndex_sorts]
    refine fun h => h.2 ⟨hnone _ rfl, ⟨List.Perm.refl _, ?_⟩, _, List.mem_singleton_self _, .inl rfl⟩
    intro e he
    obtain rfl := List.mem_singleton.mp he
    decide
  · have hlen : (List.replicate (2 ^ 32 + 4) 0).length = 2 ^ 32 + 4 := List.length_replicate
    revert hlen
    generalize List.replicate (2 ^ 32 + 4) 0 = v
    intro hlen
    rw [acceptsExactly_iff sortByIndex_sorts]
    refine fun h => h.2 ⟨hnone _ rfl, ⟨List.Perm.refl _, ?_⟩, _, List.mem_singleton_self _,
      .inr (.inr ⟨v, rfl, ?_⟩)⟩
    · intro e he
      obtain rfl := List.mem_singleton.mp he
      show (v.length : Int) % 2 ^ 32 = _
      rw [hlen]
      decide
    · rw [hlen]
      decide

end Wikore.Embedder
