import Mathlib.Algebra.Group.Int.Defs
import Wikore.Rag.ContextBuilder
import Wikore.Lib.Sorting

/-! `LlamaEmbedder::do_embed`: the embeddings come back in any order, are sorted by the index that
each of them claims, and are checked position by position. -/

namespace Wikore

def ContextBuilder.Error.unavailable (message : String) : Error := ⟨.serviceUnavailable, message⟩

namespace Embedder

open Fallible Sorting ContextBuilder

structure EmbedRequest where
  model : Bytes
  input : List Bytes
deriving DecidableEq, Repr

/-- An entry of the response as `EmbedData` has it; `S` stands for `float`, which is only passed on. -/
structure EmbedData (S : Type) where
  embedding : List S
  index : Int32

/-- An entry of the response as it came: what it has under the keys that `EmbedData` names, and its
other keys. -/
structure EmbedEntry (S : Type) where
  embedding : Option (List S)
  index : Option Int32
  otherKeys : List String

/-- The object in the body of the response. -/
structure EmbedBody (S : Type) where
  data : Option (List (EmbedEntry S))
  otherKeys : List String

/-- What comes back for a request: the JSON writer or the HTTP client fails, the server answers with
another status than 200, the body is no JSON or has a value of another type under one of the keys, or
it is an object. -/
inductive EmbedReply (S : Type)
  | notSerialized
  | httpError (what : String)
  | status (code : Nat)
  | malformed
  | json (body : EmbedBody S)

def EmbedBody.entries {S : Type} (body : EmbedBody S) : List (EmbedEntry S) := body.data.getD []

/-- A key that the structs do not name. -/
def EmbedBody.HasOtherKeys {S : Type} (body : EmbedBody S) : Prop :=
  body.otherKeys ≠ [] ∨ ∃ e ∈ body.entries, e.otherKeys ≠ []

instance {S : Type} (body : EmbedBody S) : Decidable body.HasOtherKeys :=
  inferInstanceAs (Decidable (_ ∨ _))

/-- The defaults of the struct stand in for missing keys. -/
def EmbedEntry.read {S : Type} (e : EmbedEntry S) : EmbedData S := ⟨e.embedding.getD [], e.index.getD 0⟩

/-- `glz::read_json` of an `EmbedResponse`: an unknown key is an error, a missing one is none. -/
def EmbedBody.readJson {S : Type} (body : EmbedBody S) : Option (List (EmbedData S)) :=
  if body.HasOtherKeys then none else some (body.entries.map EmbedEntry.read)

section DoEmbed

variable {S : Type} (sort : List (EmbedData S) → List (EmbedData S)) (dims : Int32)

/-- `static_cast<int>` of a size. -/
def intOfSize (n : Nat) : Int32 := Int32.ofNat n

/-- The loop over the sorted entries, from position `i`; `size` is their number. -/
def checkEntries (size i : Nat) : List (EmbedData S) → Except Error Unit
  | [] => .ok ()
  | e :: es => do
    rejectIf (e.index ≠ intOfSize i)
      (.unavailable ("embed response indices not [0.." ++ Nat.repr (size - 1) ++ "]: position " ++
        Nat.repr i ++ " has index " ++ toString e.index.toInt))
    rejectIf (intOfSize e.embedding.length ≠ dims)
      (.unavailable ("embed response dim mismatch at index " ++ Nat.repr i ++ ": expected " ++
        toString dims.toInt ++ ", got " ++ Nat.repr e.embedding.length))
    checkEntries size (i + 1) es

/-- `do_embed` after the response is read; `sort` is `std::sort` by the index. -/
def embeddingsOf (texts : List Bytes) (data : List (EmbedData S)) : Except Error (List (List S)) := do
  rejectIf (data.length ≠ texts.length)
    (.unavailable ("embed response cardinality: expected " ++ Nat.repr texts.length ++
      " embeddings, got " ++ Nat.repr data.length))
  checkEntries dims data.length 0 (sort data)
  .ok ((sort data).map EmbedData.embedding)

/-- `LlamaEmbedder::do_embed`. -/
def doEmbed (texts : List Bytes) : EmbedReply S → Except Error (List (List S))
  | .notSerialized => .error (.invalidInput "embed request serialize failed")
  | .httpError what => .error (.unavailable ("embed HTTP error: " ++ what))
  | .status code => .error (.unavailable ("embed server " ++ Nat.repr code))
  | .malformed => .error (.unavailable "embed response parse failed")
  | .json body =>
    match body.readJson with
    | none => .error (.unavailable "embed response parse failed")
    | some data => embeddingsOf sort dims texts data

end DoEmbed

/-! ### What is accepted -/

section Accepted

variable {S : Type} {sort : List (EmbedData S) → List (EmbedData S)} {dims : Int32}
  {data : List (EmbedData S)} {texts : List Bytes} {vectors : List (List S)}

/-- The indices of the entries, and the indices that `n` texts have. -/
def indices (data : List (EmbedData S)) : List Int := data.map fun e => e.index.toInt

def positions (n : Nat) : List Int := (List.range n).map Int.ofNat

/-- The contract of `std::sort` with the comparison of `do_embed`. -/
abbrev SortsByIndex (sort : List (EmbedData S) → List (EmbedData S)) : Prop :=
  Sorts (fun e : EmbedData S => e.index.toInt) sort

theorem positions_ordered (n : Nat) : (positions n).Pairwise (· ≤ ·) := by
  refine List.pairwise_map.mpr (List.pairwise_lt_range.imp fun h => ?_)
  exact Int.ofNat_le.mpr (Nat.le_of_lt h)

theorem eq_of_positions {n j : Nat} {x : Int} (h : (positions n)[j]? = some x) : x = j := by
  obtain ⟨hj, rfl⟩ := List.getElem?_eq_some_iff.mp h
  simp [positions]

theorem positions_nodup (n : Nat) : (positions n).Nodup :=
  List.nodup_range.map fun _ _ h => Int.ofNat.inj h

/-- The cast keeps a size modulo 2³². -/
theorem intOfSize_eq_iff {n : Nat} {d : Int32} :
    intOfSize n = d ↔ (n : Int) % 2 ^ 32 = d.toInt % 2 ^ 32 := by
  rw [← Int32.toInt_inj, intOfSize, Int32.toInt_ofNat']
  have hsize : ((Int32.size : Nat) : Int) = 2 ^ 32 := by decide
  constructor
  · intro h
    rw [← hsize, ← h, Int.bmod_emod]
  · intro h
    rw [← hsize] at h
    rw [← Int.emod_bmod, h, Int.emod_bmod, Int32.toInt_bmod_size]

theorem checkEntries_ok {size i : Nat} {es : List (EmbedData S)} {u : Unit} :
    checkEntries dims size i es = .ok u ↔
      es.map EmbedData.index = (List.range' i es.length).map intOfSize ∧
        ∀ e ∈ es, intOfSize e.embedding.length = dims := by
  induction es generalizing i with
  | nil => simp [checkEntries]
  | cons e es ih =>
    rw [checkEntries, rejectIf_bind_ok, rejectIf_bind_ok, ih, not_not, not_not]
    simp only [List.map_cons, List.length_cons, List.range'_succ, List.cons.injEq,
      List.forall_mem_cons]
    tauto

/-- Sorted entries whose indices are the casts of their positions: no cast wrapped. -/
theorem length_le_of_casts {es : List (EmbedData S)} (hordered : (indices es).Pairwise (· ≤ ·))
    (h : es.map EmbedData.index = (List.range es.length).map intOfSize) :
    es.length ≤ 2 ^ 31 := by
  by_contra hlt
  have hlen : (indices es).length = es.length := by simp [indices]
  have hat : ∀ i (hi : i < (indices es).length), (indices es)[i] = (intOfSize i).toInt := by
    intro i hi
    have hi' : i < es.length := hlen ▸ hi
    have hget : es[i].index = intOfSize i := by
      have := congrArg (fun l => l[i]?) h
      simpa [hi'] using this
    simp [indices, hget]
  have h0 : 0 < (indices es).length := by omega
  have hbig : 2 ^ 31 < (indices es).length := by omega
  have hle := List.pairwise_iff_getElem.mp hordered 0 (2 ^ 31) h0 hbig (by decide)
  rw [hat 0 h0, hat (2 ^ 31) hbig] at hle
  exact absurd hle (by decide)

theorem casts_iff (hsort : SortsByIndex sort) :
    (sort data).map EmbedData.index = (List.range data.length).map intOfSize ↔
      (indices data).Perm (positions data.length) := by
  refine Iff.trans ?_ (hsort.keys_eq_iff (positions_ordered data.length))
  constructor
  · intro h
    have hle : data.length ≤ 2 ^ 31 := by
      rw [← hsort.length_eq] at h ⊢
      exact length_le_of_casts (hsort.ordered data) h
    have hmap := congrArg (List.map Int32.toInt) h
    rw [List.map_map, List.map_map] at hmap
    refine hmap.trans (List.map_congr_left fun i hi => ?_)
    exact Int32.toInt_ofNat_of_lt (by have := List.mem_range.mp hi; omega)
  · intro h
    apply List.ext_getElem?
    intro i
    have hi := congrArg (fun l => l[i]?) h
    simp only [positions, List.getElem?_map] at hi ⊢
    cases hs : (sort data)[i]? with
    | none =>
      rw [hs] at hi
      cases hr : (List.range data.length)[i]? with
      | none => rfl
      | some k => simp [hr] at hi
    | some e =>
      cases hr : (List.range data.length)[i]? with
      | none => simp [hs, hr] at hi
      | some k =>
        have hk : e.index.toInt = k := by simpa [hs, hr] using hi
        have hlt : k < 2 ^ 31 := by
          have := e.index.toInt_lt
          omega
        have hcast : e.index = intOfSize k := by
          rw [← Int32.toInt_inj, hk, intOfSize, Int32.toInt_ofNat_of_lt hlt]
        simp [hcast]

/-- What `do_embed` accepts of what it read, and what it makes of it. -/
theorem embeddingsOf_ok (hsort : SortsByIndex sort) :
    embeddingsOf sort dims texts data = .ok vectors ↔
      (indices data).Perm (positions texts.length) ∧
        (∀ e ∈ data, intOfSize e.embedding.length = dims) ∧
        vectors = (sort data).map EmbedData.embedding := by
  have hcheck : checkEntries dims data.length 0 (sort data) = .ok () ↔
      (indices data).Perm (positions data.length) ∧
        ∀ e ∈ data, intOfSize e.embedding.length = dims := by
    rw [checkEntries_ok, hsort.length_eq, ← List.range_eq_range', casts_iff hsort]
    simp only [hsort.mem_iff]
  rw [embeddingsOf, rejectIf_bind_ok, bind_ok, not_not]
  constructor
  · rintro ⟨hlen, u, hok, hvec⟩
    obtain ⟨hperm, hdims⟩ := hcheck.mp hok
    exact ⟨hlen ▸ hperm, hdims, (Except.ok.inj hvec).symm⟩
  · rintro ⟨hperm, hdims, rfl⟩
    have hlen : data.length = texts.length := by
      simpa [indices, positions] using hperm.length_eq
    exact ⟨hlen, (), hcheck.mpr ⟨hlen ▸ hperm, hdims⟩, rfl⟩

/-- Only a response that was read gives embeddings. -/
theorem doEmbed_ok {reply : EmbedReply S} : doEmbed sort dims texts reply = .ok vectors ↔
    ∃ body, reply = .json body ∧ ¬body.HasOtherKeys ∧
      embeddingsOf sort dims texts (body.entries.map EmbedEntry.read) = .ok vectors := by
  constructor
  · intro h
    cases reply with
    | json body =>
      refine ⟨body, rfl, ?_⟩
      by_cases hkeys : body.HasOtherKeys
      · rw [doEmbed, EmbedBody.readJson, if_pos hkeys] at h
        cases h
      · rw [doEmbed, EmbedBody.readJson, if_neg hkeys] at h
        exact ⟨hkeys, h⟩
    | _ => cases h
  · rintro ⟨body, rfl, hkeys, h⟩
    rw [doEmbed, EmbedBody.readJson, if_neg hkeys]
    exact h

/-- The entry at a place of the sorted response is the only one that claims this index. -/
theorem sorted_entry (hsort : SortsByIndex sort) {n : Nat}
    (hperm : (indices data).Perm (positions n)) {j : Nat} {e : EmbedData S}
    (he : (sort data)[j]? = some e) :
    e ∈ data ∧ e.index.toInt = j ∧ ∀ e' ∈ data, e'.index = e.index → e' = e := by
  have hmem : e ∈ data := hsort.mem_iff.mp (List.mem_of_getElem? he)
  have hindex : e.index.toInt = j := by
    have hkeys := (hsort.keys_eq_iff (positions_ordered n)).mpr hperm
    have hj := congrArg (fun l => l[j]?) hkeys
    simp only [List.getElem?_map, he, Option.map_some] at hj
    exact eq_of_positions hj.symm
  refine ⟨hmem, hindex, fun e' he' heq => ?_⟩
  have hnodup : (indices data).Nodup := hperm.nodup_iff.mpr (positions_nodup n)
  exact List.inj_on_of_nodup_map hnodup he' hmem (congrArg Int32.toInt heq)

/-- The order of the entries in the response does not count. -/
theorem embeddingsOf_reordered (hsort : SortsByIndex sort) {data' : List (EmbedData S)}
    (hperm : data.Perm data') (h : embeddingsOf sort dims texts data = .ok vectors) :
    embeddingsOf sort dims texts data' = .ok vectors := by
  obtain ⟨hindices, hdims, rfl⟩ := (embeddingsOf_ok hsort).mp h
  have hnodup : (indices data).Nodup := hindices.nodup_iff.mpr (positions_nodup _)
  refine (embeddingsOf_ok hsort).mpr ⟨?_, fun e he => hdims e (hperm.mem_iff.mpr he), ?_⟩
  · exact ((hperm.map _).symm).trans hindices
  · rw [hsort.eq_of_perm hperm hnodup]

/-! ### The response as it came -/

section Body

variable {body : EmbedBody S}

/-- The indices of the entries are the places of `n` texts, and each entry has a vector of `dims`
numbers. -/
structure EmbedBody.Right (dims : Int32) (n : Nat) (body : EmbedBody S) : Prop where
  indices : (body.entries.map fun e => e.index.map Int32.toInt).Perm ((positions n).map some)
  vectors : ∀ e ∈ body.entries, ∃ v, e.embedding = some v ∧ (v.length : Int) = dims.toInt

/-- The same of the entries as they are read, with the lengths modulo 2³². -/
def Fits (dims : Int32) (n : Nat) (data : List (EmbedData S)) : Prop :=
  (indices data).Perm (positions n) ∧
    ∀ e ∈ data, (e.embedding.length : Int) % 2 ^ 32 = dims.toInt % 2 ^ 32

/-- The response is accepted exactly when it is right. -/
def AcceptsExactly (sort : List (EmbedData S) → List (EmbedData S)) (dims : Int32)
    (texts : List Bytes) (body : EmbedBody S) : Prop :=
  (∃ vectors, doEmbed sort dims texts (.json body) = .ok vectors) ↔ body.Right dims texts.length

/-- A right response with a key that the structs do not name. -/
def UnknownKey (dims : Int32) (texts : List Bytes) (body : EmbedBody S) : Prop :=
  body.Right dims texts.length ∧ body.HasOtherKeys

/-- All is right as it is read, but an entry has no index or no vector, or one whose length is some
multiple of 2³² off. -/
def TakenForRight (dims : Int32) (texts : List Bytes) (body : EmbedBody S) : Prop :=
  ¬body.HasOtherKeys ∧ Fits dims texts.length (body.entries.map EmbedEntry.read) ∧
    ∃ e ∈ body.entries, e.index = none ∨ e.embedding = none ∨
      ∃ v, e.embedding = some v ∧ (v.length : Int) ≠ dims.toInt

theorem doEmbed_json_ok (hsort : SortsByIndex sort) :
    (∃ vectors, doEmbed sort dims texts (.json body) = .ok vectors) ↔
      ¬body.HasOtherKeys ∧ Fits dims texts.length (body.entries.map EmbedEntry.read) := by
  have hdata : (∃ vectors, embeddingsOf sort dims texts (body.entries.map EmbedEntry.read) =
      .ok vectors) ↔ Fits dims texts.length (body.entries.map EmbedEntry.read) := by
    simp only [embeddingsOf_ok hsort, intOfSize_eq_iff, exists_and_left, exists_eq, and_true, Fits]
  rw [← hdata]
  constructor
  · rintro ⟨vectors, h⟩
    obtain ⟨body', he, hkeys, hok⟩ := doEmbed_ok.mp h
    cases he
    exact ⟨hkeys, vectors, hok⟩
  · rintro ⟨hkeys, vectors, hok⟩
    exact ⟨vectors, doEmbed_ok.mpr ⟨body, rfl, hkeys, hok⟩⟩

/-- Where every entry has an index, the indices are read as they came. -/
theorem indices_read (h : ∀ e ∈ body.entries, e.index ≠ none) :
    (body.entries.map fun e => e.index.map Int32.toInt) =
      (indices (body.entries.map EmbedEntry.read)).map some := by
  rw [indices, List.map_map, List.map_map]
  refine List.map_congr_left fun e he => ?_
  obtain ⟨i, hi⟩ := Option.ne_none_iff_exists'.mp (h e he)
  simp [EmbedEntry.read, hi]

/-- A right response is read as one that fits. -/
theorem EmbedBody.Right.fits {n : Nat} (h : body.Right dims n) :
    Fits dims n (body.entries.map EmbedEntry.read) := by
  have hindex : ∀ e ∈ body.entries, e.index ≠ none := by
    intro e he hnone
    have hmem : e.index.map Int32.toInt ∈ (positions n).map some :=
      h.indices.mem_iff.mp (List.mem_map.mpr ⟨e, he, rfl⟩)
    rw [hnone] at hmem
    simp at hmem
  refine ⟨?_, fun d hd => ?_⟩
  · have hperm := h.indices
    rw [indices_read hindex] at hperm
    exact (List.map_perm_map_iff (Option.some_injective Int)).mp hperm
  · obtain ⟨e, he, rfl⟩ := List.mem_map.mp hd
    obtain ⟨v, hv, hlen⟩ := h.vectors e he
    rw [EmbedEntry.read, hv, Option.getD_some, hlen]

/-- What is accepted exactly: neither a right response with an unknown key, which is refused, nor one
that is only right as it is read. -/
theorem acceptsExactly_iff (hsort : SortsByIndex sort) : AcceptsExactly sort dims texts body ↔
    ¬UnknownKey dims texts body ∧ ¬TakenForRight dims texts body := by
  rw [AcceptsExactly, doEmbed_json_ok hsort]
  constructor
  · intro hiff
    refine ⟨fun hright => (hiff.mpr hright.1).1 hright.2, ?_⟩
    rintro ⟨hkeys, hfits, e, he, hwrong⟩
    have hright := hiff.mp ⟨hkeys, hfits⟩
    obtain ⟨v, hv, hlen⟩ := hright.vectors e he
    rcases hwrong with hindex | hvector | ⟨w, hw, hne⟩
    · have hmem : e.index.map Int32.toInt ∈ (positions texts.length).map some :=
        hright.indices.mem_iff.mp (List.mem_map.mpr ⟨e, he, rfl⟩)
      rw [hindex] at hmem
      simp at hmem
    · rw [hv] at hvector
      cases hvector
    · rw [hv] at hw
      exact hne (Option.some.inj hw ▸ hlen)
  · rintro ⟨hknown, hexact⟩
    constructor
    · rintro ⟨hkeys, hfits⟩
      have hall : ∀ e ∈ body.entries, e.index ≠ none ∧ e.embedding ≠ none ∧
          ∀ v, e.embedding = some v → (v.length : Int) = dims.toInt := by
        intro e he
        refine ⟨fun hindex => hexact ⟨hkeys, hfits, e, he, .inl hindex⟩,
          fun hvector => hexact ⟨hkeys, hfits, e, he, .inr (.inl hvector)⟩, fun v hv => ?_⟩
        by_contra hne
        exact hexact ⟨hkeys, hfits, e, he, .inr (.inr ⟨v, hv, hne⟩)⟩
      refine ⟨?_, fun e he => ?_⟩
      · rw [indices_read fun e he => (hall e he).1]
        exact hfits.1.map some
      · obtain ⟨v, hv⟩ := Option.ne_none_iff_exists'.mp (hall e he).2.1
        exact ⟨v, hv, (hall e he).2.2 v hv⟩
    · intro hright
      exact ⟨fun hkeys => hknown ⟨hright, hkeys⟩, hright.fits⟩

end Body

end Accepted

end Embedder

end Wikore
