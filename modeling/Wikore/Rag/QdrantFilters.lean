import Wikore.Lib.Json
import Wikore.Lib.Utf8
import Wikore.Rag.PromptBlocks
import Wikore.Schema.Types

/-! The request bodies that the two vector stores write by hand, and what a JSON reader makes of
them.  The chunk store escapes every control character.  The relationship store escapes three of
them. -/

namespace Wikore

open ContextBuilder (Bytes utf8)

/-- How `std::format` writes a component of a vector with `.9g` and a confidence with `.6f`, and
whether a confidence is above `0.0`. -/
structure FloatFormat (F D : Type) where
  general9 : F → String
  fixed6 : D → String
  isPositive : D → Bool

structure QdrantFilter where
  companyId : Bytes
  accessScopeIds : List Bytes
  sensitivityLabels : List Bytes
  lifecycleStatus : Bytes := utf8 "active"
deriving DecidableEq, Repr

/-- A comma before every element but the first. -/
def commaSeparated : List Bytes → Bytes
  | [] => []
  | [x] => x
  | x :: y :: xs => x ++ utf8 "," ++ commaSeparated (y :: xs)

/-- `vec_json`. -/
def vectorJson {F D : Type} (fmt : FloatFormat F D) (query : List F) : Bytes :=
  utf8 "[" ++ commaSeparated (query.map fun x => utf8 (fmt.general9 x)) ++ utf8 "]"

/-- An array of strings, each of them escaped. -/
def stringArray (jsonEscape : Bytes → Bytes) (xs : List Bytes) : Bytes :=
  utf8 "[" ++ commaSeparated (xs.map fun x => utf8 "\"" ++ jsonEscape x ++ utf8 "\"") ++ utf8 "]"

namespace QdrantVectorStore

def escapeByte (c : UInt8) : Bytes :=
  if c = 34 then utf8 "\\\""
  else if c = 92 then utf8 "\\\\"
  else if c = 8 then utf8 "\\b"
  else if c = 12 then utf8 "\\f"
  else if c = 10 then utf8 "\\n"
  else if c = 13 then utf8 "\\r"
  else if c = 9 then utf8 "\\t"
  else if c < 0x20 then
    utf8 (String.ofList ['\\', 'u', '0', '0', hexDigit (c.toNat / 16), hexDigit (c.toNat % 16)])
  else [c]

/-- `json_escape` of the chunk store. -/
def jsonEscape (s : Bytes) : Bytes := s.flatMap escapeByte

def buildDeleteBody (companyId versionId : Bytes) : Bytes :=
  utf8 "\x7b\"filter\":\x7b\"must\":[" ++
    utf8 "\x7b\"key\":\"company_id\",\"match\":\x7b\"value\":\"" ++ jsonEscape companyId ++
    utf8 "\"\x7d\x7d," ++
    utf8 "\x7b\"key\":\"document_version_id\",\"match\":\x7b\"value\":\"" ++ jsonEscape versionId ++
    utf8 "\"\x7d\x7d" ++ utf8 "]\x7d\x7d"

def buildSearchBody {F D : Type} (fmt : FloatFormat F D) (query : List F) (filter : QdrantFilter)
    (limit : Int) : Bytes :=
  utf8 "\x7b\"vector\":" ++ vectorJson fmt query ++ utf8 ",\"limit\":" ++ utf8 (toString limit) ++
    utf8 ",\"with_payload\":true," ++ utf8 "\"filter\":\x7b\"must\":[" ++
    utf8 "\x7b\"key\":\"company_id\",\"match\":\x7b\"value\":\"" ++ jsonEscape filter.companyId ++
    utf8 "\"\x7d\x7d," ++
    utf8 "\x7b\"key\":\"access_scope_ids\",\"match\":\x7b\"any\":" ++
    stringArray jsonEscape filter.accessScopeIds ++ utf8 "\x7d\x7d," ++
    utf8 "\x7b\"key\":\"sensitivity_label\",\"match\":\x7b\"any\":" ++
    stringArray jsonEscape filter.sensitivityLabels ++ utf8 "\x7d\x7d," ++
    utf8 "\x7b\"key\":\"lifecycle_status\",\"match\":\x7b\"value\":\"" ++
    jsonEscape filter.lifecycleStatus ++ utf8 "\"\x7d\x7d" ++ utf8 "]\x7d\x7d"

end QdrantVectorStore

namespace QdrantRelationshipVectorStore

def escapeByte (c : UInt8) : Bytes :=
  if c = 34 then utf8 "\\\""
  else if c = 92 then utf8 "\\\\"
  else if c = 10 then utf8 "\\n"
  else if c = 13 then utf8 "\\r"
  else if c = 9 then utf8 "\\t"
  else [c]

/-- `json_escape` of the relationship store. -/
def jsonEscape (s : Bytes) : Bytes := s.flatMap escapeByte

/-- The body that `search` posts, or none when it returns before it asks. -/
def searchBody {F D : Type} (fmt : FloatFormat F D) (companyId : Bytes) (query : List F)
    (allowedReviewStates : List Bytes) (minConfidence : D) (limit : Int) : Option Bytes :=
  if allowedReviewStates = [] ∨ limit ≤ 0 then none
  else
    let filter := utf8 "\x7b\"must\":[" ++
      utf8 "\x7b\"key\":\"company_id\",\"match\":\x7b\"value\":\"" ++ jsonEscape companyId ++
      utf8 "\"\x7d\x7d," ++
      utf8 "\x7b\"key\":\"review_state\",\"match\":\x7b\"any\":" ++
      stringArray jsonEscape allowedReviewStates ++ utf8 "\x7d\x7d"
    let filter :=
      if fmt.isPositive minConfidence then
        filter ++ utf8 ",\x7b\"key\":\"confidence\",\"range\":\x7b\"gte\":" ++
          utf8 (fmt.fixed6 minConfidence) ++ utf8 "\x7d\x7d"
      else filter
    let filter := filter ++ utf8 "]\x7d"
    some (utf8 "\x7b\"vector\":" ++ vectorJson fmt query ++ utf8 ",\"filter\":" ++ filter ++
      utf8 ",\"limit\":" ++ utf8 (toString limit) ++
      utf8 ",\"with_payload\":true,\"with_vector\":false\x7d")

end QdrantRelationshipVectorStore

/-! ### What the bodies should say -/

/-- A condition of a filter. -/
inductive MustCondition
  | value (key value : String)
  | any (key : String) (values : List String)
  | atLeast (key bound : String)
deriving DecidableEq, Repr

def MustCondition.toJson : MustCondition → Json
  | .value key v => .object [("key", .string key), ("match", .object [("value", .string v)])]
  | .any key vs =>
    .object [("key", .string key), ("match", .object [("any", .array (vs.map .string))])]
  | .atLeast key bound =>
    .object [("key", .string key), ("range", .object [("gte", .number bound)])]

def filterJson (must : List MustCondition) : Json :=
  .object [("must", .array (must.map MustCondition.toJson))]

def deleteRequest (company version : String) : Json :=
  .object [("filter", filterJson [.value "company_id" company, .value "document_version_id" version])]

section Requests

variable {F D : Type} (fmt : FloatFormat F D) (query : List F) (limit : Int)

def searchRequest (company : String) (scopes labels : List String) (lifecycle : String) : Json :=
  .object [("vector", .array (query.map fun x => .number (fmt.general9 x))),
    ("limit", .number (toString limit)), ("with_payload", .bool true),
    ("filter", filterJson [.value "company_id" company, .any "access_scope_ids" scopes,
      .any "sensitivity_label" labels, .value "lifecycle_status" lifecycle])]

def edgeRequest (company : String) (states : List String) (minConfidence : D) : Json :=
  .object [("vector", .array (query.map fun x => .number (fmt.general9 x))),
    ("filter", filterJson ([.value "company_id" company, .any "review_state" states] ++
      if fmt.isPositive minConfidence then [.atLeast "confidence" (fmt.fixed6 minConfidence)]
      else [])),
    ("limit", .number (toString limit)), ("with_payload", .bool true),
    ("with_vector", .bool false)]

end Requests

/-- The text has no control character but tabs and line ends. -/
def PlainText (s : String) : Prop := ∀ c ∈ s.toList, c.toNat < 0x20 → Json.isSpace c = true

instance (s : String) : Decidable (PlainText s) :=
  List.decidableBAll (fun c : Char => c.toNat < 0x20 → Json.isSpace c = true) s.toList

/-! ### The two ways of escaping -/

section Escapes

open Utf8 (onChar)

/-- The bytes that JSON does not leave as they are between quotation marks. -/
def specialBytes : List Nat := 34 :: 92 :: List.range 0x20

/-- A property of the bytes, checked for the special ones and shown for the rest. -/
theorem forall_byte {P : UInt8 → Prop} (hspecial : ∀ n ∈ specialBytes, P (UInt8.ofNat n))
    (hplain : ∀ b, 0x20 ≤ b → b ≠ 34 → b ≠ 92 → P b) (b : UInt8) : P b := by
  by_cases hmem : b.toNat ∈ specialBytes
  · have hb := hspecial b.toNat hmem
    rwa [UInt8.ofNat_toNat] at hb
  · simp only [specialBytes, List.mem_cons, List.mem_range, not_or] at hmem
    obtain ⟨h34, h92, hlarge⟩ := hmem
    refine hplain b (UInt8.le_iff_toNat_le.mpr (Nat.le_of_not_lt hlarge)) ?_ ?_
    · rintro rfl
      exact h34 rfl
    · rintro rfl
      exact h92 rfl

/-- The characters that are written as a backslash and a letter. -/
def shortEscapes : List (Char × Char) :=
  [('"', '"'), ('\\', '\\'), ('\n', 'n'), ('\r', 'r'), ('\t', 't')]

/-- The function writes these characters as a backslash and a letter, and leaves what is not
special. -/
structure Backslashes (f : UInt8 → Bytes) (short : List (Char × Char)) : Prop where
  ascii : ∀ n ∈ specialBytes, (f (UInt8.ofNat n)).all (· < 128) = true
  plain : ∀ b, 0x20 ≤ b → b ≠ 34 → b ≠ 92 → f b = [b]
  escaped : ∀ p ∈ short, onChar f p.1 = ['\\', p.2]
  letter : ∀ p ∈ short, p.2 ≠ 'u' ∧ Json.simpleEscapes.lookup p.2 = some p.1

/-- A byte from a space on is no control character. -/
theorem ne_of_printable {b k : UInt8} (hb : 0x20 ≤ b) (hk : k < 0x20) : b ≠ k := by
  rintro rfl
  exact absurd hk (UInt8.not_lt.mpr hb)

theorem chunkStore_backslashes :
    Backslashes QdrantVectorStore.escapeByte (('\x08', 'b') :: ('\x0c', 'f') :: shortEscapes) where
  ascii := by decide
  plain b hb hquote hback := by
    have hne := fun k => ne_of_printable (k := k) hb
    rw [QdrantVectorStore.escapeByte, if_neg hquote, if_neg hback, if_neg (hne 8 (by decide)),
      if_neg (hne 12 (by decide)), if_neg (hne 10 (by decide)), if_neg (hne 13 (by decide)),
      if_neg (hne 9 (by decide)), if_neg (UInt8.not_lt.mpr hb)]
  escaped := by decide
  letter := by decide

theorem edgeStore_backslashes :
    Backslashes QdrantRelationshipVectorStore.escapeByte shortEscapes where
  ascii := by decide
  plain b hb hquote hback := by
    have hne := fun k => ne_of_printable (k := k) hb
    rw [QdrantRelationshipVectorStore.escapeByte, if_neg hquote, if_neg hback,
      if_neg (hne 10 (by decide)), if_neg (hne 13 (by decide)), if_neg (hne 9 (by decide))]
  escaped := by decide
  letter := by decide

section Backslashes

variable {f : UInt8 → Bytes} {short : List (Char × Char)}

theorem Backslashes.rewrites (hf : Backslashes f short) : Utf8.RewritesAscii f where
  ascii := by
    have hall : ∀ b, b < 128 → (f b).all (· < 128) = true := by
      refine forall_byte (fun n hn _ => hf.ascii n hn) fun b hb hquote hback hlt => ?_
      rw [hf.plain b hb hquote hback, List.all_cons, List.all_nil, Bool.and_true]
      exact decide_eq_true hlt
    exact fun b hb x hx => of_decide_eq_true (List.all_eq_true.mp (hall b hb) x hx)
  wide b hb := by
    have hle : 128 ≤ b.toNat := UInt8.le_iff_toNat_le.mp hb
    refine hf.plain b (UInt8.le_iff_toNat_le.mpr (Nat.le_trans (by decide) hle)) ?_ ?_
    · rintro rfl
      exact absurd hle (by decide)
    · rintro rfl
      exact absurd hle (by decide)

theorem Backslashes.escapes_short (hf : Backslashes f short) {p : Char × Char} (hp : p ∈ short) :
    Json.Escapes (onChar f) p.1 := by
  refine Json.escapes_sequence (hf.escaped p hp) fun rest => ?_
  obtain ⟨hletter, hread⟩ := hf.letter p hp
  rw [List.singleton_append, Json.escapeSequence, if_neg hletter, hread, Option.map_some]

end Backslashes

/-- A byte that the function leaves is left as a character. -/
theorem onChar_of_eq {f : UInt8 → Bytes} {c : Char}
    (h : c.toNat < 128 → f (UInt8.ofNat c.toNat) = [UInt8.ofNat c.toNat]) : onChar f c = [c] := by
  unfold onChar
  split
  next hc =>
    have hb : UInt8.ofNat c.toNat < 128 := by
      rw [UInt8.lt_iff_toNat_lt, UInt8.toNat_ofNat_of_lt' (Nat.lt_trans hc (by decide))]
      exact hc
    rw [h hc, List.map_singleton, List.singleton_inj]
    apply Char.toNat_inj.mp
    rw [Utf8.toNat_ofByte hb, UInt8.toNat_ofNat_of_lt' (Nat.lt_trans hc (by decide))]
  next => rfl

/-- The code point of a character below 128 decides what becomes of it. -/
theorem onChar_ofNat {f : UInt8 → Bytes} {c : Char} (hc : c.toNat < 128) :
    c = Char.ofNat c.toNat ∧ onChar f c = (f (UInt8.ofNat c.toNat)).map Utf8.ofByte :=
  ⟨(Char.ofNat_toNat c).symm, if_pos hc⟩

theorem codeUnit_hexDigit {n : Nat} (hn : n < 0x20) (rest : List Char) :
    Json.codeUnit ('0' :: '0' :: hexDigit (n / 16) :: hexDigit (n % 16) :: rest) =
      some (n, rest) := by
  have hhex : ∀ k < 16, Json.hexValue (hexDigit k) = some k := by decide
  have hzero : Json.hexValue '0' = some 0 := by decide
  simp only [Json.codeUnit, hzero, hhex (n / 16) (by omega), hhex (n % 16) (Nat.mod_lt _ (by omega)),
    Option.bind_eq_bind, Option.bind_some, Option.some.injEq, Prod.mk.injEq, and_true]
  omega

/-- A control character in its hexadecimal form. -/
theorem escapes_hex {f : UInt8 → Bytes} {c : Char} (hc : c.toNat < 0x20)
    (hf : (f (UInt8.ofNat c.toNat)).map Utf8.ofByte =
      ['\\', 'u', '0', '0', hexDigit (c.toNat / 16), hexDigit (c.toNat % 16)]) :
    Json.Escapes (onChar f) c := by
  obtain ⟨hchar, hon⟩ := onChar_ofNat (f := f) (Nat.lt_trans hc (by decide))
  refine Json.escapes_sequence (hon.trans hf) fun rest => ?_
  have hcode := codeUnit_hexDigit hc rest
  simp only [List.cons_append, List.nil_append, Json.escapeSequence, if_true, Json.unicodeEscape,
    hcode, Option.bind_eq_bind, Option.bind_some]
  rw [if_pos (.inl (by omega)), ← hchar]

/-- A character that needs no escape. -/
theorem Backslashes.escapes_plain {f : UInt8 → Bytes} {short : List (Char × Char)}
    (hf : Backslashes f short) {c : Char} (hc : ¬c.toNat < 0x20) (hquote : c ≠ '"')
    (hback : c ≠ '\\') : Json.Escapes (onChar f) c := by
  refine Json.escapes_self (onChar_of_eq fun hlt => ?_) hquote hback hc
  have hnat : (UInt8.ofNat c.toNat).toNat = c.toNat :=
    UInt8.toNat_ofNat_of_lt' (Nat.lt_trans hlt (by decide))
  refine hf.plain _ (UInt8.le_iff_toNat_le.mpr ?_) (fun h => hquote ?_) fun h => hback ?_
  · rw [hnat]
    exact Nat.le_of_not_lt hc
  · exact Char.toNat_inj.mp (hnat.symm.trans (congrArg UInt8.toNat h))
  · exact Char.toNat_inj.mp (hnat.symm.trans (congrArg UInt8.toNat h))

theorem chunkStore_escapes (c : Char) : Json.Escapes (onChar QdrantVectorStore.escapeByte) c := by
  have hhex : ∀ n < 0x20, n ∉ [8, 9, 10, 12, 13] →
      (QdrantVectorStore.escapeByte (UInt8.ofNat n)).map Utf8.ofByte =
        ['\\', 'u', '0', '0', hexDigit (n / 16), hexDigit (n % 16)] := by
    decide
  by_cases hshort : c ∈ (('\x08', 'b') :: ('\x0c', 'f') :: shortEscapes).map Prod.fst
  · obtain ⟨p, hp, rfl⟩ := List.mem_map.mp hshort
    exact chunkStore_backslashes.escapes_short hp
  · by_cases hc : c.toNat < 0x20
    · refine escapes_hex hc (hhex c.toNat hc fun hmem => hshort ?_)
      have hback : ∀ n ∈ [8, 9, 10, 12, 13],
          Char.ofNat n ∈ (('\x08', 'b') :: ('\x0c', 'f') :: shortEscapes).map Prod.fst := by
        decide
      have hchar := hback c.toNat hmem
      rwa [Char.ofNat_toNat] at hchar
    · refine chunkStore_backslashes.escapes_plain hc ?_ ?_
      · rintro rfl
        exact hshort (by decide)
      · rintro rfl
        exact hshort (by decide)

/-- The relationship store leaves the control characters that are no space as they are. -/
theorem edgeStore_control {c : Char} (hc : c.toNat < 0x20) (hspace : Json.isSpace c = false) :
    onChar QdrantRelationshipVectorStore.escapeByte c = [c] := by
  have hall : ∀ n < 0x20, Json.isSpace (Char.ofNat n) = false →
      QdrantRelationshipVectorStore.escapeByte (UInt8.ofNat n) = [UInt8.ofNat n] := by
    decide
  exact onChar_of_eq fun _ => hall c.toNat hc (by rwa [Char.ofNat_toNat])

theorem edgeStore_escapes {c : Char} (hc : c.toNat < 0x20 → Json.isSpace c = true) :
    Json.Escapes (onChar QdrantRelationshipVectorStore.escapeByte) c := by
  by_cases hshort : c ∈ shortEscapes.map Prod.fst
  · obtain ⟨p, hp, rfl⟩ := List.mem_map.mp hshort
    exact edgeStore_backslashes.escapes_short hp
  · have hlarge : ¬c.toNat < 0x20 := by
      intro hlt
      have hspace := hc hlt
      simp only [Json.isSpace, Bool.or_eq_true, decide_eq_true_eq] at hspace
      rcases hspace with ((rfl | rfl) | rfl) | rfl
      · exact absurd hlt (by decide)
      · exact hshort (by decide)
      · exact hshort (by decide)
      · exact hshort (by decide)
    refine edgeStore_backslashes.escapes_plain hlarge ?_ ?_
    · rintro rfl
      exact hshort (by decide)
    · rintro rfl
      exact hshort (by decide)

end Escapes

/-- The two functions agree where no control character is left as it is. -/
theorem jsonEscape_eq_iff (s : Bytes) :
    QdrantVectorStore.jsonEscape s = QdrantRelationshipVectorStore.jsonEscape s ↔
      ∀ c ∈ s, c < 0x20 → c = 9 ∨ c = 10 ∨ c = 13 := by
  have hsame : ∀ c, (c < 0x20 → c = 9 ∨ c = 10 ∨ c = 13) →
      QdrantVectorStore.escapeByte c = QdrantRelationshipVectorStore.escapeByte c := by
    refine forall_byte (by decide) fun c hc hquote hback _ => ?_
    rw [chunkStore_backslashes.plain c hc hquote hback,
      edgeStore_backslashes.plain c hc hquote hback]
  have hleft : ∀ c, c < 0x20 → ¬(c = 9 ∨ c = 10 ∨ c = 13) →
      QdrantRelationshipVectorStore.escapeByte c = [c] :=
    forall_byte (by decide) fun c hc hquote hback _ _ =>
      edgeStore_backslashes.plain c hc hquote hback
  have hprintable : ∀ c, (QdrantVectorStore.escapeByte c).all (0x20 ≤ ·) = true := by
    refine forall_byte (by decide) fun c hc hquote hback => ?_
    rw [chunkStore_backslashes.plain c hc hquote hback, List.all_cons, List.all_nil, Bool.and_true]
    exact decide_eq_true hc
  constructor
  · intro heq c hc hlt
    by_contra hbad
    have hmem : c ∈ QdrantRelationshipVectorStore.jsonEscape s :=
      List.mem_flatMap.mpr ⟨c, hc, by rw [hleft c hlt hbad]; exact List.mem_singleton_self c⟩
    rw [← heq] at hmem
    obtain ⟨d, -, hd⟩ := List.mem_flatMap.mp hmem
    have hle := of_decide_eq_true (List.all_eq_true.mp (hprintable d) c hd)
    exact absurd hlt (UInt8.not_lt.mpr hle)
  · intro hall
    exact List.flatMap_congr fun c hc => hsame c (hall c hc)

/-! ### The texts of the bodies -/

section Bodies

open Utf8 (encodeChars onChar)

variable {esc : Char → List Char} {jsonEscape : Bytes → Bytes}

theorem utf8_eq (s : String) : utf8 s = encodeChars s.toList := Utf8.encode_eq s

/-- The function escapes the characters of a string one by one. -/
def EscapesBy (jsonEscape : Bytes → Bytes) (esc : Char → List Char) : Prop :=
  ∀ s : String, jsonEscape (utf8 s) = encodeChars (s.toList.flatMap esc)

theorem chunkStore_escapesBy :
    EscapesBy QdrantVectorStore.jsonEscape (onChar QdrantVectorStore.escapeByte) := fun s => by
  rw [utf8_eq, QdrantVectorStore.jsonEscape, Utf8.flatMap_encodeChars chunkStore_backslashes.rewrites]

theorem edgeStore_escapesBy : EscapesBy QdrantRelationshipVectorStore.jsonEscape
    (onChar QdrantRelationshipVectorStore.escapeByte) := fun s => by
  rw [utf8_eq, QdrantRelationshipVectorStore.jsonEscape,
    Utf8.flatMap_encodeChars edgeStore_backslashes.rewrites]

/-- Elements with commas between them, up to the closing bracket. -/
theorem commaSeparated_render {α : Type} {f : α → Bytes} {g : α → Json}
    (h : ∀ x, f x = encodeChars (Json.render esc (g x))) (xs : List α) :
    commaSeparated (xs.map f) ++ utf8 "]" = encodeChars (Json.renderElements esc (xs.map g)) := by
  induction xs with
  | nil => rfl
  | cons x xs ih =>
    cases xs with
    | nil =>
      simp only [List.map_cons, List.map_nil, commaSeparated, Json.renderElements,
        Utf8.encodeChars_append, h x]
      rfl
    | cons y ys =>
      simp only [List.map_cons, commaSeparated, List.append_assoc] at ih ⊢
      rw [ih, h x, Json.renderElements, Utf8.encodeChars_append, Utf8.encodeChars_cons]
      rfl

theorem quoted_render (h : EscapesBy jsonEscape esc) (s : String) :
    utf8 "\"" ++ jsonEscape (utf8 s) ++ utf8 "\"" =
      encodeChars (Json.render esc (.string s)) := by
  rw [h s, Json.render, Json.quoted, Utf8.encodeChars_cons, Utf8.encodeChars_append,
    List.append_assoc]
  rfl

theorem stringArray_render (h : EscapesBy jsonEscape esc) (xs : List String) :
    stringArray jsonEscape (xs.map utf8) =
      encodeChars (Json.render esc (.array (xs.map .string))) := by
  have helements := commaSeparated_render (quoted_render h) xs
  have hmap : (xs.map utf8).map (fun x => utf8 "\"" ++ jsonEscape x ++ utf8 "\"") =
    xs.map fun s => utf8 "\"" ++ jsonEscape (utf8 s) ++ utf8 "\"" := List.map_map
  rw [stringArray, hmap, List.append_assoc, helements, Json.render, Utf8.encodeChars_cons]
  rfl

theorem vectorJson_render {F D : Type} (fmt : FloatFormat F D) (query : List F) :
    vectorJson fmt query = encodeChars
      (Json.render esc (.array (query.map fun x => .number (fmt.general9 x)))) := by
  have hnumber : ∀ x, utf8 (fmt.general9 x) =
    encodeChars (Json.render esc (.number (fmt.general9 x))) := fun x => utf8_eq _
  rw [vectorJson, List.append_assoc, commaSeparated_render hnumber, Json.render,
    Utf8.encodeChars_cons]
  rfl

theorem buildDeleteBody_render (company version : String) :
    QdrantVectorStore.buildDeleteBody (utf8 company) (utf8 version) =
      encodeChars (Json.render (onChar QdrantVectorStore.escapeByte)
        (deleteRequest company version)) := by
  rw [QdrantVectorStore.buildDeleteBody, chunkStore_escapesBy company,
    chunkStore_escapesBy version]
  simp only [utf8_eq, ← Utf8.encodeChars_append]
  apply congrArg encodeChars
  simp only [deleteRequest, filterJson, MustCondition.toJson, List.map_cons, List.map_nil,
    Json.render, Json.renderMembers, Json.renderElements, Json.quoted, List.append_assoc,
    List.cons_append, List.nil_append]
  rfl

/-- A filter whose texts are strings. -/
def QdrantFilter.ofStrings (company : String) (scopes labels : List String) (lifecycle : String) :
    QdrantFilter :=
  ⟨utf8 company, scopes.map utf8, labels.map utf8, utf8 lifecycle⟩

set_option maxRecDepth 2000 in
theorem buildSearchBody_render {F D : Type} (fmt : FloatFormat F D) (query : List F) (limit : Int)
    (company : String) (scopes labels : List String) (lifecycle : String) :
    QdrantVectorStore.buildSearchBody fmt query (.ofStrings company scopes labels lifecycle) limit =
      encodeChars (Json.render (onChar QdrantVectorStore.escapeByte)
        (searchRequest fmt query limit company scopes labels lifecycle)) := by
  unfold QdrantVectorStore.buildSearchBody QdrantFilter.ofStrings
  dsimp only
  rw [chunkStore_escapesBy company, chunkStore_escapesBy lifecycle,
    stringArray_render chunkStore_escapesBy scopes, stringArray_render chunkStore_escapesBy labels,
    vectorJson_render]
  simp only [utf8_eq, ← Utf8.encodeChars_append]
  apply congrArg encodeChars
  simp only [searchRequest, filterJson, MustCondition.toJson, List.map_cons, List.map_nil,
    Json.render, Json.renderMembers, Json.renderElements, Json.quoted, List.append_assoc,
    List.cons_append, List.nil_append]
  rfl

set_option maxRecDepth 2000 in
theorem searchBody_render {F D : Type} (fmt : FloatFormat F D) (query : List F) (limit : Int)
    (company : String) (states : List String) (minConfidence : D) (hstates : states ≠ [])
    (hlimit : 0 < limit) :
    QdrantRelationshipVectorStore.searchBody fmt (utf8 company) query (states.map utf8)
        minConfidence limit =
      some (encodeChars (Json.render (onChar QdrantRelationshipVectorStore.escapeByte)
        (edgeRequest fmt query limit company states minConfidence))) := by
  have hopen : ¬(states.map utf8 = [] ∨ limit ≤ 0) := by
    rintro (h | h)
    · exact hstates (List.map_eq_nil_iff.mp h)
    · omega
  unfold QdrantRelationshipVectorStore.searchBody
  rw [if_neg hopen]
  simp only [edgeStore_escapesBy company, stringArray_render edgeStore_escapesBy states]
  rw [vectorJson_render]
  cases hpos : fmt.isPositive minConfidence
  · simp only [utf8_eq, ← Utf8.encodeChars_append, Bool.false_eq_true, if_false, Option.some_inj]
    apply congrArg encodeChars
    simp only [edgeRequest, hpos, filterJson, MustCondition.toJson, List.map_cons, List.map_nil,
      Json.render, Json.renderMembers, Json.renderElements, Json.quoted, List.append_assoc,
      List.cons_append, List.nil_append, Bool.false_eq_true, if_false]
    rfl
  · simp only [utf8_eq, ← Utf8.encodeChars_append, if_true, Option.some_inj]
    apply congrArg encodeChars
    simp only [edgeRequest, hpos, filterJson, MustCondition.toJson, List.map_cons, List.map_nil,
      Json.render, Json.renderMembers, Json.renderElements, Json.quoted, List.append_assoc,
      List.cons_append, List.nil_append, if_true]
    rfl

/-! ### What the bodies are read as -/

theorem ofBytes_render {v : Json} (h : Json.Readable esc v.strings v.numbers) :
    Json.ofBytes (encodeChars (Json.render esc v)) = some v := by
  rw [Json.ofBytes, Utf8.decode_encodeChars, Option.bind_some, Json.parse_render h]

/-- A body that is read has no control character but tabs and line ends. -/
theorem plain_of_ofBytes {cs : List Char} {v : Json} (h : Json.ofBytes (encodeChars cs) = some v) :
    ∀ c ∈ cs, c.toNat < 0x20 → Json.isSpace c = true := by
  rw [Json.ofBytes, Utf8.decode_encodeChars, Option.bind_some] at h
  have hall := Json.parse_no_control h
  rwa [String.toList_ofList] at hall

theorem ofBytes_control {cs : List Char} (h : '\x01' ∈ cs) : Json.ofBytes (encodeChars cs) = none := by
  cases hread : Json.ofBytes (encodeChars cs) with
  | none => rfl
  | some v => exact absurd (plain_of_ofBytes hread _ h (by decide)) (by decide)

theorem elementStrings_map_string (xs : List String) :
    Json.elementStrings (xs.map .string) = xs := by
  induction xs with
  | nil => rfl
  | cons x xs ih => rw [List.map_cons, Json.elementStrings, Json.strings, ih]; rfl

theorem elementNumbers_map_string (xs : List String) :
    Json.elementNumbers (xs.map .string) = [] := by
  induction xs with
  | nil => rfl
  | cons x xs ih => rw [List.map_cons, Json.elementNumbers, Json.numbers, ih]; rfl

theorem elementStrings_map_number {α : Type} (f : α → String) (xs : List α) :
    Json.elementStrings (xs.map fun x => .number (f x)) = [] := by
  induction xs with
  | nil => rfl
  | cons x xs ih => rw [List.map_cons, Json.elementStrings, Json.strings, ih]; rfl

theorem elementNumbers_map_number {α : Type} (f : α → String) (xs : List α) :
    Json.elementNumbers (xs.map fun x => .number (f x)) = xs.map f := by
  induction xs with
  | nil => rfl
  | cons x xs ih => rw [List.map_cons, Json.elementNumbers, Json.numbers, ih]; rfl

section Numbers

variable {F D : Type} (fmt : FloatFormat F D) (query : List F) (limit : Int)

theorem numbers_searchRequest (company : String) (scopes labels : List String)
    (lifecycle : String) :
    (searchRequest fmt query limit company scopes labels lifecycle).numbers =
      query.map fmt.general9 ++ [toString limit] := by
  simp [searchRequest, filterJson, MustCondition.toJson, Json.numbers, Json.memberNumbers,
    Json.elementNumbers, elementNumbers_map_string, elementNumbers_map_number]

theorem numbers_edgeRequest (company : String) (states : List String) (minConfidence : D) :
    (edgeRequest fmt query limit company states minConfidence).numbers =
      query.map fmt.general9 ++ ((if fmt.isPositive minConfidence then
        [fmt.fixed6 minConfidence] else []) ++ [toString limit]) := by
  cases hpos : fmt.isPositive minConfidence <;>
    simp [edgeRequest, hpos, filterJson, MustCondition.toJson, Json.numbers, Json.memberNumbers,
      Json.elementNumbers, elementNumbers_map_string, elementNumbers_map_number]

/-- The texts of the request apart from the company and the states are field names. -/
theorem strings_edgeRequest (company : String) (states : List String) (minConfidence : D) :
    ∀ s ∈ (edgeRequest fmt query limit company states minConfidence).strings,
      s = company ∨ s ∈ states ∨ PlainText s := by
  have hnames : ∀ s ∈ ["vector", "filter", "must", "key", "company_id", "match", "value",
      "review_state", "any", "confidence", "range", "gte", "limit", "with_payload",
      "with_vector"], PlainText s := by
    decide
  intro s hs
  by_contra hbad
  rw [not_or, not_or] at hbad
  obtain ⟨hcompany, hstates, hname⟩ := hbad
  refine hname (hnames s ?_)
  clear hnames hname
  cases hpos : fmt.isPositive minConfidence <;>
    simp [edgeRequest, hpos, filterJson, MustCondition.toJson, Json.strings, Json.memberStrings,
      Json.elementStrings, elementStrings_map_string, elementStrings_map_number, hcompany,
      hstates] at hs ⊢ <;>
    tauto

end Numbers

theorem readable_of_chunkStore {v : Json} (h : ∀ n ∈ v.numbers, Json.IsNumber n) :
    Json.Readable (onChar QdrantVectorStore.escapeByte) v.strings v.numbers :=
  ⟨fun _ _ c _ => chunkStore_escapes c, h⟩

/-- The relationship store writes a value that is read back exactly when its strings are plain. -/
theorem ofBytes_edgeStore_iff {v : Json} (h : ∀ n ∈ v.numbers, Json.IsNumber n) :
    Json.ofBytes (encodeChars (Json.render (onChar QdrantRelationshipVectorStore.escapeByte) v)) =
      some v ↔ ∀ s ∈ v.strings, PlainText s := by
  constructor
  · intro hread s hs c hc hlt
    by_contra hspace
    have hleft := edgeStore_control hlt (Bool.not_eq_true _ ▸ hspace)
    have hmem : c ∈ s.toList.flatMap (onChar QdrantRelationshipVectorStore.escapeByte) :=
      List.mem_flatMap.mpr ⟨c, hc, by rw [hleft]; exact List.mem_singleton_self c⟩
    exact hspace (plain_of_ofBytes hread c (Json.subset_render v hs hmem) hlt)
  · intro hplain
    exact ofBytes_render ⟨fun s hs c hc => edgeStore_escapes (hplain s hs c hc), h⟩

end Bodies

/-- A string between quotation marks. -/
def quotedText (jsonEscape : Bytes → Bytes) (s : Bytes) : Bytes :=
  utf8 "\"" ++ jsonEscape s ++ utf8 "\""

/-- The chunk store's bodies always say what they should.  The two functions agree, and those of the
relationship store are right, exactly where no text has a control character other than a tab or a
line end. -/
theorem filters_read_back_iff {F D : Type} (fmt : FloatFormat F D) (query : List F) (limit : Int)
    (minConfidence : D) (hquery : ∀ x ∈ query, Json.IsNumber (fmt.general9 x))
    (hmin : fmt.isPositive minConfidence = true → Json.IsNumber (fmt.fixed6 minConfidence))
    (bytes : Bytes) (s company version lifecycle : String) (scopes labels states : List String) :
    (QdrantVectorStore.jsonEscape bytes = QdrantRelationshipVectorStore.jsonEscape bytes ↔
      ∀ c ∈ bytes, c < 0x20 → c = 9 ∨ c = 10 ∨ c = 13) ∧
    Json.ofBytes (quotedText QdrantVectorStore.jsonEscape (utf8 s)) = some (.string s) ∧
    (Json.ofBytes (quotedText QdrantRelationshipVectorStore.jsonEscape (utf8 s)) = some (.string s) ↔
      PlainText s) ∧
    Json.ofBytes (QdrantVectorStore.buildDeleteBody (utf8 company) (utf8 version)) =
      some (deleteRequest company version) ∧
    Json.ofBytes (QdrantVectorStore.buildSearchBody fmt query
        (.ofStrings company scopes labels lifecycle) limit) =
      some (searchRequest fmt query limit company scopes labels lifecycle) ∧
    ∀ body ∈ QdrantRelationshipVectorStore.searchBody fmt (utf8 company) query (states.map utf8)
        minConfidence limit,
      (Json.ofBytes body = some (edgeRequest fmt query limit company states minConfidence) ↔
        PlainText company ∧ ∀ state ∈ states, PlainText state) := by
  have hlimit := Json.isNumber_toString limit
  refine ⟨jsonEscape_eq_iff bytes, ?_, ?_, ?_, ?_, ?_⟩
  · rw [quotedText, quoted_render chunkStore_escapesBy]
    exact ofBytes_render (readable_of_chunkStore (by simp [Json.numbers]))
  · rw [quotedText, quoted_render edgeStore_escapesBy,
      ofBytes_edgeStore_iff (by simp [Json.numbers])]
    simp [Json.strings]
  · rw [buildDeleteBody_render]
    exact ofBytes_render (readable_of_chunkStore (by
      simp [deleteRequest, filterJson, MustCondition.toJson, Json.numbers, Json.memberNumbers,
        Json.elementNumbers]))
  · rw [buildSearchBody_render]
    refine ofBytes_render (readable_of_chunkStore ?_)
    rw [numbers_searchRequest]
    intro n hn
    rcases List.mem_append.mp hn with hn | hn
    · obtain ⟨x, hx, rfl⟩ := List.mem_map.mp hn
      exact hquery x hx
    · rw [List.mem_singleton.mp hn]
      exact hlimit
  · intro body hbody
    have hopen : states ≠ [] ∧ 0 < limit := by
      refine ⟨?_, ?_⟩
      · rintro rfl
        simp [QdrantRelationshipVectorStore.searchBody] at hbody
      · by_contra hle
        have hclosed : states.map utf8 = [] ∨ limit ≤ 0 := .inr (Int.not_lt.mp hle)
        rw [QdrantRelationshipVectorStore.searchBody, if_pos hclosed] at hbody
        cases hbody
    rw [searchBody_render fmt query limit company states minConfidence hopen.1 hopen.2] at hbody
    obtain rfl := Option.some.inj hbody
    rw [ofBytes_edgeStore_iff]
    · constructor
      · intro hplain
        refine ⟨hplain company ?_, fun state hstate => hplain state ?_⟩
        · simp [edgeRequest, filterJson, MustCondition.toJson, Json.strings, Json.memberStrings,
            Json.elementStrings]
        · simp [edgeRequest, filterJson, MustCondition.toJson, Json.strings, Json.memberStrings,
            Json.elementStrings, elementStrings_map_string, hstate]
      · rintro ⟨hcompany, hstates⟩ t ht
        rcases strings_edgeRequest fmt query limit company states minConfidence t ht with
          rfl | ht | ht
        · exact hcompany
        · exact hstates t ht
        · exact ht
    · rw [numbers_edgeRequest]
      intro n hn
      rcases List.mem_append.mp hn with hn | hn
      · obtain ⟨x, hx, rfl⟩ := List.mem_map.mp hn
        exact hquery x hx
      rcases List.mem_append.mp hn with hn | hn
      · split at hn
        next hpos =>
          rw [List.mem_singleton.mp hn]
          exact hmin hpos
        next => cases hn
      · rw [List.mem_singleton.mp hn]
        exact hlimit

/-- Whole numbers, as the formats write them. -/
def wholeFormat : FloatFormat Nat Nat where
  general9 n := toString n
  fixed6 n := toString n ++ ".000000"
  isPositive n := 0 < n

/-- A request for accepted edges of a company whose name has a quotation mark and a tab. -/
theorem accepted_edges_read_back :
    ∃ body ∈ QdrantRelationshipVectorStore.searchBody wholeFormat (utf8 "Acme \"HR\"\t") [1, 0]
        [utf8 "accepted"] 1 5,
      Json.ofBytes body =
        some (edgeRequest wholeFormat [1, 0] 5 "Acme \"HR\"\t" ["accepted"] 1) := by
  have hall := (filters_read_back_iff wholeFormat [1, 0] 5 1
    (fun x _ => Json.isNumber_toString (Int.ofNat x)) (by decide) [] "" "Acme \"HR\"\t" ""
    "" [] [] ["accepted"]).2.2.2.2.2
  exact ⟨_, rfl, (hall _ rfl).mpr (by decide)⟩

/-- A control character in the company id is escaped by the chunk store, and makes the body of the
relationship store no JSON text. -/
theorem control_character_unreadable :
    QdrantVectorStore.jsonEscape (utf8 "a\x01") ≠
      QdrantRelationshipVectorStore.jsonEscape (utf8 "a\x01") ∧
    Json.ofBytes (quotedText QdrantRelationshipVectorStore.jsonEscape (utf8 "a\x01")) = none ∧
    ∃ body ∈ QdrantRelationshipVectorStore.searchBody wholeFormat (utf8 "a\x01") [1]
        [utf8 "accepted"] 0 5, Json.ofBytes body = none := by
  refine ⟨by decide, ?_, ?_⟩
  · rw [quotedText, quoted_render edgeStore_escapesBy]
    exact ofBytes_control (by decide)
  · have hbody := searchBody_render wholeFormat [1] 5 "a\x01" ["accepted"] 0 (by simp) (by decide)
    exact ⟨_, hbody, ofBytes_control (by decide)⟩

end Wikore
