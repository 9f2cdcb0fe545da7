import Wikore.Ingest.SectionTree
import Wikore.Lib.Delimited
import Wikore.Lib.Lines
import Wikore.Lib.Utf8Grammar
import Mathlib.Data.List.DropRight

/-! `PlainTextParser`, the one parser that calls `strip_unicode_tags`, and `resolve_text_mime`.  No
text of its documents has an invisible tag character. -/

namespace Wikore.Parser

open Chunker (ParsedSection isspace findLastNotOf)
open ContextBuilder (Bytes Error utf8)
open Fallible (rejectIf)
open Utf8

def kMaxInputBytes : Nat := 32 * 1024 * 1024

def kEicarPrefix : Bytes := utf8 "X5O!P%@AP[4\\PZX54(P^)7CC)7\x7d"

def kEicarMarker : Bytes := utf8 "EICAR-STANDARD-ANTIVIRUS-TEST-FILE"

/-! ### The type of a document -/

/-- `std::tolower` in the C locale. -/
def tolower (c : UInt8) : UInt8 := if 65 ≤ c ∧ c ≤ 90 then c + 32 else c

/-- `std::isalpha` in the C locale, of a byte that is in lower case. -/
def isalpha (c : UInt8) : Bool := 97 ≤ c && c ≤ 122

def isalnum (c : UInt8) : Bool := isalpha c || (48 ≤ c && c ≤ 57)

def lowerAscii (value : Bytes) : Bytes := value.map tolower

/-- `std::filesystem::path::extension`. -/
def extension (filename : Bytes) : Bytes :=
  let name := (filename.reverse.takeWhile fun c => c ≠ 47).reverse
  let ext := (name.reverse.takeWhile fun c => c ≠ 46).reverse
  if name = utf8 "." ∨ name = utf8 ".." then []
  -- no dot, or none but the first byte
  else if name.length ≤ ext.length + 1 then []
  else utf8 "." ++ ext

def extensionOf (filename : Bytes) : Bytes := lowerAscii (extension filename)

def contains (s pat : Bytes) : Bool := (Delimited.cut pat s).isSome

def eicarDetected (content : Bytes) : Bool :=
  match Delimited.cut kEicarPrefix content with
  | none => false
  | some (_, after) => contains after kEicarMarker

def pdfMime : Bytes := utf8 "application/pdf"

def docxMime : Bytes :=
  utf8 "application/vnd.openxmlformats-officedocument.wordprocessingml.document"

def pptxMime : Bytes :=
  utf8 "application/vnd.openxmlformats-officedocument.presentationml.presentation"

def xlsxMime : Bytes := utf8 "application/vnd.openxmlformats-officedocument.spreadsheetml.sheet"

def odtMime : Bytes := utf8 "application/vnd.oasis.opendocument.text"

def htmlMime : Bytes := utf8 "text/html"

def markdownMime : Bytes := utf8 "text/markdown"

def plainMime : Bytes := utf8 "text/plain"

def resolveTextMime (content filename mimeType : Bytes) : Except Error Bytes := do
  rejectIf (content = []) (.invalidInput "ingest.empty_file")
  rejectIf (kMaxInputBytes < content.length) (.invalidInput "ingest.file_too_large")
  rejectIf (eicarDetected content) (.invalidInput "ingest.av.eicar_signature_detected")
  let ext := extensionOf filename
  let isPdf := (utf8 "%PDF-").isPrefixOf content
  let isZip := [80, 75, 3, 4].isPrefixOf content
  rejectIf (ext = utf8 ".pdf" ∧ ¬isPdf) (.invalidInput "ingest.mime_type_mismatch")
  rejectIf (ext ∈ [".docx", ".xlsx", ".pptx", ".odt", ".odp", ".ods"].map utf8 ∧ ¬isZip)
    (.invalidInput "ingest.mime_type_mismatch")
  if isPdf then return pdfMime
  if isZip then
    if ext = utf8 ".docx" then return docxMime
    if ext = utf8 ".pptx" then return pptxMime
    if ext = utf8 ".xlsx" then return xlsxMime
    if ext = utf8 ".odt" then return odtMime
    throw (.invalidInput "ingest.unsupported_format.office")
  rejectIf (0 ∈ content) (.invalidInput "ingest.binary_content")
  if ext ∈ [".md", ".markdown", ".mdx"].map utf8 then return markdownMime
  if ext = utf8 ".txt" ∨ ext = [] then return plainMime
  if ext ∈ [".html", ".htm", ".xhtml"].map utf8 then return htmlMime
  if ext ∈ [".json", ".jsonl", ".ndjson", ".csv", ".tsv", ".yaml", ".yml"].map utf8 then
    return plainMime
  if ext ∈ [".xml", ".svg"].map utf8 then return htmlMime
  if ext ∈ [".rst", ".adoc", ".asciidoc", ".log", ".conf", ".ini", ".toml", ".env"].map utf8 then
    return plainMime
  if mimeType = markdownMime ∨ mimeType = plainMime ∨ mimeType = htmlMime then return mimeType
  throw (.invalidInput "ingest.unsupported_format")

/-! ### Invisible tag characters -/

/-- The bytes after the first one of a character are put to the bits of the first. -/
def continueChar (codepoint : Nat) : Bytes → Option Nat
  | [] => some codepoint
  | next :: rest =>
    if next &&& 0xC0 ≠ 0x80 then none
    else continueChar (codepoint <<< 6 ||| (next &&& 0x3F).toNat) rest

/-- A character of more than one byte, of which `bits` are those in the first. -/
def decodeMultibyte (bits : UInt8) (width : Nat) (rest : Bytes) : Option (Nat × Nat) :=
  if rest.length + 1 < width then none
  else
    match continueChar bits.toNat (rest.take (width - 1)) with
    | none => none
    | some codepoint =>
      if (width = 2 ∧ codepoint < 0x80) ∨ (width = 3 ∧ codepoint < 0x800) ∨
          (width = 4 ∧ codepoint < 0x10000) ∨ 0x10FFFF < codepoint ∨
          (0xD800 ≤ codepoint ∧ codepoint ≤ 0xDFFF) then none
      else some (codepoint, width)

/-- `decode_utf8` at the start of the input: the code point and the number of its bytes. -/
def decodeUtf8 : Bytes → Option (Nat × Nat)
  | [] => none
  | first :: rest =>
    if first < 0x80 then some (first.toNat, 1)
    else if first &&& 0xE0 = 0xC0 then decodeMultibyte (first &&& 0x1F) 2 rest
    else if first &&& 0xF0 = 0xE0 then decodeMultibyte (first &&& 0x0F) 3 rest
    else if first &&& 0xF8 = 0xF0 then decodeMultibyte (first &&& 0x07) 4 rest
    else none

theorem decodeMultibyte_iff {bits : UInt8} {width codepoint w : Nat} {rest : Bytes} :
    decodeMultibyte bits width rest = some (codepoint, w) ↔
      w = width ∧ width ≤ rest.length + 1 ∧
        continueChar bits.toNat (rest.take (width - 1)) = some codepoint ∧
        ¬(width = 2 ∧ codepoint < 0x80) ∧ ¬(width = 3 ∧ codepoint < 0x800) ∧
        ¬(width = 4 ∧ codepoint < 0x10000) ∧ codepoint ≤ 0x10FFFF ∧
        ¬(0xD800 ≤ codepoint ∧ codepoint ≤ 0xDFFF) := by
  unfold decodeMultibyte
  split
  next hlen =>
    refine ⟨nofun, ?_⟩
    rintro ⟨-, hle, -⟩
    omega
  next hlen =>
    cases hcont : continueChar bits.toNat (rest.take (width - 1)) with
    | none =>
      refine ⟨nofun, ?_⟩
      rintro ⟨-, -, h, -⟩
      cases h
    | some v =>
      dsimp only
      split
      next hbad =>
        refine ⟨nofun, ?_⟩
        rintro ⟨-, -, h, hvalid⟩
        cases h
        omega
      next hvalid =>
        constructor
        · intro h
          cases h
          simp only [not_or] at hvalid
          refine ⟨rfl, Nat.le_of_not_lt hlen, rfl, hvalid.1, hvalid.2.1, hvalid.2.2.1, ?_,
            hvalid.2.2.2.2⟩
          exact Nat.le_of_not_lt hvalid.2.2.2.1
        · rintro ⟨rfl, -, h, -⟩
          cases h
          rfl

/-! What the masks say, as arithmetic. -/

theorem mask_eq_iff {b m v : UInt8} : b &&& m = v ↔ b.toNat &&& m.toNat = v.toNat := by
  rw [← UInt8.toNat_inj, UInt8.toNat_and]

theorem toNat_mask {b m : UInt8} (n : Nat) (hm : m.toNat = 2 ^ n - 1) :
    (b &&& m).toNat = b.toNat % 2 ^ n := by
  rw [UInt8.toNat_and, hm, Nat.and_two_pow_sub_one_eq_mod]

theorem masks_two : ∀ n < 256, n &&& 0xE0 = 0xC0 ↔ 192 ≤ n ∧ n < 224 := by decide +kernel

theorem masks_three : ∀ n < 256, n &&& 0xF0 = 0xE0 ↔ 224 ≤ n ∧ n < 240 := by decide +kernel

theorem masks_four : ∀ n < 256, n &&& 0xF8 = 0xF0 ↔ 240 ≤ n ∧ n < 248 := by decide +kernel

theorem masks_continue : ∀ n < 256, n &&& 0xC0 = 0x80 ↔ 128 ≤ n ∧ n < 192 := by decide +kernel

theorem continueChar_cons {codepoint v : Nat} {next : UInt8} {rest : Bytes} :
    continueChar codepoint (next :: rest) = some v ↔
      Grammar.Tail next ∧ continueChar (Grammar.addTail codepoint next) rest = some v := by
  have hmask : next &&& 0xC0 = 0x80 ↔ 128 ≤ next.toNat ∧ next.toNat < 192 :=
    mask_eq_iff.trans (masks_continue _ next.toNat_lt)
  have hbits : codepoint <<< 6 ||| (next &&& 0x3F).toNat = codepoint * 64 + next.toNat % 64 := by
    have hm := toNat_mask (b := next) 6 (m := 0x3F) rfl
    rw [hm, ← Nat.shiftLeft_add_eq_or_of_lt (Nat.mod_lt _ (by decide)), Nat.shiftLeft_eq]
  rw [continueChar]
  split
  next hne =>
    refine ⟨nofun, ?_⟩
    rintro ⟨⟨hlow, hhigh⟩, -⟩
    exact absurd (hmask.mpr ⟨hlow, Nat.lt_succ_of_le hhigh⟩) hne
  next heq =>
    obtain ⟨hlow, hhigh⟩ := hmask.mp (not_not.mp heq)
    have htail : codepoint * 64 + next.toNat % 64 = Grammar.addTail codepoint next := by
      unfold Grammar.addTail
      omega
    rw [hbits, htail]
    exact ⟨fun h => ⟨⟨hlow, Nat.le_of_lt_succ hhigh⟩, h⟩, And.right⟩

theorem decodeUtf8_cons (first : UInt8) (rest : Bytes) :
    decodeUtf8 (first :: rest) =
      if first.toNat < 128 then some (first.toNat, 1)
      else if 192 ≤ first.toNat ∧ first.toNat < 224 then decodeMultibyte (first &&& 0x1F) 2 rest
      else if 224 ≤ first.toNat ∧ first.toNat < 240 then decodeMultibyte (first &&& 0x0F) 3 rest
      else if 240 ≤ first.toNat ∧ first.toNat < 248 then decodeMultibyte (first &&& 0x07) 4 rest
      else none := by
  have hfirst := first.toNat_lt
  have hone : first < 0x80 ↔ first.toNat < 128 := UInt8.lt_iff_toNat_lt
  have htwo : first &&& 0xE0 = 0xC0 ↔ _ := mask_eq_iff.trans (masks_two _ hfirst)
  have hthree : first &&& 0xF0 = 0xE0 ↔ _ := mask_eq_iff.trans (masks_three _ hfirst)
  have hfour : first &&& 0xF8 = 0xF0 ↔ _ := mask_eq_iff.trans (masks_four _ hfirst)
  simp only [decodeUtf8, hone, htwo, hthree, hfour]

/-- What `decode_utf8` accepts is a sequence of the syntax, with its code point. -/
theorem sequence_of_decodeUtf8 {input : Bytes} {codepoint width : Nat}
    (h : decodeUtf8 input = some (codepoint, width)) :
    Grammar.Sequence (input.take width) codepoint ∧ width ≤ input.length := by
  cases input with
  | nil => cases h
  | cons first rest =>
    rw [decodeUtf8_cons] at h
    split at h
    next hone =>
      cases h
      exact ⟨.one (Nat.le_of_lt_succ hone), Nat.succ_le_succ (Nat.zero_le _)⟩
    split at h
    next hlead =>
      obtain ⟨rfl, hlen, hcont, htwo, -⟩ := decodeMultibyte_iff.mp h
      have hbits : (first &&& 0x1F).toNat = first.toNat - 0xC0 := by
        rw [toNat_mask (b := first) 5 (m := 0x1F) rfl]
        omega
      rw [hbits] at hcont
      match rest with
      | [] => simp at hlen
      | b :: rest =>
        obtain ⟨hb, hcont⟩ := continueChar_cons.mp hcont
        have hvalue := Option.some.inj hcont
        subst hvalue
        refine ⟨.two ⟨?_, by omega⟩ hb, hlen⟩
        obtain ⟨hb, hb'⟩ := hb
        unfold Grammar.addTail at htwo
        omega
    split at h
    next hlead =>
      obtain ⟨rfl, hlen, hcont, -, hthree, -, -, hs⟩ := decodeMultibyte_iff.mp h
      have hbits : (first &&& 0x0F).toNat = first.toNat - 0xE0 := by
        rw [toNat_mask (b := first) 4 (m := 0x0F) rfl]
        omega
      rw [hbits] at hcont
      match rest with
      | [] | [_] => simp at hlen
      | b :: c :: rest =>
        obtain ⟨hb, hcont⟩ := continueChar_cons.mp hcont
        obtain ⟨hc, hcont⟩ := continueChar_cons.mp hcont
        have hvalue := Option.some.inj hcont
        subst hvalue
        refine ⟨.three ⟨hlead.1, by omega⟩ hb hc ?_ ?_, hlen⟩ <;>
        · obtain ⟨hb, hb'⟩ := hb
          obtain ⟨hc, hc'⟩ := hc
          unfold Grammar.addTail at hthree hs
          omega
    split at h
    next hlead =>
      obtain ⟨rfl, hlen, hcont, -, -, hfour, hle, -⟩ := decodeMultibyte_iff.mp h
      have hbits : (first &&& 0x07).toNat = first.toNat - 0xF0 := by
        rw [toNat_mask (b := first) 3 (m := 0x07) rfl]
        omega
      rw [hbits] at hcont
      match rest with
      | [] | [_] | [_, _] => simp at hlen
      | b :: c :: d :: rest =>
        obtain ⟨hb, hcont⟩ := continueChar_cons.mp hcont
        obtain ⟨hc, hcont⟩ := continueChar_cons.mp hcont
        obtain ⟨hd, hcont⟩ := continueChar_cons.mp hcont
        have hvalue := Option.some.inj hcont
        subst hvalue
        refine ⟨.four ⟨hlead.1, ?_⟩ hb hc hd ?_ ?_, hlen⟩ <;>
        · obtain ⟨hb, hb'⟩ := hb
          obtain ⟨hc, hc'⟩ := hc
          obtain ⟨hd, hd'⟩ := hd
          unfold Grammar.addTail at hfour hle
          omega
    · cases h

/-- What `decode_utf8` accepts is the encoding of the character with the code point. -/
theorem decodeUtf8_eq {input : Bytes} {codepoint width : Nat}
    (h : decodeUtf8 input = some (codepoint, width)) :
    ∃ c : Char, c.toNat = codepoint ∧ input.take width = String.utf8EncodeChar c :=
  (sequence_of_decodeUtf8 h).1.exists_char

theorem width_pos {input : Bytes} {codepoint width : Nat}
    (h : decodeUtf8 input = some (codepoint, width)) : 0 < width ∧ input ≠ [] := by
  obtain ⟨c, -, he⟩ := decodeUtf8_eq h
  obtain ⟨b, tail, hc, -⟩ := encodeChar_tail c
  rw [hc] at he
  constructor
  · refine Nat.pos_of_ne_zero ?_
    rintro rfl
    cases he
  · rintro rfl
    cases h

/-- `strip_unicode_tags`, from where the input has been read to. -/
def stripUnicodeTags (input : Bytes) : Except Error Bytes :=
  if input = [] then .ok []
  else
    match _h : decodeUtf8 input with
    | none => .error (.invalidInput "ingest.invalid_utf8")
    | some (codepoint, width) => do
      let output ← stripUnicodeTags (input.drop width)
      if codepoint < 0xE0000 ∨ 0xE007F < codepoint then return input.take width ++ output
      return output
termination_by input.length
decreasing_by
  have := width_pos _h
  have hpos := List.length_pos_iff.mpr this.2
  rw [List.length_drop]
  omega

/-! ### Markup in Markdown -/

/-- `has_boolean_attribute`, of a tag of which `seen` has been searched. -/
def hasBooleanAttribute (attr : Bytes) (seen rest : Bytes) : Bool :=
  if hattr : attr = [] then false
  else
    match h : Delimited.cut attr rest with
    | none => false
    | some (before, after) =>
      have : after.length < rest.length := Delimited.length_of_cut hattr h
      let startsToken := (seen ++ before).getLast?.any isspace
      let endsToken := after = [] ∨ after.head?.any fun c => isspace c || c == 61 || c == 47
      if startsToken ∧ endsToken then true
      else hasBooleanAttribute attr (seen ++ before ++ attr) after
termination_by rest.length

def isVoidHtmlElement (name : Bytes) : Bool :=
  name ∈ ["area", "base", "br", "col", "embed", "hr", "img", "input", "link", "meta", "source",
    "track", "wbr"].map utf8

def isSelfClosingTag (tag : Bytes) : Bool :=
  (findLastNotOf (utf8 " \t\r\n") tag).any fun stop => tag[stop]? = some 47

/-- Whether the element of the tag, whose name ends at `nameEnd`, is not to be seen. -/
def hiddenTag (tag name : Bytes) (nameEnd : Nat) : Bool :=
  name = utf8 "script" || name = utf8 "style" || contains tag (utf8 "display:none") ||
    contains tag (utf8 "display: none") || contains tag (utf8 "visibility:hidden") ||
    contains tag (utf8 "visibility: hidden") ||
    hasBooleanAttribute (utf8 "hidden") (tag.take nameEnd) (tag.drop nameEnd)

def nameStart (tag : Bytes) : Nat := if tag.head? = some 47 then 1 else 0

def tagName (tag : Bytes) : Bytes :=
  (tag.drop (nameStart tag)).takeWhile fun b => isalnum b || b == 45

/-- What is left of the text after the hidden element called `name`, whose content starts it. -/
def afterClose (name after : Bytes) : Option Bytes :=
  match Delimited.cut (utf8 "</" ++ name) (lowerAscii after) with
  | none => none
  | some (body, _) => (Delimited.cut [62] (after.drop (body.length + (2 + name.length)))).map Prod.snd

/-- One pass of the loop of `strip_markdown_html`, at the byte `c` with `cs` after it: what is put
out, and where the next pass starts. -/
def stripMarkup (c : UInt8) (cs : Bytes) : Except Error (Bytes × Bytes) :=
  if c ≠ 60 then .ok ([c], cs)
  else
    match Delimited.cut [62] cs with
    | none => .ok (c :: cs, [])
    | some (inner, after) =>
      let tag := lowerAscii inner
      if ¬(tag.drop (nameStart tag)).head?.any isalpha then .ok ([c], cs)
      else
        let name := tagName tag
        if hiddenTag tag name (nameStart tag + name.length) ∧ name ≠ [] ∧ tag.head? ≠ some 47 then
          if isSelfClosingTag tag ∨ isVoidHtmlElement name then .ok ([], after)
          else
            match afterClose name after with
            | none => .error (.invalidInput "ingest.unclosed_hidden_tag")
            | some next => .ok ([], next)
        else .ok ([], after)

/-- A pass puts out what it reads, or takes out a piece that begins with `<` and ends with `>`. -/
theorem stripMarkup_ok {c : UInt8} {cs add next : Bytes}
    (h : stripMarkup c cs = .ok (add, next)) :
    add ≠ [] ∧ add ++ next = c :: cs ∨ add = [] ∧ c = 60 ∧ ∃ m, cs = m ++ 62 :: next := by
  unfold stripMarkup at h
  split at h
  · cases h
    exact .inl ⟨by simp, rfl⟩
  next hc =>
    have hc : c = 60 := not_not.mp hc
    split at h
    · cases h
      exact .inl ⟨by simp, List.append_nil _⟩
    next inner after hcut =>
      have hafter := Delimited.append_of_cut hcut
      dsimp only at h
      split at h
      · cases h
        exact .inl ⟨by simp, rfl⟩
      split at h
      · split at h
        · cases h
          exact .inr ⟨rfl, hc, inner, hafter⟩
        · split at h
          · cases h
          next close hclose =>
            cases h
            unfold afterClose at hclose
            split at hclose
            · cases hclose
            · obtain ⟨⟨body, rest⟩, hend, rfl⟩ := Option.map_eq_some_iff.mp hclose
              have hdrop := Delimited.append_of_cut hend
              refine .inr ⟨rfl, hc, ?_⟩
              generalize List.length _ + (2 + List.length _) = n at hdrop
              refine ⟨inner ++ [62] ++ after.take n ++ body, ?_⟩
              have htake := List.take_append_drop n after
              rw [hafter]
              nth_rewrite 1 [← htake]
              rw [hdrop]
              simp
      · cases h
        exact .inr ⟨rfl, hc, inner, hafter⟩

theorem length_stripMarkup {c : UInt8} {cs add next : Bytes}
    (h : stripMarkup c cs = .ok (add, next)) : next.length < (c :: cs).length := by
  rcases stripMarkup_ok h with ⟨hne, he⟩ | ⟨-, -, m, rfl⟩
  · have hpos := List.length_pos_iff.mpr hne
    have hlen := congrArg List.length he
    rw [List.length_append] at hlen
    omega
  · simp only [List.length_cons, List.length_append]
    omega

/-- `strip_markdown_html`, from where the input has been read to. -/
def stripMarkdownHtml (output : Bytes) : Bytes → Except Error Bytes
  | [] => .ok output
  | c :: cs =>
    match _h : stripMarkup c cs with
    | .error e => .error e
    | .ok (add, next) => stripMarkdownHtml (output ++ add) next
termination_by rest => rest.length
decreasing_by exact length_stripMarkup _h

/-! ### `PlainTextParser::parse` -/

structure PendingSection where
  heading : Bytes
  depth : Nat
  text : Bytes

/-- The sections before the current one, and the current one. -/
structure Reading where
  pending : List PendingSection
  current : PendingSection
  hasHeadings : Bool

def dropReturns (line : Bytes) : Bytes := line.rdropWhile fun c => c = 13

def readLine (s : Reading) (line : Bytes) : Reading :=
  let line := dropReturns line
  let hashes := (line.takeWhile fun c => c = 35).length
  if 1 ≤ hashes ∧ hashes ≤ 6 ∧ (line)[hashes]? = some 32 then
    { pending := if s.hasHeadings ∨ s.current.text ≠ [] then s.pending ++ [s.current] else s.pending
      current := ⟨line.drop (hashes + 1), hashes, []⟩
      hasHeadings := true }
  else
    let text := if s.current.text = [] then [] else s.current.text ++ utf8 "\n"
    { s with current := { s.current with text := text ++ line } }

/-- One pass of the loop of `flush_to_doc`. -/
def flushSection (o : Outline) (p : PendingSection) : Outline :=
  let sec : ParsedSection := ⟨p.heading, p.depth, p.text, [], none⟩
  if p.depth = 0 ∨ o.stack = [] then { o with stack := [] }.push sec else o.openSection sec

def readLines (normalized : Bytes) : Reading :=
  (Lines.cut 10 normalized).foldl readLine ⟨[], ⟨[], 0, []⟩, false⟩

def plainSections (s : Reading) : List ParsedSection :=
  if s.hasHeadings then ((s.pending ++ [s.current]).foldl flushSection ⟨[], []⟩).sections
  else [⟨[], 0, s.current.text, [], none⟩]

def sanitized (resolvedMime normalized : Bytes) : Except Error Bytes :=
  if resolvedMime = markdownMime then stripMarkdownHtml [] normalized else .ok normalized

/-- `PlainTextParser::parse`. -/
def PlainTextParser.parse (content filename mimeType : Bytes) : Except Error ParsedDocument := do
  let resolvedMime ← resolveTextMime content filename mimeType
  rejectIf (resolvedMime ≠ plainMime ∧ resolvedMime ≠ markdownMime)
    (.invalidInput "ingest.unsupported_format")
  let normalized ← stripUnicodeTags content
  let normalized ← sanitized resolvedMime normalized
  let sections := plainSections (readLines normalized)
  return ⟨filename, resolvedMime, sections, accumTexts sections []⟩

/-! ### No tag character is left -/

/-- The code points that `strip_unicode_tags` takes out. -/
def tags : WideClass where
  mem c := 0xE0000 ≤ c.toNat ∧ c.toNat ≤ 0xE007F
  wide c h := by omega

/-- A well-formed text without tag characters. -/
def Clean (text : Bytes) : Prop := Carries tags text False

theorem stripUnicodeTags_clean {input output : Bytes} (h : stripUnicodeTags input = .ok output) :
    Clean output := by
  induction input using stripUnicodeTags.induct generalizing output with
  | case1 =>
    rw [stripUnicodeTags, if_pos rfl] at h
    cases h
    exact carries_nil
  | case2 input hne hnone =>
    rw [stripUnicodeTags, if_neg hne] at h
    split at h
    · cases h
    next hsome =>
      rw [hnone] at hsome
      cases hsome
  | case3 input hne codepoint width hsome ih =>
    rw [stripUnicodeTags, if_neg hne] at h
    split at h
    · cases h
    next hsome' =>
      rw [hsome] at hsome'
      cases hsome'
      obtain ⟨rest, hrest, h⟩ := Fallible.bind_ok.mp h
      have hclean := ih hrest
      split at h
      next hcode =>
        cases h
        obtain ⟨c, hc, htake⟩ := decodeUtf8_eq hsome
        have hchar : Carries tags (input.take width) False := by
          rw [htake]
          have hone := carries_encodeChars (k := tags) [c]
          rw [encodeChars_cons, show encodeChars [] = [] from rfl, List.append_nil] at hone
          refine hone.iff (iff_false_intro ?_)
          rintro ⟨d, hd, hlow, hhigh⟩
          obtain rfl := List.mem_singleton.mp hd
          omega
        exact (hchar.append hclean).iff (iff_of_eq (or_self False))
      next =>
        cases h
        exact hclean

theorem Clean.append {a b : Bytes} (ha : Clean a) (hb : Clean b) : Clean (a ++ b) :=
  (Carries.append ha hb).iff (iff_of_eq (or_self False))

/-- A cut before a byte that begins a character leaves two clean texts. -/
theorem Clean.split {a b : Bytes} (h : Clean (a ++ b)) (hb : StartsChar b) :
    Clean a ∧ Clean b := by
  obtain ⟨ha, hb⟩ := h.wellFormed.split hb
  have hnot := h.holds_iff.mp
  rw [holds_append ha hb] at hnot
  exact ⟨⟨ha, iff_false_intro fun hk => hnot (.inl hk)⟩, ⟨hb, iff_false_intro fun hk => hnot (.inr hk)⟩⟩

theorem startsChar_cons {c : UInt8} {cs : Bytes} (h : c < 128) : StartsChar (c :: cs) := by
  rintro b hb ⟨hle, -⟩
  cases hb
  exact absurd h (UInt8.not_lt.mpr hle)

theorem ascii_newline : Ascii (utf8 "\n") := ascii_of_all rfl

theorem Clean.of_ascii_append {a b : Bytes} (h : Clean (a ++ b)) (ha : Ascii a) : Clean b := by
  have hbetween : Carries tags (a ++ (b ++ [])) False := by
    rw [List.append_nil]
    exact h
  exact hbetween.between ha ascii_nil

theorem Clean.of_cons {c : UInt8} {cs : Bytes} (h : Clean (c :: cs)) (hc : c < 128) : Clean cs := by
  have hascii : Ascii [c] := by simpa [Ascii] using hc
  exact Clean.of_ascii_append (a := [c]) h hascii

/-- A piece that begins and ends with ASCII bytes is taken out. -/
theorem Clean.remove {a m b : Bytes} {x y : UInt8} (h : Clean (a ++ x :: (m ++ y :: b)))
    (hx : x < 128) (hy : y < 128) : Clean (a ++ b) := by
  obtain ⟨ha, hrest⟩ := h.split (startsChar_cons hx)
  have hb := (Clean.split (a := x :: m) hrest (startsChar_cons hy)).2
  exact ha.append (hb.of_cons hy)

theorem stripMarkdownHtml_clean {output rest r : Bytes} (h : Clean (output ++ rest))
    (hr : stripMarkdownHtml output rest = .ok r) : Clean r := by
  induction output, rest using stripMarkdownHtml.induct with
  | case1 output =>
    rw [stripMarkdownHtml] at hr
    cases hr
    rwa [List.append_nil] at h
  | case2 output c cs e herror =>
    rw [stripMarkdownHtml] at hr
    split at hr
    · cases hr
    next hok =>
      rw [herror] at hok
      cases hok
  | case3 output c cs add next hok ih =>
    rw [stripMarkdownHtml] at hr
    split at hr
    · cases hr
    next hok' =>
      rw [hok] at hok'
      cases hok'
      refine ih ?_ hr
      rcases stripMarkup_ok hok with ⟨-, he⟩ | ⟨rfl, rfl, m, rfl⟩
      · rwa [List.append_assoc, he]
      · rw [List.append_nil]
        exact h.remove (by decide) (by decide)

/-! ### The sections -/

theorem Clean.dropReturns {line : Bytes} (h : Clean line) : Clean (dropReturns line) := by
  have happ : line.rdropWhile (fun c => c = 13) ++ line.rtakeWhile (fun c => c = 13) = line :=
    List.rdropWhile_append_rtakeWhile
  have hascii : Ascii (line.rtakeWhile fun c => c = 13) := by
    intro b hb
    have hcr : decide (b = 13) = true := List.mem_rtakeWhile_imp (p := fun c => decide (c = 13)) hb
    obtain rfl := of_decide_eq_true hcr
    decide
  rw [← happ] at h
  exact (h.split hascii.startsChar).1

/-- The texts of a reading are clean. -/
structure Reading.AllClean (s : Reading) : Prop where
  pending : ∀ p ∈ s.pending, Clean p.heading ∧ Clean p.text
  current : Clean s.current.heading ∧ Clean s.current.text

theorem readLine_clean {s : Reading} {line : Bytes} (hs : s.AllClean) (hline : Clean line) :
    (readLine s line).AllClean := by
  have hline := hline.dropReturns
  unfold readLine
  dsimp only
  generalize dropReturns line = line at hline
  split
  next hheading =>
    refine ⟨?_, ?_, carries_nil⟩
    · intro p hp
      dsimp only at hp
      split at hp
      · rcases List.mem_append.mp hp with hp | hp
        · exact hs.pending p hp
        · obtain rfl := List.mem_singleton.mp hp
          exact hs.current
      · exact hs.pending p hp
    · -- the marks and the blank before the title
      have hascii : Ascii (line.take ((line.takeWhile fun c => c = 35).length + 1)) := by
        have hmarks := List.prefix_iff_eq_take.mp
          (List.takeWhile_prefix (fun c : UInt8 => decide (c = 35)) (l := line))
        rw [List.take_add_one, hheading.2.2, ← hmarks]
        refine Ascii.append ?_ (ascii_of_all rfl)
        intro b hb
        have hmark : decide (b = 35) = true := List.mem_takeWhile_imp (p := fun c => decide (c = 35)) hb
        obtain rfl := of_decide_eq_true hmark
        decide
      rw [← List.take_append_drop ((line.takeWhile fun c => c = 35).length + 1) line] at hline
      exact hline.of_ascii_append hascii
  next =>
    refine ⟨hs.pending, hs.current.1, ?_⟩
    show Clean ((if s.current.text = [] then [] else _) ++ line)
    split
    · exact hline
    · exact Clean.append (Carries.append_ascii hs.current.2 ascii_newline) hline

theorem lines_clean {text : Bytes} (h : Clean text) : ∀ line ∈ Lines.cut 10 text, Clean line := by
  refine Lines.forall_mem_cut h ?_
  intro line rest hsplit
  obtain ⟨hline, hrest⟩ := hsplit.split (startsChar_cons (by decide))
  exact ⟨hline, hrest.of_cons (by decide)⟩

theorem readLines_clean {text : Bytes} (h : Clean text) : (readLines text).AllClean := by
  have hfold : ∀ (ls : List Bytes) (s : Reading), s.AllClean → (∀ line ∈ ls, Clean line) →
      (ls.foldl readLine s).AllClean := by
    intro ls
    induction ls with
    | nil => exact fun s hs _ => hs
    | cons line ls ih =>
      intro s hs hls
      exact ih _ (readLine_clean hs (hls line List.mem_cons_self))
        fun l hl => hls l (List.mem_cons_of_mem line hl)
  refine hfold _ _ ⟨?_, carries_nil, carries_nil⟩ (lines_clean h)
  simp

theorem flushSection_clean {o : Outline} {p : PendingSection} (h : o.Says tags False)
    (hp : Clean p.heading ∧ Clean p.text) : (flushSection o p).Says tags False := by
  have hsec : CarriesAll tags (textsOf [⟨p.heading, p.depth, p.text, [], none⟩]) False :=
    (hp.1.singleton.append hp.2.singleton).iff (iff_of_eq (or_self False))
  unfold flushSection
  dsimp only
  split
  · have hclosed : Outline.Says tags { o with stack := [] } False := ⟨trivial, h.texts⟩
    exact (hclosed.push hsec).iff (iff_of_eq (or_self False))
  · exact (h.openSection hsec).iff (iff_of_eq (or_self False))

theorem plainSections_clean {s : Reading} (h : s.AllClean) :
    CarriesAll tags (textsOf (plainSections s)) False := by
  unfold plainSections
  split
  · have hfold : ∀ (ps : List PendingSection) (o : Outline), o.Says tags False →
        (∀ p ∈ ps, Clean p.heading ∧ Clean p.text) →
        (ps.foldl flushSection o).Says tags False := by
      intro ps
      induction ps with
      | nil => exact fun o ho _ => ho
      | cons p ps ih =>
        intro o ho hps
        exact ih _ (flushSection_clean ho (hps p List.mem_cons_self))
          fun q hq => hps q (List.mem_cons_of_mem p hq)
    refine (hfold _ _ Outline.says_nil ?_).texts
    intro p hp
    rcases List.mem_append.mp hp with hp | hp
    · exact h.pending p hp
    · obtain rfl := List.mem_singleton.mp hp
      exact h.current
  · have htexts : CarriesAll tags (textsOf [⟨[], 0, s.current.text, [], none⟩]) (False ∨ False) :=
      carries_nil.singleton.append h.current.2.singleton
    exact htexts.iff (iff_of_eq (or_self False))

/-- Whatever the content, a heading or a text of the result has no tag character. -/
theorem PlainTextParser.parse_clean {content filename mimeType : Bytes} {doc : ParsedDocument}
    (h : PlainTextParser.parse content filename mimeType = .ok doc) :
    CarriesAll tags (textsOf doc.sections) False := by
  unfold PlainTextParser.parse at h
  obtain ⟨resolvedMime, -, h⟩ := Fallible.bind_ok.mp h
  obtain ⟨-, h⟩ := Fallible.rejectIf_bind_ok.mp h
  obtain ⟨stripped, hstripped, h⟩ := Fallible.bind_ok.mp h
  obtain ⟨normalized, hnormalized, h⟩ := Fallible.bind_ok.mp h
  have hclean := stripUnicodeTags_clean hstripped
  have hnormal : Clean normalized := by
    unfold sanitized at hnormalized
    split at hnormalized
    · refine stripMarkdownHtml_clean ?_ hnormalized
      exact hclean
    · cases hnormalized
      exact hclean
  cases h
  exact plainSections_clean (readLines_clean hnormal)

end Wikore.Parser
