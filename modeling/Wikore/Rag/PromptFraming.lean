import Wikore.Lib.Delimited
import Wikore.Rag.Citations

/-! What a reader of the prompt can rely on: in the evidence part the tags around the chunk texts
are those that the builder wrote, whatever the evidence holds, and the labels and texts can be read
back from it. -/

namespace Wikore.ContextBuilder

open Delimited

/-! ### Reading a prompt -/

/-- Undoes `escape`. -/
def unescape : Bytes → Bytes
  | 38 :: 97 :: 109 :: 112 :: 59 :: rest => 38 :: unescape rest
  | 38 :: 108 :: 116 :: 59 :: rest => 60 :: unescape rest
  | 38 :: 103 :: 116 :: 59 :: rest => 62 :: unescape rest
  | 38 :: 113 :: 117 :: 111 :: 116 :: 59 :: rest => 34 :: unescape rest
  | c :: rest => c :: unescape rest
  | [] => []

def isDigit (c : UInt8) : Bool := 48 ≤ c ∧ c ≤ 57

/-- The number that decimal digits stand for. -/
def readDecimal (digits : Bytes) : Nat := digits.foldl (fun n c => 10 * n + (c.toNat - 48)) 0

/-- The label that the text before a tag ends with, `[SRC n]` and a line end. -/
def readLabel (gap : Bytes) : Option Nat :=
  match gap.reverse with
  | 10 :: 93 :: rest =>
    if (utf8 "[SRC ").reverse <+: rest.dropWhile isDigit then
      some (readDecimal (rest.takeWhile isDigit).reverse)
    else none
  | _ => none

/-- The labels and the texts of the sources: the evidence part is split at the tags, and `escape`
is undone in what stands between them, without the two line ends. -/
def readSources (evidencePart : Bytes) : List (Nat × Bytes) :=
  (unframe 60 60 (utf8 "source>") (utf8 "/source>") evidencePart).filterMap fun p =>
    (readLabel p.1).map fun n => (n, unescape (p.2.drop 1).dropLast)

/-- What stands before the query block. -/
def PromptContext.evidencePart (out : PromptContext) (query : Bytes) : Bytes :=
  out.userMessage.take (out.userMessage.length - (queryBlock query).length)

/-- The label and the text of a source block. -/
def Block.labelledText : Block → Option (Nat × Bytes)
  | .source n text => some (n, text)
  | .relationship .. => none

/-! ### Escaped texts -/

theorem unescape_cons {c : UInt8} (h : c ≠ 38) (rest : Bytes) :
    unescape (c :: rest) = c :: unescape rest := by
  conv_lhs => unfold unescape
  split <;> simp_all

theorem unescape_escapeByte (c : UInt8) (rest : Bytes) :
    unescape (escapeByte c ++ rest) = c :: unescape rest := by
  have hamp : utf8 "&amp;" = [38, 97, 109, 112, 59] := by decide
  have hlt : utf8 "&lt;" = [38, 108, 116, 59] := by decide
  have hgt : utf8 "&gt;" = [38, 103, 116, 59] := by decide
  have hquot : utf8 "&quot;" = [38, 113, 117, 111, 116, 59] := by decide
  unfold escapeByte
  split
  next h => simp [h, hamp, unescape]
  next h =>
    split
    next h => simp [h, hlt, unescape]
    next =>
      split
      next h => simp [h, hgt, unescape]
      next =>
        split
        next h => simp [h, hquot, unescape]
        next => exact unescape_cons h rest

theorem unescape_escape (text : Bytes) : unescape (escape text) = text := by
  induction text with
  | nil => rfl
  | cons c text ih =>
    rw [escape, List.flatMap_cons, unescape_escapeByte]
    exact congrArg (c :: ·) ih

theorem escapeByte_no_bracket (c : UInt8) : 60 ∉ escapeByte c := by
  unfold escapeByte
  split
  · decide
  · split
    · decide
    · split
      · decide
      · split
        · decide
        · rw [List.mem_singleton]
          exact Ne.symm ‹c ≠ 60›

theorem escape_no_bracket (text : Bytes) : 60 ∉ escape text := by
  intro h
  obtain ⟨c, -, hc⟩ := List.mem_flatMap.mp h
  exact escapeByte_no_bracket c hc

/-! ### Labels -/

theorem digit_bounds {c : Char} (h : c.isDigit = true) : 48 ≤ c.toNat ∧ c.toNat ≤ 57 := by
  rw [Char.isDigit, Bool.and_eq_true, decide_eq_true_eq, decide_eq_true_eq] at h
  exact ⟨UInt32.le_iff_toNat_le.mp h.1, UInt32.le_iff_toNat_le.mp h.2⟩

theorem digit_toNat {c : Char} (h : c.isDigit = true) : c.val.toUInt8.toNat = c.toNat := by
  have := digit_bounds h
  rw [UInt32.toNat_toUInt8]
  exact Nat.mod_eq_of_lt (by show c.toNat < 256; omega)

theorem decimal_eq (n : Nat) :
    decimal n = (Nat.toDigits 10 n).map fun c => c.val.toUInt8 := by
  have hflat : decimal n = (Nat.toDigits 10 n).flatMap String.utf8EncodeChar := by
    rw [decimal, utf8, Nat.toString_eq_ofList_toDigits, String.toByteArray_ofList, List.utf8Encode,
      List.toList_data_toByteArray]
  rw [hflat, List.map_eq_flatMap]
  apply List.flatMap_congr
  intro c hc
  have hdigit := digit_bounds (Nat.isDigit_of_mem_toDigits (by decide) (by decide) hc)
  apply String.utf8EncodeChar_eq_singleton
  rw [Char.utf8Size_eq_one_iff]
  exact UInt32.le_iff_toNat_le.mpr (by show c.toNat ≤ 127; omega)

theorem isDigit_decimal (n : Nat) : ∀ c ∈ decimal n, isDigit c = true := by
  intro b hb
  rw [decimal_eq] at hb
  obtain ⟨c, hc, rfl⟩ := List.mem_map.mp hb
  have hdigit := Nat.isDigit_of_mem_toDigits (by decide) (by decide) hc
  have hbounds := digit_bounds hdigit
  rw [← digit_toNat hdigit] at hbounds
  rw [isDigit, decide_eq_true_eq]
  exact ⟨UInt8.le_iff_toNat_le.mpr hbounds.1, UInt8.le_iff_toNat_le.mpr hbounds.2⟩

theorem readDecimal_decimal (n : Nat) : readDecimal (decimal n) = n := by
  have hfold : ∀ (digits : List Char) (k : Nat), (∀ c ∈ digits, c.isDigit = true) →
      (digits.map fun c => c.val.toUInt8).foldl (fun n c => 10 * n + (c.toNat - 48)) k =
        Nat.ofDigitChars 10 digits k := by
    intro digits
    induction digits with
    | nil => exact fun k _ => rfl
    | cons c digits ih =>
      intro k h
      rw [List.map_cons, List.foldl_cons, digit_toNat (h c List.mem_cons_self),
        ih _ fun c hc => h c (List.mem_cons_of_mem _ hc)]
      rfl
  rw [decimal_eq, readDecimal,
    hfold _ 0 fun c hc => Nat.isDigit_of_mem_toDigits (by decide) (by decide) hc]
  exact Nat.ofDigitChars_toDigits (by decide) (by decide)

/-- `[SRC n]` and a line end. -/
def sourceTag (n : Nat) : Bytes := utf8 "[SRC " ++ decimal n ++ utf8 "]\n"

theorem readLabel_sourceTag (before : Bytes) (n : Nat) :
    readLabel (before ++ sourceTag n) = some n := by
  have hend : (utf8 "]\n").reverse = [10, 93] := by decide
  have hstart : (utf8 "[SRC ").reverse = 32 :: (utf8 "[SRC").reverse := by decide
  have hback : (before ++ sourceTag n).reverse =
      10 :: 93 :: ((decimal n).reverse ++ ((utf8 "[SRC ").reverse ++ before.reverse)) := by
    simp [sourceTag, hend]
  have hdigits : ∀ c ∈ (decimal n).reverse, isDigit c = true :=
    fun c hc => isDigit_decimal n c (List.mem_reverse.mp hc)
  have hstop : isDigit 32 = false := by decide
  have htake : ((decimal n).reverse ++ ((utf8 "[SRC ").reverse ++ before.reverse)).takeWhile isDigit =
      (decimal n).reverse := by
    rw [List.takeWhile_append_of_pos hdigits, hstart]
    simp [hstop]
  have hdrop : ((decimal n).reverse ++ ((utf8 "[SRC ").reverse ++ before.reverse)).dropWhile isDigit =
      (utf8 "[SRC ").reverse ++ before.reverse := by
    rw [List.dropWhile_append_of_pos hdigits, hstart]
    simp [hstop]
  simp only [readLabel, hback, htake, hdrop, List.prefix_append, if_true, List.reverse_reverse,
    readDecimal_decimal]

/-! ### The blocks as a framed text -/

/-- The gaps and bodies of blocks after a text `gap`, and what stands after the last of them. -/
def framesOf (gap : Bytes) : List Block → List (Bytes × Bytes) × Bytes
  | [] => ([], gap)
  | .source n text :: blocks =>
    ((gap ++ sourceTag n, utf8 "\n" ++ escape text ++ utf8 "\n") ::
      (framesOf (utf8 "\n\n") blocks).1, (framesOf (utf8 "\n\n") blocks).2)
  | .relationship n r srcA srcB :: blocks =>
    framesOf (gap ++ formatRelationshipBlock n r srcA srcB) blocks

theorem formatChunkBlock_eq (n : Nat) (text : Bytes) :
    formatChunkBlock n text = sourceTag n ++ ((60 :: utf8 "source>") ++
      ((utf8 "\n" ++ escape text ++ utf8 "\n") ++ ((60 :: utf8 "/source>") ++ utf8 "\n\n"))) := by
  have hopen : utf8 "]\n<source>\n" = utf8 "]\n" ++ ((60 :: utf8 "source>") ++ utf8 "\n") := by
    decide
  have hclose : utf8 "\n</source>\n\n" = utf8 "\n" ++ ((60 :: utf8 "/source>") ++ utf8 "\n\n") := by
    decide
  simp only [formatChunkBlock, sourceTag, hopen, hclose, List.append_assoc]

theorem framed_framesOf (gap : Bytes) (blocks : List Block) :
    framed (60 :: utf8 "source>") (60 :: utf8 "/source>") (framesOf gap blocks).1
      (framesOf gap blocks).2 = gap ++ blocks.flatMap Block.render := by
  induction blocks generalizing gap with
  | nil => rw [framesOf, framed, List.flatMap_nil, List.append_nil]
  | cons b blocks ih =>
    cases b with
    | source n text =>
      rw [framesOf, framed, ih, List.flatMap_cons, Block.render, formatChunkBlock_eq]
      simp only [List.append_assoc]
    | relationship n r srcA srcB =>
      rw [framesOf, ih, List.flatMap_cons, Block.render, List.append_assoc]

theorem decimal_no_bracket (n : Nat) : 60 ∉ decimal n := by
  intro h
  have := isDigit_decimal n 60 h
  revert this
  decide

theorem formatConfidence_no_bracket (bits : BitVec 64) : 60 ∉ formatConfidence bits := by
  have hminus : 60 ∉ utf8 "-" := by decide
  have hinf : 60 ∉ utf8 "inf" := by decide
  have hnan : 60 ∉ utf8 "nan" := by decide
  have hpoint : 60 ∉ utf8 "." := by decide
  have hsign : 60 ∉ (if bits.msb then utf8 "-" else []) := by
    split <;> simp [hminus]
  unfold formatConfidence
  extract_lets exponent fraction sign mantissa hundredths
  have hsign : 60 ∉ sign := hsign
  clear_value hundredths sign
  split
  · split <;> simp [hsign, hinf, hnan]
  · simp [hsign, hpoint, decimal_no_bracket]

theorem formatEndpointLine_no_bracket {label : String} (hlabel : 60 ∉ utf8 label) (n : Nat)
    (heading : Option Bytes) : 60 ∉ formatEndpointLine label n heading := by
  have h1 : 60 ∉ utf8 "Endpoint " := by decide
  have h2 : 60 ∉ utf8 " [SRC " := by decide
  have h3 : 60 ∉ utf8 "], section \"" := by decide
  have h4 : 60 ∉ utf8 "\"\n" := by decide
  have h5 : 60 ∉ utf8 "]\n" := by decide
  unfold formatEndpointLine
  split
  · simp [h1, h2, h3, h4, hlabel, decimal_no_bracket, escape_no_bracket]
  · simp [h1, h2, h5, hlabel, decimal_no_bracket]

/-- Every field of a relationship that is spliced into its block is escaped. -/
theorem formatRelationshipBlock_no_bracket (n : Nat) (r : AllowedRelationship) (srcA srcB : Nat) :
    60 ∉ formatRelationshipBlock n r srcA srcB := by
  have hA : 60 ∉ utf8 "A" := by decide
  have hB : 60 ∉ utf8 "B" := by decide
  have h1 : 60 ∉ utf8 "[REL " := by decide
  have h2 : 60 ∉ utf8 ": " := by decide
  have h3 : 60 ∉ utf8 ", origin=" := by decide
  have h4 : 60 ∉ utf8 ", review_state=" := by decide
  have h5 : 60 ∉ utf8 ", confidence=" := by decide
  have h6 : 60 ∉ utf8 "]\n" := by decide
  have h7 : 60 ∉ utf8 "Direction: symmetric\n" := by decide
  have h8 : 60 ∉ utf8 "Direction: [SRC " := by decide
  have h9 : 60 ∉ utf8 "] " := by decide
  have h10 : 60 ∉ utf8 " [SRC " := by decide
  have h11 : 60 ∉ utf8 "\n" := by decide
  obtain ⟨left, right, -, heq⟩ := formatRelationshipBlock_sides n r srcA srcB
  rw [heq, relationshipLines]
  split <;>
    simp [h1, h2, h3, h4, h5, h6, h7, h8, h9, h10, h11, decimal_no_bracket, escape_no_bracket,
      formatConfidence_no_bracket, formatEndpointLine_no_bracket hA,
      formatEndpointLine_no_bracket hB]

theorem marks_tags : Marks 60 (utf8 "source>") (utf8 "/source>") where
  opening := by decide
  closing := by decide
  apart l := by
    have hopen : utf8 "source>" = 115 :: utf8 "ource>" := by decide
    have hclose : utf8 "/source>" = 47 :: utf8 "source>" := by decide
    rw [hclose, hopen, List.cons_append, List.cons_append]
    exact ⟨not_prefix_of_ne (by decide), not_prefix_of_ne (by decide)⟩

theorem clean_framesOf (gap : Bytes) (hgap : 60 ∉ gap) (blocks : List Block) :
    Clean 60 (framesOf gap blocks).1 (framesOf gap blocks).2 := by
  induction blocks generalizing gap with
  | nil => exact ⟨by simp [framesOf], hgap⟩
  | cons b blocks ih =>
    cases b with
    | source n text =>
      have hline : 60 ∉ utf8 "\n" := by decide
      have hstart : 60 ∉ utf8 "[SRC " := by decide
      have hend : 60 ∉ utf8 "]\n" := by decide
      have hrest := ih (utf8 "\n\n") (by decide)
      refine ⟨?_, hrest.rest⟩
      rw [framesOf, List.forall_mem_cons]
      refine ⟨⟨?_, ?_⟩, hrest.pieces⟩
      · simp [sourceTag, hgap, hstart, hend, decimal_no_bracket]
      · simp [hline, escape_no_bracket]
    | relationship n r srcA srcB =>
      rw [framesOf]
      apply ih
      rw [List.mem_append, not_or]
      exact ⟨hgap, formatRelationshipBlock_no_bracket n r srcA srcB⟩

/-- The frames are those of the source blocks, and read back they give their labels and texts. -/
theorem read_framesOf (gap : Bytes) (blocks : List Block) :
    ((framesOf gap blocks).1.filterMap fun p =>
        (readLabel p.1).map fun n => (n, unescape (p.2.drop 1).dropLast)) =
      blocks.filterMap Block.labelledText := by
  induction blocks generalizing gap with
  | nil => rfl
  | cons b blocks ih =>
    cases b with
    | source n text =>
      have hline : utf8 "\n" = [10] := by decide
      have hbody : ((utf8 "\n" ++ escape text ++ utf8 "\n").drop 1).dropLast = escape text := by
        rw [hline, List.singleton_append, List.cons_append, List.drop_one, List.tail_cons,
          List.dropLast_concat]
      rw [framesOf, List.filterMap_cons_some, ih, List.filterMap_cons_some]
      · rfl
      · simp only [readLabel_sourceTag, hbody, unescape_escape, Option.map_some]
    | relationship n r srcA srcB =>
      rw [framesOf, ih]
      rfl

theorem sourceLabels_framesOf (gap : Bytes) (blocks : List Block) {i : Nat} {p : Bytes × Bytes}
    (hp : (framesOf gap blocks).1[i]? = some p) :
    ∃ n, (blocks.filterMap Block.sourceLabel)[i]? = some n ∧ sourceTag n <:+ p.1 := by
  induction blocks generalizing gap i with
  | nil => cases hp
  | cons b blocks ih =>
    cases b with
    | source n text =>
      rw [framesOf] at hp
      cases i with
      | zero =>
        cases hp
        exact ⟨n, rfl, List.suffix_append gap (sourceTag n)⟩
      | succ i => exact ih _ hp
    | relationship n r srcA srcB =>
      rw [framesOf] at hp
      exact ih _ hp

theorem length_framesOf (gap : Bytes) (blocks : List Block) :
    (framesOf gap blocks).1.length = (blocks.filterMap Block.sourceLabel).length := by
  induction blocks generalizing gap with
  | nil => rfl
  | cons b blocks ih =>
    cases b with
    | source n text => exact congrArg (· + 1) (ih _)
    | relationship n r srcA srcB => exact ih _

/-! ### The evidence part of a prompt -/

/-- The tags of the evidence part: `n` of each kind that take turns, the `i`-th opening one after
the label `i`, and between them the texts `sources`. -/
structure TagsSound (evidencePart : Bytes) (n : Nat) (sources : List (Nat × Bytes)) : Prop where
  opening : (occurrences (utf8 "<source>") 0 evidencePart).length = n
  closing : (occurrences (utf8 "</source>") 0 evidencePart).length = n
  alternate : (((occurrences (utf8 "<source>") 0 evidencePart).zip
    (occurrences (utf8 "</source>") 0 evidencePart)).flatMap fun m => [m.1, m.2]).Pairwise (· < ·)
  labelled : ∀ i k, (occurrences (utf8 "<source>") 0 evidencePart)[i]? = some k →
    sourceTag (i + 1) <:+ evidencePart.take k
  recovered : readSources evidencePart = sources

theorem tagsSound_render {blocks : List Block} {n : Nat}
    (hlabels : blocks.filterMap Block.sourceLabel = List.range' 1 n) :
    TagsSound (blocks.flatMap Block.render) n (blocks.filterMap Block.labelledText) := by
  have hclean := clean_framesOf [] (by simp) blocks
  have hframed := framed_framesOf [] blocks
  rw [List.nil_append] at hframed
  have hopening := occurrences_opening (k := 0) marks_tags hclean
  have hclosing := occurrences_closing (k := 0) marks_tags hclean
  rw [hframed] at hopening hclosing
  have hopen : utf8 "<source>" = 60 :: utf8 "source>" := by decide
  have hclose : utf8 "</source>" = 60 :: utf8 "/source>" := by decide
  rw [← hopen, ← hclose] at hopening hclosing
  have hlength : (framesOf [] blocks).1.length = n := by
    rw [length_framesOf, hlabels, List.length_range']
  constructor
  case opening => rw [hopening, List.length_map, length_marks, hlength]
  case closing => rw [hclosing, List.length_map, length_marks, hlength]
  case alternate =>
    rw [hopening, hclosing, List.zip_map', List.map_id']
    exact (marks_alternate (by decide) (by decide) _ 0).1
  case labelled =>
    intro i k hk
    rw [hopening, List.getElem?_map, Option.map_eq_some_iff] at hk
    obtain ⟨m, hm, rfl⟩ := hk
    have hi : i < (framesOf [] blocks).1.length := by
      rw [← length_marks (utf8 "<source>") (utf8 "</source>") (framesOf [] blocks).1 0]
      exact (List.getElem?_eq_some_iff.mp hm).1
    have hp := List.getElem?_eq_getElem hi
    obtain ⟨l, hl, htag⟩ := sourceLabels_framesOf [] blocks hp
    rw [hlength] at hi
    rw [hlabels, List.getElem?_range' hi, Option.some.injEq] at hl
    have hgap := gap_before_mark [] (framesOf [] blocks).2 hp hm
    rw [List.nil_append, hopen, hclose, hframed] at hgap
    rw [show i + 1 = l by omega]
    exact htag.trans hgap
  case recovered =>
    rw [readSources, ← hframed, unframe_framed hclean, read_framesOf]

/-- The labelled texts are those of the sources in their order. -/
theorem Labelled.labelledTexts {em : List (AllowedEvidence × List Block)} (h : Labelled em) :
    (blocksOf em).filterMap Block.labelledText =
      ((sourcesOf em).zipIdx 1).map fun m => (m.2, m.1.2) := by
  have hlabels : ((blocksOf em).filterMap Block.labelledText).map Prod.fst =
      List.range' 1 (sourcesOf em).length := by
    rw [← h.sources, List.map_filterMap]
    congr 1
    funext b
    cases b <;> rfl
  have hlength := congrArg List.length hlabels
  rw [List.length_map, List.length_range'] at hlength
  apply List.ext_getElem
  · rw [List.length_map, List.length_zipIdx, hlength]
  · intro i h1 h2
    have hi : i < (sourcesOf em).length := hlength ▸ h1
    obtain ⟨b, hb, hlab⟩ := List.mem_filterMap.mp (List.getElem_mem h1)
    cases b with
    | relationship => cases hlab
    | source n text =>
      have hpair := Option.some.inj hlab
      have hn : n = i + 1 := by
        have hget : (((blocksOf em).filterMap Block.labelledText).map Prod.fst)[i]? = some n := by
          rw [List.getElem?_map, List.getElem?_eq_getElem h1, ← hpair, Option.map_some]
        rw [hlabels, List.getElem?_range' hi, Option.some.injEq] at hget
        omega
      obtain ⟨-, id, hsource⟩ := h.text n text hb
      rw [hn, Nat.add_sub_cancel, List.getElem?_eq_getElem hi, Option.some.injEq] at hsource
      rw [← hpair, List.getElem_map, List.getElem_zipIdx, hsource, hn, Nat.add_comm]

section Build

variable {counter : TokenCounter} {companyId query : Bytes} {evidence : List AllowedEvidence}
  {opts : ContextBuilderOptions} {out : PromptContext}

/-- The evidence part is the blocks of the accepted items. -/
theorem evidencePart_of_build (h : build counter companyId query evidence opts = .ok out) :
    out.evidencePart query =
        (blocksOf (emitted counter query evidence opts)).flatMap Block.render ∧
      out.userMessage = out.evidencePart query ++ queryBlock query := by
  obtain ⟨s, hr, -, -, hmessage, -⟩ := rendered_of_build h
  have hpart : out.evidencePart query = s.evidenceBlocks := by
    rw [PromptContext.evidencePart, hmessage, List.length_append, Nat.add_sub_cancel,
      List.take_left]
  exact ⟨hpart.trans hr.blocks, by rw [hpart, hmessage]⟩

theorem tagsSound_of_build (h : build counter companyId query evidence opts = .ok out) :
    TagsSound (out.evidencePart query) out.sourceChunkIds.length
      (((sourcesOf (emitted counter query evidence opts)).zipIdx 1).map fun m => (m.2, m.1.2)) := by
  obtain ⟨s, hr, hl, -, -, hids, -⟩ := rendered_of_build h
  rw [(evidencePart_of_build h).1, ← hl.labelledTexts]
  apply tagsSound_render
  rw [hl.sources, hids, hr.ids, List.length_map]

end Build

/-- For every evidence, with any bytes in its texts, headings, edge types, origins and review
states: before the query block the tags `<source>` and `</source>` are one pair for each source,
they take turns, the `i`-th pair follows the label `i`, and the labels with the texts of the cited
chunks are read back from the evidence part alone.  Two prompts with the same evidence part cite the
same texts. -/
theorem evidence_framing_unforgeable :
    (∀ (counter : TokenCounter) (companyId query : Bytes) (evidence : List AllowedEvidence)
      (opts : ContextBuilderOptions) (out : PromptContext),
      build counter companyId query evidence opts = .ok out →
      out.userMessage = out.evidencePart query ++ queryBlock query ∧
      (sourcesOf (emitted counter query evidence opts)).map Prod.fst = out.sourceChunkIds ∧
      TagsSound (out.evidencePart query) out.sourceChunkIds.length
        (((sourcesOf (emitted counter query evidence opts)).zipIdx 1).map fun m => (m.2, m.1.2))) ∧
    (∀ (counter counter' : TokenCounter) (companyId companyId' query query' : Bytes)
      (evidence evidence' : List AllowedEvidence) (opts opts' : ContextBuilderOptions)
      (out out' : PromptContext),
      build counter companyId query evidence opts = .ok out →
      build counter' companyId' query' evidence' opts' = .ok out' →
      out.evidencePart query = out'.evidencePart query' →
      (sourcesOf (emitted counter query evidence opts)).map Prod.snd =
        (sourcesOf (emitted counter' query' evidence' opts')).map Prod.snd) := by
  constructor
  · intro counter companyId query evidence opts out h
    obtain ⟨s, hr, -, -, -, hids, -⟩ := rendered_of_build h
    exact ⟨(evidencePart_of_build h).2, by rw [hids, hr.ids], tagsSound_of_build h⟩
  · intro counter counter' companyId companyId' query query' evidence evidence' opts opts' out out'
      h h' heq
    have htexts := (tagsSound_of_build h).recovered
    have htexts' := (tagsSound_of_build h').recovered
    rw [heq, htexts'] at htexts
    have hsnd := congrArg (List.map Prod.snd) htexts
    have hmap : ∀ l : List (Bytes × Bytes),
        ((l.zipIdx 1).map fun m => (m.2, m.1.2)).map Prod.snd = l.map Prod.snd := by
      intro l
      calc ((l.zipIdx 1).map fun m => (m.2, m.1.2)).map Prod.snd
          = ((l.zipIdx 1).map Prod.fst).map Prod.snd := by rw [List.map_map, List.map_map]; rfl
        _ = l.map Prod.snd := by rw [List.zipIdx_map_fst]
    rw [hmap, hmap] at hsnd
    exact hsnd.symm

/-- The tags of `handbookPrompt`, and the texts that are read back from it. -/
theorem handbook_framing :
    handbookPrompt.sourceChunkIds.length = 2 ∧
      readSources (handbookPrompt.evidencePart (utf8 "How long?")) =
        [(1, utf8 "Leave is 25 days."), (2, utf8 "Ask HR.")] := by
  obtain ⟨-, -, htags⟩ := evidence_framing_unforgeable.1 byteUpperBoundTokenCounter (utf8 "acme")
    (utf8 "How long?") handbookEvidence handbookOptions handbookPrompt build_handbookEvidence
  refine ⟨rfl, htags.recovered.trans ?_⟩
  decide +kernel

end Wikore.ContextBuilder
