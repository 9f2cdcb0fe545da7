import Wikore.Ingest.Chunker
import Wikore.Ingest.PlainTextContent

/-! From a text file to its chunks: every word of a line of the file is whole in a chunk that carries
the title that the line stands under. -/

namespace Wikore.Parser

open Chunker (ParsedSection SectionChunks isWord isspace preorders substr sectionsOf)
open ContextBuilder (Bytes Error utf8)
open Runs (IsRun)

/-- The title that what follows these lines stands under: that of the last heading. -/
def titleOver (lines : List Bytes) : Bytes :=
  lines.foldl (fun title line =>
    match lineEvent line with
    | .heading _ newTitle => newTitle
    | .text _ => title) []

/-- The section has the line whole among the lines of its text. -/
structure HasLine (line : Bytes) (e : Entry) : Prop where
  split : ∃ before after, e.text = before ++ (line ++ after) ∧
    (∀ c ∈ before.getLast?, c = 10) ∧ ∀ c ∈ after.head?, c = 10

section Lines

variable {line more : Bytes} {es : List Entry} {e : Entry}

theorem HasLine.glue (h : HasLine line e) (hline : line ≠ []) :
    HasLine line (e.setText (glue (utf8 "\n") more)) := by
  obtain ⟨before, after, htext, hbefore, hafter⟩ := h
  have hne : e.text ≠ [] := by
    rw [htext]
    exact List.append_ne_nil_of_right_ne_nil before (List.append_ne_nil_of_left_ne_nil hline after)
  refine ⟨before, after ++ 10 :: more, ?_, hbefore, ?_⟩
  · rw [Entry.setText, Parser.glue, if_neg hne, htext]
    simp [show utf8 "\n" = [10] from rfl]
  · cases after with
    | nil => simp
    | cons c after => exact hafter

theorem hasLine_setText (line : Bytes) (e : Entry) :
    HasLine line (e.setText (glue (utf8 "\n") line)) := by
  refine ⟨if e.text = [] then [] else e.text ++ utf8 "\n", [], ?_, ?_, by simp⟩
  · rw [List.append_nil, Entry.setText, glue]
  · split
    · simp
    · simp [show utf8 "\n" = [10] from rfl]

/-- A line that is read leaves the lines of the sections as they are. -/
theorem exists_hasLine_receiveLine {title : Bytes} (hline : line ≠ []) (event : Event)
    (h : ∃ e ∈ es, e.heading = title ∧ HasLine line e) :
    ∃ e ∈ receiveLine es event, e.heading = title ∧ HasLine line e := by
  obtain ⟨e, he, htitle, hin⟩ := h
  cases event with
  | heading depth newTitle => exact ⟨e, List.mem_append_left _ he, htitle, hin⟩
  | text more =>
    have hne : es ≠ [] := List.ne_nil_of_mem he
    rw [receiveLine, if_neg fun hboth => hne hboth.2, receive, if_neg hne]
    cases es using List.reverseRecOn with
    | nil => exact absurd rfl hne
    | append_singleton init last =>
      rw [onLast_concat]
      rcases List.mem_append.mp he with hinit | hlast
      · exact ⟨e, List.mem_append_left _ hinit, htitle, hin⟩
      · obtain rfl := List.mem_singleton.mp hlast
        exact ⟨_, List.mem_append_right _ (List.mem_singleton_self _), htitle, hin.glue hline⟩

/-- The section opened last has the title that the lines stand under. -/
theorem heading_receiveLine {title : Bytes} (event : Event)
    (h : (es.getLast?.map Entry.heading).getD [] = title) :
    ((receiveLine es event).getLast?.map Entry.heading).getD [] =
      match event with
      | .heading _ newTitle => newTitle
      | .text _ => title := by
  cases event with
  | heading depth newTitle => simp [receiveLine]
  | text more =>
    rw [receiveLine]
    split
    · exact h
    · cases es using List.reverseRecOn with
      | nil => simpa [receive, onLast, Entry.setText] using h
      | append_singleton init last =>
        rw [receive, if_neg (by simp), onLast_concat]
        simpa [Entry.setText] using h

theorem titleOver_concat (lines : List Bytes) (line : Bytes) : titleOver (lines ++ [line]) =
    match lineEvent line with
    | .heading _ newTitle => newTitle
    | .text _ => titleOver lines := by
  rw [titleOver, List.foldl_append]
  rfl

theorem heading_lines (lines : List Bytes) :
    ((((lines.map lineEvent).foldl receiveLine []).getLast?.map Entry.heading).getD []) =
      titleOver lines := by
  induction lines using List.reverseRecOn with
  | nil => rfl
  | append_singleton lines line ih =>
    rw [List.map_append, List.foldl_append, titleOver_concat]
    exact heading_receiveLine (lineEvent line) ih

/-- A line of a body is in the section of the title that it stands under. -/
theorem exists_entry (pre post : List Bytes) {raw : Bytes} (hbody : lineEvent raw = .text line)
    (hline : line ≠ []) :
    ∃ e ∈ plainEntries ((pre ++ raw :: post).map lineEvent),
      e.heading = titleOver pre ∧ HasLine line e := by
  have hread : ∃ e ∈ receiveLine ((pre.map lineEvent).foldl receiveLine []) (.text line),
      e.heading = titleOver pre ∧ HasLine line e := by
    have htitle := heading_lines pre
    generalize (pre.map lineEvent).foldl receiveLine [] = es at htitle
    rw [receiveLine, if_neg fun hboth => hline hboth.1]
    cases es using List.reverseRecOn with
    | nil => exact ⟨_, List.mem_singleton_self _, htitle, hasLine_setText line ⟨[], 0, []⟩⟩
    | append_singleton init last =>
      rw [receive, if_neg (by simp), onLast_concat]
      refine ⟨_, List.mem_append_right _ (List.mem_singleton_self _), ?_, hasLine_setText line last⟩
      simpa [Entry.setText] using htitle
  have hall : ∃ e ∈ ((pre ++ raw :: post).map lineEvent).foldl receiveLine [],
      e.heading = titleOver pre ∧ HasLine line e := by
    rw [List.map_append, List.foldl_append, List.map_cons, List.foldl_cons, hbody]
    generalize receiveLine ((pre.map lineEvent).foldl receiveLine []) (.text line) = es at hread
    induction post generalizing es with
    | nil => exact hread
    | cons next post ih =>
      exact ih _ (exists_hasLine_receiveLine hline (lineEvent next) hread)
  rw [plainEntries]
  split
  · rename_i hnil
    obtain ⟨e, he, -⟩ := hall
    rw [hnil] at he
    cases he
  · exact hall

/-! ### The sizes of the texts -/

/-- No text is longer than the lines that it is joined of. -/
theorem length_text_receiveLine {lines : List Bytes} (raw : Bytes)
    (h : ∀ e ∈ es, e.text = [] ∨ e.text.length + 1 ≤ (Lines.joined [10] lines).length) :
    ∀ e ∈ receiveLine es (lineEvent raw),
      e.text = [] ∨ e.text.length + 1 ≤ (Lines.joined [10] (lines ++ [raw])).length := by
  have hjoined : (Lines.joined [10] (lines ++ [raw])).length =
      (Lines.joined [10] lines).length + (raw.length + 1) := by
    simp [Lines.joined]
  have hdrop : (dropReturns raw).length ≤ raw.length := (List.rdropWhile_prefix _ _).length_le
  have hold : ∀ e ∈ es, e.text = [] ∨
      e.text.length + 1 ≤ (Lines.joined [10] (lines ++ [raw])).length := by
    intro e he
    exact (h e he).imp_right fun hle => by omega
  rcases lineEvent_eq raw with ⟨depth, title, hevent, -⟩ | ⟨hevent, -⟩
  · rw [hevent, receiveLine]
    intro e he
    rcases List.mem_append.mp he with he | he
    · exact hold e he
    · obtain rfl := List.mem_singleton.mp he
      exact .inl rfl
  · rw [hevent, receiveLine]
    split
    · exact hold
    · have hglue : ∀ e : Entry, (e.text = [] ∨
          e.text.length + 1 ≤ (Lines.joined [10] lines).length) →
          ((e.setText (glue (utf8 "\n") (dropReturns raw))).text.length + 1 ≤
            (Lines.joined [10] (lines ++ [raw])).length) := by
        intro e he
        rw [Entry.setText, glue, List.length_append]
        split
        · simp only [List.length_nil]
          omega
        · rename_i hne
          have hle := he.resolve_left hne
          rw [List.length_append, show (utf8 "\n").length = 1 from rfl]
          omega
      cases es using List.reverseRecOn with
      | nil =>
        intro e he
        obtain rfl := List.mem_singleton.mp he
        exact .inr (hglue ⟨[], 0, []⟩ (.inl rfl))
      | append_singleton init last =>
        rw [receive, if_neg (by simp), onLast_concat]
        intro e he
        rcases List.mem_append.mp he with he | he
        · exact hold e (List.mem_append_left _ he)
        · obtain rfl := List.mem_singleton.mp he
          exact .inr (hglue last (h last (by simp)))

theorem length_text_lines (lines : List Bytes) :
    ∀ e ∈ plainEntries (lines.map lineEvent),
      e.text.length ≤ (Lines.joined [10] lines).length := by
  have hall : ∀ e ∈ (lines.map lineEvent).foldl receiveLine [],
      e.text = [] ∨ e.text.length + 1 ≤ (Lines.joined [10] lines).length := by
    induction lines using List.reverseRecOn with
    | nil => simp
    | append_singleton lines line ih =>
      rw [List.map_append, List.foldl_append]
      exact length_text_receiveLine line ih
  rw [plainEntries]
  split
  · intro e he
    obtain rfl := List.mem_singleton.mp he
    exact Nat.zero_le _
  · intro e he
    rcases hall e he with hnil | hle
    · rw [hnil]
      exact Nat.zero_le _
    · omega

end Lines

theorem length_joined_cut (text : Bytes) :
    (Lines.joined [10] (Lines.cut 10 text)).length ≤ text.length + 1 := by
  have hcons : ∀ (line : Bytes) (ls : List Bytes), (Lines.joined [10] (line :: ls)).length =
      line.length + 1 + (Lines.joined [10] ls).length := by
    intro line ls
    rw [Lines.joined, List.flatMap_cons, List.length_append, List.length_append]
    rfl
  induction text with
  | nil => exact Nat.zero_le 1
  | cons c cs ih =>
    rw [Lines.cut]
    split
    · rw [hcons, List.length_nil, List.length_cons]
      omega
    · split
      · rw [hcons]
        simp [Lines.joined]
      · rename_i line lines hcut
        rw [hcut, hcons] at ih
        rw [hcons, List.length_cons, List.length_cons]
        omega

theorem length_stripUnicodeTags {input output : Bytes} (h : stripUnicodeTags input = .ok output) :
    output.length ≤ input.length := by
  induction input using stripUnicodeTags.induct generalizing output with
  | case1 =>
    rw [stripUnicodeTags, if_pos rfl] at h
    cases h
    exact Nat.le_refl _
  | case2 input hne hnone =>
    rw [stripUnicodeTags, if_neg hne] at h
    split at h
    · cases h
    next hsome =>
      rw [hnone] at hsome
      cases hsome
  | case3 input hne codepoint width hsome ih =>
    rw [stripUnicodeTags, if_neg hne] at h
    split at h
    · cases h
    next hsome' =>
      rw [hsome] at hsome'
      cases hsome'
      obtain ⟨rest, hrest, h⟩ := Fallible.bind_ok.mp h
      have hle := ih hrest
      rw [List.length_drop] at hle
      split at h
      · cases h
        rw [List.length_append, List.length_take]
        omega
      · cases h
        omega

theorem length_stripMarkdownHtml {output rest out : Bytes}
    (h : stripMarkdownHtml output rest = .ok out) : out.length ≤ output.length + rest.length := by
  induction output, rest using stripMarkdownHtml.induct with
  | case1 output =>
    rw [stripMarkdownHtml] at h
    cases h
    exact Nat.le_refl _
  | case2 output c cs e he =>
    rw [stripMarkdownHtml] at h
    split at h
    · cases h
    next hok =>
      rw [he] at hok
      cases hok
  | case3 output c cs add next hadd ih =>
    rw [stripMarkdownHtml] at h
    split at h
    · cases h
    next hok =>
      rw [hadd] at hok
      cases hok
      have hle := ih h
      rw [List.length_append] at hle
      rcases stripMarkup_ok hadd with ⟨-, he⟩ | ⟨rfl, -, m, rfl⟩
      · have hlen := congrArg List.length he
        rw [List.length_append] at hlen
        omega
      · simp only [List.length_nil, List.length_cons, List.length_append] at hle ⊢
        omega

theorem length_sanitized {mime text normalized : Bytes} (h : sanitized mime text = .ok normalized) :
    normalized.length ≤ text.length := by
  unfold sanitized at h
  split at h
  · exact (length_stripMarkdownHtml h).trans (by simp)
  · cases h
    exact Nat.le_refl _

/-! ### The words -/

theorem isWord_append {before line after : Bytes} {i : Nat} (h : i < line.length) :
    isWord (before ++ (line ++ after)) (before.length + i) = isWord line i := by
  rw [isWord, isWord, List.getElem?_append_right (Nat.le_add_right _ _), Nat.add_sub_cancel_left,
    List.getElem?_append_left h]

/-- A word of a line is a word of the text that the line is in. -/
theorem isRun_of_line {before line after : Bytes} {a b : Nat}
    (hbefore : ∀ c ∈ before.getLast?, c = 10) (hafter : ∀ c ∈ after.head?, c = 10)
    (run : IsRun (isWord line) line.length a b) :
    IsRun (isWord (before ++ (line ++ after))) (before ++ (line ++ after)).length
      (before.length + a) (before.length + b) := by
  have hlt := run.lt
  have hle := run.le
  refine ⟨by omega, by simp only [List.length_append]; omega, fun i hi hi' => ?_, fun i hi => ?_,
    fun hb => ?_⟩
  · obtain ⟨j, rfl⟩ := Nat.exists_eq_add_of_le (Nat.le_trans (Nat.le_add_right _ _) hi)
    rw [isWord_append (by omega)]
    exact run.inside j (by omega) (by omega)
  · by_cases ha : a = 0
    · have hlast : before.getLast? = some 10 := by
        rw [List.getLast?_eq_getElem?]
        rw [List.getLast?_eq_getElem?] at hbefore
        have hin : before.length - 1 < before.length := by omega
        rw [List.getElem?_eq_getElem hin] at hbefore ⊢
        rw [hbefore _ rfl]
      rw [isWord, List.getElem?_append_left (by omega),
        show i = before.length - 1 by omega, ← List.getLast?_eq_getElem?, hlast]
      rfl
    · rw [show i = before.length + (a - 1) by omega, isWord_append (by omega)]
      exact run.left (a - 1) (by omega)
  · by_cases hin : b < line.length
    · rw [isWord_append hin]
      exact run.right hin
    · have hhead : after.head? = some 10 := by
        cases after with
        | nil =>
          simp only [List.append_nil, List.length_append] at hb
          omega
        | cons c after => exact congrArg some (hafter c rfl)
      rw [isWord, List.getElem?_append_right (Nat.le_add_right _ _), Nat.add_sub_cancel_left,
        List.getElem?_append_right (by omega), show b - line.length = 0 by omega,
        ← List.head?_eq_getElem?, hhead]
      rfl

theorem exists_mem_left {α β : Type} {R : α → β → Prop} {xs : List α} {ys : List β}
    (h : List.Forall₂ R xs ys) {y : β} (hy : y ∈ ys) : ∃ x ∈ xs, R x y := by
  induction h with
  | nil => cases hy
  | cons hxy _ ih =>
    rcases List.mem_cons.mp hy with rfl | hy
    · exact ⟨_, List.mem_cons_self, hxy⟩
    · obtain ⟨x, hx, hr⟩ := ih hy
      exact ⟨x, List.mem_cons_of_mem _ hx, hr⟩

/-- The chunks of a section hold the words of the lines of its text. -/
theorem exists_chunk_of_line {documentVersionId companyId : String} {sec : ParsedSection}
    {part : List Chunker.Chunk} (hpart : SectionChunks documentVersionId companyId sec part)
    {line : Bytes} (hline : HasLine line (entryOf sec)) {a b : Nat}
    (run : IsRun (isWord line) line.length a b) :
    ∃ c ∈ part, substr line a (b - a) <:+: c.text ∧
      c.sectionHeading = if sec.heading = [] then none else some sec.heading := by
  obtain ⟨before, after, htext, hbefore, hafter⟩ := hline
  have htext : sec.text = before ++ (line ++ after) := htext
  obtain ⟨places, hplaced, hcover⟩ := hpart.placed
  have hrun := isRun_of_line hbefore hafter run
  rw [← htext] at hrun
  obtain ⟨⟨lo, hi⟩, hplace, hlo, hhi⟩ := hcover _ _ hrun
  obtain ⟨c, hc, hat⟩ := exists_mem_left hplaced hplace
  refine ⟨c, hc, ?_, (hpart.stamped c hc).2.2.2⟩
  have hlt := run.lt
  have hle := run.le
  have htextWord : substr (before ++ (line ++ after)) (before.length + a) (b - a) =
      substr line a (b - a) := by
    rw [substr, substr, List.drop_length_add_append, List.drop_append_of_le_length (by omega),
      List.take_append_of_le_length (by rw [List.length_drop]; omega)]
  have hword : substr line a (b - a) = substr c.text (before.length + a - lo) (b - a) := by
    dsimp only at hlo hhi
    rw [hat.text_eq, Chunker.substr_substr _ (by omega), htext, ← htextWord]
    congr 1
    omega
  rw [hword]
  exact ((List.take_prefix _ _).isInfix).trans (List.drop_suffix _ _).isInfix

/-- From a text file to its chunks: the sections of an accepted file, whatever ids they are given, are
chunked, and every word of a line that is no heading is whole in a chunk, which carries the title
that the line stands under. -/
theorem PlainTextParser.words_chunked {content filename mimeType : Bytes} {doc : ParsedDocument}
    (h : PlainTextParser.parse content filename mimeType = .ok doc) {sections : List ParsedSection}
    (hsections : (preorders sections).map entryOf = (preorders doc.sections).map entryOf)
    (documentVersionId companyId : String) :
    ∃ stripped normalized chunks, stripUnicodeTags content = .ok stripped ∧
      sanitized doc.mimeType stripped = .ok normalized ∧
      Chunker.chunk documentVersionId companyId ⟨sections, doc.fullText⟩ = some chunks ∧
      chunks.map Chunker.Chunk.chunkIndex = List.range chunks.length ∧
      ∀ pre raw post line, Lines.cut 10 normalized = pre ++ raw :: post →
        lineEvent raw = .text line → ∀ a b, IsRun (isWord line) line.length a b →
          ∃ c ∈ chunks, substr line a (b - a) <:+: c.text ∧
            c.sectionHeading = if titleOver pre = [] then none else some (titleOver pre) := by
  unfold PlainTextParser.parse at h
  obtain ⟨resolvedMime, hresolve, h⟩ := Fallible.bind_ok.mp h
  obtain ⟨-, h⟩ := Fallible.rejectIf_bind_ok.mp h
  obtain ⟨stripped, hstripped, h⟩ := Fallible.bind_ok.mp h
  obtain ⟨normalized, hnormalized, h⟩ := Fallible.bind_ok.mp h
  cases h
  have hsize : content.length ≤ kMaxInputBytes := by
    unfold resolveTextMime at hresolve
    obtain ⟨-, hresolve⟩ := Fallible.rejectIf_bind_ok.mp hresolve
    obtain ⟨hsize, -⟩ := Fallible.rejectIf_bind_ok.mp hresolve
    exact Nat.le_of_not_lt hsize
  -- the sections in preorder are those that the lines open
  have hentries : (preorders sections).map entryOf =
      plainEntries ((Lines.cut 10 normalized).map lineEvent) := by
    obtain ⟨m, -, hm, hrows⟩ :=
      plainMemory_lawful (fun _ => false) ((Lines.cut 10 normalized).map lineEvent)
    have he := congrArg (List.map Prod.snd) hrows
    rw [map_rowsOfAll, lawfulRows_entries, hm, ← readLines_eq] at he
    exact hsections.trans he
  have hne : sections ≠ [] := by
    rintro rfl
    have hnil : plainEntries ((Lines.cut 10 normalized).map lineEvent) = [] := hentries.symm
    unfold plainEntries at hnil
    dsimp only at hnil
    split at hnil
    · cases hnil
    · rename_i hsome
      exact hsome hnil
  have hflat : sectionsOf ⟨sections, accumTexts (plainSections (readLines normalized)) []⟩ =
      preorders sections := by
    rw [sectionsOf, if_neg (by simpa using hne)]
  have hlen : ∀ sec ∈ preorders sections, sec.text.length < 2 ^ 31 - Chunker.kMaxChars := by
    intro sec hsec
    have hin : entryOf sec ∈ plainEntries ((Lines.cut 10 normalized).map lineEvent) :=
      hentries ▸ List.mem_map_of_mem hsec
    have htext : sec.text.length ≤ _ := length_text_lines _ _ hin
    have hjoined := length_joined_cut normalized
    have hnorm := length_sanitized hnormalized
    have hstrip := length_stripUnicodeTags hstripped
    rw [kMaxInputBytes] at hsize
    rw [Chunker.kMaxChars]
    omega
  obtain ⟨parts, hchunk, hindex, hparts⟩ := Chunker.chunk_covers documentVersionId companyId
    ⟨sections, accumTexts (plainSections (readLines normalized)) []⟩ (hflat ▸ hlen)
  refine ⟨stripped, normalized, parts.flatten, hstripped, hnormalized, hchunk, hindex,
    fun pre raw post line hcut hbody a b run => ?_⟩
  have hline : line ≠ [] := by
    rintro rfl
    exact absurd run.le (Nat.not_le.mpr (Nat.lt_of_le_of_lt (Nat.zero_le a) run.lt))
  obtain ⟨e, he, htitle, hin⟩ := exists_entry pre post hbody hline
  rw [← hcut, ← hentries] at he
  obtain ⟨sec, hsec, rfl⟩ := List.mem_map.mp he
  rw [hflat] at hparts
  obtain ⟨part, hpart, hchunks⟩ := exists_mem_left hparts.flip hsec
  obtain ⟨c, hc, hword, hheading⟩ := exists_chunk_of_line hchunks hin run
  refine ⟨c, List.mem_flatten.mpr ⟨part, hpart, hc⟩, hword, ?_⟩
  have htitle : sec.heading = titleOver pre := htitle
  rw [hheading, htitle]

/-- A heading and a line under it. -/
def memo : Bytes := utf8 "# Plan\nship it\n"

theorem memo_chunked : ∃ chunks, Chunker.chunk "v1" "co1"
      ⟨plainSections (readLines memo), accumTexts (plainSections (readLines memo)) []⟩ =
        some chunks ∧
    ∃ c ∈ chunks, utf8 "ship" <:+: c.text ∧ c.sectionHeading = some (utf8 "Plan") := by
  have hstrip : stripUnicodeTags memo = .ok memo :=
    stripUnicodeTags_ascii (Utf8.ascii_of_all (by decide))
  have hresolve : resolveTextMime memo (utf8 "memo.txt") [] = .ok plainMime := rfl
  have hparse : PlainTextParser.parse memo (utf8 "memo.txt") [] =
      .ok ⟨utf8 "memo.txt", plainMime, plainSections (readLines memo),
        accumTexts (plainSections (readLines memo)) []⟩ := by
    refine Fallible.bind_ok.mpr ⟨plainMime, hresolve, ?_⟩
    refine Fallible.rejectIf_bind_ok.mpr ⟨fun h => h.1 rfl, ?_⟩
    exact Fallible.bind_ok.mpr ⟨memo, hstrip, rfl⟩
  obtain ⟨stripped, normalized, chunks, hs, hn, hchunk, -, hwords⟩ :=
    PlainTextParser.words_chunked hparse rfl "v1" "co1"
  cases hs.symm.trans hstrip
  cases hn
  have hletters : ∀ i < 4, isWord (utf8 "ship it") i = true := by decide
  have run : IsRun (isWord (utf8 "ship it")) (utf8 "ship it").length 0 4 :=
    ⟨by decide, by decide, fun i _ hi => hletters i hi, by simp, fun _ => rfl⟩
  obtain ⟨c, hc, hin, htitle⟩ := hwords [utf8 "# Plan"] (utf8 "ship it") [] (utf8 "ship it")
    rfl rfl 0 4 run
  exact ⟨chunks, hchunk, c, hc, hin, htitle⟩

end Wikore.Parser
