import Wikore.Ingest.SectionBuilders
import Wikore.Ingest.TagStripping

/-! What `PlainTextParser` keeps of a plain text: its lines, as headings and as lines of the bodies,
but for the empty lines that no text of the section comes before. -/

namespace Wikore.Parser

open Chunker (ParsedSection preorder preorders)
open ContextBuilder (Bytes Error utf8)

/-- The line of a heading, which says the depth of its section. -/
def headingLine (heading : Bytes) (depth : Nat) : Bytes :=
  List.replicate depth 35 ++ 32 :: heading

/-- One to six marks and a blank begin a heading. -/
def isHeading (line : Bytes) : Bool :=
  [1, 2, 3, 4, 5, 6].any fun n => (headingLine [] n).isPrefixOf line

inductive Piece where
  | heading (line : Bytes)
  | body (line : Bytes)
deriving DecidableEq

def linePiece (line : Bytes) : Piece := if isHeading line then .heading line else .body line

/-- The pieces without the empty lines before the first other line of a body; `started` says that
there has been one. -/
def dropBlank (started : Bool) : List Piece → List Piece
  | [] => []
  | .heading line :: ps => .heading line :: dropBlank false ps
  | .body line :: ps =>
    if started = false ∧ line = [] then dropBlank false ps else .body line :: dropBlank true ps

/-- The lines of a text that is joined of lines by newlines. -/
def bodyLines (text : Bytes) : List Bytes :=
  if text = [] then [] else text.splitOnP fun c => c = 10

/-- The pieces that a section was made of.  Only the section before all headings has no line of its
own. -/
def written (heading : Bytes) (depth : Nat) (text : Bytes) : List Piece :=
  (if depth = 0 then [] else [.heading (headingLine heading depth)]) ++ (bodyLines text).map .body

/-! ### The lines -/

theorem marks_eq (n : Nat) (title : Bytes) :
    ((headingLine title n).takeWhile fun c => c = 35).length = n := by
  unfold headingLine
  have hall : ∀ b ∈ List.replicate n (35 : UInt8), decide (b = 35) = true := fun b hb =>
    decide_eq_true (List.eq_of_mem_replicate hb)
  rw [List.takeWhile_append_of_pos hall, List.takeWhile_cons_of_neg (by decide), List.append_nil,
    List.length_replicate]

theorem isHeading_iff {line : Bytes} :
    isHeading line = true ↔ ∃ n title, 1 ≤ n ∧ n ≤ 6 ∧ line = headingLine title n := by
  unfold isHeading headingLine
  rw [List.any_eq_true]
  constructor
  · rintro ⟨n, hn, hpre⟩
    obtain ⟨title, rfl⟩ := List.isPrefixOf_iff_prefix.mp hpre
    have hbounds : ∀ n ∈ [1, 2, 3, 4, 5, 6], 1 ≤ n ∧ n ≤ 6 := by decide
    obtain ⟨hlow, hhigh⟩ := hbounds n hn
    exact ⟨n, title, hlow, hhigh, by simp⟩
  · rintro ⟨n, title, hlow, hhigh, rfl⟩
    refine ⟨n, ?_, List.isPrefixOf_iff_prefix.mpr ⟨title, by simp⟩⟩
    simp only [List.mem_cons, List.not_mem_nil, or_false]
    omega

/-- What the loop does with a line, as a piece. -/
theorem lineEvent_eq (line : Bytes) :
    (∃ depth title, lineEvent line = .heading depth title ∧ depth ≠ 0 ∧
      linePiece (dropReturns line) = .heading (headingLine title depth)) ∨
    lineEvent line = .text (dropReturns line) ∧
      linePiece (dropReturns line) = .body (dropReturns line) := by
  unfold lineEvent
  dsimp only
  generalize dropReturns line = line
  split
  next hmarks =>
    obtain ⟨hlow, hhigh, hblank⟩ := hmarks
    have hpre := List.prefix_iff_eq_take.mp
      (List.takeWhile_prefix (fun c : UInt8 => decide (c = 35)) (l := line))
    have hreplicate : line.takeWhile (fun c => decide (c = 35)) =
        List.replicate (line.takeWhile fun c => decide (c = 35)).length 35 := by
      refine List.eq_replicate_of_mem fun b hb => ?_
      exact of_decide_eq_true (List.mem_takeWhile_imp (p := fun c => decide (c = 35)) hb)
    generalize (line.takeWhile fun c => decide (c = 35)).length = n at *
    obtain ⟨hlt, hget⟩ := List.getElem?_eq_some_iff.mp hblank
    have hline : line = headingLine (line.drop (n + 1)) n := by
      rw [headingLine, ← hreplicate, hpre, ← hget, ← List.drop_eq_getElem_cons hlt,
        List.take_append_drop]
    refine .inl ⟨n, line.drop (n + 1), rfl, by omega, ?_⟩
    rw [← hline, linePiece, if_pos (isHeading_iff.mpr ⟨n, _, hlow, hhigh, hline⟩)]
  next hmarks =>
    refine .inr ⟨rfl, if_neg fun hheading => hmarks ?_⟩
    obtain ⟨n, title, hlow, hhigh, rfl⟩ := isHeading_iff.mp hheading
    rw [marks_eq]
    exact ⟨hlow, hhigh, by simp [headingLine]⟩

/-! ### The sections -/

def writtenEntries (es : List Entry) : List Piece :=
  es.flatMap fun e => written e.heading e.depth e.text

theorem writtenEntries_concat (es : List Entry) (e : Entry) :
    writtenEntries (es ++ [e]) = writtenEntries es ++ written e.heading e.depth e.text := by
  rw [writtenEntries, List.flatMap_append]
  exact congrArg (writtenEntries es ++ ·) (List.append_nil _)

/-- Whether the section opened last has a text. -/
def started (es : List Entry) : Bool := es.getLast?.any fun e => e.text ≠ []

theorem bodyLines_glue (text : Bytes) {line : Bytes} (hline : 10 ∉ line) :
    bodyLines (glue (utf8 "\n") line text) =
      if text = [] ∧ line = [] then [] else bodyLines text ++ [line] := by
  have hall : ∀ b ∈ line, decide (b = 10) = false := fun b hb =>
    decide_eq_false fun he => hline (he ▸ hb)
  unfold glue
  by_cases htext : text = []
  · rw [if_pos htext, List.nil_append]
    by_cases hnil : line = []
    · rw [if_pos ⟨htext, hnil⟩, bodyLines, if_pos hnil]
    · rw [if_neg fun h => hnil h.2, bodyLines, if_neg hnil, List.splitOnP_eq_singleton hall, htext]
      rfl
  · rw [if_neg htext, if_neg fun h => htext h.1]
    have hsplit : (text ++ 10 :: line).splitOnP (fun c => decide (c = 10)) =
        text.splitOnP (fun c => decide (c = 10)) ++ [line] := by
      rw [List.splitOnP_append_cons text line (by decide), List.splitOnP_eq_singleton hall]
    rw [List.append_assoc, show utf8 "\n" ++ line = 10 :: line from rfl, bodyLines,
      if_neg (by simp), hsplit, bodyLines, if_neg htext]

/-- A line is written once, and where the next one is due is known. -/
theorem written_receiveLine (es : List Entry) {line : Bytes} (hline : 10 ∉ dropReturns line)
    (ps : List Piece) :
    writtenEntries (receiveLine es (lineEvent line)) ++
        dropBlank (started (receiveLine es (lineEvent line))) ps =
      writtenEntries es ++ dropBlank (started es) (linePiece (dropReturns line) :: ps) := by
  rcases lineEvent_eq line with ⟨depth, title, hevent, hdepth, hpiece⟩ | ⟨hevent, hpiece⟩
  · rw [hevent, hpiece, receiveLine, writtenEntries_concat, List.append_assoc]
    simp [written, started, dropBlank, bodyLines, hdepth]
  · rw [hevent, hpiece]
    generalize dropReturns line = line at hline
    cases es using List.reverseRecOn with
    | nil =>
      by_cases hnil : line = []
      · simp [receiveLine, hnil, started, dropBlank]
      · have hbody := bodyLines_glue [] hline
        have hglue : glue (utf8 "\n") line [] = line := rfl
        rw [if_neg fun h => hnil h.2, hglue, show bodyLines [] = [] from rfl] at hbody
        simp [receiveLine, receive, onLast, Entry.setText, writtenEntries, written, started,
          dropBlank, hnil, hbody, hglue]
    | append_singleton init e =>
      have hbody := bodyLines_glue e.text hline
      rw [receiveLine, if_neg (by simp), receive, if_neg (by simp), onLast_concat,
        writtenEntries_concat, writtenEntries_concat]
      by_cases hskip : e.text = [] ∧ line = []
      · rw [if_pos hskip] at hbody
        simp [Entry.setText, written, started, dropBlank, hskip.1, hskip.2, bodyLines, glue]
      · rw [if_neg hskip] at hbody
        have hglue : glue (utf8 "\n") line e.text ≠ [] := by
          intro hnil
          rw [hnil] at hbody
          simp [bodyLines] at hbody
        have hstart : ¬(started (init ++ [e]) = false ∧ line = []) := by
          simpa [started] using hskip
        rw [dropBlank, if_neg hstart]
        simp [Entry.setText, written, started, hbody, hglue]
        rfl

theorem written_foldl (lines : List Bytes) (es : List Entry)
    (hlines : ∀ line ∈ lines, 10 ∉ dropReturns line) :
    writtenEntries ((lines.map lineEvent).foldl receiveLine es) =
      writtenEntries es ++
        dropBlank (started es) (lines.map fun line => linePiece (dropReturns line)) := by
  induction lines generalizing es with
  | nil => simp [dropBlank]
  | cons line lines ih =>
    have hstep := written_receiveLine es (hlines line List.mem_cons_self)
      (lines.map fun line => linePiece (dropReturns line))
    rw [List.map_cons, List.foldl_cons, ih _ fun l hl => hlines l (List.mem_cons_of_mem line hl),
      hstep, List.map_cons]

/-! ### The full text -/

/-- `append_text`, of one section. -/
def addText (out text : Bytes) : Bytes :=
  (if out ≠ [] ∧ text ≠ [] then out ++ utf8 "\n" else out) ++ text

mutual

theorem accumText_eq : ∀ (sec : ParsedSection) (out : Bytes),
    accumText sec out = ((preorder sec).map ParsedSection.text).foldl addText out
  | ⟨_, _, text, children, _⟩, out => accumTexts_eq children (addText out text)

theorem accumTexts_eq : ∀ (ss : List ParsedSection) (out : Bytes),
    accumTexts ss out = ((preorders ss).map ParsedSection.text).foldl addText out
  | [], _ => rfl
  | sec :: rest, out => by
    rw [accumTexts, accumText_eq sec out, accumTexts_eq rest, preorders, List.map_append,
      List.foldl_append]

end

theorem foldl_addText (texts : List Bytes) {out : Bytes} (hout : out ≠ []) :
    texts.foldl addText out = [10].intercalate (out :: texts.filter fun t => t ≠ []) := by
  induction texts generalizing out with
  | nil => simp
  | cons t texts ih =>
    rw [List.foldl_cons]
    by_cases ht : t = []
    · have hadd : addText out t = out := by simp [addText, ht]
      rw [hadd, ih hout, List.filter_cons_of_neg (by simpa using ht)]
    · have hadd : addText out t = out ++ 10 :: t := by
        rw [addText, if_pos ⟨hout, ht⟩, List.append_assoc]
        rfl
      rw [hadd, ih (by simp), List.filter_cons_of_pos (by simpa using ht)]
      cases texts.filter fun t => t ≠ [] <;> simp

/-- The texts that are not empty, with line feeds between them. -/
theorem foldl_addText_nil (texts : List Bytes) :
    texts.foldl addText [] = [10].intercalate (texts.filter fun t => t ≠ []) := by
  induction texts with
  | nil => rfl
  | cons t texts ih =>
    have hadd : addText [] t = t := rfl
    rw [List.foldl_cons, hadd]
    by_cases ht : t = []
    · rw [ht, ih, List.filter_cons_of_neg (by simp)]
    · rw [foldl_addText texts ht, List.filter_cons_of_pos (by simpa using ht)]

theorem accumTexts_nil (ss : List ParsedSection) :
    accumTexts ss [] =
      [10].intercalate (((preorders ss).map ParsedSection.text).filter fun t => t ≠ []) := by
  rw [accumTexts_eq]
  exact foldl_addText_nil _

/-! ### The document -/

theorem dropReturns_not_mem {line : Bytes} (h : 10 ∉ line) : 10 ∉ dropReturns line := fun hm =>
  h ((List.rdropWhile_prefix _ _).subset hm)

/-- The sections of the lines of a text are written by the lines. -/
theorem written_plainSections (text : Bytes) :
    (preorders (plainSections (readLines text))).flatMap
        (fun sec => written sec.heading sec.depth sec.text) =
      dropBlank false ((Lines.cut 10 text).map fun line => linePiece (dropReturns line)) := by
  obtain ⟨m, -, hsections, hrows⟩ :=
    plainMemory_lawful (fun _ => false) ((Lines.cut 10 text).map lineEvent)
  have hentries := congrArg (List.map Prod.snd) hrows
  rw [map_rowsOfAll, lawfulRows_entries, hsections, ← readLines_eq] at hentries
  have hfold := written_foldl (Lines.cut 10 text) [] fun line hline =>
    dropReturns_not_mem (Lines.not_mem_of_mem_cut hline)
  have hplain : writtenEntries (plainEntries ((Lines.cut 10 text).map lineEvent)) =
      writtenEntries (((Lines.cut 10 text).map lineEvent).foldl receiveLine []) := by
    unfold plainEntries
    dsimp only
    split
    next hnil =>
      rw [hnil]
      rfl
    next => rfl
  rw [← hentries, writtenEntries, List.flatMap_map, hfold] at hplain
  exact hplain

/-- Of a plain text the sections, depth first, write its lines again, but for the empty ones that
no text of their section comes before; a line is that of a heading exactly when it begins with one
to six marks and a blank. -/
theorem PlainTextParser.parse_preserves {content filename mimeType : Bytes} {doc : ParsedDocument}
    (h : PlainTextParser.parse content filename mimeType = .ok doc)
    (hplain : doc.mimeType = plainMime) :
    ∃ stripped, stripUnicodeTags content = .ok stripped ∧
      (preorders doc.sections).flatMap (fun sec => written sec.heading sec.depth sec.text) =
        dropBlank false ((Lines.cut 10 stripped).map fun line => linePiece (dropReturns line)) ∧
      doc.fullText = [10].intercalate
        (((preorders doc.sections).map ParsedSection.text).filter fun text => text ≠ []) := by
  unfold PlainTextParser.parse at h
  obtain ⟨resolvedMime, -, h⟩ := Fallible.bind_ok.mp h
  obtain ⟨-, h⟩ := Fallible.rejectIf_bind_ok.mp h
  obtain ⟨stripped, hstripped, h⟩ := Fallible.bind_ok.mp h
  obtain ⟨normalized, hnormalized, h⟩ := Fallible.bind_ok.mp h
  cases h
  obtain rfl : resolvedMime = plainMime := hplain
  have hsame : normalized = stripped := by
    rw [sanitized, if_neg (by decide)] at hnormalized
    exact (Except.ok.inj hnormalized).symm
  subst hsame
  exact ⟨normalized, hstripped, written_plainSections normalized, accumTexts_nil _⟩

/-- A preamble of empty lines, a heading, and a body with an empty line before it and one in it. -/
def notes : Bytes := utf8 "\n\n## A\n\nb\n\nc\n"

theorem notes_preserved : ∃ doc, PlainTextParser.parse notes (utf8 "notes.txt") [] = .ok doc ∧
    ∃ stripped, stripUnicodeTags notes = .ok stripped ∧
      (preorders doc.sections).flatMap (fun sec => written sec.heading sec.depth sec.text) =
        dropBlank false ((Lines.cut 10 stripped).map fun line => linePiece (dropReturns line)) ∧
      doc.fullText = [10].intercalate
        (((preorders doc.sections).map ParsedSection.text).filter fun text => text ≠ []) := by
  have hstrip : stripUnicodeTags notes = .ok notes :=
    stripUnicodeTags_ascii (Utf8.ascii_of_all (by decide))
  have hresolve : resolveTextMime notes (utf8 "notes.txt") [] = .ok plainMime := rfl
  have hparse : PlainTextParser.parse notes (utf8 "notes.txt") [] =
      .ok ⟨utf8 "notes.txt", plainMime, plainSections (readLines notes),
        accumTexts (plainSections (readLines notes)) []⟩ := by
    refine Fallible.bind_ok.mpr ⟨plainMime, hresolve, ?_⟩
    refine Fallible.rejectIf_bind_ok.mpr ⟨fun h => h.1 rfl, ?_⟩
    exact Fallible.bind_ok.mpr ⟨notes, hstrip, rfl⟩
  exact ⟨_, hparse, PlainTextParser.parse_preserves hparse rfl⟩

end Wikore.Parser
