import Wikore.Ingest.PlainTextParser
import Wikore.Ingest.SectionLaw
import Wikore.Ingest.VisibleText
import Mathlib.Data.List.GetD

/-! `split_by_toc` of the PDF parser: the titles of the outline are found in a copy of the text in
lower case and with single blanks, and the text is cut at the places that a position map gives.
The cuts lose no byte but white space. -/

namespace Wikore.Parser

open Chunker (ParsedSection preorders isspace substr findFirstNotOf findLastNotOf)
open Chunker (findFirstNotOf_some)
open ContextBuilder (Bytes utf8)

/-- `std::string::substr`, which throws where the start is beyond the text. -/
def substrAt (s : Bytes) (pos count : Nat) : Option Bytes :=
  if pos ≤ s.length then some (substr s pos count) else none

/-! ### `normalise_text` -/

/-- Runs of blanks and tabs become one blank. -/
def collapseBlanks (lastSpace : Bool) : Bytes → Bytes
  | [] => []
  | c :: s =>
    if c = 32 ∨ c = 9 then (if lastSpace then [] else [32]) ++ collapseBlanks true s
    else c :: collapseBlanks false s

/-- Of consecutive newlines two are kept. -/
def squeezeLines (nlRun : Nat) : Bytes → Bytes
  | [] => []
  | c :: s =>
    if c = 10 then (if nlRun + 1 ≤ 2 then [c] else []) ++ squeezeLines (nlRun + 1) s
    else c :: squeezeLines 0 s

def normaliseText (text : Bytes) : Option Bytes :=
  let step1 := collapseBlanks false (text.map fun c => if c = 13 then 10 else c)
  let step2 := squeezeLines 0 step1
  match findFirstNotOf (utf8 " \n") step2, findLastNotOf (utf8 " \n") step2 with
  | some first, some last => substrAt step2 first (last - first + 1)
  | _, _ => some []

/-! ### The copy and the position map -/

/-- `normalise_for_cmp`; `ws` is whether white space has just been passed over. -/
def normaliseFrom (ws : Bool) : Bytes → Bytes
  | [] => []
  | c :: s =>
    if isspace c then normaliseFrom true s
    else (if ws then [32] else []) ++ tolower c :: normaliseFrom false s

def normaliseForCmp (s : Bytes) : Bytes := normaliseFrom false s

/-- The loop that fills `norm_to_orig`, and `ws_seen` after it. -/
def positionsFrom (wsSeen : Bool) (oi : Nat) : Bytes → List Nat × Bool
  | [] => ([], wsSeen)
  | c :: s =>
    if isspace c then positionsFrom true (oi + 1) s
    else
      let rest := positionsFrom false (oi + 1) s
      ((if wsSeen then [oi] else []) ++ oi :: rest.1, rest.2)

def normToOrig (fullText normText : Bytes) : List Nat :=
  let filled := positionsFrom false 0 fullText
  if filled.2 ∧ filled.1.length < normText.length then filled.1 ++ [fullText.length] else filled.1

def origPosOf (fullText : Bytes) (ni : Nat) : Nat :=
  (normToOrig fullText (normaliseForCmp fullText)).getD ni fullText.length

/-! ### `split_by_toc` -/

structure TocEntry where
  depth : Nat
  title : Bytes
deriving DecidableEq

structure Match where
  pos : Nat
  depth : Nat
  title : Bytes
deriving DecidableEq

/-- `norm_text.find(nt, cursor)`. -/
def find (normText nt : Bytes) (cursor : Nat) : Option Nat :=
  (Delimited.cut nt (normText.drop cursor)).map fun p => cursor + p.1.length

/-- Each title is searched after the end of the one found before it. -/
def findMatches (normText : Bytes) (cursor : Nat) : List TocEntry → List Match
  | [] => []
  | e :: es =>
    let nt := normaliseForCmp e.title
    if nt = [] then findMatches normText cursor es
    else match find normText nt cursor with
      | none => findMatches normText cursor es
      | some p => ⟨p, e.depth, e.title⟩ :: findMatches normText (p + nt.length) es

/-- Where the body before the matches ends. -/
def bodyEnd (fullText : Bytes) : List Match → Nat
  | [] => fullText.length
  | m :: _ => origPosOf fullText m.pos

/-- The loop over the matches. -/
def addSections (fullText : Bytes) : List Match → Outline → Option Outline
  | [], o => some o
  | m :: rest, o => do
    let bodyStart := origPosOf fullText (m.pos + (normaliseForCmp m.title).length)
    let bodyStart := min bodyStart (bodyEnd fullText rest)
    let body ← substrAt fullText bodyStart (bodyEnd fullText rest - bodyStart)
    let text ← normaliseText body
    addSections fullText rest (o.openSection ⟨m.title, m.depth, text, [], none⟩)

/-- `split_by_toc`, with what it returns and the sections after it; `none` is an exception. -/
def splitByToc (fullText : Bytes) (entries : List TocEntry) (sections : List ParsedSection) :
    Option (Bool × List ParsedSection) :=
  let found := findMatches (normaliseForCmp fullText) 0 entries
  if entries = [] ∨ found.length < entries.length / 2 + 1 then some (false, sections)
  else do
    let preamble ← substrAt fullText 0 (bodyEnd fullText found)
    let body ← normaliseText preamble
    let sections := if body = [] then sections else sections ++ [⟨[], 0, body, [], none⟩]
    let o ← addSections fullText found ⟨sections, []⟩
    return (!o.sections.isEmpty, o.sections)

/-! ### No byte is lost -/

theorem visible_collapseBlanks (lastSpace : Bool) (s : Bytes) :
    visible (collapseBlanks lastSpace s) = visible s := by
  induction s generalizing lastSpace with
  | nil => rfl
  | cons c s ih =>
    rw [collapseBlanks]
    split
    next hblank =>
      have hspace : isspace c = true := by
        rcases hblank with rfl | rfl <;> rfl
      rw [visible_append, ih, visible_cons_space hspace]
      cases lastSpace <;> rfl
    next => exact visible_cons_congr c (ih _)

theorem visible_squeezeLines (nlRun : Nat) (s : Bytes) :
    visible (squeezeLines nlRun s) = visible s := by
  induction s generalizing nlRun with
  | nil => rfl
  | cons c s ih =>
    rw [squeezeLines]
    split
    next hline =>
      obtain rfl := hline
      rw [visible_append, ih, visible_cons_space rfl]
      split <;> rfl
    next => exact visible_cons_congr c (ih _)

theorem visible_returns (s : Bytes) :
    visible (s.map fun c => if c = 13 then 10 else c) = visible s := by
  induction s with
  | nil => rfl
  | cons c s ih =>
    rw [List.map_cons]
    by_cases hc : c = 13
    · rw [if_pos hc, hc, visible_cons_space rfl, visible_cons_space rfl, ih]
    · rw [if_neg hc]
      exact visible_cons_congr c ih

theorem normaliseText_some (text : Bytes) :
    ∃ r, normaliseText text = some r ∧ visible r = visible text := by
  have hset : ∀ c ∈ utf8 " \n", (!isspace c) = false := fun c hc =>
    congrArg (!·) (List.all_eq_true.mp (show (utf8 " \n").all isspace = true by decide) c hc)
  have hkeep : visible (squeezeLines 0 (collapseBlanks false
      (text.map fun c => if c = 13 then 10 else c))) = visible text := by
    rw [visible_squeezeLines, visible_collapseBlanks, visible_returns]
  unfold normaliseText
  dsimp only
  generalize squeezeLines 0 _ = step2 at hkeep
  cases hfirst : findFirstNotOf (utf8 " \n") step2 with
  | none => exact ⟨[], rfl, (filter_of_findFirstNotOf_none hset hfirst).symm.trans hkeep⟩
  | some first =>
    cases hlast : findLastNotOf (utf8 " \n") step2 with
    | none =>
      have hnil := filter_eq_nil_of_mem hset (Chunker.findLastNotOf_none hlast)
      exact ⟨[], rfl, hnil.symm.trans hkeep⟩
    | some last =>
      have hle := (findFirstNotOf_some hfirst).1
      refine ⟨_, if_pos (Nat.le_of_lt hle), ?_⟩
      exact (filter_substr hset hfirst hlast).trans hkeep

theorem isspace_tolower (c : UInt8) : isspace (tolower c) = isspace c := by
  have hall : ∀ n < 256, isspace (tolower (UInt8.ofNat n)) = isspace (UInt8.ofNat n) := by
    decide +kernel
  simpa using hall c.toNat c.toNat_lt

theorem visible_normaliseFrom (ws : Bool) (s : Bytes) :
    visible (normaliseFrom ws s) = (visible s).map tolower := by
  induction s generalizing ws with
  | nil => rfl
  | cons c s ih =>
    rw [normaliseFrom]
    split
    next hspace => rw [ih, visible_cons_space hspace]
    next hspace =>
      have hspace : isspace c = false := Bool.eq_false_iff.mpr hspace
      have hblank : visible (if ws then [32] else []) = [] := by
        cases ws <;> rfl
      rw [visible_append, hblank, List.nil_append, visible_cons (isspace_tolower c ▸ hspace),
        visible_cons hspace, ih, List.map_cons]

/-! ### The position map -/

theorem length_positionsFrom (ws : Bool) (oi : Nat) (s : Bytes) :
    (positionsFrom ws oi s).1.length = (normaliseFrom ws s).length := by
  induction s generalizing ws oi with
  | nil => rfl
  | cons c s ih =>
    rw [positionsFrom, normaliseFrom]
    split
    · exact ih true (oi + 1)
    · have hrest := ih false (oi + 1)
      cases ws <;> simp [hrest]

theorem normToOrig_eq (s : Bytes) :
    normToOrig s (normaliseForCmp s) = (positionsFrom false 0 s).1 := by
  have hlen := length_positionsFrom false 0 s
  refine if_neg ?_
  rintro ⟨-, hlt⟩
  exact absurd hlt (Nat.not_lt.mpr (Nat.le_of_eq hlen.symm))

/-- The map has an entry for each byte of the copy. -/
theorem length_normToOrig (s : Bytes) :
    (normToOrig s (normaliseForCmp s)).length = (normaliseForCmp s).length := by
  rw [normToOrig_eq]
  exact length_positionsFrom false 0 s

theorem positionsFrom_sorted (ws : Bool) (oi : Nat) (s : Bytes) :
    (positionsFrom ws oi s).1.Pairwise (· ≤ ·) ∧
      ∀ x ∈ (positionsFrom ws oi s).1, oi ≤ x ∧ x ≤ oi + s.length := by
  induction s generalizing ws oi with
  | nil => exact ⟨.nil, by simp [positionsFrom]⟩
  | cons c s ih =>
    rw [positionsFrom, List.length_cons]
    split
    · obtain ⟨hsorted, hmem⟩ := ih true (oi + 1)
      refine ⟨hsorted, fun x hx => ?_⟩
      have := hmem x hx
      omega
    · obtain ⟨hsorted, hmem⟩ := ih false (oi + 1)
      have hle : ∀ x ∈ (positionsFrom false (oi + 1) s).1, oi ≤ x := by
        intro x hx
        have := hmem x hx
        omega
      have hbound : ∀ x ∈ (positionsFrom false (oi + 1) s).1, x ≤ oi + (s.length + 1) := by
        intro x hx
        have := hmem x hx
        omega
      cases ws with
      | false =>
        refine ⟨.cons hle hsorted, fun x hx => ?_⟩
        rcases List.mem_cons.mp hx with rfl | hx
        · omega
        · exact ⟨hle x hx, hbound x hx⟩
      | true =>
        refine ⟨.cons (fun x hx => ?_) (.cons hle hsorted), fun x hx => ?_⟩
        · rcases List.mem_cons.mp hx with rfl | hx
          · exact Nat.le_refl _
          · exact hle x hx
        · rcases List.mem_cons.mp hx with rfl | hx
          · omega
          · rcases List.mem_cons.mp hx with rfl | hx
            · omega
            · exact ⟨hle x hx, hbound x hx⟩

theorem getD_mono {l : List Nat} {d p q : Nat} (hsorted : l.Pairwise (· ≤ ·))
    (hd : ∀ x ∈ l, x ≤ d) (hpq : p ≤ q) : l.getD p d ≤ l.getD q d := by
  rcases Nat.lt_or_ge q l.length with hq | hq
  · have hp : p < l.length := Nat.lt_of_le_of_lt hpq hq
    rw [List.getD_eq_getElem l d hp, List.getD_eq_getElem l d hq]
    rcases Nat.eq_or_lt_of_le hpq with rfl | hlt
    · exact Nat.le_refl _
    · exact List.pairwise_iff_getElem.mp hsorted p q hp hq hlt
  · rw [List.getD_eq_default l d hq]
    rcases Nat.lt_or_ge p l.length with hp | hp
    · rw [List.getD_eq_getElem l d hp]
      exact hd _ (List.getElem_mem hp)
    · rw [List.getD_eq_default l d hp]

theorem origPosOf_mono (s : Bytes) {p q : Nat} (h : p ≤ q) : origPosOf s p ≤ origPosOf s q := by
  obtain ⟨hsorted, hmem⟩ := positionsFrom_sorted false 0 s
  unfold origPosOf
  rw [normToOrig_eq]
  exact getD_mono hsorted (fun x hx => by have := hmem x hx; omega) h

theorem origPosOf_le (s : Bytes) (p : Nat) : origPosOf s p ≤ s.length := by
  obtain ⟨-, hmem⟩ := positionsFrom_sorted false 0 s
  unfold origPosOf
  rw [normToOrig_eq]
  rcases Nat.lt_or_ge p (positionsFrom false 0 s).1.length with hp | hp
  · rw [List.getD_eq_getElem _ _ hp]
    have := hmem _ (List.getElem_mem hp)
    omega
  · rw [List.getD_eq_default _ _ hp]

/-- The text from the place of an index of the copy, and the copy from that index. -/
theorem visible_drop_positions (ws : Bool) (oi : Nat) (s : Bytes) (ni : Nat) :
    ∃ k ≤ s.length, (positionsFrom ws oi s).1.getD ni (oi + s.length) = oi + k ∧
      (visible (s.drop k)).map tolower = visible ((normaliseFrom ws s).drop ni) := by
  induction s generalizing ws oi ni with
  | nil => exact ⟨0, Nat.le_refl _, by simp [positionsFrom], by simp [normaliseFrom, visible]⟩
  | cons c s ih =>
    rw [positionsFrom, normaliseFrom, List.length_cons]
    split
    next hspace =>
      obtain ⟨k, hk, hpos, hvis⟩ := ih true (oi + 1) ni
      refine ⟨k + 1, by omega, ?_, hvis⟩
      rw [← Nat.add_assoc, Nat.add_right_comm, hpos]
      omega
    next hspace =>
      have hspace : isspace c = false := Bool.eq_false_iff.mpr hspace
      have hwhole : (visible (c :: s)).map tolower =
          visible (tolower c :: normaliseFrom false s) := by
        rw [visible_cons hspace, visible_cons (isspace_tolower c ▸ hspace), List.map_cons,
          visible_normaliseFrom]
      have hlater : ∀ n, ∃ k ≤ s.length + 1,
          (positionsFrom false (oi + 1) s).1.getD n (oi + (s.length + 1)) = oi + k ∧
            (visible ((c :: s).drop k)).map tolower =
              visible ((normaliseFrom false s).drop n) := by
        intro n
        obtain ⟨k, hk, hpos, hvis⟩ := ih false (oi + 1) n
        refine ⟨k + 1, by omega, ?_, hvis⟩
        rw [← Nat.add_assoc, Nat.add_right_comm, hpos]
        omega
      cases ws with
      | false =>
        cases ni with
        | zero => exact ⟨0, by omega, rfl, hwhole⟩
        | succ ni => exact hlater ni
      | true =>
        -- the blank and the byte after it have one place
        cases ni with
        | zero => exact ⟨0, by omega, rfl, hwhole⟩
        | succ ni =>
          cases ni with
          | zero => exact ⟨0, by omega, rfl, hwhole⟩
          | succ ni => exact hlater ni

theorem visible_drop (s : Bytes) (ni : Nat) :
    (visible (s.drop (origPosOf s ni))).map tolower = visible ((normaliseForCmp s).drop ni) := by
  obtain ⟨k, -, hpos, hvis⟩ := visible_drop_positions false 0 s ni
  rw [Nat.zero_add, Nat.zero_add] at hpos
  rw [origPosOf, normToOrig_eq, hpos]
  exact hvis

/-- A piece of the text, and the piece of the copy between the same indices. -/
theorem visible_piece (s : Bytes) {p q : Nat} (h : p ≤ q) :
    ∃ piece, s.drop (origPosOf s p) = piece ++ s.drop (origPosOf s q) ∧
      (visible piece).map tolower = visible (((normaliseForCmp s).drop p).take (q - p)) := by
  have hle := origPosOf_mono s h
  refine ⟨(s.drop (origPosOf s p)).take (origPosOf s q - origPosOf s p), ?_, ?_⟩
  · have hdrop : s.drop (origPosOf s q) =
        (s.drop (origPosOf s p)).drop (origPosOf s q - origPosOf s p) := by
      rw [List.drop_drop]
      congr 1
      omega
    rw [hdrop, List.take_append_drop]
  · have hp := visible_drop s p
    have hq := visible_drop s q
    have hsplit := List.take_append_drop (origPosOf s q - origPosOf s p)
      (s.drop (origPosOf s p))
    rw [List.drop_drop, show origPosOf s p + (origPosOf s q - origPosOf s p) = origPosOf s q by
      omega] at hsplit
    have hcopy := List.take_append_drop (q - p) ((normaliseForCmp s).drop p)
    rw [List.drop_drop, show p + (q - p) = q by omega] at hcopy
    rw [← hsplit, visible_append, List.map_append, hq, ← hcopy, visible_append] at hp
    exact List.append_cancel_right hp

/-! ### The matches -/

/-- The matches follow each other in the copy from `cursor` on. -/
def Found (normText : Bytes) : Nat → List Match → Prop
  | _, [] => True
  | cursor, m :: rest => cursor ≤ m.pos ∧
    (normText.drop m.pos).take (normaliseForCmp m.title).length = normaliseForCmp m.title ∧
    Found normText (m.pos + (normaliseForCmp m.title).length) rest

theorem find_some {normText nt : Bytes} {cursor p : Nat} (h : find normText nt cursor = some p) :
    cursor ≤ p ∧ (normText.drop p).take nt.length = nt := by
  obtain ⟨⟨before, after⟩, hcut, rfl⟩ := Option.map_eq_some_iff.mp h
  refine ⟨Nat.le_add_right _ _, ?_⟩
  have happ := Delimited.append_of_cut hcut
  rw [← List.drop_drop, happ, List.drop_left, List.take_left]

theorem findMatches_found (normText : Bytes) (cursor : Nat) (es : List TocEntry) :
    Found normText cursor (findMatches normText cursor es) := by
  induction es generalizing cursor with
  | nil => trivial
  | cons e es ih =>
    rw [findMatches]
    split
    · exact ih cursor
    · split
      · exact ih cursor
      next p hp =>
        obtain ⟨hle, htake⟩ := find_some hp
        exact ⟨hle, htake, ih _⟩

theorem findMatches_sublist (normText : Bytes) (cursor : Nat) (es : List TocEntry) :
    ((findMatches normText cursor es).map fun m => (⟨m.depth, m.title⟩ : TocEntry)).Sublist es := by
  induction es generalizing cursor with
  | nil => exact List.Sublist.refl []
  | cons e es ih =>
    rw [findMatches]
    split
    · exact (ih cursor).cons e
    · split
      · exact (ih cursor).cons e
      next p hp => exact (ih _).cons_cons e

/-- The bytes are those of the headings and the texts in turn, but for the case in headings. -/
def Reads : List Entry → Bytes → Prop
  | [], bytes => bytes = []
  | e :: es, bytes => ∃ title rest, bytes = title ++ (visible e.text ++ rest) ∧
    title.map tolower = (visible e.heading).map tolower ∧ Reads es rest

/-- The loop cuts the text at the places of the matches. -/
theorem addSections_spec {fullText : Bytes} {base : List ParsedSection} {o : Outline}
    {es : List Entry} {cursor : Nat} {ms : List Match}
    (h : Found (normaliseForCmp fullText) cursor ms) (hlaw : o.Law base es) :
    ∃ o' added, addSections fullText ms o = some o' ∧ o'.Law base (es ++ added) ∧
      (added.map fun e => (⟨e.depth, e.heading⟩ : TocEntry)) =
        (ms.map fun m => (⟨m.depth, m.title⟩ : TocEntry)) ∧
      Reads added (visible (fullText.drop (bodyEnd fullText ms))) := by
  induction ms generalizing o es cursor with
  | nil =>
    refine ⟨o, [], rfl, by rwa [List.append_nil], rfl, ?_⟩
    show visible (fullText.drop fullText.length) = []
    rw [List.drop_length]
    rfl
  | cons m rest ih =>
    obtain ⟨-, htake, hrest⟩ := h
    obtain ⟨title, htitle, hcase⟩ := visible_piece fullText
      (p := m.pos) (q := m.pos + (normaliseForCmp m.title).length) (Nat.le_add_right _ _)
    rw [Nat.add_sub_cancel_left, htake, normaliseForCmp, visible_normaliseFrom] at hcase
    -- the body is not empty backwards: the next title is found after this one
    have hle : origPosOf fullText (m.pos + (normaliseForCmp m.title).length) ≤
        bodyEnd fullText rest := by
      cases rest with
      | nil => exact origPosOf_le ..
      | cons next rest => exact origPosOf_mono fullText hrest.1
    have hend : bodyEnd fullText rest ≤ fullText.length := by
      cases rest with
      | nil => exact Nat.le_refl _
      | cons next rest => exact origPosOf_le ..
    generalize hstart : origPosOf fullText (m.pos + (normaliseForCmp m.title).length) = start
      at hle htitle
    obtain ⟨text, htext, hvis⟩ := normaliseText_some
      (substr fullText start (bodyEnd fullText rest - start))
    have hopen : (o.openSection ⟨m.title, m.depth, text, [], none⟩).Law base
        (es ++ [⟨m.title, m.depth, text⟩]) := hlaw.openSection rfl
    obtain ⟨o', added, hadd, hlaw', hmap, hreads⟩ := ih hrest hopen
    refine ⟨o', ⟨m.title, m.depth, text⟩ :: added, ?_, ?_, ?_, ?_⟩
    · rw [addSections, hstart, Nat.min_eq_left hle]
      rw [substrAt, if_pos (hle.trans hend)]
      show (normaliseText _).bind _ = _
      rw [htext]
      exact hadd
    · rw [List.append_assoc] at hlaw'
      exact hlaw'
    · rw [List.map_cons, List.map_cons, hmap]
    · refine ⟨visible title, visible (fullText.drop (bodyEnd fullText rest)), ?_, hcase, hreads⟩
      have hbody : fullText.drop start = substr fullText start (bodyEnd fullText rest - start) ++
          fullText.drop (bodyEnd fullText rest) := by
        have hsplit := List.take_append_drop (bodyEnd fullText rest - start)
          (fullText.drop start)
        rw [List.drop_drop, show start + (bodyEnd fullText rest - start) =
          bodyEnd fullText rest by omega] at hsplit
        exact hsplit.symm
      show visible (fullText.drop (origPosOf fullText m.pos)) = _
      rw [htitle, hbody, visible_append, visible_append, hvis]

/-- What `split_by_toc` makes of a text: a preamble, if any, and the sections of the entries that
were found, each under the nearest one before it that is less deep. -/
structure Splits (fullText : Bytes) (entries : List TocEntry) (sections preamble :
    List ParsedSection) (found : List Entry) : Prop where
  opening : preamble = [] ∨ ∃ text, preamble = [⟨[], 0, text, [], none⟩]
  titles : (found.map fun e => (⟨e.depth, e.heading⟩ : TocEntry)).Sublist entries
  rows : rowsOfAll none 0 sections =
    rowsOfAll none 0 preamble ++ lawfulRows (preorders preamble).length found
  reads : Reads (preamble.map entryOf ++ found) (visible fullText)

/-- The map has an entry for each byte of the copy, no `substr` throws, and a split loses nothing of
the text but white space and the case of letters in the headings. -/
theorem splitByToc_preserves (fullText : Bytes) (entries : List TocEntry) :
    (normToOrig fullText (normaliseForCmp fullText)).length =
        (normaliseForCmp fullText).length ∧
      ∃ split sections, splitByToc fullText entries [] = some (split, sections) ∧
        (split = true → ∃ preamble found, Splits fullText entries sections preamble found) := by
  refine ⟨length_normToOrig fullText, ?_⟩
  unfold splitByToc
  dsimp only
  split
  · exact ⟨false, [], rfl, nofun⟩
  have hfound := findMatches_found (normaliseForCmp fullText) 0 entries
  have hsublist := findMatches_sublist (normaliseForCmp fullText) 0 entries
  generalize findMatches (normaliseForCmp fullText) 0 entries = ms at hfound hsublist
  obtain ⟨body, hbody, hvis⟩ := normaliseText_some (substr fullText 0 (bodyEnd fullText ms))
  have hwhole : visible fullText =
      visible body ++ visible (fullText.drop (bodyEnd fullText ms)) := by
    rw [hvis, ← visible_append, substr, List.drop_zero, List.take_append_drop]
  rw [substrAt, if_pos (Nat.zero_le _)]
  generalize hpre : (if body = [] then [] else [⟨[], 0, body, [], none⟩] : List ParsedSection) = pre
  have hopening : (if body = [] then [] else [] ++ [⟨[], 0, body, [], none⟩] :
      List ParsedSection) = pre := by
    rw [List.nil_append]
    exact hpre
  obtain ⟨o, added, hadd, hlaw, hmap, hreads⟩ := addSections_spec hfound (Outline.law_nil pre)
  refine ⟨!o.sections.isEmpty, o.sections, ?_, fun _ => ⟨pre, added, ?_, ?_, ?_, ?_⟩⟩
  · show (normaliseText _).bind _ = _
    rw [hbody]
    show (addSections fullText ms ⟨if body = [] then [] else _, []⟩).bind _ = _
    rw [hopening, hadd]
    rfl
  · rw [← hpre]
    split
    · exact .inl rfl
    · exact .inr ⟨body, rfl⟩
  · rw [hmap]
    exact hsublist
  · exact hlaw.rows
  · rw [hwhole, ← hpre]
    split
    next hempty =>
      rw [hempty]
      exact hreads
    next => exact ⟨[], _, rfl, rfl, hreads⟩

/-- A title in other case than in the text, between a preamble and a body. -/
theorem splitByToc_one_title : ∃ sections preamble found,
    splitByToc (utf8 "x A  b y") [⟨1, utf8 "a B"⟩] [] = some (true, sections) ∧
      Splits (utf8 "x A  b y") [⟨1, utf8 "a B"⟩] sections preamble found := by
  obtain ⟨-, split, sections, hrun, hsplits⟩ :=
    splitByToc_preserves (utf8 "x A  b y") [⟨1, utf8 "a B"⟩]
  have htrue : (splitByToc (utf8 "x A  b y") [⟨1, utf8 "a B"⟩] []).map Prod.fst = some true := by
    decide
  rw [hrun] at htrue
  obtain rfl : split = true := Option.some.inj htrue
  obtain ⟨preamble, found, h⟩ := hsplits rfl
  exact ⟨sections, preamble, found, hrun, h⟩

end Wikore.Parser
