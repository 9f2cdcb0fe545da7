import Wikore.Lib.Runs
import Mathlib.Data.List.Basic
import Mathlib.Data.List.Chain
import Mathlib.Data.List.Forall2
import Mathlib.Algebra.Group.Nat.Defs

/-! `Chunker`: a parsed document is cut into chunks for embedding, section by section.  Texts are
the bytes of the source's strings. -/

namespace Wikore.Chunker

structure ParsedSection where
  heading : List UInt8
  depth : Nat
  text : List UInt8
  children : List ParsedSection
  dbId : Option String

structure ParsedDocument where
  sections : List ParsedSection
  fullText : List UInt8

structure Chunk where
  documentVersionId : String
  companyId : String
  chunkIndex : Nat
  text : List UInt8
  sectionId : Option String
  sectionHeading : Option (List UInt8)
deriving DecidableEq, Repr

def kMaxChars : Nat := 600

def kOverlap : Nat := 100

/-! ### The windows of one text -/

/-- `std::isspace` in the C locale. -/
def isspace (c : UInt8) : Bool :=
  c == 32 || (9 ≤ c && c ≤ 13)

/-- Whether the byte at `i` is one of a word; `i` is always a position of the text. -/
def isWord (text : List UInt8) (i : Nat) : Bool :=
  (text[i]?).any fun c => !isspace c

def isGap (text : List UInt8) (i : Nat) : Bool :=
  (text[i]?).any isspace

/-- `std::string::substr`. -/
def substr (s : List UInt8) (pos count : Nat) : List UInt8 :=
  (s.drop pos).take count

/-- `std::string::find_first_not_of`; `none` is `npos`. -/
def findFirstNotOf (set s : List UInt8) : Option Nat :=
  s.findIdx? fun c => c ∉ set

/-- `std::string::find_last_not_of`. -/
def findLastNotOf (set s : List UInt8) : Option Nat :=
  (s.reverse.findIdx? fun c => c ∉ set).map fun i => s.length - 1 - i

/-- The bytes `" \t\n\r"`, which are fewer than those of `isspace`. -/
def trimmed : List UInt8 := [32, 9, 10, 13]

/-- One pass of the loop of `split_text`: the window of the text from `pos` to before `stop`, which
the source calls `end`. -/
structure Window where
  pos : Nat
  stop : Nat
deriving DecidableEq, Repr

/-- The tentative end of the window, extended to the end of the word there. -/
def windowEnd (text : List UInt8) (len pos : Nat) : Nat :=
  Runs.scan (isWord text) len (min (pos + kMaxChars) len)

/-- The trimmed text of a window, unless the window has nothing else to keep. -/
def chunkText (text : List UInt8) (w : Window) : Option (List UInt8) :=
  let chunk := substr text w.pos (w.stop - w.pos)
  match findFirstNotOf trimmed chunk, findLastNotOf trimmed chunk with
  | some first, some last => some (substr chunk first (last - first + 1))
  | _, _ => none

/-- `kOverlap` bytes back from the end of the window, then forward to the start of a word. -/
def overlapStart (text : List UInt8) (w : Window) : Nat :=
  let back := max (w.pos + 1) (w.stop - kOverlap)
  Runs.scan (isGap text) w.stop (Runs.scan (isWord text) w.stop back)

/-- The position of the next pass; at `none` the loop breaks. -/
def nextPos (text : List UInt8) (len : Nat) (w : Window) : Option Nat :=
  match chunkText text w with
  | none => some w.stop
  | some _ =>
    if len ≤ w.stop then none
    else some (if w.pos < overlapStart text w then overlapStart text w else w.stop)

theorem windowEnd_le (text : List UInt8) (len pos : Nat) : windowEnd text len pos ≤ len :=
  Runs.scan_le _ (Nat.min_le_right ..)

theorem min_le_windowEnd (text : List UInt8) (len pos : Nat) :
    min (pos + kMaxChars) len ≤ windowEnd text len pos :=
  Runs.le_scan ..

theorem lt_windowEnd (text : List UInt8) {len pos : Nat} (h : pos < len) :
    pos < windowEnd text len pos := by
  have := min_le_windowEnd text len pos
  simp only [kMaxChars] at this
  omega

theorem lt_nextPos {text : List UInt8} {len : Nat} {w : Window} {next : Nat} (h : w.pos < w.stop)
    (hn : nextPos text len w = some next) : w.pos < next := by
  simp only [nextPos] at hn
  split at hn
  · simp only [Option.some.injEq] at hn
    omega
  · split at hn
    · simp at hn
    · simp only [Option.some.injEq] at hn
      split at hn <;> omega

/-- The windows of the passes of `split_text` from the position `pos` on.  `none` is a signed
overflow of `pos + kMaxChars`, which C++ leaves undefined. -/
def windows (text : List UInt8) (len pos : Nat) : Option (List Window) :=
  if h : pos < len then
    if pos + kMaxChars < 2 ^ 31 then
      let w : Window := ⟨pos, windowEnd text len pos⟩
      match hn : nextPos text len w with
      | none => some [w]
      | some next =>
        have : pos < next := lt_nextPos (lt_windowEnd text h) hn
        (windows text len next).map fun ws => w :: ws
    else none
  else some []
termination_by len - pos

/-- `static_cast<int>(n)` of a size.  Where it wraps to a negative number the loop makes no pass, as
at 0. -/
def intOfSize (n : Nat) : Nat :=
  if n % 2 ^ 32 < 2 ^ 31 then n % 2 ^ 32 else 0

/-! ### The chunks of a document -/

/-- `chunk_idx` and `out`, while the document is walked. -/
structure Cursor where
  chunkIdx : Nat
  out : List Chunk
deriving DecidableEq, Repr

section Walk

variable (documentVersionId companyId : String)

/-- `out.push_back` of a chunk, with `chunk_idx++`. -/
def push (sectionId : Option String) (sectionHeading : Option (List UInt8)) (s : Cursor)
    (text : List UInt8) : Cursor where
  chunkIdx := s.chunkIdx + 1
  out := s.out ++ [⟨documentVersionId, companyId, s.chunkIdx, text, sectionId, sectionHeading⟩]

def splitText (text : List UInt8) (sectionId : Option String)
    (sectionHeading : Option (List UInt8)) (s : Cursor) : Option Cursor :=
  if text = [] then some s
  else (windows text (intOfSize text.length) 0).map fun ws =>
    (ws.filterMap (chunkText text)).foldl
      (push documentVersionId companyId sectionId sectionHeading) s

mutual

def chunkSection : ParsedSection → Cursor → Option Cursor
  | ⟨heading, _, text, children, dbId⟩, s => do
    let secHeading := if heading = [] then none else some heading
    let s ← if text = [] then some s
      else splitText documentVersionId companyId text dbId secHeading s
    chunkSections children s

def chunkSections : List ParsedSection → Cursor → Option Cursor
  | [], s => some s
  | sec :: rest, s => do
    let s ← chunkSection sec s
    chunkSections rest s

end

/-- `Chunker::chunk`: a document without sections is one text with no heading. -/
def chunk (doc : ParsedDocument) : Option (List Chunk) :=
  if doc.sections.isEmpty then
    (splitText documentVersionId companyId doc.fullText none none ⟨0, []⟩).map Cursor.out
  else (chunkSections documentVersionId companyId doc.sections ⟨0, []⟩).map Cursor.out

end Walk

/-! ### Words and gaps -/

section Text

open Runs (Outside IsRun)

variable {text : List UInt8} {w : Window}

theorem isWord_eq {i : Nat} (h : i < text.length) : isWord text i = !isspace text[i] := by
  simp [isWord, h]

theorem isGap_eq {i : Nat} (h : i < text.length) : isGap text i = !isWord text i := by
  simp [isWord, isGap, h]

theorem isWord_of_mem_trimmed {i : Nat} (h : i < text.length) (hm : text[i] ∈ trimmed) :
    isWord text i = false := by
  have hs : ∀ c ∈ trimmed, isspace c = true := List.all_eq_true.mp (by decide)
  rw [isWord_eq h, hs _ hm]
  rfl

/-! ### The trimmed text of a window -/

theorem substr_substr (s : List UInt8) {a b i j : Nat} (h : i + j ≤ b) :
    substr (substr s a b) i j = substr s (a + i) j := by
  simp only [substr, List.drop_take, List.drop_drop, List.take_take]
  congr 1
  omega

theorem findFirstNotOf_some {set s : List UInt8} {first : Nat}
    (h : findFirstNotOf set s = some first) :
    first < s.length ∧ ∀ i (hi : i < s.length), i < first → s[i] ∈ set := by
  obtain ⟨hlt, -, hmem⟩ := List.findIdx?_eq_some_iff_getElem.mp h
  exact ⟨hlt, fun i hi hif => by simpa using hmem i hif⟩

theorem findFirstNotOf_none {set s : List UInt8} (h : findFirstNotOf set s = none) :
    ∀ c ∈ s, c ∈ set := by
  simpa [findFirstNotOf] using h

theorem findLastNotOf_some {set s : List UInt8} {last : Nat}
    (h : findLastNotOf set s = some last) :
    ∃ hl : last < s.length, s[last] ∉ set ∧ ∀ i (hi : i < s.length), last < i → s[i] ∈ set := by
  obtain ⟨j, hj, rfl⟩ := Option.map_eq_some_iff.mp h
  obtain ⟨hlt, hp, hmem⟩ := List.findIdx?_eq_some_iff_getElem.mp hj
  rw [List.length_reverse] at hlt
  refine ⟨by omega, by simpa using hp, fun i hi hlast => ?_⟩
  have hrev := hmem (s.length - 1 - i) (by omega)
  simpa [show s.length - 1 - (s.length - 1 - i) = i by omega] using hrev

theorem findLastNotOf_none {set s : List UInt8} (h : findLastNotOf set s = none) :
    ∀ c ∈ s, c ∈ set := by
  simpa [findLastNotOf] using h

theorem length_window (hs : w.stop ≤ text.length) :
    (substr text w.pos (w.stop - w.pos)).length = w.stop - w.pos := by
  simp only [substr, List.length_take, List.length_drop]
  omega

/-- A byte of the window that is one of the trimmed set is one of a gap. -/
theorem isWord_window {i : Nat} (hs : w.stop ≤ text.length) (h1 : w.pos ≤ i) (h2 : i < w.stop)
    (hm : ∀ hi : i - w.pos < (substr text w.pos (w.stop - w.pos)).length,
      (substr text w.pos (w.stop - w.pos))[i - w.pos] ∈ trimmed) : isWord text i = false := by
  have hmem := hm (by rw [length_window hs]; omega)
  simp only [substr, List.getElem_take, List.getElem_drop,
    show w.pos + (i - w.pos) = i by omega] at hmem
  exact isWord_of_mem_trimmed (by omega) hmem

/-- What a window keeps is a part of the text, and the rest of the window is gaps. -/
theorem chunkText_some {c : List UInt8} (hs : w.stop ≤ text.length)
    (h : chunkText text w = some c) :
    ∃ lo hi, w.pos ≤ lo ∧ lo < hi ∧ hi ≤ w.stop ∧ c = substr text lo (hi - lo) ∧
      (∀ i, w.pos ≤ i → i < lo → isWord text i = false) ∧
      ∀ i, hi ≤ i → i < w.stop → isWord text i = false := by
  have hlen := length_window hs
  simp only [chunkText] at h
  split at h
  · rename_i first last hfirst hlast
    obtain ⟨hflt, hbefore⟩ := findFirstNotOf_some hfirst
    obtain ⟨hllt, hkeep, hafter⟩ := findLastNotOf_some hlast
    have hle : first ≤ last := by
      by_contra hgt
      exact hkeep (hbefore last hllt (by omega))
    rw [Option.some.injEq, substr_substr text (by omega)] at h
    refine ⟨w.pos + first, w.pos + last + 1, by omega, by omega, by omega, ?_, fun i h1 h2 => ?_,
      fun i h1 h2 => ?_⟩
    · rw [← h]
      congr 1
      omega
    · exact isWord_window hs h1 (by omega) fun hi => hbefore _ hi (by omega)
    · exact isWord_window hs (by omega) h2 fun hi => hafter _ hi (by omega)
  · simp at h

theorem chunkText_none (hs : w.stop ≤ text.length) (h : chunkText text w = none) :
    ∀ i, w.pos ≤ i → i < w.stop → isWord text i = false := by
  have hall : ∀ c ∈ substr text w.pos (w.stop - w.pos), c ∈ trimmed := by
    simp only [chunkText] at h
    cases hfirst : findFirstNotOf trimmed (substr text w.pos (w.stop - w.pos)) with
    | none => exact findFirstNotOf_none hfirst
    | some first =>
      cases hlast : findLastNotOf trimmed (substr text w.pos (w.stop - w.pos)) with
      | none => exact findLastNotOf_none hlast
      | some last => simp [hfirst, hlast] at h
  intro i h1 h2
  exact isWord_window hs h1 h2 fun hi => hall _ (List.getElem_mem hi)

/-! ### The passes of the loop -/

theorem windowEnd_outside (text : List UInt8) (pos : Nat) :
    Outside (isWord text) text.length (windowEnd text text.length pos) := by
  rcases Nat.eq_or_lt_of_le (windowEnd_le text text.length pos) with heq | hlt
  · rw [heq]
    exact Runs.outside_end _ _
  · exact Runs.outside_of_not (Runs.scan_stops hlt)

/-- Away from the end of the text a window has at least `kMaxChars` bytes. -/
theorem le_windowEnd (text : List UInt8) (pos : Nat)
    (h : windowEnd text text.length pos < text.length) :
    pos + kMaxChars ≤ windowEnd text text.length pos := by
  have := min_le_windowEnd text text.length pos
  omega

theorem overlapStart_le (text : List UInt8) (hw : w.pos < w.stop) : overlapStart text w ≤ w.stop :=
  Runs.scan_le _ (Runs.scan_le _ (by omega))

theorem le_overlapStart (text : List UInt8) (w : Window) :
    max (w.pos + 1) (w.stop - kOverlap) ≤ overlapStart text w :=
  Nat.le_trans (Runs.le_scan ..) (Runs.le_scan ..)

/-- The next window starts outside the words: the second scan passed a gap, or had nothing to
pass because the first one reached the end of the window. -/
theorem overlapStart_outside (hw : w.pos < w.stop) (hs : w.stop ≤ text.length)
    (hstop : Outside (isWord text) text.length w.stop) :
    Outside (isWord text) text.length (overlapStart text w) := by
  have hle := overlapStart_le text hw
  simp only [overlapStart] at hle ⊢
  generalize hmid : Runs.scan (isWord text) w.stop (max (w.pos + 1) (w.stop - kOverlap)) = mid
    at hle ⊢
  rcases Nat.eq_or_lt_of_le (Runs.le_scan (isGap text) w.stop mid) with heq | hlt
  · rw [← heq] at hle ⊢
    rcases Nat.eq_or_lt_of_le hle with hend | hmlt
    · rw [hend]
      exact hstop
    · rw [← hmid] at hmlt ⊢
      exact Runs.outside_of_not (Runs.scan_stops hmlt)
  · obtain ⟨last, hlast⟩ : ∃ last, Runs.scan (isGap text) w.stop mid = last + 1 :=
      ⟨Runs.scan (isGap text) w.stop mid - 1, by omega⟩
    have hgap : isGap text last := Runs.scan_passes (i := mid) (by omega) (by rw [hlast]; omega)
    rw [isGap_eq (by omega)] at hgap
    rw [hlast]
    exact Runs.outside_succ_of_not (by simpa using hgap)

/-- What a pass leaves to the next one. -/
theorem nextPos_some {pos next : Nat} (h : pos < text.length)
    (hn : nextPos text text.length ⟨pos, windowEnd text text.length pos⟩ = some next) :
    Outside (isWord text) text.length next ∧ next ≤ windowEnd text text.length pos ∧
      (next < text.length → pos + (kMaxChars - kOverlap) ≤ next) := by
  have hw := lt_windowEnd text h
  have hend := windowEnd_outside text pos
  have hle := windowEnd_le text text.length pos
  have hfull := le_windowEnd text pos
  have hover := le_overlapStart text ⟨pos, windowEnd text text.length pos⟩
  simp only [nextPos] at hn
  simp only [kMaxChars, kOverlap] at *
  split at hn
  · obtain rfl := Option.some.inj hn
    exact ⟨hend, Nat.le_refl _, by omega⟩
  · split at hn
    · simp at hn
    · rw [if_pos (by omega)] at hn
      obtain rfl := Option.some.inj hn
      exact ⟨overlapStart_outside hw hle hend, overlapStart_le text hw, by omega⟩

/-- The windows of the passes from `pos` on, with the length of the text as it is. -/
inductive Passes (text : List UInt8) : Nat → List Window → Prop
  | done {pos : Nat} : text.length ≤ pos → Passes text pos []
  | last {pos : Nat} : pos < text.length → text.length ≤ windowEnd text text.length pos →
      Passes text pos [⟨pos, windowEnd text text.length pos⟩]
  | next {pos next : Nat} {ws : List Window} : pos < text.length →
      nextPos text text.length ⟨pos, windowEnd text text.length pos⟩ = some next →
      Passes text next ws → Passes text pos (⟨pos, windowEnd text text.length pos⟩ :: ws)

/-- Below the bound no pass overflows, and the loop ends. -/
theorem exists_passes (text : List UInt8) (hlen : text.length + kMaxChars < 2 ^ 31) (pos : Nat) :
    ∃ ws, windows text text.length pos = some ws ∧ Passes text pos ws := by
  fun_induction windows text text.length pos with
  | case1 pos h hint w hn =>
    refine ⟨_, rfl, .last h ?_⟩
    simp only [nextPos] at hn
    split at hn
    · simp at hn
    · split at hn
      · assumption
      · simp at hn
  | case2 pos h hint w next hn hlt ih =>
    obtain ⟨ws, hws, passes⟩ := ih
    exact ⟨w :: ws, by rw [hws]; rfl, .next h hn passes⟩
  | case3 pos h hint => omega
  | case4 pos h => exact ⟨[], rfl, .done (by omega)⟩

/-- Every window starts outside the words, inside the text. -/
theorem Passes.starts {pos : Nat} {ws : List Window} (passes : Passes text pos ws)
    (hpos : Outside (isWord text) text.length pos) : ∀ w ∈ ws, w.pos < text.length ∧
      w.stop = windowEnd text text.length w.pos ∧ Outside (isWord text) text.length w.pos := by
  induction passes with
  | done h => simp
  | last h hend => simpa using ⟨h, hpos⟩
  | next h hn passes ih =>
    obtain ⟨hout, -, -⟩ := nextPos_some h hn
    simpa using ⟨⟨h, hpos⟩, ih hout⟩

/-- Every word from `pos` on lies in a window: a word that starts before the next window lies in
this one, since neither the end of this one nor the start of the next cuts it. -/
theorem Passes.covers {pos a b : Nat} {ws : List Window} (passes : Passes text pos ws)
    (run : IsRun (isWord text) text.length a b) (ha : pos ≤ a) :
    ∃ w ∈ ws, w.pos ≤ a ∧ b ≤ w.stop := by
  have hlt := run.lt
  have hle := run.le
  induction passes with
  | done h => omega
  | last h hend => exact ⟨_, List.mem_singleton_self _, ha, by simp only; omega⟩
  | @next pos next ws h hn passes ih =>
    obtain ⟨hout, hnle, -⟩ := nextPos_some h hn
    by_cases hin : next ≤ a
    · obtain ⟨w, hw, hwa⟩ := ih hin
      exact ⟨w, List.mem_cons_of_mem _ hw, hwa⟩
    · have hb : b ≤ next := hout.run_le run (by omega)
      exact ⟨_, List.mem_cons_self, ha, by simp only; omega⟩

/-- Consecutive windows start at least `kMaxChars - kOverlap` bytes apart. -/
theorem Passes.apart {pos : Nat} {ws : List Window} (passes : Passes text pos ws) :
    (∀ w ∈ ws.head?, w.pos = pos) ∧
      ws.IsChain fun v w => v.pos + (kMaxChars - kOverlap) ≤ w.pos := by
  induction passes with
  | done h => simp
  | last h hend => simp
  | @next pos next ws h hn passes ih =>
    obtain ⟨-, -, hfar⟩ := nextPos_some h hn
    refine ⟨by simp, ih.2.cons fun w hw => ?_⟩
    have heq := ih.1 w hw
    cases passes with
    | done hdone => simp at hw
    | last hlt hend => exact heq ▸ hfar hlt
    | next hlt hn' passes' => exact heq ▸ hfar hlt

/-! ### The chunks of one section -/

/-- The chunk `c` is the part of the text from `lo` to before `hi`.  Neither end is inside a word,
and what the chunk has beyond `kMaxChars` bytes is the rest of one word. -/
structure Placed (text c : List UInt8) (lo hi : Nat) : Prop where
  lt : lo < hi
  le : hi ≤ text.length
  text_eq : c = substr text lo (hi - lo)
  start_outside : Outside (isWord text) text.length lo
  stop_outside : Outside (isWord text) text.length hi
  size : hi ≤ lo + kMaxChars ∨ ∃ a b, IsRun (isWord text) text.length a b ∧
    a ≤ lo + kMaxChars ∧ lo + kMaxChars < b ∧ hi ≤ b

/-- Past `kMaxChars` bytes a window holds the bytes of one word only. -/
theorem windowEnd_size (text : List UInt8) {pos lo hi : Nat} (hpos : pos ≤ lo)
    (hhi : hi ≤ windowEnd text text.length pos) :
    hi ≤ lo + kMaxChars ∨ ∃ a b, IsRun (isWord text) text.length a b ∧
      a ≤ lo + kMaxChars ∧ lo + kMaxChars < b ∧ hi ≤ b := by
  by_cases hshort : hi ≤ lo + kMaxChars
  · exact .inl hshort
  have hle := windowEnd_le text text.length pos
  have hword : ∀ i, lo + kMaxChars ≤ i → i < windowEnd text text.length pos → isWord text i :=
    fun i h1 h2 => Runs.scan_passes (by omega) h2
  obtain ⟨a, ha, hb, run⟩ := Runs.exists_run (n := text.length)
    (hword (lo + kMaxChars) (by omega) (by omega)) (by omega)
  refine .inr ⟨a, _, run, ha, hb, ?_⟩
  by_contra hgt
  have hout := run.right (by omega)
  rw [hword _ (by omega) (by omega)] at hout
  simp at hout

/-- The chunk of a window has a place in it that holds every word of the window. -/
theorem placed_of_window {c : List UInt8}
    (hstop : w.stop = windowEnd text text.length w.pos)
    (hpos : Outside (isWord text) text.length w.pos) (h : chunkText text w = some c) :
    ∃ lo hi, Placed text c lo hi ∧ ∀ a b, IsRun (isWord text) text.length a b → w.pos ≤ a →
      b ≤ w.stop → lo ≤ a ∧ b ≤ hi := by
  have hle : w.stop ≤ text.length := hstop ▸ windowEnd_le ..
  have hend : Outside (isWord text) text.length w.stop := hstop ▸ windowEnd_outside text w.pos
  obtain ⟨lo, hi, h1, h2, h3, htext, hbefore, hafter⟩ := chunkText_some hle h
  refine ⟨lo, hi, ⟨h2, by omega, htext, ?_, ?_, windowEnd_size text h1 (by omega)⟩, ?_⟩
  · rcases Nat.eq_or_lt_of_le h1 with rfl | hlt
    · exact hpos
    · have hgap := hbefore (lo - 1) (by omega) (by omega)
      rw [show lo = lo - 1 + 1 by omega]
      exact Runs.outside_succ_of_not hgap
  · rcases Nat.eq_or_lt_of_le h3 with rfl | hlt
    · exact hend
    · exact Runs.outside_of_not (hafter hi (Nat.le_refl hi) hlt)
  · intro a b run ha hb
    have hlt := run.lt
    constructor
    · by_contra hgt
      have hword := run.inside a (Nat.le_refl a) hlt
      simp [hbefore a ha (by omega)] at hword
    · by_contra hgt
      have hword := run.inside (b - 1) (by omega) (by omega)
      simp [hafter (b - 1) (by omega) (by omega)] at hword

/-- The chunks of the windows of a text have places that together hold every word of a window. -/
theorem exists_places {ws : List Window} (hws : ∀ w ∈ ws, w.pos < text.length ∧
      w.stop = windowEnd text text.length w.pos ∧ Outside (isWord text) text.length w.pos) :
    ∃ places : List (Nat × Nat),
      List.Forall₂ (fun c place => Placed text c place.1 place.2)
        (ws.filterMap (chunkText text)) places ∧
      ∀ w ∈ ws, ∀ a b, IsRun (isWord text) text.length a b → w.pos ≤ a → b ≤ w.stop →
        ∃ place ∈ places, place.1 ≤ a ∧ b ≤ place.2 := by
  induction ws with
  | nil => exact ⟨[], .nil, by simp⟩
  | cons w ws ih =>
    obtain ⟨places, hplaced, hcover⟩ := ih fun v hv => hws v (List.mem_cons_of_mem w hv)
    obtain ⟨-, hstop, hpos⟩ := hws w List.mem_cons_self
    cases hc : chunkText text w with
    | none =>
      refine ⟨places, by simpa [List.filterMap_cons, hc] using hplaced,
        fun v hv a b run ha hb => ?_⟩
      rcases List.mem_cons.mp hv with rfl | hv
      · have hgap := chunkText_none (hstop ▸ windowEnd_le ..) hc a ha (by have := run.lt; omega)
        have hword := run.inside a (Nat.le_refl a) run.lt
        simp [hgap] at hword
      · exact hcover v hv a b run ha hb
    | some c =>
      obtain ⟨lo, hi, hplace, hin⟩ := placed_of_window hstop hpos hc
      refine ⟨(lo, hi) :: places, ?_, fun v hv a b run ha hb => ?_⟩
      · simpa [List.filterMap_cons, hc] using ⟨hplace, hplaced⟩
      · rcases List.mem_cons.mp hv with rfl | hv
        · exact ⟨(lo, hi), List.mem_cons_self, hin a b run ha hb⟩
        · obtain ⟨place, hmem, hpl⟩ := hcover v hv a b run ha hb
          exact ⟨place, List.mem_cons_of_mem _ hmem, hpl⟩

end Text

/-! ### The chunks of a document -/

mutual

/-- The sections of a tree, depth first. -/
def preorder : ParsedSection → List ParsedSection
  | ⟨heading, depth, text, children, dbId⟩ =>
    ⟨heading, depth, text, children, dbId⟩ :: preorders children

def preorders : List ParsedSection → List ParsedSection
  | [] => []
  | sec :: rest => preorder sec ++ preorders rest

end

/-- The texts that are chunked, in document order: those of the sections, or the full text. -/
def sectionsOf (doc : ParsedDocument) : List ParsedSection :=
  if doc.sections.isEmpty then [⟨[], 0, doc.fullText, [], none⟩] else preorders doc.sections

section Document

open Runs (IsRun)

variable (documentVersionId companyId : String)

/-- What the chunks of one section are: they carry its id and its heading, they are what its
windows keep, every word of its text lies in one of them, and the windows are
`kMaxChars - kOverlap` bytes apart. -/
structure SectionChunks (sec : ParsedSection) (part : List Chunk) : Prop where
  stamped : ∀ c ∈ part, c.documentVersionId = documentVersionId ∧ c.companyId = companyId ∧
    c.sectionId = sec.dbId ∧
    c.sectionHeading = if sec.heading = [] then none else some sec.heading
  placed : ∃ places : List (Nat × Nat),
    List.Forall₂ (fun c place => Placed sec.text c.text place.1 place.2) part places ∧
    ∀ a b, IsRun (isWord sec.text) sec.text.length a b → ∃ place ∈ places, place.1 ≤ a ∧ b ≤ place.2
  apart : ∃ ws, windows sec.text sec.text.length 0 = some ws ∧
    part.map Chunk.text = ws.filterMap (chunkText sec.text) ∧
    ws.IsChain fun v w => v.pos + (kMaxChars - kOverlap) ≤ w.pos

/-- The cursor moves over the chunks `added`, whose indices go on from its own. -/
structure Extends (s s' : Cursor) (added : List Chunk) : Prop where
  out : s'.out = s.out ++ added
  chunkIdx : s'.chunkIdx = s.chunkIdx + added.length
  indices : added.map Chunk.chunkIndex = List.range' s.chunkIdx added.length

theorem Extends.refl (s : Cursor) : Extends s s [] :=
  ⟨by simp, rfl, rfl⟩

theorem Extends.trans {s s' s'' : Cursor} {added more : List Chunk} (h : Extends s s' added)
    (h' : Extends s' s'' more) : Extends s s'' (added ++ more) := by
  refine ⟨by rw [h'.out, h.out, List.append_assoc], ?_, ?_⟩
  · rw [h'.chunkIdx, h.chunkIdx, List.length_append]
    omega
  · rw [List.map_append, h.indices, h'.indices, h.chunkIdx, List.length_append,
      List.range'_append_1]

theorem extends_push (sectionId : Option String) (sectionHeading : Option (List UInt8))
    (s : Cursor) (text : List UInt8) :
    Extends s (push documentVersionId companyId sectionId sectionHeading s text)
      [⟨documentVersionId, companyId, s.chunkIdx, text, sectionId, sectionHeading⟩] :=
  ⟨rfl, rfl, rfl⟩

/-- The chunks that the pushes of a list of texts add. -/
theorem extends_pushes (sectionId : Option String) (sectionHeading : Option (List UInt8))
    (texts : List (List UInt8)) (s : Cursor) :
    ∃ added, Extends s (texts.foldl (push documentVersionId companyId sectionId sectionHeading) s)
        added ∧ added.map Chunk.text = texts ∧
      ∀ c ∈ added, c.documentVersionId = documentVersionId ∧ c.companyId = companyId ∧
        c.sectionId = sectionId ∧ c.sectionHeading = sectionHeading := by
  induction texts generalizing s with
  | nil => exact ⟨[], .refl s, rfl, by simp⟩
  | cons text texts ih =>
    have hfirst := extends_push documentVersionId companyId sectionId sectionHeading s text
    obtain ⟨added, hext, htexts, hstamp⟩ :=
      ih (push documentVersionId companyId sectionId sectionHeading s text)
    refine ⟨_, hfirst.trans hext, by simp [htexts], fun c hc => ?_⟩
    rcases List.mem_cons.mp hc with rfl | hc
    · exact ⟨rfl, rfl, rfl, rfl⟩
    · exact hstamp c hc

theorem intOfSize_eq {n : Nat} (h : n < 2 ^ 31) : intOfSize n = n := by
  rw [intOfSize, Nat.mod_eq_of_lt (by omega), if_pos h]

/-- The section's text alone. -/
theorem sectionChunks_splitText (sec : ParsedSection)
    (hlen : sec.text.length < 2 ^ 31 - kMaxChars) (s : Cursor) : ∃ s' added,
      splitText documentVersionId companyId sec.text sec.dbId
        (if sec.heading = [] then none else some sec.heading) s = some s' ∧
      Extends s s' added ∧ SectionChunks documentVersionId companyId sec added := by
  have hint := intOfSize_eq (n := sec.text.length) (by omega)
  obtain ⟨ws, hws, passes⟩ := exists_passes sec.text (by omega) 0
  obtain ⟨places, hplaced, hcover⟩ := exists_places (passes.starts (Runs.outside_zero _ _))
  obtain ⟨added, hext, htexts, hstamp⟩ := extends_pushes documentVersionId companyId sec.dbId
    (if sec.heading = [] then none else some sec.heading)
    (ws.filterMap (chunkText sec.text)) s
  refine ⟨_, added, ?_, hext, hstamp, ⟨places, ?_, fun a b run => ?_⟩, ws, hws, htexts,
    passes.apart.2⟩
  · rw [splitText, hint, hws]
    split
    · rename_i hnil
      cases passes with
      | done => rfl
      | last hlt _ => simp [hnil] at hlt
      | next hlt _ _ => simp [hnil] at hlt
    · rfl
  · rw [← htexts] at hplaced
    exact List.forall₂_map_left_iff.mp hplaced
  · obtain ⟨w, hw, ha, hb⟩ := passes.covers run (Nat.zero_le a)
    exact hcover w hw a b run ha hb

/-- The chunks of several sections, part by part. -/
def Parts (sections : List ParsedSection) (s s' : Cursor) : Prop :=
  ∃ parts : List (List Chunk), Extends s s' parts.flatten ∧
    List.Forall₂ (SectionChunks documentVersionId companyId) sections parts

variable {documentVersionId companyId}

theorem Parts.append {first rest : List ParsedSection} {s s' s'' : Cursor}
    (h : Parts documentVersionId companyId first s s')
    (h' : Parts documentVersionId companyId rest s' s'') :
    Parts documentVersionId companyId (first ++ rest) s s'' := by
  obtain ⟨parts, hext, hall⟩ := h
  obtain ⟨parts', hext', hall'⟩ := h'
  refine ⟨parts ++ parts', ?_, List.rel_append hall hall'⟩
  rw [List.flatten_append]
  exact hext.trans hext'

theorem Parts.single {sec : ParsedSection} {s s' : Cursor} {added : List Chunk}
    (hext : Extends s s' added) (hsec : SectionChunks documentVersionId companyId sec added) :
    Parts documentVersionId companyId [sec] s s' :=
  ⟨[added], by simpa using hext, .cons hsec .nil⟩

variable (documentVersionId companyId)

mutual

/-- The walk of a tree adds the chunks of its sections, depth first. -/
theorem parts_chunkSection : ∀ (sec : ParsedSection) (s : Cursor),
    (∀ x ∈ preorder sec, x.text.length < 2 ^ 31 - kMaxChars) →
    ∃ s', chunkSection documentVersionId companyId sec s = some s' ∧
      Parts documentVersionId companyId (preorder sec) s s'
  | ⟨heading, depth, text, children, dbId⟩, s, hlen => by
    simp only [preorder, List.mem_cons, forall_eq_or_imp] at hlen
    obtain ⟨s1, added, hsplit, hext, hsec⟩ :=
      sectionChunks_splitText documentVersionId companyId ⟨heading, depth, text, children, dbId⟩
        hlen.1 s
    obtain ⟨s2, hchildren, hparts⟩ := parts_chunkSections children s1 hlen.2
    refine ⟨s2, ?_, (Parts.single hext hsec).append hparts⟩
    simp only [chunkSection]
    split
    · rename_i hnil
      subst hnil
      rw [splitText, if_pos rfl] at hsplit
      rw [Option.some.inj hsplit]
      exact hchildren
    · rw [hsplit]
      exact hchildren

theorem parts_chunkSections : ∀ (sections : List ParsedSection) (s : Cursor),
    (∀ x ∈ preorders sections, x.text.length < 2 ^ 31 - kMaxChars) →
    ∃ s', chunkSections documentVersionId companyId sections s = some s' ∧
      Parts documentVersionId companyId (preorders sections) s s'
  | [], s, _ => ⟨s, rfl, [], .refl s, .nil⟩
  | sec :: rest, s, hlen => by
    simp only [preorders, List.mem_append] at hlen
    obtain ⟨s1, hsec, hparts⟩ := parts_chunkSection sec s fun x hx => hlen x (.inl hx)
    obtain ⟨s2, hrest, hparts'⟩ := parts_chunkSections rest s1 fun x hx => hlen x (.inr hx)
    refine ⟨s2, ?_, hparts.append hparts'⟩
    simp only [chunkSections, hsec]
    exact hrest

end

theorem parts_chunk (doc : ParsedDocument)
    (hlen : ∀ sec ∈ sectionsOf doc, sec.text.length < 2 ^ 31 - kMaxChars) :
    ∃ s', chunk documentVersionId companyId doc = some s'.out ∧
      Parts documentVersionId companyId (sectionsOf doc) ⟨0, []⟩ s' := by
  simp only [chunk, sectionsOf] at hlen ⊢
  split at hlen
  · rename_i hflat
    obtain ⟨s', added, hsplit, hext, hsec⟩ := sectionChunks_splitText documentVersionId companyId _
      (hlen _ List.mem_cons_self) ⟨0, []⟩
    refine ⟨s', ?_, ?_⟩
    · rw [if_pos hflat]
      exact congrArg (Option.map Cursor.out) hsplit
    · rw [if_pos hflat]
      exact .single hext hsec
  · rename_i hflat
    obtain ⟨s', hsome, hparts⟩ :=
      parts_chunkSections documentVersionId companyId doc.sections ⟨0, []⟩ hlen
    refine ⟨s', ?_, ?_⟩
    · rw [if_neg hflat, hsome]
      rfl
    · rw [if_neg hflat]
      exact hparts

/-- Whatever the document, no word of it is lost: the chunks are numbered in document order, and
those of each section hold every word of its text. -/
theorem chunk_covers (doc : ParsedDocument)
    (hlen : ∀ sec ∈ sectionsOf doc, sec.text.length < 2 ^ 31 - kMaxChars) :
    ∃ parts : List (List Chunk),
      chunk documentVersionId companyId doc = some parts.flatten ∧
      parts.flatten.map Chunk.chunkIndex = List.range parts.flatten.length ∧
      List.Forall₂ (SectionChunks documentVersionId companyId) (sectionsOf doc) parts := by
  obtain ⟨s', hchunk, parts, hext, hall⟩ := parts_chunk documentVersionId companyId doc hlen
  refine ⟨parts, ?_, ?_, hall⟩
  · rw [hchunk, hext.out, List.nil_append]
  · rw [hext.indices, List.range_eq_range']

/-- Two sections, the first with a subsection that has no text of its own. -/
def handbook : ParsedDocument where
  sections := [⟨[65], 1, [72, 105, 32, 32, 104, 111], [⟨[], 2, [], [], some "b"⟩], some "a"⟩,
    ⟨[67], 1, [32, 111, 107, 11], [], some "c"⟩]
  fullText := [72, 105]

theorem handbook_covered : ∃ parts : List (List Chunk),
    chunk "v1" "co1" handbook = some parts.flatten ∧
    parts.flatten.map Chunk.chunkIndex = List.range parts.flatten.length ∧
    List.Forall₂ (SectionChunks "v1" "co1") (sectionsOf handbook) parts :=
  chunk_covers "v1" "co1" handbook (by decide)

end Document

end Wikore.Chunker
