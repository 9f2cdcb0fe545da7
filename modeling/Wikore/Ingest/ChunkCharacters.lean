import Wikore.Ingest.Chunker
import Wikore.Lib.Utf8Grammar

/-! The chunks of a text and its characters.  A chunk ends next to a white-space byte or at an end
of what the loop takes for the text, and that is all of it unless its size does not fit an `int`. -/

namespace Wikore.Chunker

open Runs (Outside IsRun)
open Utf8 (WellFormed)

section Text

variable {text : List UInt8} {len : Nat}

/-! ### The loop reads the text up to `len` -/

theorem isWord_take {i : Nat} (h : i < len) : isWord (text.take len) i = isWord text i := by
  rw [isWord, isWord, List.getElem?_take_of_lt h]

theorem isGap_take {i : Nat} (h : i < len) : isGap (text.take len) i = isGap text i := by
  rw [isGap, isGap, List.getElem?_take_of_lt h]

theorem windowEnd_take (pos : Nat) : windowEnd (text.take len) len pos = windowEnd text len pos :=
  Runs.scan_congr fun _ h => isWord_take h

theorem substr_take {pos stop : Nat} (h : stop ≤ len) :
    substr (text.take len) pos (stop - pos) = substr text pos (stop - pos) := by
  rw [substr, substr, List.drop_take, List.take_take, Nat.min_eq_left (by omega)]

theorem chunkText_take {w : Window} (h : w.stop ≤ len) :
    chunkText (text.take len) w = chunkText text w := by
  simp only [chunkText, substr_take h]

theorem overlapStart_take {w : Window} (h : w.stop ≤ len) :
    overlapStart (text.take len) w = overlapStart text w := by
  unfold overlapStart
  have hword : ∀ i, Runs.scan (isWord (text.take len)) w.stop i = Runs.scan (isWord text) w.stop i :=
    fun i => Runs.scan_congr fun j hj => isWord_take (Nat.lt_of_lt_of_le hj h)
  have hgap : ∀ i, Runs.scan (isGap (text.take len)) w.stop i = Runs.scan (isGap text) w.stop i :=
    fun i => Runs.scan_congr fun j hj => isGap_take (Nat.lt_of_lt_of_le hj h)
  dsimp only
  rw [hword, hgap]

theorem nextPos_take {w : Window} (h : w.stop ≤ len) :
    nextPos (text.take len) len w = nextPos text len w := by
  simp only [nextPos, chunkText_take h, overlapStart_take h]

theorem windows_take (pos : Nat) : windows (text.take len) len pos = windows text len pos := by
  fun_induction windows text len pos with
  | case1 pos h hint w hn =>
    have hn' : nextPos (text.take len) len ⟨pos, windowEnd (text.take len) len pos⟩ = none := by
      rw [windowEnd_take, nextPos_take (windowEnd_le text len pos)]
      exact hn
    rw [windows, dif_pos h, if_pos hint]
    simp only [windowEnd_take]
    split
    · rfl
    next next hsome =>
      rw [hn'] at hsome
      cases hsome
  | case2 pos h hint w next hn hlt ih =>
    have hn' : nextPos (text.take len) len ⟨pos, windowEnd (text.take len) len pos⟩ =
        some next := by
      rw [windowEnd_take, nextPos_take (windowEnd_le text len pos)]
      exact hn
    rw [windows, dif_pos h, if_pos hint]
    simp only [windowEnd_take]
    split
    next hnone =>
      rw [hn'] at hnone
      cases hnone
    next next' hsome =>
      rw [hn'] at hsome
      cases hsome
      rw [ih]
  | case3 pos h hint => rw [windows, dif_pos h, if_neg hint]
  | case4 pos h => rw [windows, dif_neg h]

/-- What the passes are when none overflows. -/
theorem passes_of_windows {pos : Nat} {ws : List Window}
    (h : windows text text.length pos = some ws) : Passes text pos ws := by
  fun_induction windows text text.length pos generalizing ws with
  | case1 =>
    rename_i pos hlt hint w hn
    obtain rfl := Option.some.inj h
    refine .last hlt ?_
    simp only [nextPos] at hn
    split at hn
    · cases hn
    · split at hn
      · assumption
      · cases hn
  | case2 =>
    rename_i pos hlt hint w next hn hnext ih
    obtain ⟨ws', hws', rfl⟩ := Option.map_eq_some_iff.mp h
    exact .next hlt hn (ih hws')
  | case3 pos hlt hint => cases h
  | case4 pos hge =>
    obtain rfl := Option.some.inj h
    exact .done (by omega)

/-! ### The cuts -/

theorem ascii_of_isspace {c : UInt8} (h : isspace c = true) : c < 128 := by
  simp only [isspace, Bool.or_eq_true, beq_iff_eq, Bool.and_eq_true, decide_eq_true_eq] at h
  rcases h with rfl | ⟨-, h⟩
  · decide
  · exact Nat.lt_of_le_of_lt h (by decide)

/-- A byte next to a place outside the words is ASCII, on one side. -/
theorem ascii_of_outside {i : Nat} (h : Outside (isWord text) text.length i) {x y : UInt8}
    (hx : text[i - 1]? = some x) (hy : text[i]? = some y) (hi : 0 < i) : x < 128 ∨ y < 128 := by
  have hlt : i < text.length := (List.getElem?_eq_some_iff.mp hy).1
  have hascii : ∀ {j : Nat} {z : UInt8}, text[j]? = some z → isWord text j = false → z < 128 := by
    intro j z hz hword
    rw [isWord, hz] at hword
    exact ascii_of_isspace (by simpa using hword)
  by_contra hwide
  rw [not_or] at hwide
  have hword : ∀ {j : Nat} {z : UInt8}, text[j]? = some z → ¬z < 128 → isWord text j = true := by
    intro j z hz hz'
    exact eq_true_of_ne_false fun hf => hz' (hascii hz hf)
  -- a word on both sides
  obtain ⟨a, ha, hb, run⟩ := Runs.exists_run (n := text.length) (hword hx hwide.1) (by omega)
  have hend : i < Runs.scan (isWord text) text.length (i - 1) := by
    rcases Nat.eq_or_lt_of_le hb with heq | hgt
    · have hstops := run.right (by omega)
      rw [← heq, show (i - 1).succ = i by omega, hword hy hwide.2] at hstops
      cases hstops
    · omega
  rcases h _ _ run with hle | hle <;> omega

/-- Taking a text apart outside its words, in a text that may go on. -/
theorem wellFormed_cut {rest : List UInt8} {i : Nat} (h : WellFormed (text ++ rest))
    (hout : Outside (isWord text) text.length i) (hi : i < text.length) :
    WellFormed (text.take i) ∧ WellFormed (text.drop i ++ rest) := by
  rw [← List.take_append_drop i text, List.append_assoc] at h
  refine h.cut ?_
  intro x hx y hy
  have hne : text.drop i ≠ [] := fun hnil => absurd (List.drop_eq_nil_iff.mp hnil) (by omega)
  rw [List.head?_append_of_ne_nil _ hne, List.head?_drop] at hy
  rw [List.getLast?_take] at hx
  split at hx
  · cases hx
  · rw [List.getElem?_eq_getElem (by omega)] at hx
    refine ascii_of_outside hout ?_ hy (by omega)
    rw [List.getElem?_eq_getElem (by omega)]
    exact hx

theorem wellFormed_placed {c : List UInt8} {lo hi : Nat} (h : WellFormed text)
    (hplaced : Placed text c lo hi) : WellFormed c := by
  have hlt := hplaced.lt
  have hle := hplaced.le
  have hdrop : WellFormed (text.drop lo) := by
    rw [← List.append_nil text] at h
    have hcut := (wellFormed_cut h hplaced.start_outside (by omega)).2
    rwa [List.append_nil] at hcut
  rw [← List.take_append_drop (hi - lo) (text.drop lo), List.drop_drop,
    show lo + (hi - lo) = hi by omega] at hdrop
  rw [hplaced.text_eq]
  refine (hdrop.cut ?_).1
  intro x hx y hy
  rw [List.head?_drop] at hy
  rw [List.getLast?_take, if_neg (by omega), List.getElem?_drop,
    show lo + (hi - lo - 1) = hi - 1 by omega, List.getElem?_eq_getElem (by omega)] at hx
  refine ascii_of_outside hplaced.stop_outside ?_ hy (by omega)
  rw [List.getElem?_eq_getElem (by omega)]
  exact hx

theorem exists_placed {cs : List (List UInt8)} {places : List (Nat × Nat)}
    (h : List.Forall₂ (fun c place => Placed text c place.1 place.2) cs places) :
    (∀ c ∈ cs, ∃ lo hi, Placed text c lo hi) ∧
      ∀ place ∈ places, ∃ c ∈ cs, Placed text c place.1 place.2 := by
  induction h with
  | nil => simp
  | @cons c place _ _ hplaced _ ih =>
    constructor
    · intro d hd
      rcases List.mem_cons.mp hd with rfl | hd
      · exact ⟨place.1, place.2, hplaced⟩
      · exact ih.1 d hd
    · intro q hq
      rcases List.mem_cons.mp hq with rfl | hq
      · exact ⟨c, List.mem_cons_self, hplaced⟩
      · obtain ⟨d, hd, hdq⟩ := ih.2 q hq
        exact ⟨d, List.mem_cons_of_mem c hd, hdq⟩

/-- Where the text that the loop takes is not well formed, it ends within a character, and so does
the chunk that holds its last word. -/
theorem exists_chunk_cut {rest : List UInt8} {cs : List (List UInt8)} {places : List (Nat × Nat)}
    (h : WellFormed (text ++ rest)) (hnot : ¬WellFormed text)
    (hplaces : List.Forall₂ (fun c place => Placed text c place.1 place.2) cs places)
    (hcover : ∀ a b, IsRun (isWord text) text.length a b →
      ∃ place ∈ places, place.1 ≤ a ∧ b ≤ place.2) : ∃ c ∈ cs, ¬WellFormed c := by
  have hne : text ≠ [] := by
    rintro rfl
    exact hnot Utf8.ascii_nil.wellFormed
  have hpos := List.length_pos_iff.mpr hne
  -- the last byte is of a word
  have hword : isWord text (text.length - 1) = true := by
    refine eq_true_of_ne_false fun hf => hnot (h.cut ?_).1
    intro x hx y _
    rw [List.getLast?_eq_getElem?] at hx
    rw [isWord, hx] at hf
    exact .inl (ascii_of_isspace (by simpa using hf))
  obtain ⟨a, ha, hb, run⟩ := Runs.exists_run (n := text.length) hword (by omega)
  obtain ⟨place, hmem, hlo, hhi⟩ := hcover _ _ run
  obtain ⟨c, hc, hplaced⟩ := (exists_placed hplaces).2 place hmem
  have hle := hplaced.le
  have hlt := hplaced.lt
  refine ⟨c, hc, fun hwf => hnot ?_⟩
  have hend : c = text.drop place.1 := by
    rw [hplaced.text_eq, substr, List.take_of_length_le]
    rw [List.length_drop]
    omega
  rw [hend] at hwf
  rw [← List.take_append_drop place.1 text]
  exact (wellFormed_cut h hplaced.start_outside (by omega)).1.append hwf

/-- The chunks of a text, if no pass of the loop overflows. -/
def chunksOf (text : List UInt8) : Option (List (List UInt8)) :=
  (windows text (intOfSize text.length) 0).map fun ws => ws.filterMap (chunkText text)

theorem intOfSize_le (n : Nat) : intOfSize n ≤ n := by
  unfold intOfSize
  split
  · exact Nat.mod_le n _
  · exact Nat.zero_le n

theorem forall_chunksOf_iff {cs : List (List UInt8)} (h : WellFormed text)
    (hcs : chunksOf text = some cs) :
    (∀ c ∈ cs, WellFormed c) ↔ WellFormed (text.take (intOfSize text.length)) := by
  obtain ⟨ws, hws, rfl⟩ := Option.map_eq_some_iff.mp hcs
  have hlen := intOfSize_le text.length
  generalize intOfSize text.length = len at hws hlen
  obtain ⟨t, ht⟩ : ∃ t, t = text.take len := ⟨_, rfl⟩
  have htlen : t.length = len := by rw [ht, List.length_take, Nat.min_eq_left hlen]
  rw [← windows_take, ← ht, ← htlen] at hws
  have hstarts := (passes_of_windows hws).starts (Runs.outside_zero _ _)
  obtain ⟨places, hplaced, hcover⟩ := exists_places hstarts
  have htexts : ws.filterMap (chunkText text) = ws.filterMap (chunkText t) := by
    refine List.filterMap_congr fun w hw => ?_
    rw [ht]
    refine (chunkText_take ?_).symm
    rw [(hstarts w hw).2.1, ← htlen]
    exact windowEnd_le t t.length w.pos
  rw [htexts, ← ht]
  constructor
  · intro hall
    by_contra hnot
    rw [← List.take_append_drop len text, ← ht] at h
    obtain ⟨c, hc, hbad⟩ := exists_chunk_cut h hnot hplaced fun a b run => by
      obtain ⟨w, hw, ha, hb⟩ := (passes_of_windows hws).covers run (Nat.zero_le a)
      exact hcover w hw a b run ha hb
    exact hbad (hall c hc)
  · intro hwf c hc
    obtain ⟨lo, hi, hpl⟩ := (exists_placed hplaced).1 c hc
    exact wellFormed_placed hwf hpl

end Text

/-! ### The chunks of a document -/

section Document

variable (documentVersionId companyId : String)

/-- The chunks that are added are those of the texts of the sections. -/
def AddsTexts (sections : List ParsedSection) (s s' : Cursor) : Prop :=
  ∃ parts : List (List (List UInt8)),
    s'.out.map Chunk.text = s.out.map Chunk.text ++ parts.flatten ∧
    List.Forall₂ (fun sec part => chunksOf sec.text = some part) sections parts

theorem AddsTexts.append {first rest : List ParsedSection} {s s' s'' : Cursor}
    (h : AddsTexts first s s') (h' : AddsTexts rest s' s'') : AddsTexts (first ++ rest) s s'' := by
  obtain ⟨parts, hout, hall⟩ := h
  obtain ⟨parts', hout', hall'⟩ := h'
  refine ⟨parts ++ parts', ?_, List.rel_append hall hall'⟩
  rw [hout', hout, List.append_assoc, List.flatten_append]

theorem addsTexts_splitText {sec : ParsedSection} {dbId : Option String}
    {heading : Option (List UInt8)} {s s' : Cursor}
    (h : splitText documentVersionId companyId sec.text dbId heading s = some s') :
    AddsTexts [sec] s s' := by
  unfold splitText at h
  split at h
  next hnil =>
    cases h
    refine ⟨[[]], by simp, .cons ?_ .nil⟩
    rw [hnil, chunksOf, List.length_nil, windows]
    rfl
  next =>
    obtain ⟨ws, hws, rfl⟩ := Option.map_eq_some_iff.mp h
    obtain ⟨added, hext, htexts, -⟩ := extends_pushes documentVersionId companyId dbId heading
      (ws.filterMap (chunkText sec.text)) s
    refine ⟨[ws.filterMap (chunkText sec.text)], ?_, .cons ?_ .nil⟩
    · rw [hext.out, List.map_append, htexts]
      simp
    · rw [chunksOf, hws, Option.map_some]

mutual

theorem addsTexts_chunkSection : ∀ (sec : ParsedSection) (s s' : Cursor),
    chunkSection documentVersionId companyId sec s = some s' → AddsTexts (preorder sec) s s'
  | ⟨heading, depth, text, children, dbId⟩, s, s', h => by
    simp only [chunkSection] at h
    obtain ⟨s₁, hsplit, hrest⟩ : ∃ s₁, splitText documentVersionId companyId text dbId
        (if heading = [] then none else some heading) s = some s₁ ∧
        chunkSections documentVersionId companyId children s₁ = some s' := by
      split at h
      next hnil => exact ⟨s, by rw [splitText, if_pos hnil], h⟩
      next => exact Option.bind_eq_some_iff.mp h
    have hfirst : AddsTexts [⟨heading, depth, text, children, dbId⟩] s s₁ :=
      addsTexts_splitText documentVersionId companyId hsplit
    exact hfirst.append (addsTexts_chunkSections children s₁ s' hrest)

theorem addsTexts_chunkSections : ∀ (sections : List ParsedSection) (s s' : Cursor),
    chunkSections documentVersionId companyId sections s = some s' →
      AddsTexts (preorders sections) s s'
  | [], s, s', h => by
    cases h
    exact ⟨[], by simp, .nil⟩
  | sec :: rest, s, s', h => by
    obtain ⟨s₁, hsec, h⟩ := Option.bind_eq_some_iff.mp h
    exact (addsTexts_chunkSection sec s s₁ hsec).append (addsTexts_chunkSections rest s₁ s' h)

end

theorem addsTexts_chunk {doc : ParsedDocument} {cs : List Chunk}
    (h : chunk documentVersionId companyId doc = some cs) : ∃ s' : Cursor, s'.out = cs ∧
      AddsTexts (sectionsOf doc) ⟨0, []⟩ s' := by
  unfold chunk at h
  unfold sectionsOf
  split at h
  next hflat =>
    obtain ⟨s', hsplit, rfl⟩ := Option.map_eq_some_iff.mp h
    rw [if_pos hflat]
    exact ⟨s', rfl, addsTexts_splitText documentVersionId companyId hsplit⟩
  next hflat =>
    obtain ⟨s', hwalk, rfl⟩ := Option.map_eq_some_iff.mp h
    rw [if_neg hflat]
    exact ⟨s', rfl, addsTexts_chunkSections documentVersionId companyId doc.sections _ s' hwalk⟩

theorem forall_parts_iff {sections : List ParsedSection} {parts : List (List (List UInt8))}
    (hwf : ∀ sec ∈ sections, WellFormed sec.text)
    (h : List.Forall₂ (fun sec part => chunksOf sec.text = some part) sections parts) :
    (∀ c ∈ parts.flatten, WellFormed c) ↔
      ∀ sec ∈ sections, WellFormed (sec.text.take (intOfSize sec.text.length)) := by
  induction h with
  | nil => simp
  | @cons sec part sections parts hpart _ ih =>
    have hsec := forall_chunksOf_iff (hwf sec List.mem_cons_self) hpart
    have hrest := ih fun other hother => hwf other (List.mem_cons_of_mem sec hother)
    rw [List.flatten_cons, List.forall_mem_append, hsec, hrest, List.forall_mem_cons]

/-- Of a document of well-formed texts the chunks are well formed exactly when what an `int` makes
of the size of each text is where a character of it ends. -/
theorem chunk_wellFormed_iff {doc : ParsedDocument} {cs : List Chunk}
    (hwf : ∀ sec ∈ sectionsOf doc, WellFormed sec.text)
    (h : chunk documentVersionId companyId doc = some cs) :
    (∀ c ∈ cs, WellFormed c.text) ↔
      ∀ sec ∈ sectionsOf doc, WellFormed (sec.text.take (intOfSize sec.text.length)) := by
  obtain ⟨s', rfl, parts, hout, hall⟩ := addsTexts_chunk documentVersionId companyId h
  rw [← forall_parts_iff hwf hall]
  rw [List.map_nil, List.nil_append] at hout
  rw [← hout]
  simp

theorem handbook_wellFormed : ∃ cs, chunk "v1" "co1" handbook = some cs ∧
    ((∀ c ∈ cs, WellFormed c.text) ↔
      ∀ sec ∈ sectionsOf handbook, WellFormed (sec.text.take (intOfSize sec.text.length))) := by
  obtain ⟨s', hchunk, -⟩ := parts_chunk "v1" "co1" handbook (by decide)
  refine ⟨s'.out, hchunk, chunk_wellFormed_iff "v1" "co1" ?_ hchunk⟩
  intro sec hsec
  refine Utf8.Ascii.wellFormed (Utf8.ascii_of_all ?_)
  exact List.all_eq_true.mp (show (sectionsOf handbook).all (fun sec =>
    sec.text.all fun b => decide (b < 128)) = true by decide) sec hsec

/-- A text of four GiB and a byte. -/
def longText : List UInt8 :=
  Utf8.encodeChars ('é' :: 'a' :: List.replicate (2 ^ 31 - 1) 'é')

theorem length_encodeChars_replicate (n : Nat) :
    (Utf8.encodeChars (List.replicate n 'é')).length = 2 * n := by
  induction n with
  | zero => rfl
  | succ n ih =>
    rw [List.replicate_succ, Utf8.encodeChars_cons, List.length_append, ih,
      show (String.utf8EncodeChar 'é').length = 2 from rfl]
    omega

theorem intOfSize_longText : intOfSize longText.length = 1 := by
  have hlen : longText.length = 2 ^ 32 + 1 := by
    rw [longText, Utf8.encodeChars_cons, Utf8.encodeChars_cons, List.length_append,
      List.length_append, length_encodeChars_replicate,
      show (String.utf8EncodeChar 'é').length = 2 from rfl,
      show (String.utf8EncodeChar 'a').length = 1 from rfl]
    omega
  rw [hlen]
  decide

theorem take_longText : longText.take 1 = [0xC3] := by
  rw [longText, Utf8.encodeChars_cons]
  rfl

/-- The loop takes the text for one byte, and cuts its first character. -/
theorem windows_longText : windows longText 1 0 = some [⟨0, 1⟩] := by
  rw [← windows_take, take_longText, windows, dif_pos (by decide), if_pos (by decide)]
  have hend : windowEnd [0xC3] 1 0 = 1 := Runs.scan_done (by decide)
  have hnext : nextPos [0xC3] 1 ⟨0, windowEnd [0xC3] 1 0⟩ = none := by
    rw [hend]
    rfl
  dsimp only
  split
  · rw [hend]
  next hsome =>
    rw [hnext] at hsome
    cases hsome

theorem not_wellFormed_lead : ¬WellFormed [0xC3] := by
  intro h
  obtain ⟨ns, hns⟩ := Utf8.Grammar.exists_octets_iff.mpr h
  generalize hbytes : [(0xC3 : UInt8)] = bytes at hns
  cases hns with
  | nil => cases hbytes
  | cons hseq _ =>
    cases hseq with
    | one ha =>
      obtain ⟨rfl, -⟩ := List.cons_eq_cons.mp hbytes
      exact absurd ha (by decide)
    | two | three | four => simp at hbytes

theorem longText_cut : (∀ sec ∈ sectionsOf ⟨[], longText⟩, WellFormed sec.text) ∧
    ∃ cs, chunk "v1" "co1" ⟨[], longText⟩ = some cs ∧ ¬∀ c ∈ cs, WellFormed c.text := by
  constructor
  · intro sec hsec
    obtain rfl := List.mem_singleton.mp hsec
    exact ⟨_, rfl⟩
  · have hne : longText ≠ [] := by
      intro hnil
      have htake := take_longText
      rw [hnil] at htake
      cases htake
    have htext : chunkText longText ⟨0, 1⟩ = some [0xC3] := by
      have htake : chunkText (longText.take 1) ⟨0, 1⟩ = chunkText longText ⟨0, 1⟩ :=
        chunkText_take (Nat.le_refl 1)
      rw [← htake, take_longText]
      rfl
    refine ⟨[⟨"v1", "co1", 0, [0xC3], none, none⟩], ?_, ?_⟩
    · have hsplit : splitText "v1" "co1" longText none none ⟨0, []⟩ =
          some ⟨1, [⟨"v1", "co1", 0, [0xC3], none, none⟩]⟩ := by
        rw [splitText, if_neg hne, intOfSize_longText, windows_longText]
        simp only [Option.map_some, List.filterMap_cons, htext]
        rfl
      exact congrArg (Option.map Cursor.out) hsplit
    · intro hall
      exact not_wellFormed_lead (hall _ List.mem_cons_self)

end Document

end Wikore.Chunker
