import Wikore.Ingest.PlainTextParser

/-! `decode_utf8` and `strip_unicode_tags` against the syntax of UTF-8, and their loops by position,
with every byte that they read. -/

namespace Wikore.Parser

open ContextBuilder (Bytes Error)
open Utf8

/-! ### What is accepted -/

theorem decodeUtf8_append {bs : Bytes} {n : Nat} (h : Grammar.Sequence bs n) (rest : Bytes) :
    decodeUtf8 (bs ++ rest) = some (n, bs.length) := by
  cases h with
  | @one a ha =>
    rw [List.cons_append, decodeUtf8_cons, if_pos (Nat.lt_succ_of_le ha)]
    rfl
  | @two a b ha hb =>
    rw [List.cons_append, decodeUtf8_cons, if_neg (by omega), if_pos (by omega)]
    have hbits : (a &&& 0x1F).toNat = a.toNat - 0xC0 := by
      rw [toNat_mask (b := a) 5 (m := 0x1F) rfl]
      omega
    refine decodeMultibyte_iff.mpr ⟨rfl, by simp, ?_, ?_⟩
    · rw [hbits]
      exact continueChar_cons.mpr ⟨hb, rfl⟩
    · obtain ⟨hb, hb'⟩ := hb
      unfold Grammar.addTail
      omega
  | @three a b c ha hb hc hlow hhigh =>
    rw [List.cons_append, decodeUtf8_cons, if_neg (by omega), if_neg (by omega), if_pos (by omega)]
    have hbits : (a &&& 0x0F).toNat = a.toNat - 0xE0 := by
      rw [toNat_mask (b := a) 4 (m := 0x0F) rfl]
      omega
    refine decodeMultibyte_iff.mpr ⟨rfl, by simp, ?_, ?_⟩
    · rw [hbits]
      exact continueChar_cons.mpr ⟨hb, continueChar_cons.mpr ⟨hc, rfl⟩⟩
    · obtain ⟨hb, hb'⟩ := hb
      obtain ⟨hc, hc'⟩ := hc
      unfold Grammar.addTail
      omega
  | @four a b c d ha hb hc hd hlow hhigh =>
    rw [List.cons_append, decodeUtf8_cons, if_neg (by omega), if_neg (by omega), if_neg (by omega),
      if_pos (by omega)]
    have hbits : (a &&& 0x07).toNat = a.toNat - 0xF0 := by
      rw [toNat_mask (b := a) 3 (m := 0x07) rfl]
      omega
    refine decodeMultibyte_iff.mpr ⟨rfl, by simp, ?_, ?_⟩
    · rw [hbits]
      exact continueChar_cons.mpr ⟨hb, continueChar_cons.mpr ⟨hc, continueChar_cons.mpr ⟨hd, rfl⟩⟩⟩
    · obtain ⟨hb, hb'⟩ := hb
      obtain ⟨hc, hc'⟩ := hc
      obtain ⟨hd, hd'⟩ := hd
      unfold Grammar.addTail
      omega

/-- `decode_utf8` from the start of the input to its end: the code points. -/
def decodeAll (input : Bytes) : Option (List Nat) :=
  if input = [] then some []
  else
    match _h : decodeUtf8 input with
    | none => none
    | some (codepoint, width) => (decodeAll (input.drop width)).map (codepoint :: ·)
termination_by input.length
decreasing_by
  have := width_pos _h
  have hpos := List.length_pos_iff.mpr this.2
  rw [List.length_drop]
  omega

theorem decodeAll_append {bs : Bytes} {n : Nat} (h : Grammar.Sequence bs n) (rest : Bytes) :
    decodeAll (bs ++ rest) = (decodeAll rest).map (n :: ·) := by
  have hdecode := decodeUtf8_append h rest
  rw [decodeAll, if_neg (List.append_ne_nil_of_left_ne_nil h.ne_nil rest)]
  split
  next hnone =>
    rw [hdecode] at hnone
    cases hnone
  next codepoint width hsome =>
    rw [hdecode] at hsome
    cases hsome
    rw [List.drop_left]

theorem decodeAll_iff {input : Bytes} {ns : List Nat} :
    decodeAll input = some ns ↔ Grammar.Octets input ns := by
  constructor
  · intro h
    induction input using decodeAll.induct generalizing ns with
    | case1 =>
      rw [decodeAll, if_pos rfl] at h
      cases h
      exact .nil
    | case2 input hne hnone =>
      rw [decodeAll, if_neg hne] at h
      split at h
      · cases h
      next hsome =>
        rw [hnone] at hsome
        cases hsome
    | case3 input hne codepoint width hsome ih =>
      obtain ⟨hseq, -⟩ := sequence_of_decodeUtf8 hsome
      rw [← List.take_append_drop width input, decodeAll_append hseq, Option.map_eq_some_iff] at h
      obtain ⟨rest, hrest, rfl⟩ := h
      rw [← List.take_append_drop width input]
      exact .cons hseq (ih hrest)
  · intro h
    induction h with
    | nil => rw [decodeAll, if_pos rfl]
    | cons h _ ih => rw [decodeAll_append h, ih, Option.map_some]

/-! ### What is put out -/

theorem stripUnicodeTags_append {bs : Bytes} {n : Nat} (h : Grammar.Sequence bs n) (rest : Bytes) :
    stripUnicodeTags (bs ++ rest) = (stripUnicodeTags rest).map fun output =>
      if n < 0xE0000 ∨ 0xE007F < n then bs ++ output else output := by
  have hdecode := decodeUtf8_append h rest
  rw [stripUnicodeTags, if_neg (List.append_ne_nil_of_left_ne_nil h.ne_nil rest)]
  split
  next hnone =>
    rw [hdecode] at hnone
    cases hnone
  next codepoint width hsome =>
    rw [hdecode] at hsome
    cases hsome
    rw [List.drop_left, List.take_left]
    cases stripUnicodeTags rest with
    | error e => rfl
    | ok output =>
      show (if n < 0xE0000 ∨ 0xE007F < n then Except.ok (bs ++ output) else Except.ok output) = _
      split <;> simp [Except.map, *]

/-- The code points that are kept. -/
def kept (n : Nat) : Bool := !(0xE0000 ≤ n && n ≤ 0xE007F)

theorem kept_iff {n : Nat} : kept n = true ↔ n < 0xE0000 ∨ 0xE007F < n := by
  simp only [kept, Bool.not_eq_true', Bool.and_eq_false_iff, decide_eq_false_iff_not, Nat.not_le]

theorem stripUnicodeTags_octets {input : Bytes} {ns : List Nat} (h : Grammar.Octets input ns) :
    ∃ output, stripUnicodeTags input = .ok output ∧ Grammar.Octets output (ns.filter kept) := by
  induction h with
  | nil =>
    refine ⟨[], ?_, .nil⟩
    rw [stripUnicodeTags, if_pos rfl]
  | @cons bs rest n ns h _ ih =>
    obtain ⟨output, hok, hout⟩ := ih
    refine ⟨if n < 0xE0000 ∨ 0xE007F < n then bs ++ output else output, ?_, ?_⟩
    · rw [stripUnicodeTags_append h, hok]
      rfl
    by_cases hn : n < 0xE0000 ∨ 0xE007F < n
    · rw [if_pos hn, List.filter_cons_of_pos (kept_iff.mpr hn)]
      exact .cons h hout
    · rw [if_neg hn, List.filter_cons_of_neg fun hk => hn (kept_iff.mp hk)]
      exact hout

theorem octets_of_stripUnicodeTags {input output : Bytes} (h : stripUnicodeTags input = .ok output) :
    ∃ ns, Grammar.Octets input ns := by
  induction input using stripUnicodeTags.induct generalizing output with
  | case1 => exact ⟨[], .nil⟩
  | case2 input hne hnone =>
    rw [stripUnicodeTags, if_neg hne] at h
    split at h
    · cases h
    next hsome =>
      rw [hnone] at hsome
      cases hsome
  | case3 input hne codepoint width hsome ih =>
    obtain ⟨hseq, -⟩ := sequence_of_decodeUtf8 hsome
    rw [← List.take_append_drop width input, stripUnicodeTags_append hseq] at h
    cases hrest : stripUnicodeTags (input.drop width) with
    | error e =>
      rw [hrest] at h
      cases h
    | ok rest =>
      obtain ⟨ns, hns⟩ := ih hrest
      rw [← List.take_append_drop width input]
      exact ⟨codepoint :: ns, .cons hseq hns⟩

/-- A text without the code points that are not kept stays as it is. -/
theorem stripUnicodeTags_fixed {input : Bytes} {ns : List Nat} (h : Grammar.Octets input ns)
    (hns : ∀ n ∈ ns, kept n = true) : stripUnicodeTags input = .ok input := by
  obtain ⟨output, hok, hout⟩ := stripUnicodeTags_octets h
  rw [List.filter_eq_self.mpr hns] at hout
  rw [hok, hout.octets_eq h]

theorem stripUnicodeTags_ascii {input : Bytes} (h : Ascii input) :
    stripUnicodeTags input = .ok input := by
  have hoctets := Grammar.octets_encodeChars (input.map ofByte)
  rw [encodeChars_map_ofByte h] at hoctets
  refine stripUnicodeTags_fixed hoctets fun n hn => kept_iff.mpr (.inl ?_)
  obtain ⟨c, hc, rfl⟩ := List.mem_map.mp hn
  obtain ⟨b, hb, rfl⟩ := List.mem_map.mp hc
  have hlt : b.toNat < 128 := UInt8.lt_iff_toNat_lt.mp (h b hb)
  rw [toNat_ofByte (h b hb)]
  omega

/-! ### The loops by position

A result is `none` where a byte outside the input is read. -/

/-- The loop of `decode_utf8`, of which `n` passes are left, at the position. -/
def continueAt (input : Bytes) (codepoint position : Nat) : Nat → Option (Option Nat)
  | 0 => some (some codepoint)
  | n + 1 =>
    match input[position]? with
    | none => none
    | some next =>
      if next &&& 0xC0 ≠ 0x80 then some none
      else continueAt input (codepoint <<< 6 ||| (next &&& 0x3F).toNat) (position + 1) n

/-- What is after the first byte, which has told the width. -/
def multibyteAt (input : Bytes) (offset : Nat) (bits : UInt8) (width : Nat) :
    Option (Option (Nat × Nat)) :=
  if input.length < offset + width then some none
  else
    match continueAt input bits.toNat (offset + 1) (width - 1) with
    | none => none
    | some none => some none
    | some (some codepoint) =>
      if (width = 2 ∧ codepoint < 0x80) ∨ (width = 3 ∧ codepoint < 0x800) ∨
          (width = 4 ∧ codepoint < 0x10000) ∨ 0x10FFFF < codepoint ∨
          (0xD800 ≤ codepoint ∧ codepoint ≤ 0xDFFF) then some none
      else some (some (codepoint, width))

def decodeAt (input : Bytes) (offset : Nat) : Option (Option (Nat × Nat)) :=
  match input[offset]? with
  | none => none
  | some first =>
    if first < 0x80 then some (some (first.toNat, 1))
    else if first &&& 0xE0 = 0xC0 then multibyteAt input offset (first &&& 0x1F) 2
    else if first &&& 0xF0 = 0xE0 then multibyteAt input offset (first &&& 0x0F) 3
    else if first &&& 0xF8 = 0xF0 then multibyteAt input offset (first &&& 0x07) 4
    else some none

theorem continueAt_eq {input : Bytes} {codepoint position n : Nat}
    (h : position + n ≤ input.length) :
    continueAt input codepoint position n =
      some (continueChar codepoint ((input.drop position).take n)) := by
  induction n generalizing codepoint position with
  | zero => rfl
  | succ n ih =>
    have hlt : position < input.length := by omega
    rw [continueAt, List.getElem?_eq_getElem hlt, List.drop_eq_getElem_cons hlt, List.take_succ_cons,
      continueChar]
    dsimp only
    split
    · rfl
    · exact ih (by omega)

theorem multibyteAt_eq {input : Bytes} {offset width : Nat} (bits : UInt8)
    (h : offset < input.length) (hw : 0 < width) :
    multibyteAt input offset bits width =
      some (decodeMultibyte bits width (input.drop (offset + 1))) := by
  unfold multibyteAt decodeMultibyte
  rw [List.length_drop]
  by_cases hlen : input.length < offset + width
  · rw [if_pos hlen, if_pos (by omega)]
  · rw [if_neg hlen, if_neg (by omega), continueAt_eq (by omega)]
    cases continueChar bits.toNat ((input.drop (offset + 1)).take (width - 1)) with
    | none => rfl
    | some codepoint =>
      dsimp only
      split <;> rfl

theorem decodeAt_eq {input : Bytes} {offset : Nat} (h : offset < input.length) :
    decodeAt input offset = some (decodeUtf8 (input.drop offset)) := by
  rw [decodeAt, List.getElem?_eq_getElem h, List.drop_eq_getElem_cons h, decodeUtf8]
  dsimp only
  split
  · rfl
  split
  · exact multibyteAt_eq _ h (by decide)
  split
  · exact multibyteAt_eq _ h (by decide)
  split
  · exact multibyteAt_eq _ h (by decide)
  · rfl

/-- `strip_unicode_tags`, by position. -/
def stripAt (input output : Bytes) (offset : Nat) : Option (Except Error Bytes) :=
  if _hlt : offset < input.length then
    match _h : decodeAt input offset with
    | none => none
    | some none => some (.error (.invalidInput "ingest.invalid_utf8"))
    | some (some (codepoint, width)) =>
      let output :=
        if codepoint < 0xE0000 ∨ 0xE007F < codepoint then output ++ (input.drop offset).take width
        else output
      stripAt input output (offset + width)
  else some (.ok output)
termination_by input.length - offset
decreasing_by
  rw [decodeAt_eq _hlt] at _h
  have := width_pos (Option.some.inj _h)
  omega

theorem stripAt_eq (input output : Bytes) (offset : Nat) :
    stripAt input output offset =
      some ((stripUnicodeTags (input.drop offset)).map fun rest => output ++ rest) := by
  induction output, offset using stripAt.induct input with
  | case1 output offset hlt hnone =>
    rw [decodeAt_eq hlt] at hnone
    cases hnone
  | case2 output offset hlt herror =>
    have hdecode := Option.some.inj ((decodeAt_eq hlt).symm.trans herror)
    rw [stripAt, dif_pos hlt]
    split
    next hnone =>
      rw [herror] at hnone
      cases hnone
    next =>
      rw [stripUnicodeTags, if_neg fun hnil => absurd (List.drop_eq_nil_iff.mp hnil) (by omega)]
      split
      next => rfl
      next hsome =>
        rw [hdecode] at hsome
        cases hsome
    next hsome =>
      rw [herror] at hsome
      cases hsome
  | case3 output offset hlt codepoint width hsome output' ih =>
    have hdecode := Option.some.inj ((decodeAt_eq hlt).symm.trans hsome)
    obtain ⟨hseq, -⟩ := sequence_of_decodeUtf8 hdecode
    rw [stripAt, dif_pos hlt]
    split
    next hnone =>
      rw [hsome] at hnone
      cases hnone
    next herror =>
      rw [hsome] at herror
      cases herror
    next hsome' =>
      rw [hsome] at hsome'
      cases hsome'
      refine ih.trans ?_
      have hdrop := List.take_append_drop width (input.drop offset)
      rw [← hdrop, stripUnicodeTags_append hseq, List.drop_drop]
      cases stripUnicodeTags (input.drop (offset + width)) with
      | error e => rfl
      | ok rest =>
        simp only [Except.map]
        dsimp only [output']
        split <;> simp
  | case4 output offset hge =>
    rw [stripAt, dif_neg hge, List.drop_eq_nil_of_le (Nat.le_of_not_lt hge), stripUnicodeTags,
      if_pos rfl]
    simp [Except.map]

/-- The function reads bytes of the input only, and it succeeds on what the syntax derives: its
output has the code points of the input but those of the tag characters. -/
theorem stripUnicodeTags_exact (input : Bytes) :
    stripAt input [] 0 = some (stripUnicodeTags input) ∧
      ((∃ output, stripUnicodeTags input = .ok output) ↔ ∃ ns, Grammar.Octets input ns) ∧
      ∀ ns, Grammar.Octets input ns → ∃ output, stripUnicodeTags input = .ok output ∧
        Grammar.Octets output (ns.filter fun n => ¬(0xE0000 ≤ n ∧ n ≤ 0xE007F)) ∧
        stripUnicodeTags output = .ok output := by
  refine ⟨?_, ⟨?_, ?_⟩, ?_⟩
  · rw [stripAt_eq, List.drop_zero]
    cases stripUnicodeTags input <;> rfl
  · rintro ⟨output, h⟩
    exact octets_of_stripUnicodeTags h
  · rintro ⟨ns, h⟩
    obtain ⟨output, hok, -⟩ := stripUnicodeTags_octets h
    exact ⟨output, hok⟩
  · intro ns h
    obtain ⟨output, hok, hout⟩ := stripUnicodeTags_octets h
    refine ⟨output, hok, ?_, stripUnicodeTags_fixed hout fun n hn => (List.mem_filter.mp hn).2⟩
    have hfilter : ns.filter kept = ns.filter fun n => ¬(0xE0000 ≤ n ∧ n ≤ 0xE007F) := by
      refine List.filter_congr fun n _ => ?_
      rw [Bool.eq_iff_iff, kept_iff, decide_eq_true_eq]
      omega
    rwa [← hfilter]

end Wikore.Parser
