import Wikore.Ingest.TagStripping
import Wikore.Lib.Utf16

/-! `ustring_to_utf8` of the PDF parser writes what `decode_utf8` reads. -/

namespace Wikore.Parser

open ContextBuilder (Bytes)
open Utf8

/-- A surrogate pair. -/
def putPair (cu cl : Nat) : Bytes :=
  let cp := 0x10000 + ((cu - 0xD800) <<< 10) + (cl - 0xDC00)
  [UInt8.ofNat (0xF0 ||| (cp >>> 18)), UInt8.ofNat (0x80 ||| ((cp >>> 12) &&& 0x3F)),
    UInt8.ofNat (0x80 ||| ((cp >>> 6) &&& 0x3F)), UInt8.ofNat (0x80 ||| (cp &&& 0x3F))]

/-- A unit that is not a surrogate. -/
def putUnit (cu : Nat) : Bytes :=
  if cu < 0x80 then [UInt8.ofNat cu]
  else if cu < 0x800 then
    [UInt8.ofNat (0xC0 ||| (cu >>> 6)), UInt8.ofNat (0x80 ||| (cu &&& 0x3F))]
  else
    [UInt8.ofNat (0xE0 ||| (cu >>> 12)), UInt8.ofNat (0x80 ||| ((cu >>> 6) &&& 0x3F)),
      UInt8.ofNat (0x80 ||| (cu &&& 0x3F))]

def putReplacement : Bytes := [0xEF, 0xBF, 0xBD]

/-- `ustring_to_utf8`, from the unit that the loop has come to. -/
def ustringToUtf8 : List UInt16 → Bytes
  | [] => []
  | u :: rest =>
    let cu := u.toNat
    if 0xD800 ≤ cu ∧ cu ≤ 0xDBFF then
      match rest with
      | l :: rest' =>
        let cl := l.toNat
        if 0xDC00 ≤ cl ∧ cl ≤ 0xDFFF then putPair cu cl ++ ustringToUtf8 rest'
        else putReplacement ++ ustringToUtf8 (l :: rest')
      | [] => putReplacement
    else if 0xDC00 ≤ cu ∧ cu ≤ 0xDFFF then putReplacement ++ ustringToUtf8 rest
    else putUnit cu ++ ustringToUtf8 rest

/-! ### The bits -/

theorem or_low {a b i : Nat} (h : b < 2 ^ i) : a <<< i ||| b = a * 2 ^ i + b := by
  rw [← Nat.shiftLeft_add_eq_or_of_lt h, Nat.shiftLeft_eq]

theorem low_bits (n : Nat) : n &&& 0x3F = n % 64 := Nat.and_two_pow_sub_one_eq_mod n 6

/-- A byte that is made of a mark over `i` bits. -/
theorem toNat_put {m a i n : Nat} (hmark : m = a <<< i) (hn : n < 2 ^ i)
    (hlt : a * 2 ^ i + n < 256) : (UInt8.ofNat (m ||| n)).toNat = a * 2 ^ i + n := by
  rw [hmark, or_low hn, UInt8.toNat_ofNat_of_lt' hlt]

theorem toNat_putTail (n : Nat) : (UInt8.ofNat (0x80 ||| (n &&& 0x3F))).toNat = 128 + n % 64 := by
  have hbits := toNat_put (m := 0x80) (a := 2) (i := 6) (n := n % 64) rfl (by omega) (by omega)
  simp only [low_bits]
  omega

theorem tail_putTail (n : Nat) : Grammar.Tail (UInt8.ofNat (0x80 ||| (n &&& 0x3F))) := by
  have hvalue := toNat_putTail n
  exact ⟨by omega, by omega⟩

theorem addTail_putTail (m n : Nat) :
    Grammar.addTail m (UInt8.ofNat (0x80 ||| (n &&& 0x3F))) = m * 64 + n % 64 := by
  have hvalue := toNat_putTail n
  unfold Grammar.addTail
  omega

/-! ### What is put is a sequence of the syntax -/

theorem sequence_putUnit {cu : Nat} (hlt : cu < 0x10000) (hs : ¬(0xD800 ≤ cu ∧ cu ≤ 0xDFFF)) :
    Grammar.Sequence (putUnit cu) cu := by
  unfold putUnit
  split
  next hone =>
    have hbyte : (UInt8.ofNat cu).toNat = cu := UInt8.toNat_ofNat_of_lt' (by
      show cu < 256
      omega)
    have h := Grammar.Sequence.one (a := UInt8.ofNat cu) (by omega)
    rwa [hbyte] at h
  split
  next hone htwo =>
    have hfirst := toNat_put (m := 0xC0) (a := 6) (i := 5) (n := cu >>> 6) rfl (by omega)
      (by omega)
    have h := Grammar.Sequence.two (a := UInt8.ofNat (0xC0 ||| cu >>> 6)) (by omega)
      (tail_putTail cu)
    rw [addTail_putTail, hfirst] at h
    rwa [show (6 * 2 ^ 5 + cu >>> 6 - 0xC0) * 64 + cu % 64 = cu by omega] at h
  next hone htwo =>
    have hfirst := toNat_put (m := 0xE0) (a := 14) (i := 4) (n := cu >>> 12) rfl (by omega)
      (by omega)
    have hsecond := toNat_putTail (cu >>> 6)
    have h := Grammar.Sequence.three (a := UInt8.ofNat (0xE0 ||| cu >>> 12)) (by omega)
      (tail_putTail (cu >>> 6)) (tail_putTail cu) (by omega) (by omega)
    rw [addTail_putTail, addTail_putTail, hfirst] at h
    rwa [show ((14 * 2 ^ 4 + cu >>> 12 - 0xE0) * 64 + cu >>> 6 % 64) * 64 + cu % 64 = cu
      by omega] at h

theorem sequence_putPair {cu cl : UInt16} (hh : Utf16.High cu) (hl : Utf16.Low cl) :
    Grammar.Sequence (putPair cu.toNat cl.toNat) (Utf16.supplementary cu cl) := by
  have hcp : 0x10000 + ((cu.toNat - 0xD800) <<< 10) + (cl.toNat - 0xDC00) =
      Utf16.supplementary cu cl := by
    rw [Nat.shiftLeft_eq]
    rfl
  obtain ⟨hh, hh'⟩ := hh
  obtain ⟨hl, hl'⟩ := hl
  have hrange : 0x10000 ≤ Utf16.supplementary cu cl ∧ Utf16.supplementary cu cl ≤ 0x10FFFF := by
    unfold Utf16.supplementary
    omega
  unfold putPair
  rw [hcp]
  dsimp only
  generalize Utf16.supplementary cu cl = cp at hrange
  have hfirst := toNat_put (m := 0xF0) (a := 30) (i := 3) (n := cp >>> 18) rfl (by omega)
    (by omega)
  have hsecond := toNat_putTail (cp >>> 12)
  have h := Grammar.Sequence.four (a := UInt8.ofNat (0xF0 ||| cp >>> 18)) (by omega)
    (tail_putTail (cp >>> 12)) (tail_putTail (cp >>> 6)) (tail_putTail cp) (by omega) (by omega)
  rw [addTail_putTail, addTail_putTail, addTail_putTail, hfirst] at h
  rwa [show (((30 * 2 ^ 3 + cp >>> 18 - 0xF0) * 64 + cp >>> 12 % 64) * 64 + cp >>> 6 % 64) * 64 +
    cp % 64 = cp by omega] at h

theorem sequence_putReplacement : Grammar.Sequence putReplacement Utf16.replacement :=
  .three ⟨by decide, by decide⟩ ⟨by decide, by decide⟩ ⟨by decide, by decide⟩ (by decide) (by decide)

theorem putReplacement_append {rest : List UInt16}
    (ih : ∃ ns, Utf16.Reads rest ns ∧ Grammar.Octets (ustringToUtf8 rest) ns) :
    ∃ ns, Utf16.Reads rest ns ∧
      Grammar.Octets (putReplacement ++ ustringToUtf8 rest) (Utf16.replacement :: ns) := by
  obtain ⟨ns, hreads, hoctets⟩ := ih
  exact ⟨ns, hreads, .cons sequence_putReplacement hoctets⟩

theorem ustringToUtf8_octets (us : List UInt16) :
    ∃ ns, Utf16.Reads us ns ∧ Grammar.Octets (ustringToUtf8 us) ns := by
  induction us using ustringToUtf8.induct with
  | case1 => exact ⟨[], .nil, .nil⟩
  | case2 u cu hhigh l rest cl hlow ih =>
    obtain ⟨ns, hreads, hoctets⟩ := ih
    refine ⟨_, .pair hhigh hlow hreads, ?_⟩
    rw [ustringToUtf8, if_pos hhigh]
    dsimp only
    rw [if_pos hlow]
    exact .cons (sequence_putPair hhigh hlow) hoctets
  | case3 u cu hhigh l rest cl hlow ih =>
    obtain ⟨ns, hreads, hoctets⟩ := putReplacement_append ih
    refine ⟨_, .unpairedHigh hhigh ?_ hreads, ?_⟩
    · rintro _ ⟨⟩
      exact hlow
    · rw [ustringToUtf8, if_pos hhigh]
      dsimp only
      rwa [if_neg hlow]
  | case4 u cu hhigh =>
    refine ⟨_, .unpairedHigh hhigh (by simp) .nil, ?_⟩
    rw [ustringToUtf8, if_pos hhigh]
    exact Grammar.Octets.cons sequence_putReplacement .nil
  | case5 u rest cu hhigh hlow ih =>
    obtain ⟨ns, hreads, hoctets⟩ := putReplacement_append ih
    refine ⟨_, .unpairedLow hlow hreads, ?_⟩
    rw [ustringToUtf8.eq_def]
    dsimp only
    rwa [if_neg hhigh, if_pos hlow]
  | case6 u rest cu hhigh hlow ih =>
    obtain ⟨ns, hreads, hoctets⟩ := ih
    refine ⟨_, .unit hhigh hlow hreads, ?_⟩
    rw [ustringToUtf8.eq_def]
    dsimp only
    rw [if_neg hhigh, if_neg hlow]
    refine .cons (sequence_putUnit u.toNat_lt ?_) hoctets
    omega

/-- The decoder reads the output to its end, as the code points that the units stand for. -/
theorem decodeAll_ustringToUtf8 (us : List UInt16) :
    ∃ ns, decodeAll (ustringToUtf8 us) = some ns ∧ ∀ ms, Utf16.Reads us ms ↔ ms = ns := by
  obtain ⟨ns, hreads, hoctets⟩ := ustringToUtf8_octets us
  refine ⟨ns, decodeAll_iff.mpr hoctets, fun ms => ?_⟩
  constructor
  · intro h
    exact h.unique hreads
  · rintro rfl
    exact hreads

end Wikore.Parser
