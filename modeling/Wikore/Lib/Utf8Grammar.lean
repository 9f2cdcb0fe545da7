import Wikore.Lib.Carried

/-! The syntax of UTF-8 as RFC 3629 gives it, octet by octet, each sequence with the code point it
stands for, and that it derives exactly the encodings of lists of characters. -/

namespace Utf8.Grammar

/-- `UTF8-tail`. -/
def Tail (b : UInt8) : Prop := 0x80 ≤ b.toNat ∧ b.toNat ≤ 0xBF

/-- The bits of a tail after those that came before it. -/
def addTail (n : Nat) (b : UInt8) : Nat := n * 64 + (b.toNat - 0x80)

/-- `UTF8-char`.  After some first octets the second has a smaller range than a tail has. -/
inductive Sequence : List UInt8 → Nat → Prop
  | one {a : UInt8} (ha : a.toNat ≤ 0x7F) : Sequence [a] a.toNat
  | two {a b : UInt8} (ha : 0xC2 ≤ a.toNat ∧ a.toNat ≤ 0xDF) (hb : Tail b) :
      Sequence [a, b] (addTail (a.toNat - 0xC0) b)
  | three {a b c : UInt8} (ha : 0xE0 ≤ a.toNat ∧ a.toNat ≤ 0xEF) (hb : Tail b) (hc : Tail c)
      (hlow : a.toNat = 0xE0 → 0xA0 ≤ b.toNat) (hhigh : a.toNat = 0xED → b.toNat ≤ 0x9F) :
      Sequence [a, b, c] (addTail (addTail (a.toNat - 0xE0) b) c)
  | four {a b c d : UInt8} (ha : 0xF0 ≤ a.toNat ∧ a.toNat ≤ 0xF4) (hb : Tail b) (hc : Tail c)
      (hd : Tail d) (hlow : a.toNat = 0xF0 → 0x90 ≤ b.toNat)
      (hhigh : a.toNat = 0xF4 → b.toNat ≤ 0x8F) :
      Sequence [a, b, c, d] (addTail (addTail (addTail (a.toNat - 0xF0) b) c) d)

/-- `UTF8-octets`, and the code points of its characters. -/
inductive Octets : List UInt8 → List Nat → Prop
  | nil : Octets [] []
  | cons {bs rest : List UInt8} {n : Nat} {ns : List Nat} (h : Sequence bs n)
      (hrest : Octets rest ns) : Octets (bs ++ rest) (n :: ns)

/-! ### The sequences are the encodings of characters -/

theorem exists_char {n : Nat} (hle : n ≤ 0x10FFFF) (hs : ¬(0xD800 ≤ n ∧ n ≤ 0xDFFF)) :
    ∃ c : Char, c.toNat = n := by
  have hvalid : n.isValidChar := by
    rw [Nat.isValidChar]
    omega
  refine ⟨Char.ofNat n, ?_⟩
  rw [Char.ofNat, dif_pos hvalid]
  rfl

theorem eq_ofNat {b : UInt8} {n : Nat} (h : n = b.toNat) : b = UInt8.ofNat n := by
  rw [h, UInt8.ofNat_toNat]

/-- A code point in the range of two octets. -/
theorem encodeChar_two {c : Char} {a b : UInt8} (hc : 0x80 ≤ c.toNat ∧ c.toNat ≤ 0x7FF)
    (ha : c.toNat / 64 + 192 = a.toNat) (hb : c.toNat % 64 + 128 = b.toNat) :
    String.utf8EncodeChar c = [a, b] := by
  have hval : c.val.toNat = c.toNat := rfl
  simp only [String.utf8EncodeChar, hval]
  rw [if_neg (by omega), if_pos hc.2]
  rw [← eq_ofNat (b := a) (by omega), ← eq_ofNat (b := b) (by omega)]

theorem encodeChar_three {c : Char} {a b d : UInt8} (hc : 0x800 ≤ c.toNat ∧ c.toNat ≤ 0xFFFF)
    (ha : c.toNat / 4096 + 224 = a.toNat) (hb : c.toNat / 64 % 64 + 128 = b.toNat)
    (hd : c.toNat % 64 + 128 = d.toNat) : String.utf8EncodeChar c = [a, b, d] := by
  have hval : c.val.toNat = c.toNat := rfl
  simp only [String.utf8EncodeChar, hval]
  rw [if_neg (by omega), if_neg (by omega), if_pos hc.2]
  rw [← eq_ofNat (b := a) (by omega), ← eq_ofNat (b := b) (by omega),
    ← eq_ofNat (b := d) (by omega)]

theorem encodeChar_four {c : Char} {a b d e : UInt8} (hc : 0x10000 ≤ c.toNat)
    (ha : c.toNat / 262144 % 8 + 240 = a.toNat) (hb : c.toNat / 4096 % 64 + 128 = b.toNat)
    (hd : c.toNat / 64 % 64 + 128 = d.toNat) (he : c.toNat % 64 + 128 = e.toNat) :
    String.utf8EncodeChar c = [a, b, d, e] := by
  have hval : c.val.toNat = c.toNat := rfl
  simp only [String.utf8EncodeChar, hval]
  rw [if_neg (by omega), if_neg (by omega), if_neg (by omega)]
  rw [← eq_ofNat (b := a) (by omega), ← eq_ofNat (b := b) (by omega),
    ← eq_ofNat (b := d) (by omega), ← eq_ofNat (b := e) (by omega)]

theorem Sequence.ne_nil {bs : List UInt8} {n : Nat} (h : Sequence bs n) : bs ≠ [] := by
  cases h <;> simp

theorem Sequence.exists_char {bs : List UInt8} {n : Nat} (h : Sequence bs n) :
    ∃ c : Char, c.toNat = n ∧ bs = String.utf8EncodeChar c := by
  cases h with
  | @one a ha =>
    obtain ⟨c, hc⟩ := Grammar.exists_char (n := a.toNat) (by omega) (by omega)
    refine ⟨c, hc, ?_⟩
    rw [encodeChar_ascii (by omega), hc, UInt8.ofNat_toNat]
  | @two a b ha hb =>
    obtain ⟨hb, hb'⟩ := hb
    obtain ⟨c, hc⟩ := Grammar.exists_char (n := addTail (a.toNat - 0xC0) b)
      (by unfold addTail; omega) (by unfold addTail; omega)
    refine ⟨c, hc, ?_⟩
    unfold addTail at hc
    have hrange : 0x80 ≤ c.toNat ∧ c.toNat ≤ 0x7FF := by omega
    have h₁ : c.toNat / 64 + 192 = a.toNat := by omega
    have h₂ : c.toNat % 64 + 128 = b.toNat := by omega
    exact (encodeChar_two hrange h₁ h₂).symm
  | @three a b d ha hb hd hlow hhigh =>
    obtain ⟨hb, hb'⟩ := hb
    obtain ⟨hd, hd'⟩ := hd
    obtain ⟨c, hc⟩ := Grammar.exists_char (n := addTail (addTail (a.toNat - 0xE0) b) d)
      (by unfold addTail; omega) (by unfold addTail; omega)
    refine ⟨c, hc, ?_⟩
    unfold addTail at hc
    have hrange : 0x800 ≤ c.toNat ∧ c.toNat ≤ 0xFFFF := by omega
    have h₁ : c.toNat / 4096 + 224 = a.toNat := by omega
    have h₂ : c.toNat / 64 % 64 + 128 = b.toNat := by omega
    have h₃ : c.toNat % 64 + 128 = d.toNat := by omega
    exact (encodeChar_three hrange h₁ h₂ h₃).symm
  | @four a b d e ha hb hd he hlow hhigh =>
    obtain ⟨hb, hb'⟩ := hb
    obtain ⟨hd, hd'⟩ := hd
    obtain ⟨he, he'⟩ := he
    obtain ⟨c, hc⟩ := Grammar.exists_char
      (n := addTail (addTail (addTail (a.toNat - 0xF0) b) d) e)
      (by unfold addTail; omega) (by unfold addTail; omega)
    refine ⟨c, hc, ?_⟩
    unfold addTail at hc
    have hrange : 0x10000 ≤ c.toNat := by omega
    have h₁ : c.toNat / 262144 % 8 + 240 = a.toNat := by omega
    have h₂ : c.toNat / 4096 % 64 + 128 = b.toNat := by omega
    have h₃ : c.toNat / 64 % 64 + 128 = d.toNat := by omega
    have h₄ : c.toNat % 64 + 128 = e.toNat := by omega
    exact (encodeChar_four hrange h₁ h₂ h₃ h₄).symm

theorem exists_byte {n : Nat} (h : n < 256) : ∃ b : UInt8, n = b.toNat :=
  ⟨UInt8.ofNat n, (UInt8.toNat_ofNat_of_lt' h).symm⟩

theorem sequence_encodeChar (c : Char) : Sequence (String.utf8EncodeChar c) c.toNat := by
  have hvalid : c.toNat < 0xD800 ∨ 0xDFFF < c.toNat ∧ c.toNat < 0x110000 := c.valid
  by_cases hone : c.toNat < 0x80
  · obtain ⟨a, ha⟩ := exists_byte (n := c.toNat) (by omega)
    rw [encodeChar_ascii hone, ha, UInt8.ofNat_toNat]
    exact .one (by omega)
  by_cases htwo : c.toNat ≤ 0x7FF
  · obtain ⟨a, ha⟩ := exists_byte (n := c.toNat / 64 + 192) (by omega)
    obtain ⟨b, hb⟩ := exists_byte (n := c.toNat % 64 + 128) (by omega)
    have hrange : 0x80 ≤ c.toNat ∧ c.toNat ≤ 0x7FF := by omega
    have hvalue : c.toNat = addTail (a.toNat - 0xC0) b := by
      unfold addTail
      omega
    rw [encodeChar_two hrange ha hb, hvalue]
    exact .two (by omega) ⟨by omega, by omega⟩
  by_cases hthree : c.toNat ≤ 0xFFFF
  · obtain ⟨a, ha⟩ := exists_byte (n := c.toNat / 4096 + 224) (by omega)
    obtain ⟨b, hb⟩ := exists_byte (n := c.toNat / 64 % 64 + 128) (by omega)
    obtain ⟨d, hd⟩ := exists_byte (n := c.toNat % 64 + 128) (by omega)
    have hrange : 0x800 ≤ c.toNat ∧ c.toNat ≤ 0xFFFF := by omega
    have hvalue : c.toNat = addTail (addTail (a.toNat - 0xE0) b) d := by
      unfold addTail
      omega
    rw [encodeChar_three hrange ha hb hd, hvalue]
    exact .three (by omega) ⟨by omega, by omega⟩ ⟨by omega, by omega⟩ (by omega) (by omega)
  · obtain ⟨a, ha⟩ := exists_byte (n := c.toNat / 262144 % 8 + 240) (by omega)
    obtain ⟨b, hb⟩ := exists_byte (n := c.toNat / 4096 % 64 + 128) (by omega)
    obtain ⟨d, hd⟩ := exists_byte (n := c.toNat / 64 % 64 + 128) (by omega)
    obtain ⟨e, he⟩ := exists_byte (n := c.toNat % 64 + 128) (by omega)
    have hrange : 0x10000 ≤ c.toNat := by omega
    have hvalue : c.toNat = addTail (addTail (addTail (a.toNat - 0xF0) b) d) e := by
      unfold addTail
      omega
    rw [encodeChar_four hrange ha hb hd he, hvalue]
    exact .four (by omega) ⟨by omega, by omega⟩ ⟨by omega, by omega⟩ ⟨by omega, by omega⟩
      (by omega) (by omega)

theorem octets_iff {bs : List UInt8} {ns : List Nat} :
    Octets bs ns ↔ ∃ cs, bs = encodeChars cs ∧ ns = cs.map Char.toNat := by
  constructor
  · intro h
    induction h with
    | nil => exact ⟨[], rfl, rfl⟩
    | cons h _ ih =>
      obtain ⟨c, rfl, rfl⟩ := h.exists_char
      obtain ⟨cs, rfl, rfl⟩ := ih
      exact ⟨c :: cs, (encodeChars_cons c cs).symm, rfl⟩
  · rintro ⟨cs, rfl, rfl⟩
    induction cs with
    | nil => exact .nil
    | cons c cs ih =>
      rw [encodeChars_cons]
      exact .cons (sequence_encodeChar c) ih

theorem octets_encodeChars (cs : List Char) : Octets (encodeChars cs) (cs.map Char.toNat) :=
  octets_iff.mpr ⟨cs, rfl, rfl⟩

theorem exists_octets_iff {bs : List UInt8} : (∃ ns, Octets bs ns) ↔ WellFormed bs := by
  constructor
  · rintro ⟨ns, h⟩
    obtain ⟨cs, he, -⟩ := octets_iff.mp h
    exact ⟨cs, he⟩
  · rintro ⟨cs, rfl⟩
    exact ⟨_, octets_encodeChars cs⟩

/-- The code points say what the octets are. -/
theorem Octets.octets_eq {bs ds : List UInt8} {ns : List Nat} (hb : Octets bs ns)
    (hd : Octets ds ns) : bs = ds := by
  obtain ⟨cs, rfl, rfl⟩ := octets_iff.mp hb
  obtain ⟨es, rfl, he⟩ := octets_iff.mp hd
  rw [List.map_injective_iff.mpr (fun _ _ h => Char.toNat_inj.mp h) he]

end Utf8.Grammar
