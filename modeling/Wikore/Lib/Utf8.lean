import Mathlib.Data.List.Basic

/-! Strings as the bytes of their UTF-8 encoding, and functions of single bytes that rewrite ASCII
characters: on an encoded string such a function rewrites the characters. -/

namespace Utf8

def encode (s : String) : List UInt8 := s.toByteArray.data.toList

/-- The string that the bytes encode, if there is one. -/
def decode (bs : List UInt8) : Option String := String.fromUTF8? bs.toByteArray

/-- The encoding of a list of characters. -/
def encodeChars (cs : List Char) : List UInt8 := cs.flatMap String.utf8EncodeChar

@[simp]
theorem encodeChars_append (cs ds : List Char) :
    encodeChars (cs ++ ds) = encodeChars cs ++ encodeChars ds := List.flatMap_append

@[simp]
theorem encodeChars_cons (c : Char) (cs : List Char) :
    encodeChars (c :: cs) = String.utf8EncodeChar c ++ encodeChars cs := List.flatMap_cons

theorem encode_ofList (cs : List Char) : encode (String.ofList cs) = encodeChars cs := by
  rw [encode, String.toByteArray_ofList, List.utf8Encode, List.toList_data_toByteArray, encodeChars]

theorem encode_eq (s : String) : encode s = encodeChars s.toList := by
  rw [← encode_ofList, String.ofList_toList]

theorem toByteArray_encode (s : String) : (encode s).toByteArray = s.toByteArray := by
  apply ByteArray.ext
  apply Array.ext'
  rw [List.toList_data_toByteArray, encode]

theorem decode_encode (s : String) : decode (encode s) = some s := by
  rw [decode, toByteArray_encode, String.fromUTF8?, dif_pos s.isValidUTF8]
  rfl

theorem decode_encodeChars (cs : List Char) :
    decode (encodeChars cs) = some (String.ofList cs) := by
  rw [← encode_ofList, decode_encode]

theorem encode_of_decode {bs : List UInt8} {s : String} (h : decode bs = some s) :
    encode s = bs := by
  unfold decode String.fromUTF8? at h
  split at h
  · obtain rfl := Option.some.inj h
    exact List.toList_data_toByteArray
  · cases h

/-- Where the bytes of a string go on with other bytes, its characters go on with other
characters. -/
theorem prefix_of_encode {cs : List Char} {s : String} {t : List UInt8}
    (h : encode s = encodeChars cs ++ t) : cs <+: s.toList := by
  refine List.isPrefix_of_utf8Encode_append_eq_utf8Encode t.toByteArray ?_
  rw [String.utf8Encode_toList, ← toByteArray_encode, h, List.toByteArray_append]
  rfl

/-! ### ASCII -/

theorem encodeChar_ascii {c : Char} (h : c.toNat < 128) :
    String.utf8EncodeChar c = [UInt8.ofNat c.toNat] := by
  have hle : c.val.toNat ≤ 0x7f := Nat.le_of_lt_succ h
  rw [String.utf8EncodeChar, if_pos hle]
  rfl

theorem encodeChar_wide {c : Char} (h : 128 ≤ c.toNat) :
    ∀ b ∈ String.utf8EncodeChar c, 128 ≤ b := by
  have hne : ¬c.val.toNat ≤ 0x7f := Nat.not_le.mpr h
  have hbyte : ∀ n, 128 ≤ n → n < 256 → 128 ≤ UInt8.ofNat n := by
    intro n hn hlt
    rw [UInt8.le_iff_toNat_le, UInt8.toNat_ofNat_of_lt' hlt]
    exact hn
  intro b hb
  simp only [String.utf8EncodeChar, if_neg hne] at hb
  split at hb
  · simp only [List.mem_cons, List.not_mem_nil, or_false] at hb
    rcases hb with rfl | rfl <;> apply hbyte <;> omega
  split at hb
  · simp only [List.mem_cons, List.not_mem_nil, or_false] at hb
    rcases hb with rfl | rfl | rfl <;> apply hbyte <;> omega
  · simp only [List.mem_cons, List.not_mem_nil, or_false] at hb
    rcases hb with rfl | rfl | rfl | rfl <;> apply hbyte <;> omega

/-- The byte 0 encodes the character 0 only. -/
theorem zero_notMem_encode {s : String} (h : '\x00' ∉ s.toList) : 0 ∉ encode s := by
  rw [encode_eq]
  intro hmem
  obtain ⟨c, hc, hzero⟩ := List.mem_flatMap.mp hmem
  by_cases hascii : c.toNat < 128
  · rw [encodeChar_ascii hascii, List.mem_singleton] at hzero
    have hnat := congrArg UInt8.toNat hzero
    rw [UInt8.toNat_ofNat_of_lt' (Nat.lt_trans hascii (by decide))] at hnat
    have hnul : c = '\x00' := Char.toNat_inj.mp hnat.symm
    exact h (hnul ▸ hc)
  · exact absurd (encodeChar_wide (Nat.le_of_not_lt hascii) 0 hzero) (by decide)

/-- The byte as a character. -/
def ofByte (b : UInt8) : Char := Char.ofNat b.toNat

theorem toNat_ofByte {b : UInt8} (h : b < 128) : (ofByte b).toNat = b.toNat := by
  have hlt : b.toNat < 128 := UInt8.lt_iff_toNat_lt.mp h
  have hvalid : Nat.isValidChar b.toNat := .inl (by omega)
  rw [ofByte, Char.ofNat, dif_pos hvalid]
  rfl

theorem encodeChar_ofByte {b : UInt8} (h : b < 128) :
    String.utf8EncodeChar (ofByte b) = [b] := by
  have hlt : b.toNat < 128 := UInt8.lt_iff_toNat_lt.mp h
  rw [encodeChar_ascii (by rw [toNat_ofByte h]; exact hlt), toNat_ofByte h, UInt8.ofNat_toNat]

/-- Rewrites ASCII bytes to ASCII texts and leaves the others. -/
structure RewritesAscii (f : UInt8 → List UInt8) : Prop where
  ascii : ∀ b, b < 128 → ∀ x ∈ f b, x < 128
  wide : ∀ b, 128 ≤ b → f b = [b]

/-- The same function of characters. -/
def onChar (f : UInt8 → List UInt8) (c : Char) : List Char :=
  if c.toNat < 128 then (f (UInt8.ofNat c.toNat)).map ofByte else [c]

theorem encodeChars_map_ofByte {bs : List UInt8} (h : ∀ b ∈ bs, b < 128) :
    encodeChars (bs.map ofByte) = bs := by
  induction bs with
  | nil => rfl
  | cons b bs ih =>
    rw [List.map_cons, encodeChars_cons, encodeChar_ofByte (h b List.mem_cons_self),
      ih fun x hx => h x (List.mem_cons_of_mem b hx)]
    rfl

theorem encodeChar_flatMap {f : UInt8 → List UInt8} (h : RewritesAscii f) (c : Char) :
    (String.utf8EncodeChar c).flatMap f = encodeChars (onChar f c) := by
  by_cases hc : c.toNat < 128
  · have hb : UInt8.ofNat c.toNat < 128 := by
      rw [UInt8.lt_iff_toNat_lt, UInt8.toNat_ofNat_of_lt' (Nat.lt_trans hc (by decide))]
      exact hc
    rw [encodeChar_ascii hc, onChar, if_pos hc, encodeChars_map_ofByte (h.ascii _ hb)]
    simp
  · have hwide := encodeChar_wide (Nat.le_of_not_lt hc)
    have hsame : (String.utf8EncodeChar c).flatMap f = String.utf8EncodeChar c := by
      refine (List.flatMap_congr fun b hb => h.wide b (hwide b hb)).trans ?_
      exact List.flatMap_singleton' _
    rw [hsame, onChar, if_neg hc]
    simp [encodeChars]

theorem flatMap_encodeChars {f : UInt8 → List UInt8} (h : RewritesAscii f) (cs : List Char) :
    (encodeChars cs).flatMap f = encodeChars (cs.flatMap (onChar f)) := by
  induction cs with
  | nil => rfl
  | cons c cs ih =>
    rw [encodeChars_cons, List.flatMap_append, encodeChar_flatMap h, ih, List.flatMap_cons,
      encodeChars_append]

end Utf8
