import Wikore.Lib.Utf8
import Mathlib.Data.List.Infix

/-! Which characters a text carries that was made from other texts.  A text is well formed when it
is an encoding, and a class of wide characters is carried from the parts of a text to the whole, and
by cuts that do not split a character. -/

namespace Utf8

theorem encodeChars_injective {cs ds : List Char} (h : encodeChars cs = encodeChars ds) :
    cs = ds := by
  have he := congrArg decode h
  rw [decode_encodeChars, decode_encodeChars, Option.some.injEq] at he
  simpa using congrArg String.toList he

def WellFormed (bs : List UInt8) : Prop := ∃ cs, bs = encodeChars cs

/-- A class of characters that are not ASCII. -/
structure WideClass where
  mem : Char → Prop
  wide : ∀ c, mem c → 128 ≤ c.toNat

variable {k : WideClass} {a b : List UInt8} {P Q : Prop}

/-- Whether the text has a character of the class. -/
def Holds (k : WideClass) (bs : List UInt8) : Prop :=
  ∃ cs, bs = encodeChars cs ∧ ∃ c ∈ cs, k.mem c

theorem holds_encodeChars (cs : List Char) : Holds k (encodeChars cs) ↔ ∃ c ∈ cs, k.mem c := by
  constructor
  · rintro ⟨ds, he, hds⟩
    rwa [encodeChars_injective he]
  · intro h
    exact ⟨cs, rfl, h⟩

/-- A well-formed text that has a character of the class exactly when `P`. -/
structure Carries (k : WideClass) (bs : List UInt8) (P : Prop) : Prop where
  wellFormed : WellFormed bs
  holds_iff : Holds k bs ↔ P

theorem carries_encodeChars (cs : List Char) : Carries k (encodeChars cs) (∃ c ∈ cs, k.mem c) :=
  ⟨⟨cs, rfl⟩, holds_encodeChars cs⟩

theorem WellFormed.carries (h : WellFormed a) : Carries k a (Holds k a) := ⟨h, Iff.rfl⟩

theorem Carries.iff (h : Carries k a P) (hpq : P ↔ Q) : Carries k a Q :=
  ⟨h.wellFormed, h.holds_iff.trans hpq⟩

theorem Carries.append (ha : Carries k a P) (hb : Carries k b Q) : Carries k (a ++ b) (P ∨ Q) := by
  obtain ⟨⟨cs, rfl⟩, ha⟩ := ha
  obtain ⟨⟨ds, rfl⟩, hb⟩ := hb
  rw [← encodeChars_append]
  refine (carries_encodeChars _).iff ?_
  rw [← ha, ← hb, holds_encodeChars, holds_encodeChars]
  simp only [List.mem_append, or_and_right, exists_or]

def Ascii (bs : List UInt8) : Prop := ∀ b ∈ bs, b < 128

theorem ascii_of_all (h : a.all (fun b => decide (b < 128)) = true) : Ascii a := fun b hb =>
  of_decide_eq_true (List.all_eq_true.mp h b hb)

theorem ascii_nil : Ascii [] := fun _ h => absurd h List.not_mem_nil

theorem Ascii.append (ha : Ascii a) (hb : Ascii b) : Ascii (a ++ b) := fun x hx =>
  (List.mem_append.mp hx).elim (ha x) (hb x)

theorem Ascii.carries (h : Ascii a) : Carries k a False := by
  rw [← encodeChars_map_ofByte h]
  refine (carries_encodeChars _).iff (iff_false_intro ?_)
  rintro ⟨c, hc, hk⟩
  obtain ⟨x, hx, rfl⟩ := List.mem_map.mp hc
  have hwide := k.wide _ hk
  rw [toNat_ofByte (h x hx)] at hwide
  exact absurd (UInt8.lt_iff_toNat_lt.mp (h x hx)) (Nat.not_lt.mpr hwide)

theorem carries_nil : Carries k [] False := ascii_nil.carries

theorem Carries.append_ascii (ha : Carries k a P) (hb : Ascii b) : Carries k (a ++ b) P :=
  (ha.append hb.carries).iff (iff_of_eq (or_false P))

theorem WellFormed.append (ha : WellFormed a) (hb : WellFormed b) : WellFormed (a ++ b) := by
  obtain ⟨cs, rfl⟩ := ha
  obtain ⟨ds, rfl⟩ := hb
  exact ⟨cs ++ ds, (encodeChars_append cs ds).symm⟩

theorem holds_append (ha : WellFormed a) (hb : WellFormed b) :
    Holds k (a ++ b) ↔ Holds k a ∨ Holds k b := (ha.carries.append hb.carries).holds_iff

theorem Ascii.not_holds (h : Ascii a) : ¬Holds k a := h.carries.holds_iff.mp

theorem Ascii.wellFormed (h : Ascii a) : WellFormed a :=
  (h.carries (k := ⟨fun _ => False, fun _ h => h.elim⟩)).wellFormed

/-- Well-formed texts, one of which has a character of the class exactly when `P`. -/
structure CarriesAll (k : WideClass) (ts : List (List UInt8)) (P : Prop) : Prop where
  wellFormed : ∀ t ∈ ts, WellFormed t
  holds_iff : (∃ t ∈ ts, Holds k t) ↔ P

theorem CarriesAll.iff {ts : List (List UInt8)} (h : CarriesAll k ts P) (hpq : P ↔ Q) :
    CarriesAll k ts Q := ⟨h.wellFormed, h.holds_iff.trans hpq⟩

theorem carriesAll_nil : CarriesAll k [] False := ⟨by simp, by simp⟩

theorem CarriesAll.append {ts us : List (List UInt8)} (ht : CarriesAll k ts P)
    (hu : CarriesAll k us Q) : CarriesAll k (ts ++ us) (P ∨ Q) := by
  refine ⟨?_, ?_⟩
  · intro t h
    exact (List.mem_append.mp h).elim (ht.wellFormed t) (hu.wellFormed t)
  · rw [← ht.holds_iff, ← hu.holds_iff]
    simp only [List.mem_append, or_and_right, exists_or]

theorem CarriesAll.perm {ts us : List (List UInt8)} (h : CarriesAll k ts P) (hp : ts.Perm us) :
    CarriesAll k us P := by
  refine ⟨fun t ht => h.wellFormed t (hp.mem_iff.mpr ht), ?_⟩
  rw [← h.holds_iff]
  simp only [hp.mem_iff]

theorem Carries.singleton (h : Carries k a P) : CarriesAll k [a] P := by
  refine ⟨?_, ?_⟩
  · simpa using h.wellFormed
  · simpa using h.holds_iff

/-! ### Cuts -/

/-- A byte that goes on with a character. -/
def Continues (b : UInt8) : Prop := 128 ≤ b ∧ b < 192

theorem encodeChar_tail (c : Char) :
    ∃ b tail, String.utf8EncodeChar c = b :: tail ∧ ¬Continues b ∧ ∀ x ∈ tail, Continues x := by
  have hbyte : ∀ n, 128 ≤ n → n < 192 → Continues (UInt8.ofNat n) := by
    intro n hn hlt
    rw [Continues, UInt8.le_iff_toNat_le, UInt8.lt_iff_toNat_lt,
      UInt8.toNat_ofNat_of_lt' (Nat.lt_trans hlt (by decide))]
    exact ⟨hn, hlt⟩
  have hfirst : ∀ n, n < 128 ∨ 192 ≤ n → n < 256 → ¬Continues (UInt8.ofNat n) := by
    intro n hn hlt
    rw [Continues, UInt8.le_iff_toNat_le, UInt8.lt_iff_toNat_lt, UInt8.toNat_ofNat_of_lt' hlt]
    show ¬(128 ≤ n ∧ n < 192)
    omega
  simp only [String.utf8EncodeChar]
  split
  · exact ⟨_, [], rfl, hfirst _ (by omega) (by omega), by simp⟩
  split
  · refine ⟨_, _, rfl, hfirst _ (by omega) (by omega), ?_⟩
    simp only [List.mem_cons, List.not_mem_nil, or_false]
    rintro x rfl
    exact hbyte _ (by omega) (by omega)
  split
  · refine ⟨_, _, rfl, hfirst _ (by omega) (by omega), ?_⟩
    simp only [List.mem_cons, List.not_mem_nil, or_false]
    rintro x (rfl | rfl) <;> exact hbyte _ (by omega) (by omega)
  · refine ⟨_, _, rfl, hfirst _ (by omega) (by omega), ?_⟩
    simp only [List.mem_cons, List.not_mem_nil, or_false]
    rintro x (rfl | rfl | rfl) <;> exact hbyte _ (by omega) (by omega)

theorem Ascii.not_continues (h : Ascii a) : ∀ b ∈ a, ¬Continues b := fun b hb hc =>
  absurd (h b hb) (UInt8.not_lt.mpr hc.1)

/-- The list does not begin with a byte that goes on with a character. -/
def StartsChar (bs : List UInt8) : Prop := ∀ b ∈ bs.head?, ¬Continues b

theorem split_encodeChars {cs : List Char} (h : encodeChars cs = a ++ b) (hb : StartsChar b) :
    ∃ cs₁ cs₂, a = encodeChars cs₁ ∧ b = encodeChars cs₂ := by
  induction cs generalizing a with
  | nil =>
    obtain ⟨rfl, rfl⟩ := List.append_eq_nil_iff.mp h.symm
    exact ⟨[], [], rfl, rfl⟩
  | cons c cs ih =>
    rw [encodeChars_cons] at h
    rcases List.append_eq_append_iff.mp h with ⟨a', rfl, hrest⟩ | ⟨b', hc, hrest⟩
    · obtain ⟨cs₁, cs₂, rfl, rfl⟩ := ih hrest
      exact ⟨c :: cs₁, cs₂, (encodeChars_cons c cs₁).symm, rfl⟩
    · -- the cut is within the first character, so at one of its ends
      obtain ⟨x, tail, he, hx, htail⟩ := encodeChar_tail c
      rw [he] at hc
      cases a with
      | nil =>
        refine ⟨[], c :: cs, rfl, ?_⟩
        rw [encodeChars_cons, h]
        rfl
      | cons y a =>
        obtain ⟨rfl, rfl⟩ := List.cons_eq_cons.mp hc
        cases b' with
        | nil =>
          refine ⟨[c], cs, ?_, by simpa using hrest⟩
          have he : String.utf8EncodeChar c = x :: a := he.trans (hc.trans (List.append_nil _))
          simp [encodeChars, he]
        | cons z b' =>
          have hz : Continues z := htail z (by simp)
          exact absurd hz (hb z (by rw [hrest]; rfl))

/-- Characters stand in a text where their bytes stand in its bytes. -/
theorem infix_encodeChars_iff {w cs : List Char} (hw : w ≠ []) :
    encodeChars w <:+: encodeChars cs ↔ w <:+: cs := by
  constructor
  · rintro ⟨p, q, h⟩
    rw [List.append_assoc] at h
    have hstart : StartsChar (encodeChars w ++ q) := by
      obtain ⟨c, tail, rfl⟩ := List.exists_cons_of_ne_nil hw
      obtain ⟨b, bs, he, hb, -⟩ := encodeChar_tail c
      rw [encodeChars_cons, he]
      intro x hx
      obtain rfl : b = x := by simpa using hx
      exact hb
    obtain ⟨cs₁, cs₂, hp, hq⟩ := split_encodeChars h.symm hstart
    have hpre : w <+: cs₂ := by
      have henc : encode (String.ofList cs₂) = encodeChars w ++ q := (encode_ofList cs₂).trans hq.symm
      simpa using prefix_of_encode henc
    have hcs : cs = cs₁ ++ cs₂ := by
      apply encodeChars_injective
      rw [encodeChars_append, ← hp, ← hq, h]
    rw [hcs]
    exact hpre.isInfix.trans (List.suffix_append cs₁ cs₂).isInfix
  · rintro ⟨p, q, rfl⟩
    rw [encodeChars_append, encodeChars_append]
    exact List.infix_append _ _ _

/-- A cut before a byte that begins a character, or at the end. -/
theorem WellFormed.split (h : WellFormed (a ++ b)) (hb : StartsChar b) :
    WellFormed a ∧ WellFormed b := by
  obtain ⟨cs, he⟩ := h
  obtain ⟨cs₁, cs₂, ha, hb⟩ := split_encodeChars he.symm hb
  exact ⟨⟨cs₁, ha⟩, ⟨cs₂, hb⟩⟩

theorem Ascii.startsChar (h : Ascii a) : StartsChar a := fun b hb =>
  h.not_continues b (List.mem_of_head? hb)

theorem startsChar_append (ha : Ascii a) (hne : a ≠ []) : StartsChar (a ++ b) := by
  intro x hx
  rw [List.head?_append_of_ne_nil a hne] at hx
  exact ha.startsChar x hx

/-- ASCII text before a well-formed text can be taken off. -/
theorem WellFormed.of_ascii_append (h : WellFormed (a ++ b)) (ha : Ascii a) : WellFormed b := by
  induction a with
  | nil => exact h
  | cons x a ih =>
    refine ih ?_ fun y hy => ha y (List.mem_cons_of_mem x hy)
    obtain ⟨cs, he⟩ := h
    cases cs with
    | nil => cases he
    | cons c cs =>
      obtain ⟨y, tail, hc, -, htail⟩ := encodeChar_tail c
      rw [encodeChars_cons, hc] at he
      obtain ⟨rfl, -⟩ := List.cons_eq_cons.mp he
      have hx : x < 128 := ha x List.mem_cons_self
      have hnarrow : c.toNat < 128 := by
        refine Nat.lt_of_not_le fun hle => ?_
        have := encodeChar_wide hle x (by rw [hc]; exact List.mem_cons_self)
        exact absurd hx (UInt8.not_lt.mpr this)
      rw [encodeChar_ascii hnarrow] at hc
      obtain ⟨rfl, rfl⟩ := List.cons_eq_cons.mp hc
      exact ⟨cs, (List.cons_eq_cons.mp he).2⟩

/-- ASCII text after a well-formed text can be taken off. -/
theorem WellFormed.of_append_ascii (h : WellFormed (a ++ b)) (hb : Ascii b) : WellFormed a :=
  (h.split hb.startsChar).1

/-- A cut next to an ASCII byte, or at an end. -/
theorem WellFormed.cut (h : WellFormed (a ++ b))
    (hab : ∀ x ∈ a.getLast?, ∀ y ∈ b.head?, x < 128 ∨ y < 128) : WellFormed a ∧ WellFormed b := by
  cases b with
  | nil =>
    rw [List.append_nil] at h
    exact ⟨h, ascii_nil.wellFormed⟩
  | cons y b =>
    by_cases hy : y < 128
    · refine h.split fun z hz hc => ?_
      obtain rfl : y = z := by simpa using hz
      exact absurd hy (UInt8.not_lt.mpr hc.1)
    rcases List.eq_nil_or_concat a with rfl | ⟨a', x, rfl⟩
    · exact ⟨ascii_nil.wellFormed, h⟩
    · -- the ASCII byte is before the cut
      have hx : x < 128 := (hab x (by simp) y rfl).resolve_right hy
      have hascii : Ascii [x] := by simpa [Ascii] using hx
      rw [List.concat_eq_append, List.append_assoc] at h
      obtain ⟨ha', hrest⟩ := h.split (startsChar_append hascii (List.cons_ne_nil x []))
      rw [List.concat_eq_append]
      exact ⟨ha'.append hascii.wellFormed, hrest.of_ascii_append hascii⟩

/-- A part of a text between ASCII texts holds what the text holds. -/
theorem Carries.between {m : List UInt8} (h : Carries k (a ++ (m ++ b)) P) (ha : Ascii a)
    (hb : Ascii b) : Carries k m P := by
  have hmb : WellFormed (m ++ b) := h.wellFormed.of_ascii_append ha
  have hm : WellFormed m := hmb.of_append_ascii hb
  refine ⟨hm, ?_⟩
  rw [← h.holds_iff, holds_append ha.wellFormed hmb, holds_append hm hb.wellFormed]
  simp [ha.not_holds, hb.not_holds]

end Utf8
