import Mathlib.Data.List.Basic

/-! UTF-16: the code points that a sequence of code units stands for, where a surrogate without its
partner stands for the replacement character. -/

namespace Utf16

/-- The first unit of a surrogate pair. -/
def High (u : UInt16) : Prop := 0xD800 ≤ u.toNat ∧ u.toNat ≤ 0xDBFF

/-- The second unit of a surrogate pair. -/
def Low (u : UInt16) : Prop := 0xDC00 ≤ u.toNat ∧ u.toNat ≤ 0xDFFF

theorem High.not_low {u : UInt16} (h : High u) : ¬Low u := by
  rintro ⟨hl, -⟩
  obtain ⟨-, hh⟩ := h
  omega

def supplementary (h l : UInt16) : Nat :=
  0x10000 + (h.toNat - 0xD800) * 0x400 + (l.toNat - 0xDC00)

def replacement : Nat := 0xFFFD

inductive Reads : List UInt16 → List Nat → Prop
  | nil : Reads [] []
  | unit {u : UInt16} {rest : List UInt16} {ns : List Nat} (hh : ¬High u) (hl : ¬Low u)
      (hrest : Reads rest ns) : Reads (u :: rest) (u.toNat :: ns)
  | pair {h l : UInt16} {rest : List UInt16} {ns : List Nat} (hh : High h) (hl : Low l)
      (hrest : Reads rest ns) : Reads (h :: l :: rest) (supplementary h l :: ns)
  | unpairedHigh {h : UInt16} {rest : List UInt16} {ns : List Nat} (hh : High h)
      (hnext : ∀ l ∈ rest.head?, ¬Low l) (hrest : Reads rest ns) :
      Reads (h :: rest) (replacement :: ns)
  | unpairedLow {l : UInt16} {rest : List UInt16} {ns : List Nat} (hl : Low l)
      (hrest : Reads rest ns) : Reads (l :: rest) (replacement :: ns)

/-- A sequence stands for one list of code points. -/
theorem Reads.unique {us : List UInt16} {ns ms : List Nat} (hn : Reads us ns) (hm : Reads us ms) :
    ns = ms := by
  induction hn generalizing ms with
  | nil =>
    cases hm
    rfl
  | unit hh hl _ ih =>
    cases hm with
    | unit _ _ hrest => rw [ih hrest]
    | pair hh' => exact absurd hh' hh
    | unpairedHigh hh' => exact absurd hh' hh
    | unpairedLow hl' => exact absurd hl' hl
  | pair hh hl _ ih =>
    cases hm with
    | unit hh' => exact absurd hh hh'
    | pair _ _ hrest => rw [ih hrest]
    | unpairedHigh _ hnext => exact absurd hl (hnext _ rfl)
    | unpairedLow hl' => exact absurd hl' hh.not_low
  | unpairedHigh hh hnext _ ih =>
    cases hm with
    | unit hh' => exact absurd hh hh'
    | pair _ hl => exact absurd hl (hnext _ rfl)
    | unpairedHigh _ _ hrest => rw [ih hrest]
    | unpairedLow hl => exact absurd hl hh.not_low
  | unpairedLow hl _ ih =>
    cases hm with
    | unit _ hl' => exact absurd hl hl'
    | pair hh => exact absurd hl hh.not_low
    | unpairedHigh hh => exact absurd hl hh.not_low
    | unpairedLow _ hrest => rw [ih hrest]

end Utf16
