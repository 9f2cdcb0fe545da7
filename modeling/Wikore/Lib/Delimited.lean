import Mathlib.Data.List.Basic
import Mathlib.Data.List.Infix

/-! Where a pattern occurs in a list, and texts made of pieces that each stand between an opening
and a closing mark.  The marks begin with an element that is in no piece, so that they are found
where they were put and the pieces can be read back. -/

namespace Delimited

variable {α : Type}

/-- Pairs of a gap and the body after it, which stands between the two marks. -/
def framed (opening closing : List α) : List (List α × List α) → List α → List α
  | [], tail => tail
  | (gap, body) :: ps, tail =>
    gap ++ (opening ++ (body ++ (closing ++ framed opening closing ps tail)))

/-- The places of the marks in a framed text that starts at `k`. -/
def marks (opening closing : List α) (k : Nat) : List (List α × List α) → List (Nat × Nat)
  | [] => []
  | (gap, body) :: ps =>
    (k + gap.length, k + gap.length + opening.length + body.length) ::
      marks opening closing (k + gap.length + opening.length + body.length + closing.length) ps

/-! ### The places of the marks -/

/-- Opening and closing marks take turns. -/
theorem marks_alternate {opening closing : List α} (hopen : opening ≠ []) (hclose : closing ≠ [])
    (ps : List (List α × List α)) (k : Nat) :
    ((marks opening closing k ps).flatMap fun m => [m.1, m.2]).Pairwise (· < ·) ∧
      ∀ m ∈ marks opening closing k ps, k ≤ m.1 ∧ k ≤ m.2 := by
  induction ps generalizing k with
  | nil => exact ⟨List.Pairwise.nil, by simp [marks]⟩
  | cons p ps ih =>
    have hopenPos := List.length_pos_iff.mpr hopen
    have hclosePos := List.length_pos_iff.mpr hclose
    obtain ⟨hsorted, hle⟩ := ih
      (k + p.1.length + opening.length + p.2.length + closing.length)
    rw [marks, List.flatMap_cons]
    constructor
    · simp only [List.cons_append, List.nil_append, List.pairwise_cons, List.mem_cons,
        List.mem_flatMap, List.not_mem_nil, or_false]
      refine ⟨?_, ?_, hsorted⟩
      · rintro x (rfl | ⟨m, hm, rfl | rfl⟩)
        · omega
        · have := (hle m hm).1
          omega
        · have := (hle m hm).2
          omega
      · rintro x ⟨m, hm, rfl | rfl⟩
        · have := (hle m hm).1
          omega
        · have := (hle m hm).2
          omega
    · intro m hm
      rcases List.mem_cons.mp hm with rfl | hm
      · simp only
        omega
      · have := hle m hm
        omega

theorem length_marks (opening closing : List α) (ps : List (List α × List α)) (k : Nat) :
    (marks opening closing k ps).length = ps.length := by
  induction ps generalizing k with
  | nil => rfl
  | cons p ps ih => rw [marks, List.length_cons, List.length_cons, ih]

/-- Before an opening mark stands its gap. -/
theorem gap_before_mark {ps : List (List α × List α)} {opening closing : List α}
    (before tail : List α) {i : Nat} {p : List α × List α} {m : Nat × Nat} (hp : ps[i]? = some p)
    (hm : (marks opening closing before.length ps)[i]? = some m) :
    p.1 <:+ (before ++ framed opening closing ps tail).take m.1 := by
  induction ps generalizing before i with
  | nil => cases hp
  | cons q ps ih =>
    rw [marks] at hm
    rw [framed]
    cases i with
    | zero =>
      cases hp
      cases hm
      rw [← List.append_assoc, List.take_append_of_le_length (by simp), List.take_of_length_le
        (by simp)]
      exact List.suffix_append before p.1
    | succ i =>
      have hlen : (before ++ q.1 ++ opening ++ q.2 ++ closing).length =
          before.length + q.1.length + opening.length + q.2.length + closing.length := by
        simp only [List.length_append]
      rw [← hlen] at hm
      have hrec := ih _ hp hm
      simpa only [List.append_assoc] using hrec

section Search

variable [DecidableEq α]

/-- The places at which `pat` starts in a list whose first place is `k`. -/
def occurrences (pat : List α) (k : Nat) : List α → List Nat
  | [] => []
  | x :: xs =>
    if pat <+: x :: xs then k :: occurrences pat (k + 1) xs else occurrences pat (k + 1) xs

/-- What stands before and after the first place at which `pat` starts. -/
def cut (pat : List α) : List α → Option (List α × List α)
  | [] => none
  | x :: xs =>
    if pat <+: x :: xs then some ([], (x :: xs).drop pat.length)
    else (cut pat xs).map fun p => (x :: p.1, p.2)

theorem append_of_cut {pat l before after : List α} (h : cut pat l = some (before, after)) :
    l = before ++ (pat ++ after) := by
  induction l generalizing before after with
  | nil => cases h
  | cons x xs ih =>
    rw [cut] at h
    split at h
    next hpre =>
      cases h
      exact (List.prefix_append_drop hpre)
    next =>
      obtain ⟨⟨b, a⟩, hcut, heq⟩ := Option.map_eq_some_iff.mp h
      cases heq
      rw [List.cons_append, ← ih hcut]

/-- A place is found exactly where the pattern stands somewhere. -/
theorem isSome_cut_iff {pat l : List α} (hpat : pat ≠ []) :
    (cut pat l).isSome = true ↔ pat <:+: l := by
  induction l with
  | nil =>
    refine iff_of_false (by simp [cut]) fun h => hpat (List.infix_nil.mp h)
  | cons x xs ih =>
    rw [cut, List.infix_cons_iff]
    split
    next hpre => exact iff_of_true rfl (.inl hpre)
    next hpre =>
      rw [Option.isSome_map, ih]
      exact (or_iff_right hpre).symm

theorem length_of_cut {pat l before after : List α} (hpat : pat ≠ [])
    (h : cut pat l = some (before, after)) : after.length < l.length := by
  induction l generalizing before after with
  | nil => cases h
  | cons x xs ih =>
    rw [cut] at h
    split at h
    next =>
      cases h
      have hpos := List.length_pos_iff.mpr hpat
      rw [List.length_drop, List.length_cons]
      omega
    next =>
      obtain ⟨⟨b, a⟩, hcut, heq⟩ := Option.map_eq_some_iff.mp h
      cases heq
      exact Nat.lt_succ_of_lt (ih hcut)

/-- Reads the gaps and bodies back, from one mark to the next. -/
def unframe (c d : α) (o e : List α) (l : List α) : List (List α × List α) :=
  match _hopen : cut (c :: o) l with
  | none => []
  | some (gap, rest) =>
    match _hclose : cut (d :: e) rest with
    | none => []
    | some (body, rest') => (gap, body) :: unframe c d o e rest'
termination_by l.length
decreasing_by
  have h1 := length_of_cut (List.cons_ne_nil c o) _hopen
  have h2 := length_of_cut (List.cons_ne_nil d e) _hclose
  omega

/-! ### Patterns that begin with `c` -/

section Skip

variable {c : α} {o d a l : List α} {k : Nat}

omit [DecidableEq α] in
theorem not_prefix_of_ne {x : α} {xs : List α} (h : x ≠ c) : ¬c :: o <+: x :: xs := by
  rintro ⟨t, ht⟩
  exact h (List.cons.inj ht).1.symm

theorem occurrences_skip (h : c ∉ a) :
    occurrences (c :: o) k (a ++ l) = occurrences (c :: o) (k + a.length) l := by
  induction a generalizing k with
  | nil => rfl
  | cons x xs ih =>
    obtain ⟨hx, hxs⟩ := not_or.mp (mt List.mem_cons.mpr h)
    rw [List.cons_append, occurrences, if_neg (not_prefix_of_ne (Ne.symm hx)), ih hxs,
      List.length_cons, Nat.add_right_comm, Nat.add_assoc]

theorem occurrences_hit (h : c ∉ o) :
    occurrences (c :: o) k (c :: o ++ l) = k :: occurrences (c :: o) (k + (c :: o).length) l := by
  have hpre : c :: o <+: c :: (o ++ l) := List.prefix_append (c :: o) l
  rw [List.cons_append, occurrences, if_pos hpre, occurrences_skip h, List.length_cons,
    Nat.add_right_comm, Nat.add_assoc]

theorem occurrences_miss (h : c ∉ d) (hne : ¬o <+: d ++ l) :
    occurrences (c :: o) k (c :: d ++ l) = occurrences (c :: o) (k + (c :: d).length) l := by
  have hpre : ¬c :: o <+: c :: (d ++ l) := fun hp => hne (List.cons_prefix_cons.mp hp).2
  rw [List.cons_append, occurrences, if_neg hpre, occurrences_skip h, List.length_cons,
    Nat.add_right_comm, Nat.add_assoc]

theorem cut_skip (h : c ∉ a) :
    cut (c :: o) (a ++ l) = (cut (c :: o) l).map fun p => (a ++ p.1, p.2) := by
  induction a with
  | nil => simp
  | cons x xs ih =>
    obtain ⟨hx, hxs⟩ := not_or.mp (mt List.mem_cons.mpr h)
    rw [List.cons_append, cut, if_neg (not_prefix_of_ne (Ne.symm hx)), ih hxs, Option.map_map]
    rfl

theorem cut_hit : cut (c :: o) (c :: o ++ l) = some ([], l) := by
  have hpre : c :: o <+: c :: (o ++ l) := List.prefix_append (c :: o) l
  rw [List.cons_append, cut, if_pos hpre, ← List.cons_append, List.drop_left]

/-- A text without `c` before the pattern is what is cut off. -/
theorem cut_eq (h : c ∉ a) : cut (c :: o) (a ++ (c :: o ++ l)) = some (a, l) := by
  rw [cut_skip h, cut_hit, Option.map_some, List.append_nil]

theorem cut_eq_none (h : c ∉ l) : cut (c :: o) l = none := by
  have hskip : cut (c :: o) (l ++ []) = (cut (c :: o) []).map fun p => (l ++ p.1, p.2) := cut_skip h
  rwa [List.append_nil] at hskip

/-- The text before the first `c` has no `c`. -/
theorem cut_singleton_iff {l b : List α} : cut [c] l = some (a, b) ↔ l = a ++ c :: b ∧ c ∉ a := by
  constructor
  · intro h
    have hmem : c ∈ l := by
      rw [append_of_cut h]
      exact List.mem_append_right a List.mem_cons_self
    obtain ⟨a', b', rfl, ha⟩ := List.eq_append_cons_of_mem hmem
    have hcut : cut [c] (a' ++ c :: b') = some (a', b') := cut_eq ha
    cases hcut.symm.trans h
    exact ⟨rfl, ha⟩
  · rintro ⟨rfl, ha⟩
    exact cut_eq ha

theorem cut_singleton_eq_none {l : List α} : cut [c] l = none ↔ c ∉ l := by
  refine ⟨fun h hmem => ?_, cut_eq_none⟩
  obtain ⟨a, b, rfl, ha⟩ := List.eq_append_cons_of_mem hmem
  rw [cut_singleton_iff.mpr ⟨rfl, ha⟩] at h
  cases h

end Skip

/-! ### Framed texts -/

section Framed

variable {c : α} {o d tail : List α} {ps : List (List α × List α)} {k : Nat}

/-- Two marks that begin with `c`, have it nowhere else and are not one the beginning of the
other. -/
structure Marks (c : α) (o d : List α) : Prop where
  opening : c ∉ o
  closing : c ∉ d
  apart : ∀ l, ¬o <+: d ++ l ∧ ¬d <+: o ++ l

/-- No gap, no body and not the rest has `c`. -/
structure Clean (c : α) (ps : List (List α × List α)) (tail : List α) : Prop where
  pieces : ∀ p ∈ ps, c ∉ p.1 ∧ c ∉ p.2
  rest : c ∉ tail

omit [DecidableEq α] in
theorem Clean.of_cons {p : List α × List α} (h : Clean c (p :: ps) tail) : Clean c ps tail :=
  ⟨fun q hq => h.pieces q (List.mem_cons_of_mem p hq), h.rest⟩

theorem occurrences_of_not_mem {l : List α} (h : c ∉ l) : occurrences (c :: o) k l = [] := by
  have hskip := occurrences_skip (o := o) (l := []) (k := k) h
  rwa [List.append_nil] at hskip

theorem occurrences_opening (hm : Marks c o d) (h : Clean c ps tail) :
    occurrences (c :: o) k (framed (c :: o) (c :: d) ps tail) =
      (marks (c :: o) (c :: d) k ps).map Prod.fst := by
  induction ps generalizing k with
  | nil => exact occurrences_of_not_mem h.rest
  | cons p ps ih =>
    obtain ⟨hgap, hbody⟩ := h.pieces p List.mem_cons_self
    rw [framed, occurrences_skip hgap, occurrences_hit hm.opening, occurrences_skip hbody,
      occurrences_miss hm.closing (hm.apart _).1, ih h.of_cons]
    rfl

theorem occurrences_closing (hm : Marks c o d) (h : Clean c ps tail) :
    occurrences (c :: d) k (framed (c :: o) (c :: d) ps tail) =
      (marks (c :: o) (c :: d) k ps).map Prod.snd := by
  induction ps generalizing k with
  | nil => exact occurrences_of_not_mem h.rest
  | cons p ps ih =>
    obtain ⟨hgap, hbody⟩ := h.pieces p List.mem_cons_self
    rw [framed, occurrences_skip hgap, occurrences_miss hm.opening (hm.apart _).2,
      occurrences_skip hbody, occurrences_hit hm.closing, ih h.of_cons]
    rfl

theorem unframe_framed (h : Clean c ps tail) :
    unframe c c o d (framed (c :: o) (c :: d) ps tail) = ps := by
  induction ps with
  | nil =>
    rw [framed, unframe]
    split
    next => rfl
    next hcut =>
      rw [cut_eq_none h.rest] at hcut
      cases hcut
  | cons p ps ih =>
    obtain ⟨hgap, hbody⟩ := h.pieces p List.mem_cons_self
    rw [framed, unframe]
    split
    next hcut =>
      rw [cut_eq hgap] at hcut
      cases hcut
    next gap rest hcut =>
      rw [cut_eq hgap] at hcut
      cases hcut
      split
      next hcut =>
        rw [cut_eq hbody] at hcut
        cases hcut
      next body rest' hcut =>
        rw [cut_eq hbody] at hcut
        cases hcut
        rw [ih h.of_cons]

end Framed

end Search

end Delimited
