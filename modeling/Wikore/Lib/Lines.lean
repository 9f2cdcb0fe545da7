import Mathlib.Data.List.Basic
import Mathlib.Data.List.Infix

/-! Texts cut into lines at line feeds, each without a carriage return at its end, and a loop over
the lines that a line may end.  Cutting undoes joining with either line end, and of a text that is
cut off the lines are those before the cut and a beginning of the next one. -/

namespace Lines

section Cut

variable {α : Type} [DecidableEq α]

/-- The lines of a text.  The end of the text ends a line, and no line follows a last line feed. -/
def cut (lf : α) : List α → List (List α)
  | [] => []
  | c :: cs =>
    if c = lf then [] :: cut lf cs
    else
      match cut lf cs with
      | [] => [[c]]
      | line :: lines => (c :: line) :: lines

/-- The line without a carriage return at its end. -/
def strip (cr : α) (line : List α) : List α :=
  if line.getLast? = some cr then line.dropLast else line

/-- The lines of a text, stripped. -/
def lines (cr lf : α) (text : List α) : List (List α) := (cut lf text).map (strip cr)

/-- The lines with `eol` after each. -/
def joined (eol : List α) (ls : List (List α)) : List α := ls.flatMap fun line => line ++ eol

/-- Either way to end a line. -/
def IsEol (cr lf : α) (eol : List α) : Prop := eol = [lf] ∨ eol = [cr, lf]

/-- No part of a line end. -/
def Clean (cr lf : α) (line : List α) : Prop := cr ∉ line ∧ lf ∉ line

variable {cr lf : α} {eol line rest : List α} {ls : List (List α)}

omit [DecidableEq α] in
theorem Clean.of_prefix {l : List α} (h : Clean cr lf line) (hl : l <+: line) : Clean cr lf l :=
  ⟨fun hc => h.1 (hl.subset hc), fun hc => h.2 (hl.subset hc)⟩

theorem cut_cons_lf (h : lf ∉ line) (rest : List α) :
    cut lf (line ++ lf :: rest) = line :: cut lf rest := by
  induction line with
  | nil => simp [cut]
  | cons c line ih =>
    have hc : c ≠ lf := fun he => h (he ▸ List.mem_cons_self)
    rw [List.cons_append, cut, if_neg hc, ih fun hm => h (List.mem_cons_of_mem c hm)]

theorem cut_of_not_mem (h : lf ∉ line) (hne : line ≠ []) : cut lf line = [line] := by
  induction line with
  | nil => exact absurd rfl hne
  | cons c line ih =>
    have hc : c ≠ lf := fun he => h (he ▸ List.mem_cons_self)
    rw [cut, if_neg hc]
    cases line with
    | nil => rfl
    | cons d line => rw [ih (fun hm => h (List.mem_cons_of_mem c hm)) (by simp)]

theorem not_mem_of_mem_cut {text : List α} (h : line ∈ cut lf text) : lf ∉ line := by
  induction text generalizing line with
  | nil => cases h
  | cons c cs ih =>
    rw [cut] at h
    split at h
    next =>
      rcases List.mem_cons.mp h with rfl | h
      · exact List.not_mem_nil
      · exact ih h
    next hc =>
      split at h
      next =>
        obtain rfl := List.mem_singleton.mp h
        exact fun hm => hc (List.mem_singleton.mp hm).symm
      next first rest hcut =>
        rcases List.mem_cons.mp h with rfl | h
        · intro hm
          rcases List.mem_cons.mp hm with he | hm
          · exact hc he.symm
          · exact ih (hcut ▸ List.mem_cons_self) hm
        · exact ih (hcut ▸ List.mem_cons_of_mem first h)

/-- What holds of a text and goes over to the line before a line feed and to the rest after it holds
of the lines. -/
theorem forall_mem_cut {P : List α → Prop} {text : List α} (h : P text)
    (hcut : ∀ line rest, P (line ++ lf :: rest) → P line ∧ P rest) :
    ∀ line ∈ cut lf text, P line := by
  by_cases hlf : lf ∈ text
  · obtain ⟨line, rest, htext, hline⟩ := List.eq_append_cons_of_mem hlf
    have hshort : rest.length < text.length := by
      rw [htext, List.length_append, List.length_cons]
      omega
    obtain ⟨hP, hrest⟩ := hcut line rest (htext ▸ h)
    rw [htext, cut_cons_lf hline]
    intro l hl
    rcases List.mem_cons.mp hl with rfl | hl
    · exact hP
    · exact forall_mem_cut hrest hcut l hl
  · by_cases hne : text = []
    · subst hne
      simp [cut]
    · rw [cut_of_not_mem hlf hne]
      simpa using h
termination_by text.length
decreasing_by exact hshort

theorem strip_of_not_mem (h : cr ∉ line) : strip cr line = line := by
  refine if_neg fun hlast => h ?_
  exact List.mem_of_getLast? hlast

theorem strip_append_cr (line : List α) : strip cr (line ++ [cr]) = line := by
  rw [strip, if_pos (by simp), List.dropLast_concat]

theorem lines_cons (hcr : cr ≠ lf) (h : Clean cr lf line) (heol : IsEol cr lf eol)
    (rest : List α) : lines cr lf (line ++ eol ++ rest) = line :: lines cr lf rest := by
  rcases heol with rfl | rfl
  · rw [List.append_assoc, List.singleton_append, lines, cut_cons_lf h.2, List.map_cons,
      strip_of_not_mem h.1]
    rfl
  · have hlf : lf ∉ line ++ [cr] := by simp [h.2, hcr.symm]
    have htext : line ++ [cr, lf] ++ rest = (line ++ [cr]) ++ lf :: rest := by simp
    rw [htext, lines, cut_cons_lf hlf, List.map_cons, strip_append_cr]
    rfl

/-- Joined lines are the lines of the text. -/
theorem lines_joined (hcr : cr ≠ lf) (h : ∀ line ∈ ls, Clean cr lf line) (heol : IsEol cr lf eol)
    (rest : List α) : lines cr lf (joined eol ls ++ rest) = ls ++ lines cr lf rest := by
  induction ls with
  | nil => rfl
  | cons line ls ih =>
    rw [joined, List.flatMap_cons, List.append_assoc,
      lines_cons hcr (h line List.mem_cons_self) heol]
    exact congrArg (line :: ·) (ih fun l hl => h l (List.mem_cons_of_mem line hl))

/-! ### Texts that are cut off -/

theorem lines_of_clean (h : Clean cr lf line) : lines cr lf line = [] ∨ lines cr lf line = [line] := by
  by_cases hne : line = []
  · subst hne
    exact .inl rfl
  · right
    rw [lines, cut_of_not_mem h.2 hne, List.map_singleton, strip_of_not_mem h.1]

/-- What is left of a line that is cut off before its end or within its line end. -/
theorem lines_of_cut_line {p : List α} (hcr : cr ≠ lf) (h : Clean cr lf line)
    (heol : IsEol cr lf eol) (hp : p <+: line ++ eol) (hlt : p.length < (line ++ eol).length) :
    lines cr lf p = [] ∨ ∃ l, l <+: line ∧ lines cr lf p = [l] := by
  by_cases hle : p.length ≤ line.length
  · have hpre : p <+: line := List.prefix_of_prefix_length_le hp (List.prefix_append line eol) hle
    exact (lines_of_clean (h.of_prefix hpre)).imp_right fun he => ⟨p, hpre, he⟩
  · -- only a carriage return can stand after the line
    rcases heol with rfl | rfl
    · simp only [List.length_append, List.length_singleton] at hlt
      omega
    · have hlong : line ++ [cr] <+: line ++ [cr, lf] := by simp
      have hpre : p <+: line ++ [cr] :=
        List.prefix_of_prefix_length_le hp hlong (by simp at hlt ⊢; omega)
      obtain rfl : p = line ++ [cr] := hpre.eq_of_length (by simp at hlt ⊢; omega)
      have hlf : lf ∉ line ++ [cr] := by simp [h.2, hcr.symm]
      refine .inr ⟨line, List.prefix_refl line, ?_⟩
      rw [lines, cut_of_not_mem hlf (by simp), List.map_singleton, strip_append_cr]

/-- The lines of a text that is cut off before the end of its line `last`: lines before it, and
perhaps a beginning of the next line. -/
theorem lines_of_cut {p last : List α} (hcr : cr ≠ lf) (heol : IsEol cr lf eol)
    (h : ∀ line ∈ ls, Clean cr lf line) (hlast : Clean cr lf last)
    (hp : p <+: joined eol ls ++ last) (hlt : p.length < (joined eol ls ++ last).length) :
    ∃ whole others tail, ls = whole ++ others ∧ lines cr lf p = whole ++ tail ∧
      (tail = [] ∨ ∃ l, tail = [l] ∧ ((∃ line after, others = line :: after ∧ l <+: line) ∨
        others = [] ∧ l <+: last ∧ l.length < last.length)) := by
  induction ls generalizing p with
  | nil =>
    refine ⟨[], [], lines cr lf p, rfl, rfl, ?_⟩
    have hp : p <+: last := hp
    exact (lines_of_clean (hlast.of_prefix hp)).imp_right
      fun he => ⟨p, he, .inr ⟨rfl, hp, hlt⟩⟩
  | cons line ls ih =>
    have hline := h line List.mem_cons_self
    have htext : joined eol (line :: ls) ++ last = (line ++ eol) ++ (joined eol ls ++ last) := by
      rw [joined, List.flatMap_cons, List.append_assoc]
      rfl
    rw [htext] at hp hlt
    by_cases hshort : p.length < (line ++ eol).length
    · have hpre : p <+: line ++ eol :=
        List.prefix_of_prefix_length_le hp (List.prefix_append _ _) (Nat.le_of_lt hshort)
      refine ⟨[], line :: ls, lines cr lf p, rfl, rfl, ?_⟩
      refine (lines_of_cut_line hcr hline heol hpre hshort).imp_right ?_
      rintro ⟨l, hl, he⟩
      exact ⟨l, he, .inl ⟨line, ls, rfl, hl⟩⟩
    · have hpre : line ++ eol <+: p :=
        List.prefix_of_prefix_length_le (List.prefix_append _ _) hp (Nat.le_of_not_lt hshort)
      obtain ⟨p, rfl⟩ := hpre
      have hp : p <+: joined eol ls ++ last := (List.prefix_append_right_inj _).mp hp
      simp only [List.length_append] at hlt
      obtain ⟨whole, others, tail, rfl, he, htail⟩ :=
        ih (fun l hl => h l (List.mem_cons_of_mem line hl)) hp
          (by simp only [List.length_append]; omega)
      refine ⟨line :: whole, others, tail, rfl, ?_, htail⟩
      rw [lines_cons hcr hline heol, he]
      rfl

end Cut

/-! ### A loop over the lines -/

/-- What a line does: the loop goes on, ends, or fails. -/
inductive Outcome (σ ε : Type)
  | next (s : σ)
  | done (s : σ)
  | fail (e : ε) (s : σ)

section Loop

variable {α σ ε : Type}

/-- The state that a loop leaves, and the failure that ended it. -/
def loop (step : σ → List α → Outcome σ ε) : σ → List (List α) → Except ε Unit × σ
  | s, [] => (.ok (), s)
  | s, line :: ls =>
    match step s line with
    | .next s' => loop step s' ls
    | .done s' => (.ok (), s')
    | .fail e s' => (.error e, s')

variable {step : σ → List α → Outcome σ ε} {s : σ}

/-- What holds at the start and after each line holds at the end. -/
theorem loop_invariant {P : σ → Prop} {ls : List (List α)} (hs : P s)
    (hnext : ∀ s, ∀ line ∈ ls, ∀ s', P s → step s line = .next s' → P s')
    (hdone : ∀ s, ∀ line ∈ ls, ∀ s', P s → step s line = .done s' → P s')
    (hfail : ∀ s, ∀ line ∈ ls, ∀ e s', P s → step s line = .fail e s' → P s') :
    P (loop step s ls).2 := by
  induction ls generalizing s with
  | nil => exact hs
  | cons line ls ih =>
    unfold loop
    cases h : step s line with
    | next s' =>
      exact ih (hnext s line List.mem_cons_self s' hs h)
        (fun t l hl => hnext t l (List.mem_cons_of_mem line hl))
        (fun t l hl => hdone t l (List.mem_cons_of_mem line hl))
        (fun t l hl => hfail t l (List.mem_cons_of_mem line hl))
    | done s' => exact hdone s line List.mem_cons_self s' hs h
    | fail e s' => exact hfail s line List.mem_cons_self e s' hs h

end Loop

end Lines
