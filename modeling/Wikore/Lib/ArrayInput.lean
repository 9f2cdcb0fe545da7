import Mathlib.Data.List.Basic

/-! The input syntax of an array of texts in SQL, as PostgreSQL reads it: braces that nest, elements
with and without quotes, backslashes, NULL and white space.  A literal that begins with explicit
bounds is read by a parameter. -/

namespace ArrayInput

def isBlank (c : UInt8) : Bool := c == 32 || (9 ≤ c && c ≤ 13)

inductive Token
  | levelStart
  | levelEnd
  | delimiter
  | element (value : Option (List UInt8))
deriving DecidableEq, Repr

/-- From a closing quote to the comma or the brace that must be next. -/
def afterQuote : List UInt8 → Option (List UInt8)
  | [] => none
  | c :: cs =>
    if c = 44 ∨ c = 123 ∨ c = 125 then some (c :: cs)
    else if isBlank c then afterQuote cs else none

/-- The rest of an element in quotes, of which `value` has been read, and what is after it. -/
def quoted (value : List UInt8) : List UInt8 → Option (List UInt8 × List UInt8)
  | [] => none
  | c :: cs =>
    if c = 92 then
      match cs with
      | [] => none
      | d :: ds => quoted (value ++ [d]) ds
    else if c = 34 then (afterQuote cs).map fun rest => (value, rest)
    else quoted (value ++ [c]) cs

def isNull (value : List UInt8) : Bool :=
  value.map (fun c => if 65 ≤ c ∧ c ≤ 90 then c + 32 else c) = [110, 117, 108, 108]

/-- The rest of an element without quotes.  The bytes of `value` after `kept` of them are blanks. -/
def unquoted (value : List UInt8) (kept : Nat) (escapes : Bool) :
    List UInt8 → Option (Option (List UInt8) × List UInt8)
  | [] => none
  | c :: cs =>
    if c = 123 ∨ c = 34 then none
    else if c = 92 then
      match cs with
      | [] => none
      | d :: ds => unquoted (value ++ [d]) (value.length + 1) true ds
    else if c = 44 ∨ c = 125 then
      some (if isNull (value.take kept) ∧ escapes = false then none else some (value.take kept),
        c :: cs)
    else unquoted (value ++ [c]) (if isBlank c then kept else value.length + 1) escapes cs

/-- The next token, and the input after it. -/
def token : List UInt8 → Option (Token × List UInt8)
  | [] => none
  | c :: cs =>
    if c = 34 then (quoted [] cs).map fun r => (.element (some r.1), r.2)
    else if c = 123 then some (.levelStart, cs)
    else if c = 125 then some (.levelEnd, cs)
    else if c = 44 then some (.delimiter, cs)
    else if isBlank c then token cs
    else (unquoted [] 0 false (c :: cs)).map fun r => (.element r.1, r.2)

def maxDim : Nat := 6

/-- `counts` are the numbers of elements so far in the open levels, the innermost first, and `dims`
the lengths of the levels, the outermost first, that are known. -/
structure Reading where
  counts : List Nat
  dims : List (Option Nat)
  frozen : Bool
  expectDelim : Bool
  items : List (Option (List UInt8))
deriving DecidableEq, Repr

def countOne : List Nat → List Nat
  | [] => []
  | n :: outer => (n + 1) :: outer

def step (s : Reading) : Token → Option Reading
  | .levelStart =>
    if s.expectDelim ∨ maxDim ≤ s.counts.length then none
    else if s.dims.length ≤ s.counts.length then
      if s.frozen then none else some { s with counts := 0 :: s.counts, dims := s.dims ++ [none] }
    else some { s with counts := 0 :: s.counts }
  | .levelEnd =>
    match s.counts with
    | [] => none
    | n :: outer =>
      if 0 < n ∧ s.expectDelim = false then none
      else
        match s.dims[outer.length]? with
        | some (some m) =>
          if m = n then some { s with counts := countOne outer, expectDelim := true } else none
        | _ =>
          some { s with counts := countOne outer, expectDelim := true
                        dims := s.dims.set outer.length (some n) }
  | .delimiter => if s.expectDelim then some { s with expectDelim := false } else none
  | .element value =>
    if s.expectDelim ∨ s.counts.length ≠ s.dims.length then none
    else
      some { s with counts := countOne s.counts, frozen := true, expectDelim := true
                    items := s.items ++ [value] }

theorem length_afterQuote {input rest : List UInt8} (h : afterQuote input = some rest) :
    rest.length ≤ input.length := by
  fun_induction afterQuote input with
  | case1 => cases h
  | case2 c cs hend =>
    cases h
    exact Nat.le_refl _
  | case3 c cs hend hblank ih => exact Nat.le_succ_of_le (ih h)
  | case4 c cs hend hblank => cases h

theorem length_quoted {value v input rest : List UInt8} (h : quoted value input = some (v, rest)) :
    rest.length ≤ input.length := by
  fun_induction quoted value input with
  | case1 => cases h
  | case2 => cases h
  | case3 value d ds ih =>
    have := ih h
    simp only [List.length_cons]
    omega
  | case4 value cs hend =>
    obtain ⟨r, hr, he⟩ := Option.map_eq_some_iff.mp h
    cases he
    exact Nat.le_succ_of_le (length_afterQuote hr)
  | case5 value c cs hc hend ih => exact Nat.le_succ_of_le (ih h)

theorem length_unquoted {value input rest : List UInt8} {kept : Nat} {escapes : Bool}
    {v : Option (List UInt8)} (h : unquoted value kept escapes input = some (v, rest)) :
    rest.length ≤ input.length := by
  fun_induction unquoted value kept escapes input with
  | case1 => cases h
  | case2 => cases h
  | case3 => cases h
  | case4 value kept escapes d ds hc ih =>
    have := ih h
    simp only [List.length_cons]
    omega
  | case5 =>
    cases h
    exact Nat.le_refl _
  | case6 value kept escapes c cs hc hc' hend ih => exact Nat.le_succ_of_le (ih h)

theorem length_token {input rest : List UInt8} {t : Token} (h : token input = some (t, rest)) :
    rest.length < input.length := by
  fun_induction token input with
  | case1 => cases h
  | case2 cs =>
    obtain ⟨⟨v, r⟩, hr, he⟩ := Option.map_eq_some_iff.mp h
    cases he
    exact Nat.lt_succ_of_le (length_quoted hr)
  | case3 | case4 | case5 =>
    cases h
    exact Nat.lt_succ_self _
  | case6 c cs hquote hstart hend hdelim hblank ih => exact Nat.lt_succ_of_lt (ih h)
  | case7 c cs hquote hstart hend hdelim hblank =>
    obtain ⟨⟨v, r⟩, hr, he⟩ := Option.map_eq_some_iff.mp h
    cases he
    -- the element begins with a byte that does not end it
    have hne : ¬(c = 44 ∨ c = 125) := by simp [hend, hdelim]
    rw [unquoted.eq_def] at hr
    dsimp only at hr
    split at hr
    · cases hr
    split at hr
    · split at hr
      · cases hr
      · have := length_unquoted hr
        simp only [List.length_cons]
        omega
    · exact Nat.lt_succ_of_le (length_unquoted hr)

/-- The tokens up to the one that closes the outermost level. -/
def readLevels (s : Reading) (input : List UInt8) : Option (Reading × List UInt8) :=
  match _h : token input with
  | none => none
  | some (t, rest) =>
    match step s t with
    | none => none
    | some s' => if s'.counts = [] then some (s', rest) else readLevels s' rest
termination_by input.length
decreasing_by exact length_token _h

/-- The lengths of the levels, and the elements; `none` is NULL. -/
structure Value where
  dims : List Nat
  items : List (Option (List UInt8))
deriving DecidableEq, Repr

def valueOf (s : Reading) : Value :=
  if s.items = [] then ⟨[], []⟩ else ⟨s.dims.map fun n => n.getD 0, s.items⟩

/-- The array of a literal, which ends before its first NUL. -/
def arrayIn (decorated : List UInt8 → Option Value) (literal : List UInt8) : Option Value :=
  let input := (literal.takeWhile fun c => c ≠ 0).dropWhile isBlank
  if input.head? = some 91 then decorated input
  else if input.head? = some 123 then
    match readLevels ⟨[], [], false, false, []⟩ input with
    | none => none
    | some (s, rest) => if rest.all isBlank then some (valueOf s) else none
  else none

theorem readLevels_next {s s' : Reading} {t : Token} {input rest : List UInt8}
    (ht : token input = some (t, rest)) (hs : step s t = some s') (hne : s'.counts ≠ []) :
    readLevels s input = readLevels s' rest := by
  rw [readLevels]
  split
  next hnone =>
    rw [ht] at hnone
    cases hnone
  next hsome =>
    rw [ht] at hsome
    cases hsome
    rw [hs]
    exact if_neg hne

theorem readLevels_last {s s' : Reading} {t : Token} {input rest : List UInt8}
    (ht : token input = some (t, rest)) (hs : step s t = some s') (hnil : s'.counts = []) :
    readLevels s input = some (s', rest) := by
  rw [readLevels]
  split
  next hnone =>
    rw [ht] at hnone
    cases hnone
  next hsome =>
    rw [ht] at hsome
    cases hsome
    rw [hs]
    exact if_pos hnil

/-! ### Texts in quotes -/

def escaped (c : UInt8) : List UInt8 := if c = 92 ∨ c = 34 then [92, c] else [c]

theorem quoted_escaped (value s rest : List UInt8) :
    quoted value (s.flatMap escaped ++ 34 :: rest) =
      (afterQuote rest).map fun after => (value ++ s, after) := by
  induction s generalizing value with
  | nil =>
    rw [List.flatMap_nil, List.nil_append, List.append_nil, quoted.eq_def]
    dsimp only
    rw [if_neg (by decide), if_pos rfl]
  | cons c s ih =>
    have hnext := ih (value ++ [c])
    rw [List.append_assoc] at hnext
    rw [List.flatMap_cons, List.append_assoc]
    by_cases hc : c = 92 ∨ c = 34
    · rw [escaped, if_pos hc]
      show quoted value (92 :: c :: (s.flatMap escaped ++ 34 :: rest)) = _
      rw [quoted, if_pos rfl]
      exact hnext
    · rw [escaped, if_neg hc]
      rw [not_or] at hc
      show quoted value (c :: (s.flatMap escaped ++ 34 :: rest)) = _
      rw [quoted.eq_def]
      dsimp only
      rw [if_neg hc.1, if_neg hc.2]
      exact hnext

/-- A text in quotes before a comma or a brace is one token. -/
theorem token_quoted (s : List UInt8) {c : UInt8} (rest : List UInt8)
    (hc : c = 44 ∨ c = 123 ∨ c = 125) :
    token (34 :: (s.flatMap escaped ++ 34 :: c :: rest)) = some (.element (some s), c :: rest) := by
  rw [token, if_pos rfl, quoted_escaped, afterQuote, if_pos hc]
  rfl

end ArrayInput
