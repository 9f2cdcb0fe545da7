import Mathlib.Data.List.Basic
import Mathlib.Data.List.TakeWhile
import Wikore.Lib.Utf8

/-! JSON texts: a reader that follows the grammar of the standard, a writer of compact texts whose
way of escaping is a parameter, and that the reader undoes the writer.  An object keeps its members
in their order, equal names included, and a number is its text. -/

inductive Json
  | null
  | bool (b : Bool)
  | number (text : String)
  | string (s : String)
  | array (values : List Json)
  | object (members : List (String × Json))
deriving Repr

namespace Json

/-! ### Numbers -/

/-- One digit or more. -/
def digits (cs : List Char) : Option (List Char × List Char) :=
  match cs.takeWhile Char.isDigit with
  | [] => none
  | d :: ds => some (d :: ds, cs.dropWhile Char.isDigit)

def sign (marks : List Char) (cs : List Char) : List Char × List Char :=
  match cs with
  | c :: rest => if c ∈ marks then ([c], rest) else ([], cs)
  | [] => ([], [])

/-- The integer part: no zero stands before another digit. -/
def integer (cs : List Char) : Option (List Char × List Char) :=
  match cs with
  | c :: rest => if c = '0' then some (['0'], rest) else digits cs
  | [] => none

def fraction (cs : List Char) : Option (List Char × List Char) :=
  match cs with
  | c :: rest =>
    if c = '.' then (digits rest).map fun (ds, rest) => (c :: ds, rest) else some ([], cs)
  | [] => some ([], [])

def exponent (cs : List Char) : Option (List Char × List Char) :=
  match cs with
  | c :: rest =>
    if c = 'e' ∨ c = 'E' then
      (digits (sign ['+', '-'] rest).2).map fun (ds, rest') =>
        (c :: (sign ['+', '-'] rest).1 ++ ds, rest')
    else some ([], cs)
  | [] => some ([], [])

/-- A number and what follows it. -/
def numberText (cs : List Char) : Option (List Char × List Char) := do
  let (minus, rest) := sign ['-'] cs
  let (whole, rest) ← integer rest
  let (frac, rest) ← fraction rest
  let (exp, rest) ← exponent rest
  some (minus ++ whole ++ frac ++ exp, rest)

/-- The text is a number. -/
def IsNumber (text : String) : Prop := numberText text.toList = some (text.toList, [])

instance (text : String) : Decidable (IsNumber text) :=
  inferInstanceAs (Decidable (_ = _))

/-! ### Strings -/

def hexValue (c : Char) : Option Nat :=
  if 0x30 ≤ c.toNat ∧ c.toNat ≤ 0x39 then some (c.toNat - 0x30)
  else if 0x61 ≤ c.toNat ∧ c.toNat ≤ 0x66 then some (c.toNat - 0x61 + 10)
  else if 0x41 ≤ c.toNat ∧ c.toNat ≤ 0x46 then some (c.toNat - 0x41 + 10)
  else none

/-- Four hexadecimal digits. -/
def codeUnit (cs : List Char) : Option (Nat × List Char) :=
  match cs with
  | a :: b :: c :: d :: rest => do
    let a ← hexValue a
    let b ← hexValue b
    let c ← hexValue c
    let d ← hexValue d
    some (((a * 16 + b) * 16 + c) * 16 + d, rest)
  | _ => none

/-- What follows the letter u of an escape: a code unit, or a high and a low surrogate. -/
def unicodeEscape (cs : List Char) : Option (Char × List Char) := do
  let (high, rest) ← codeUnit cs
  if high < 0xD800 ∨ 0xDFFF < high then some (Char.ofNat high, rest)
  else if high < 0xDC00 then
    match rest with
    | c :: d :: rest =>
      if c = '\\' ∧ d = 'u' then do
        let (low, rest) ← codeUnit rest
        if 0xDC00 ≤ low ∧ low ≤ 0xDFFF then
          some (Char.ofNat (0x10000 + (high - 0xD800) * 0x400 + (low - 0xDC00)), rest)
        else none
      else none
    | _ => none
  else none

def simpleEscapes : List (Char × Char) :=
  [('"', '"'), ('\\', '\\'), ('/', '/'), ('b', '\x08'), ('f', '\x0c'), ('n', '\n'), ('r', '\r'),
    ('t', '\t')]

/-- What follows the backslash of an escape. -/
def escapeSequence (cs : List Char) : Option (Char × List Char) :=
  match cs with
  | c :: rest =>
    if c = 'u' then unicodeEscape rest else (simpleEscapes.lookup c).map fun v => (v, rest)
  | [] => none

/-- The rest of a string after its opening quotation mark. -/
def stringBody : Nat → List Char → Option (List Char × List Char)
  | 0, _ => none
  | _ + 1, [] => none
  | fuel + 1, c :: cs =>
    if c = '"' then some ([], cs)
    else if c = '\\' then do
      let (v, rest) ← escapeSequence cs
      let (s, rest) ← stringBody fuel rest
      some (v :: s, rest)
    else if c.toNat < 0x20 then none
    else do
      let (s, rest) ← stringBody fuel cs
      some (c :: s, rest)

/-! ### Values -/

def isSpace (c : Char) : Bool := c = ' ' || c = '\t' || c = '\n' || c = '\r'

def skipSpace (cs : List Char) : List Char := cs.dropWhile isSpace

def keyword (word : String) (v : Json) (cs : List Char) : Option (Json × List Char) :=
  (word.toList.isPrefixOf? cs).map fun rest => (v, rest)

mutual

/-- A value and what follows it; the fuel bounds the number of characters. -/
def value : Nat → List Char → Option (Json × List Char)
  | 0, _ => none
  | _ + 1, [] => none
  | fuel + 1, c :: cs =>
    if c = '"' then do
      let (s, rest) ← stringBody fuel cs
      some (.string (String.ofList s), rest)
    else if c = '[' then
      match skipSpace cs with
      | [] => none
      | d :: rest =>
        if d = ']' then some (.array [], rest)
        else do
          let (vs, rest) ← elements fuel (d :: rest)
          some (.array vs, rest)
    else if c = '{' then
      match skipSpace cs with
      | [] => none
      | d :: rest =>
        if d = '}' then some (.object [], rest)
        else do
          let (ms, rest) ← members fuel (d :: rest)
          some (.object ms, rest)
    else if c = 'n' then keyword "null" .null (c :: cs)
    else if c = 't' then keyword "true" (.bool true) (c :: cs)
    else if c = 'f' then keyword "false" (.bool false) (c :: cs)
    else do
      let (n, rest) ← numberText (c :: cs)
      some (.number (String.ofList n), rest)

/-- Values up to the closing bracket. -/
def elements : Nat → List Char → Option (List Json × List Char)
  | 0, _ => none
  | fuel + 1, cs => do
    let (v, rest) ← value fuel cs
    match skipSpace rest with
    | [] => none
    | d :: rest =>
      if d = ',' then do
        let (vs, rest) ← elements fuel (skipSpace rest)
        some (v :: vs, rest)
      else if d = ']' then some ([v], rest)
      else none

/-- Members up to the closing brace. -/
def members : Nat → List Char → Option (List (String × Json) × List Char)
  | 0, _ => none
  | _ + 1, [] => none
  | fuel + 1, c :: cs =>
    if c = '"' then do
      let (name, rest) ← stringBody fuel cs
      match skipSpace rest with
      | [] => none
      | d :: rest =>
        if d = ':' then do
          let (v, rest) ← value fuel (skipSpace rest)
          match skipSpace rest with
          | [] => none
          | e :: rest =>
            if e = ',' then do
              let (ms, rest) ← members fuel (skipSpace rest)
              some ((String.ofList name, v) :: ms, rest)
            else if e = '}' then some ([(String.ofList name, v)], rest)
            else none
        else none
    else none

end

/-- A text that is one value, with space around it. -/
def parse (text : String) : Option Json :=
  match value text.toList.length (skipSpace text.toList) with
  | some (v, rest) => if skipSpace rest = [] then some v else none
  | none => none

/-- The value that the bytes are a text of. -/
def ofBytes (bs : List UInt8) : Option Json := (Utf8.decode bs).bind parse

/-! ### Texts of values -/

section Render

variable (esc : Char → List Char)

/-- A string between quotation marks, with each of its characters escaped. -/
def quoted (s : String) : List Char := '"' :: (s.toList.flatMap esc ++ ['"'])

mutual

/-- The compact text of a value. -/
def render : Json → List Char
  | .null => "null".toList
  | .bool true => "true".toList
  | .bool false => "false".toList
  | .number text => text.toList
  | .string s => quoted esc s
  | .array vs => '[' :: renderElements vs
  | .object ms => '{' :: renderMembers ms

def renderElements : List Json → List Char
  | [] => [']']
  | [v] => render v ++ [']']
  | v :: w :: vs => render v ++ ',' :: renderElements (w :: vs)

def renderMembers : List (String × Json) → List Char
  | [] => ['}']
  | [(name, v)] => quoted esc name ++ ':' :: (render v ++ ['}'])
  | (name, v) :: m :: ms => quoted esc name ++ ':' :: (render v ++ ',' :: renderMembers (m :: ms))

end

end Render

mutual

/-- The strings of a value, the names of its members among them. -/
def strings : Json → List String
  | .null => []
  | .bool _ => []
  | .number _ => []
  | .string s => [s]
  | .array vs => elementStrings vs
  | .object ms => memberStrings ms

def elementStrings : List Json → List String
  | [] => []
  | v :: vs => strings v ++ elementStrings vs

def memberStrings : List (String × Json) → List String
  | [] => []
  | (name, v) :: ms => name :: strings v ++ memberStrings ms

end

mutual

/-- The texts of the numbers of a value. -/
def numbers : Json → List String
  | .null => []
  | .bool _ => []
  | .number text => [text]
  | .string _ => []
  | .array vs => elementNumbers vs
  | .object ms => memberNumbers ms

def elementNumbers : List Json → List String
  | [] => []
  | v :: vs => numbers v ++ elementNumbers vs

def memberNumbers : List (String × Json) → List String
  | [] => []
  | (_, v) :: ms => numbers v ++ memberNumbers ms

end

/-! ### Numbers are read up to their end -/

/-- No number goes on here. -/
def Ends (rest : List Char) : Prop :=
  ∀ c ∈ rest.head?, c.isDigit = false ∧ c ≠ '.' ∧ c ≠ 'e' ∧ c ≠ 'E'

section Numbers

variable {cs rest r ds : List Char}

theorem Ends.takeWhile_digits (h : Ends rest) : rest.takeWhile Char.isDigit = [] := by
  cases rest with
  | nil => rfl
  | cons c rest => rw [List.takeWhile_cons, (h c rfl).1]; rfl

theorem digits_append (h : digits cs = some (ds, r)) (hrest : Ends rest) :
    digits (cs ++ rest) = some (ds, r ++ rest) := by
  have htake : (cs ++ rest).takeWhile Char.isDigit = cs.takeWhile Char.isDigit := by
    rw [List.takeWhile_append]
    split
    · next hall =>
      rw [hrest.takeWhile_digits, List.append_nil]
      exact (List.takeWhile_prefix _).eq_of_length hall |>.symm
    · rfl
  have hdrop : (cs ++ rest).dropWhile Char.isDigit = cs.dropWhile Char.isDigit ++ rest := by
    apply (List.append_right_inj (cs.takeWhile Char.isDigit)).mp
    rw [← List.append_assoc, List.takeWhile_append_dropWhile, ← htake,
      List.takeWhile_append_dropWhile]
  unfold digits at h ⊢
  rw [htake, hdrop]
  cases hd : cs.takeWhile Char.isDigit with
  | nil => rw [hd] at h; cases h
  | cons d tail =>
    rw [hd] at h
    obtain ⟨rfl, rfl⟩ := Prod.mk.inj (Option.some.inj h)
    rfl

theorem digits_ne_nil (h : digits cs = some (ds, r)) : cs ≠ [] := by
  rintro rfl
  cases h

theorem sign_append {marks : List Char} (hcs : cs ≠ []) :
    sign marks (cs ++ rest) = ((sign marks cs).1, (sign marks cs).2 ++ rest) := by
  cases cs with
  | nil => exact absurd rfl hcs
  | cons c cs =>
    simp only [List.cons_append, sign]
    split <;> rfl

theorem integer_append (h : integer cs = some (ds, r)) (hrest : Ends rest) :
    integer (cs ++ rest) = some (ds, r ++ rest) := by
  cases cs with
  | nil => cases h
  | cons c cs =>
    simp only [integer, List.cons_append] at h ⊢
    split at h
    next hc =>
      obtain ⟨rfl, rfl⟩ := Prod.mk.inj (Option.some.inj h)
      rw [if_pos hc]
    next hc =>
      rw [if_neg hc]
      exact digits_append h hrest

theorem fraction_append (h : fraction cs = some (ds, r)) (hrest : Ends rest) :
    fraction (cs ++ rest) = some (ds, r ++ rest) := by
  cases cs with
  | nil =>
    obtain ⟨rfl, rfl⟩ := Prod.mk.inj (Option.some.inj h)
    cases rest with
    | nil => rfl
    | cons c rest => exact if_neg (hrest c rfl).2.1
  | cons c cs =>
    simp only [fraction, List.cons_append] at h ⊢
    split at h
    next hc =>
      obtain ⟨⟨ds', r'⟩, hd, he⟩ := Option.map_eq_some_iff.mp h
      obtain ⟨rfl, rfl⟩ := Prod.mk.inj he
      rw [if_pos hc, digits_append hd hrest]
      rfl
    next hc =>
      obtain ⟨rfl, rfl⟩ := Prod.mk.inj (Option.some.inj h)
      rw [if_neg hc]
      rfl

theorem exponent_append (h : exponent cs = some (ds, r)) (hrest : Ends rest) :
    exponent (cs ++ rest) = some (ds, r ++ rest) := by
  cases cs with
  | nil =>
    obtain ⟨rfl, rfl⟩ := Prod.mk.inj (Option.some.inj h)
    cases rest with
    | nil => rfl
    | cons c rest => exact if_neg (by simp [(hrest c rfl).2.2])
  | cons c cs =>
    simp only [exponent, List.cons_append] at h ⊢
    split at h
    next hc =>
      obtain ⟨⟨ds', r'⟩, hd, he⟩ := Option.map_eq_some_iff.mp h
      obtain ⟨rfl, rfl⟩ := Prod.mk.inj he
      have hcs : cs ≠ [] := by
        rintro rfl
        exact digits_ne_nil hd rfl
      rw [if_pos hc, sign_append hcs, digits_append hd hrest]
      rfl
    next hc =>
      obtain ⟨rfl, rfl⟩ := Prod.mk.inj (Option.some.inj h)
      rw [if_neg hc]
      rfl

theorem numberText_append (h : numberText cs = some (ds, r)) (hrest : Ends rest) :
    numberText (cs ++ rest) = some (ds, r ++ rest) := by
  have hcs : cs ≠ [] := by
    rintro rfl
    cases h
  simp only [numberText, Option.bind_eq_bind, Option.bind_eq_some_iff, Prod.exists] at h
  obtain ⟨whole, r1, hwhole, frac, r2, hfrac, exp, r3, hexp, he⟩ := h
  obtain ⟨rfl, rfl⟩ := Prod.mk.inj (Option.some.inj he)
  simp only [numberText, sign_append hcs, integer_append hwhole hrest, fraction_append hfrac hrest,
    exponent_append hexp hrest, Option.bind_eq_bind, Option.bind_some]

theorem IsNumber.read {text : String} (h : IsNumber text) (hrest : Ends rest) :
    numberText (text.toList ++ rest) = some (text.toList, rest) :=
  numberText_append h hrest

/-- The decimal digits of a number that is not zero begin with another digit than zero. -/
theorem toDigits_head {n : Nat} (hn : 0 < n) :
    ∃ c tail, Nat.toDigits 10 n = c :: tail ∧ c ≠ '0' := by
  induction n using Nat.strongRecOn with
  | ind n ih =>
    by_cases hlt : n < 10
    · have hdigit : ∀ n < 10, 0 < n → n.digitChar ≠ '0' := by decide
      exact ⟨n.digitChar, [], Nat.toDigits_of_lt_base hlt, hdigit n hlt hn⟩
    · obtain ⟨c, tail, he, hc⟩ := ih (n / 10) (by omega) (by omega)
      refine ⟨c, tail ++ [(n % 10).digitChar], ?_, hc⟩
      rw [Nat.toDigits_of_base_le (by decide) (Nat.le_of_not_lt hlt), he]
      rfl

theorem integer_toDigits (n : Nat) :
    integer (Nat.toDigits 10 n) = some (Nat.toDigits 10 n, []) := by
  by_cases hn : n = 0
  · subst hn
    rfl
  obtain ⟨c, tail, he, hc⟩ := toDigits_head (Nat.pos_of_ne_zero hn)
  have hdigits : ∀ d ∈ c :: tail, d.isDigit = true := fun d hd =>
    Nat.isDigit_of_mem_toDigits (by decide) (by decide) (he ▸ hd)
  have htake : (c :: tail).takeWhile Char.isDigit = c :: tail :=
    List.takeWhile_eq_self_iff.mpr hdigits
  have hdrop : (c :: tail).dropWhile Char.isDigit = [] :=
    List.dropWhile_eq_nil_iff.mpr hdigits
  simp only [he, integer, if_neg hc, digits, htake, hdrop]

theorem sign_toDigits (n : Nat) : sign ['-'] (Nat.toDigits 10 n) = ([], Nat.toDigits 10 n) := by
  cases hdigits : Nat.toDigits 10 n with
  | nil => rfl
  | cons c tail =>
    have hc : c.isDigit = true :=
      Nat.isDigit_of_mem_toDigits (by decide) (by decide) (hdigits ▸ List.mem_cons_self)
    have hne : c ∉ ['-'] := by
      intro hmem
      rw [List.mem_singleton.mp hmem] at hc
      cases hc
    exact if_neg hne

theorem numberText_of_integer {cs minus whole : List Char} (hsign : sign ['-'] cs = (minus, whole))
    (hwhole : integer whole = some (whole, [])) : numberText cs = some (minus ++ whole, []) := by
  simp [numberText, hsign, hwhole, fraction, exponent]

/-- The decimal text of an integer is a number. -/
theorem isNumber_toString (n : Int) : IsNumber (toString n) := by
  rw [IsNumber, Int.toString_eq_repr, Int.repr_eq_if]
  split
  · rw [Nat.toList_repr]
    exact numberText_of_integer (sign_toDigits n.toNat) (integer_toDigits n.toNat)
  · rw [String.toList_append, Nat.toList_repr]
    exact numberText_of_integer rfl (integer_toDigits (-n).toNat)


end Numbers

/-! ### The reader undoes the writer -/

/-- A number may not go on after the value. -/
def EndsBefore (v : Json) (rest : List Char) : Prop := ∀ text, v = .number text → Ends rest

/-- The reader takes the escaped form of the character for it. -/
def Escapes (esc : Char → List Char) (c : Char) : Prop :=
  esc c ≠ [] ∧ ∀ fuel rest, stringBody (fuel + 1) (esc c ++ rest) =
    (stringBody fuel rest).map fun (s, rest) => (c :: s, rest)

theorem escapes_self {esc : Char → List Char} {c : Char} (hesc : esc c = [c]) (hquote : c ≠ '"')
    (hback : c ≠ '\\') (hcontrol : ¬c.toNat < 0x20) : Escapes esc c := by
  refine ⟨by simp [hesc], fun fuel rest => ?_⟩
  rw [hesc, List.singleton_append, stringBody, if_neg hquote, if_neg hback, if_neg hcontrol]
  cases stringBody fuel rest <;> rfl

theorem escapes_sequence {esc : Char → List Char} {c : Char} {s : List Char}
    (hesc : esc c = '\\' :: s) (hread : ∀ rest, escapeSequence (s ++ rest) = some (c, rest)) :
    Escapes esc c := by
  refine ⟨by simp [hesc], fun fuel rest => ?_⟩
  rw [hesc, List.cons_append, stringBody, if_neg (by decide), if_pos rfl, hread]
  cases h : stringBody fuel rest <;> simp [h]

/-- The reader can take the value from its text: its characters are escaped and its numbers are
numbers. -/
structure Readable (esc : Char → List Char) (strings numbers : List String) : Prop where
  escapes : ∀ s ∈ strings, ∀ c ∈ s.toList, Escapes esc c
  isNumber : ∀ n ∈ numbers, IsNumber n

section Render

variable {esc : Char → List Char} {rest : List Char}

theorem Readable.of_append_left {s t n m : List String} (h : Readable esc (s ++ t) (n ++ m)) :
    Readable esc s n :=
  ⟨fun x hx => h.escapes x (List.mem_append_left t hx),
    fun x hx => h.isNumber x (List.mem_append_left m hx)⟩

theorem Readable.of_append_right {s t n m : List String} (h : Readable esc (s ++ t) (n ++ m)) :
    Readable esc t m :=
  ⟨fun x hx => h.escapes x (List.mem_append_right s hx),
    fun x hx => h.isNumber x (List.mem_append_right n hx)⟩

theorem stringBody_escaped {cs : List Char} (h : ∀ c ∈ cs, Escapes esc c) {fuel : Nat}
    (hfuel : (cs.flatMap esc).length < fuel) :
    stringBody fuel (cs.flatMap esc ++ '"' :: rest) = some (cs, rest) := by
  induction cs generalizing fuel with
  | nil =>
    cases fuel with
    | zero => omega
    | succ fuel => exact if_pos rfl
  | cons c cs ih =>
    obtain ⟨hne, hread⟩ := h c List.mem_cons_self
    have hpos := List.length_pos_iff.mpr hne
    rw [List.flatMap_cons, List.length_append] at hfuel
    cases fuel with
    | zero => omega
    | succ fuel =>
      rw [List.flatMap_cons, List.append_assoc, hread,
        ih (fun d hd => h d (List.mem_cons_of_mem c hd)) (by omega)]
      rfl

/-- The body of a quoted string, as it stands before what follows. -/
theorem stringBody_quoted {s : String} (h : ∀ c ∈ s.toList, Escapes esc c) {fuel : Nat}
    (hfuel : (quoted esc s).length ≤ fuel + 1) :
    stringBody fuel (s.toList.flatMap esc ++ ['"'] ++ rest) = some (s.toList, rest) := by
  rw [List.append_assoc]
  refine stringBody_escaped h ?_
  simp only [quoted, List.length_cons, List.length_append, List.length_nil] at hfuel
  omega

theorem numberText_head {cs ds r : List Char} (h : numberText cs = some (ds, r)) :
    ∃ c tail, cs = c :: tail ∧ (c = '-' ∨ c.isDigit = true) := by
  cases cs with
  | nil => cases h
  | cons c cs =>
    refine ⟨c, cs, rfl, ?_⟩
    by_cases hminus : c = '-'
    · exact .inl hminus
    right
    simp only [numberText, sign, List.mem_singleton, if_neg hminus, Option.bind_eq_bind,
      Option.bind_eq_some_iff, Prod.exists, integer] at h
    obtain ⟨whole, r1, hwhole, -⟩ := h
    split at hwhole
    next hzero =>
      rw [hzero]
      decide
    next hzero =>
      cases hdigit : c.isDigit with
      | true => rfl
      | false =>
        rw [digits, List.takeWhile_cons, hdigit] at hwhole
        cases hwhole

/-- A value is read as a number when it begins like one. -/
theorem value_number {c : Char} {cs : List Char} (hc : c = '-' ∨ c.isDigit = true) (fuel : Nat) :
    value (fuel + 1) (c :: cs) =
      (numberText (c :: cs)).map fun (n, rest) => (.number (String.ofList n), rest) := by
  have hne : c ≠ '"' ∧ c ≠ '[' ∧ c ≠ '{' ∧ c ≠ 'n' ∧ c ≠ 't' ∧ c ≠ 'f' := by
    rcases hc with rfl | hc
    · decide
    · refine ⟨?_, ?_, ?_, ?_, ?_, ?_⟩ <;> (rintro rfl; exact absurd hc (by decide))
  rw [value, if_neg hne.1, if_neg hne.2.1, if_neg hne.2.2.1, if_neg hne.2.2.2.1,
    if_neg hne.2.2.2.2.1, if_neg hne.2.2.2.2.2]
  cases numberText (c :: cs) <;> rfl

theorem isSpace_of_number {c : Char} (hc : c = '-' ∨ c.isDigit = true) : isSpace c = false := by
  rcases hc with rfl | hc
  · decide
  · cases hs : isSpace c with
    | false => rfl
    | true =>
      simp only [isSpace, Bool.or_eq_true, decide_eq_true_eq] at hs
      rcases hs with ((rfl | rfl) | rfl) | rfl <;> exact absurd hc (by decide)

/-- The text of a value begins with a character that ends no space and no array. -/
theorem render_head {v : Json} (h : Readable esc v.strings v.numbers) :
    ∃ c tail, render esc v = c :: tail ∧ isSpace c = false ∧ c ≠ ']' := by
  cases v with
  | null => exact ⟨'n', _, rfl, rfl, by decide⟩
  | bool b =>
    cases b with
    | true => exact ⟨'t', _, rfl, rfl, by decide⟩
    | false => exact ⟨'f', _, rfl, rfl, by decide⟩
  | number text =>
    have hnum : IsNumber text := h.isNumber text (by simp [numbers])
    obtain ⟨c, cs, htext, hc⟩ := numberText_head hnum
    refine ⟨c, cs, htext, isSpace_of_number hc, ?_⟩
    rintro rfl
    exact absurd hc (by decide)
  | string s => exact ⟨'"', _, rfl, rfl, by decide⟩
  | array vs => exact ⟨'[', _, rfl, rfl, by decide⟩
  | object ms => exact ⟨'{', _, rfl, rfl, by decide⟩

theorem skipSpace_render {v : Json} (h : Readable esc v.strings v.numbers) :
    skipSpace (render esc v ++ rest) = render esc v ++ rest := by
  obtain ⟨c, tail, he, hspace, -⟩ := render_head h
  rw [he, List.cons_append, skipSpace, List.dropWhile_cons, hspace]
  rfl

theorem ends_comma : Ends (',' :: rest) := by
  rintro c ⟨⟩
  decide

theorem ends_bracket : Ends (']' :: rest) := by
  rintro c ⟨⟩
  decide

theorem ends_brace : Ends ('}' :: rest) := by
  rintro c ⟨⟩
  decide

theorem renderElements_cons (esc : Char → List Char) (v : Json) (vs : List Json) :
    ∃ tail, renderElements esc (v :: vs) = render esc v ++ tail := by
  cases vs with
  | nil => exact ⟨_, rfl⟩
  | cons w vs => exact ⟨_, rfl⟩

theorem renderMembers_cons (esc : Char → List Char) (m : String × Json)
    (ms : List (String × Json)) :
    ∃ tail, renderMembers esc (m :: ms) = '"' :: tail := by
  cases ms with
  | nil => exact ⟨_, rfl⟩
  | cons m' ms => exact ⟨_, rfl⟩

mutual

/-- A value is read from its text, whatever the way of escaping. -/
theorem value_render (v : Json) (h : Readable esc v.strings v.numbers) {rest : List Char}
    (hrest : v.EndsBefore rest) {fuel : Nat} (hfuel : (render esc v).length ≤ fuel) :
    value fuel (render esc v ++ rest) = some (v, rest) := by
  obtain ⟨c, tail, hhead, -, -⟩ := render_head h
  cases fuel with
  | zero =>
    rw [hhead] at hfuel
    cases hfuel
  | succ fuel =>
    match v with
    | .null => rfl
    | .bool true => rfl
    | .bool false => rfl
    | .number text =>
      have hnum : IsNumber text := h.isNumber text (by simp [numbers])
      obtain ⟨c, cs, htext, hc⟩ := numberText_head hnum
      have hread := hnum.read (hrest text rfl)
      rw [render, htext, List.cons_append, value_number hc, ← List.cons_append, ← htext, hread,
        Option.map_some]
      simp
    | .string s =>
      have hs : ∀ c ∈ s.toList, Escapes esc c := h.escapes s (by simp [strings])
      have hbody : stringBody fuel (s.toList.flatMap esc ++ ['"'] ++ rest) =
        some (s.toList, rest) := stringBody_quoted hs hfuel
      rw [render, quoted, List.cons_append, value, if_pos rfl, hbody]
      simp
    | .array [] => rfl
    | .array (v :: vs) =>
      have helements : elements fuel (renderElements esc (v :: vs) ++ rest) =
        some (v :: vs, rest) := elements_render v vs h (by simpa [render] using hfuel)
      obtain ⟨t, ht⟩ := renderElements_cons esc v vs
      obtain ⟨c, tail, hv, hspace, hc⟩ := render_head (v := v) h.of_append_left
      rw [ht, hv] at helements
      rw [render, List.cons_append, value, if_neg (by decide), if_pos rfl, ht, hv, List.cons_append,
        List.cons_append, skipSpace, List.dropWhile_cons, hspace]
      simp only [Bool.false_eq_true, if_false, if_neg hc]
      rw [← List.cons_append, ← List.cons_append, helements]
      rfl
    | .object [] => rfl
    | .object (m :: ms) =>
      have hmembers : members fuel (renderMembers esc (m :: ms) ++ rest) =
        some (m :: ms, rest) := members_render m ms h (by simpa [render] using hfuel)
      obtain ⟨t, ht⟩ := renderMembers_cons esc m ms
      rw [ht] at hmembers
      rw [render, List.cons_append, value, if_neg (by decide), if_neg (by decide), if_pos rfl, ht,
        List.cons_append]
      have hskip : skipSpace ('"' :: (t ++ rest)) = '"' :: (t ++ rest) := rfl
      simp only [hskip]
      rw [if_neg (by decide), ← List.cons_append, hmembers]
      rfl
termination_by fuel

theorem elements_render (v : Json) (vs : List Json)
    (h : Readable esc (elementStrings (v :: vs)) (elementNumbers (v :: vs))) {rest : List Char}
    {fuel : Nat} (hfuel : (renderElements esc (v :: vs)).length ≤ fuel) :
    elements fuel (renderElements esc (v :: vs) ++ rest) = some (v :: vs, rest) := by
  cases fuel with
  | zero =>
    cases vs <;> simp [renderElements] at hfuel
  | succ fuel =>
    match vs with
    | [] =>
      simp only [renderElements, List.length_append, List.length_cons, List.length_nil] at hfuel
      have hv : value fuel (render esc v ++ ']' :: rest) = some (v, ']' :: rest) :=
        value_render v h.of_append_left (fun _ _ => ends_bracket) (by omega)
      rw [renderElements, List.append_assoc, List.singleton_append, elements, hv]
      rfl
    | w :: ws =>
      simp only [renderElements, List.length_append, List.length_cons] at hfuel
      have hnext : elements fuel (renderElements esc (w :: ws) ++ rest) = some (w :: ws, rest) :=
        elements_render w ws h.of_append_right (by omega)
      obtain ⟨t, ht⟩ := renderElements_cons esc w ws
      have hskip : skipSpace (renderElements esc (w :: ws) ++ rest) =
          renderElements esc (w :: ws) ++ rest := by
        rw [ht, List.append_assoc]
        exact skipSpace_render h.of_append_right.of_append_left
      rw [renderElements, List.append_assoc, List.cons_append, elements,
        value_render v h.of_append_left (fun _ _ => ends_comma) (by omega)]
      have hcomma : skipSpace (',' :: (renderElements esc (w :: ws) ++ rest)) =
          ',' :: (renderElements esc (w :: ws) ++ rest) := rfl
      simp only [Option.bind_eq_bind, Option.bind_some, hcomma, if_true, hskip, hnext]
termination_by fuel

theorem members_render (m : String × Json) (ms : List (String × Json))
    (h : Readable esc (memberStrings (m :: ms)) (memberNumbers (m :: ms))) {rest : List Char}
    {fuel : Nat} (hfuel : (renderMembers esc (m :: ms)).length ≤ fuel) :
    members fuel (renderMembers esc (m :: ms) ++ rest) = some (m :: ms, rest) := by
  obtain ⟨name, v⟩ := m
  have hname : ∀ c ∈ name.toList, Escapes esc c := h.escapes name (by simp [memberStrings])
  have hvalue : Readable esc v.strings v.numbers := by
    refine Readable.of_append_left (t := memberStrings ms) (m := memberNumbers ms) ⟨?_, ?_⟩
    · exact fun s hs => h.escapes s (List.mem_cons_of_mem name hs)
    · exact h.isNumber
  have hms : Readable esc (memberStrings ms) (memberNumbers ms) := by
    refine Readable.of_append_right (s := v.strings) (n := v.numbers) ⟨?_, ?_⟩
    · exact fun s hs => h.escapes s (List.mem_cons_of_mem name hs)
    · exact h.isNumber
  cases fuel with
  | zero =>
    obtain ⟨t, ht⟩ := renderMembers_cons esc (name, v) ms
    rw [ht] at hfuel
    cases hfuel
  | succ fuel =>
    match ms with
    | [] =>
      simp only [renderMembers, List.length_append, List.length_cons, List.length_nil] at hfuel
      have hbody : ∀ rest, stringBody fuel (name.toList.flatMap esc ++ ['"'] ++ rest) =
        some (name.toList, rest) := fun rest => stringBody_quoted hname (by omega)
      have hv : value fuel (render esc v ++ '}' :: rest) = some (v, '}' :: rest) :=
        value_render v hvalue (fun _ _ => ends_brace) (by omega)
      rw [renderMembers, quoted, List.append_assoc, List.cons_append, members, if_pos rfl, hbody]
      have hcolon : skipSpace (':' :: (render esc v ++ ['}']) ++ rest) =
        ':' :: (render esc v ++ '}' :: rest) := by
        rw [List.cons_append, List.append_assoc]
        rfl
      have hbrace : skipSpace ('}' :: rest) = '}' :: rest := rfl
      simp only [Option.bind_eq_bind, Option.bind_some, hcolon, if_true, skipSpace_render hvalue, hv,
        hbrace]
      simp
    | m' :: ms =>
      simp only [renderMembers, List.length_append, List.length_cons] at hfuel
      have hbody : ∀ rest, stringBody fuel (name.toList.flatMap esc ++ ['"'] ++ rest) =
        some (name.toList, rest) := fun rest => stringBody_quoted hname (by omega)
      have hv : value fuel (render esc v ++ ',' :: (renderMembers esc (m' :: ms) ++ rest)) =
          some (v, ',' :: (renderMembers esc (m' :: ms) ++ rest)) :=
        value_render v hvalue (fun _ _ => ends_comma) (by omega)
      have hnext : members fuel (renderMembers esc (m' :: ms) ++ rest) = some (m' :: ms, rest) :=
        members_render m' ms hms (by omega)
      obtain ⟨t, ht⟩ := renderMembers_cons esc m' ms
      have hskip : skipSpace (renderMembers esc (m' :: ms) ++ rest) =
          renderMembers esc (m' :: ms) ++ rest := by
        rw [ht]
        rfl
      rw [renderMembers, quoted, List.append_assoc, List.cons_append, members, if_pos rfl, hbody]
      have hcolon : skipSpace (':' :: (render esc v ++ ',' :: renderMembers esc (m' :: ms)) ++
          rest) = ':' :: (render esc v ++ ',' :: (renderMembers esc (m' :: ms) ++ rest)) := by
        rw [List.cons_append, List.append_assoc]
        rfl
      have hcomma : skipSpace (',' :: (renderMembers esc (m' :: ms) ++ rest)) =
        ',' :: (renderMembers esc (m' :: ms) ++ rest) := rfl
      simp only [Option.bind_eq_bind, Option.bind_some, hcolon, if_true, skipSpace_render hvalue, hv,
        hcomma, hskip, hnext]
      simp
termination_by fuel

end

mutual

/-- The escaped characters of the strings of a value stand in its text. -/
theorem subset_render (v : Json) {s : String} (hs : s ∈ v.strings) :
    s.toList.flatMap esc ⊆ render esc v := by
  match v with
  | .null => cases hs
  | .bool _ => cases hs
  | .number _ => cases hs
  | .string t =>
    obtain rfl := List.mem_singleton.mp hs
    intro c hc
    simp [render, quoted, hc]
  | .array vs =>
    intro c hc
    exact List.mem_cons_of_mem '[' (subset_renderElements vs hs hc)
  | .object ms =>
    intro c hc
    exact List.mem_cons_of_mem '{' (subset_renderMembers ms hs hc)

theorem subset_renderElements (vs : List Json) {s : String} (hs : s ∈ elementStrings vs) :
    s.toList.flatMap esc ⊆ renderElements esc vs := by
  match vs with
  | [] => cases hs
  | [v] =>
    intro c hc
    rw [elementStrings, elementStrings, List.append_nil] at hs
    exact List.mem_append_left _ (subset_render v hs hc)
  | v :: w :: ws =>
    intro c hc
    rw [elementStrings] at hs
    rcases List.mem_append.mp hs with hs | hs
    · exact List.mem_append_left _ (subset_render v hs hc)
    · exact List.mem_append_right _
        (List.mem_cons_of_mem ',' (subset_renderElements (w :: ws) hs hc))

theorem subset_renderMembers (ms : List (String × Json)) {s : String}
    (hs : s ∈ memberStrings ms) : s.toList.flatMap esc ⊆ renderMembers esc ms := by
  match ms with
  | [] => cases hs
  | [(name, v)] =>
    intro c hc
    rw [memberStrings, memberStrings, List.append_nil] at hs
    simp only [renderMembers, quoted, List.mem_append, List.mem_cons]
    rcases List.mem_cons.mp hs with rfl | hs
    · exact .inl (.inr (.inl hc))
    · exact .inr (.inr (.inl (subset_render v hs hc)))
  | (name, v) :: m :: ms =>
    intro c hc
    rw [memberStrings] at hs
    simp only [renderMembers, quoted, List.mem_append, List.mem_cons]
    rcases List.mem_cons.mp hs with rfl | hs
    · exact .inl (.inr (.inl hc))
    · rcases List.mem_append.mp hs with hs | hs
      · exact .inr (.inr (.inl (subset_render v hs hc)))
      · exact .inr (.inr (.inr (.inr (subset_renderMembers (m :: ms) hs hc))))

end

theorem parse_render {v : Json} (h : Readable esc v.strings v.numbers) :
    parse (String.ofList (render esc v)) = some v := by
  have hskip : skipSpace (render esc v ++ []) = render esc v ++ [] := skipSpace_render h
  have hvalue : value (render esc v).length (render esc v ++ []) = some (v, []) :=
    value_render v h (fun _ _ => by rintro c ⟨⟩) (Nat.le_refl _)
  rw [List.append_nil] at hskip hvalue
  rw [parse, String.toList_ofList, hskip, hvalue]
  rfl

/-- An object ends where its text ends. -/
theorem parse_render_append {ms : List (String × Json)}
    (h : Readable esc (strings (.object ms)) (numbers (.object ms))) {rest : List Char} {v : Json}
    (hparse : parse (String.ofList (render esc (.object ms) ++ rest)) = some v) :
    skipSpace rest = [] := by
  have hskip : skipSpace (render esc (.object ms) ++ rest) = render esc (.object ms) ++ rest :=
    skipSpace_render h
  have hvalue : value (render esc (.object ms) ++ rest).length (render esc (.object ms) ++ rest) =
      some (.object ms, rest) :=
    value_render _ h (fun _ he => by cases he) (by simp)
  rw [parse, String.toList_ofList, hskip, hvalue] at hparse
  by_contra hne
  simp [hne] at hparse

end Render

/-! ### Control characters -/

/-- The text between `cs` and its end `rest` has no control character apart from spaces. -/
def Consumed (cs rest : List Char) : Prop :=
  ∃ text, text ++ rest = cs ∧ ∀ c ∈ text, c.toNat < 0x20 → isSpace c = true

section Control

variable {cs rest r ds : List Char} {fuel : Nat}

theorem Consumed.refl (cs : List Char) : Consumed cs cs := ⟨[], rfl, by simp⟩

theorem Consumed.trans (h : Consumed cs rest) (h' : Consumed rest r) : Consumed cs r := by
  obtain ⟨s, rfl, hs⟩ := h
  obtain ⟨t, rfl, ht⟩ := h'
  refine ⟨s ++ t, List.append_assoc .., fun c hc => ?_⟩
  rcases List.mem_append.mp hc with hc | hc
  · exact hs c hc
  · exact ht c hc

theorem Consumed.cons {c : Char} (hc : c.toNat < 0x20 → isSpace c = true) (h : Consumed cs rest) :
    Consumed (c :: cs) rest :=
  Consumed.trans ⟨[c], rfl, by simpa using hc⟩ h

/-- A character that the reader has compared with a printable one. -/
theorem Consumed.cons_of_eq {c d : Char} (hc : c = d) (hd : ¬d.toNat < 0x20) (h : Consumed cs rest) :
    Consumed (c :: cs) rest :=
  Consumed.cons (fun hlt => absurd (hc ▸ hlt) hd) h

/-- No character of the list is a control character. -/
def printable (cs : List Char) : Bool := cs.all fun c => 0x20 ≤ c.toNat

theorem not_control_of_printable {c : Char} (h : printable cs = true) (hc : c ∈ cs) :
    ¬c.toNat < 0x20 :=
  Nat.not_lt.mpr (of_decide_eq_true (List.all_eq_true.mp h c hc))

theorem consumed_skipSpace (cs : List Char) : Consumed cs (skipSpace cs) :=
  ⟨cs.takeWhile isSpace, List.takeWhile_append_dropWhile, fun _ hc _ => List.mem_takeWhile_imp hc⟩

theorem not_control_of_isDigit {c : Char} (h : c.isDigit = true) : ¬c.toNat < 0x20 := by
  simp only [Char.isDigit, Bool.and_eq_true, decide_eq_true_eq, ge_iff_le,
    UInt32.le_iff_toNat_le] at h
  have hle : 48 ≤ c.toNat := h.1
  omega

theorem consumed_digits (h : digits cs = some (ds, rest)) : Consumed cs rest := by
  unfold digits at h
  split at h
  · cases h
  next d tail htake =>
    obtain ⟨-, rfl⟩ := Prod.mk.inj (Option.some.inj h)
    exact ⟨cs.takeWhile Char.isDigit, List.takeWhile_append_dropWhile,
      fun c hc hlt => absurd hlt (not_control_of_isDigit (List.mem_takeWhile_imp hc))⟩

theorem consumed_sign {marks : List Char} (hmarks : printable marks = true) :
    Consumed cs (sign marks cs).2 := by
  cases cs with
  | nil => exact Consumed.refl _
  | cons c cs =>
    simp only [sign]
    split
    next hc =>
      exact Consumed.cons (fun hlt => absurd hlt (not_control_of_printable hmarks hc))
        (Consumed.refl cs)
    next hc => exact Consumed.refl _

theorem consumed_integer (h : integer cs = some (ds, rest)) : Consumed cs rest := by
  cases cs with
  | nil => cases h
  | cons c cs =>
    simp only [integer] at h
    split at h
    next hc =>
      obtain ⟨-, rfl⟩ := Prod.mk.inj (Option.some.inj h)
      exact Consumed.cons_of_eq hc (by decide) (Consumed.refl cs)
    next hc => exact consumed_digits h

theorem consumed_fraction (h : fraction cs = some (ds, rest)) : Consumed cs rest := by
  cases cs with
  | nil =>
    obtain ⟨-, rfl⟩ := Prod.mk.inj (Option.some.inj h)
    exact Consumed.refl _
  | cons c cs =>
    simp only [fraction] at h
    split at h
    next hc =>
      obtain ⟨⟨ds', r'⟩, hd, he⟩ := Option.map_eq_some_iff.mp h
      obtain ⟨-, rfl⟩ := Prod.mk.inj he
      exact Consumed.cons_of_eq hc (by decide) (consumed_digits hd)
    next hc =>
      obtain ⟨-, rfl⟩ := Prod.mk.inj (Option.some.inj h)
      exact Consumed.refl _

theorem consumed_exponent (h : exponent cs = some (ds, rest)) : Consumed cs rest := by
  cases cs with
  | nil =>
    obtain ⟨-, rfl⟩ := Prod.mk.inj (Option.some.inj h)
    exact Consumed.refl _
  | cons c cs =>
    simp only [exponent] at h
    split at h
    next hc =>
      obtain ⟨⟨ds', r'⟩, hd, he⟩ := Option.map_eq_some_iff.mp h
      obtain ⟨-, rfl⟩ := Prod.mk.inj he
      have hmark : ¬c.toNat < 0x20 := by
        rcases hc with rfl | rfl
        · decide
        · decide
      exact Consumed.cons (fun hlt => absurd hlt hmark)
        ((consumed_sign (by decide)).trans (consumed_digits hd))
    next hc =>
      obtain ⟨-, rfl⟩ := Prod.mk.inj (Option.some.inj h)
      exact Consumed.refl _

theorem consumed_numberText (h : numberText cs = some (ds, rest)) : Consumed cs rest := by
  simp only [numberText, Option.bind_eq_bind, Option.bind_eq_some_iff, Prod.exists] at h
  obtain ⟨whole, r1, hwhole, frac, r2, hfrac, exp, r3, hexp, he⟩ := h
  obtain ⟨-, rfl⟩ := Prod.mk.inj (Option.some.inj he)
  have hsign : Consumed cs (sign ['-'] cs).2 := consumed_sign (by decide)
  exact hsign.trans ((consumed_integer hwhole).trans
    ((consumed_fraction hfrac).trans (consumed_exponent hexp)))

theorem hexValue_not_control {c : Char} {n : Nat} (h : hexValue c = some n) : ¬c.toNat < 0x20 := by
  intro hlt
  rw [hexValue, if_neg (by omega), if_neg (by omega), if_neg (by omega)] at h
  cases h

theorem consumed_codeUnit {n : Nat} (h : codeUnit cs = some (n, rest)) : Consumed cs rest := by
  unfold codeUnit at h
  split at h
  next a b c d tail =>
    simp only [Option.bind_eq_bind, Option.bind_eq_some_iff] at h
    obtain ⟨va, ha, vb, hb, vc, hc, vd, hd, he⟩ := h
    obtain ⟨-, rfl⟩ := Prod.mk.inj (Option.some.inj he)
    refine ⟨[a, b, c, d], rfl, fun x hx hlt => absurd hlt ?_⟩
    simp only [List.mem_cons, List.not_mem_nil, or_false] at hx
    rcases hx with rfl | rfl | rfl | rfl
    · exact hexValue_not_control ha
    · exact hexValue_not_control hb
    · exact hexValue_not_control hc
    · exact hexValue_not_control hd
  · cases h

theorem consumed_unicodeEscape {v : Char} (h : unicodeEscape cs = some (v, rest)) :
    Consumed cs rest := by
  simp only [unicodeEscape, Option.bind_eq_bind, Option.bind_eq_some_iff, Prod.exists] at h
  obtain ⟨high, r1, hhigh, h⟩ := h
  refine (consumed_codeUnit hhigh).trans ?_
  split at h
  next hsingle =>
    obtain ⟨-, rfl⟩ := Prod.mk.inj (Option.some.inj h)
    exact Consumed.refl _
  next hsurrogate =>
    split at h
    next hlow =>
      split at h
      next c d tail =>
        split at h
        next hcd =>
          simp only [Option.bind_eq_some_iff, Prod.exists] at h
          obtain ⟨low, r2, hlow, h⟩ := h
          split at h
          next hrange =>
            obtain ⟨-, rfl⟩ := Prod.mk.inj (Option.some.inj h)
            exact Consumed.cons_of_eq hcd.1 (by decide)
              (Consumed.cons_of_eq hcd.2 (by decide) (consumed_codeUnit hlow))
          next => cases h
        next => cases h
      next => cases h
    next => cases h

theorem consumed_escapeSequence {v : Char} (h : escapeSequence cs = some (v, rest)) :
    Consumed cs rest := by
  cases cs with
  | nil => cases h
  | cons c cs =>
    simp only [escapeSequence] at h
    split at h
    next hu => exact Consumed.cons_of_eq hu (by decide) (consumed_unicodeEscape h)
    next hu =>
      obtain ⟨w, hw, he⟩ := Option.map_eq_some_iff.mp h
      obtain ⟨-, rfl⟩ := Prod.mk.inj he
      have hkeys : ∀ p ∈ simpleEscapes, ¬p.1.toNat < 0x20 := by decide
      obtain ⟨before, after, hsplit, -⟩ := List.lookup_eq_some_iff.mp hw
      have hmem : (c, w) ∈ simpleEscapes := by simp [hsplit]
      exact Consumed.cons (fun hlt => absurd hlt (hkeys _ hmem)) (Consumed.refl cs)

theorem consumed_stringBody {s : List Char} (h : stringBody fuel cs = some (s, rest)) :
    Consumed cs rest := by
  induction fuel generalizing cs s with
  | zero => cases h
  | succ fuel ih =>
    cases cs with
    | nil => cases h
    | cons c cs =>
      simp only [stringBody] at h
      split at h
      next hquote =>
        obtain ⟨-, rfl⟩ := Prod.mk.inj (Option.some.inj h)
        exact Consumed.cons_of_eq hquote (by decide) (Consumed.refl cs)
      next hquote =>
        split at h
        next hback =>
          simp only [Option.bind_eq_bind, Option.bind_eq_some_iff, Prod.exists] at h
          obtain ⟨v, r1, hv, t, r2, ht, he⟩ := h
          obtain ⟨-, rfl⟩ := Prod.mk.inj (Option.some.inj he)
          exact Consumed.cons_of_eq hback (by decide) ((consumed_escapeSequence hv).trans (ih ht))
        next hback =>
          split at h
          next hcontrol => cases h
          next hcontrol =>
            simp only [Option.bind_eq_bind, Option.bind_eq_some_iff, Prod.exists] at h
            obtain ⟨t, r2, ht, he⟩ := h
            obtain ⟨-, rfl⟩ := Prod.mk.inj (Option.some.inj he)
            exact Consumed.cons (fun hlt => absurd hlt hcontrol) (ih ht)

theorem consumed_keyword {word : String} {v w : Json} (hword : printable word.toList = true)
    (h : keyword word v cs = some (w, rest)) : Consumed cs rest := by
  obtain ⟨t, ht, he⟩ := Option.map_eq_some_iff.mp h
  obtain ⟨-, rfl⟩ := Prod.mk.inj he
  exact ⟨word.toList, List.isPrefixOf?_eq_some_iff_append_eq.mp ht,
    fun c hc hlt => absurd hlt (not_control_of_printable hword hc)⟩

/-- What a reader of lists does after an element or a member. -/
theorem Consumed.separator {c d : Char} (h : skipSpace cs = c :: rest) (hc : c = d)
    (hd : ¬d.toNat < 0x20) : Consumed cs rest :=
  (h ▸ consumed_skipSpace cs).trans (Consumed.cons_of_eq hc hd (Consumed.refl rest))

mutual

theorem consumed_value {fuel : Nat} {cs rest : List Char} {v : Json}
    (h : value fuel cs = some (v, rest)) : Consumed cs rest := by
  match fuel, cs with
  | 0, _ => cases h
  | _ + 1, [] => cases h
  | fuel + 1, c :: cs =>
    rw [value] at h
    split at h
    next hquote =>
      simp only [Option.bind_eq_bind, Option.bind_eq_some_iff, Prod.exists] at h
      obtain ⟨s, r, hs, he⟩ := h
      obtain ⟨-, rfl⟩ := Prod.mk.inj (Option.some.inj he)
      exact Consumed.cons_of_eq hquote (by decide) (consumed_stringBody hs)
    split at h
    next hbracket =>
      refine Consumed.cons_of_eq hbracket (by decide) ?_
      split at h
      next => cases h
      next d tail hskip =>
        split at h
        next hd =>
          obtain ⟨-, rfl⟩ := Prod.mk.inj (Option.some.inj h)
          exact Consumed.separator hskip hd (by decide)
        next hd =>
          simp only [Option.bind_eq_bind, Option.bind_eq_some_iff, Prod.exists] at h
          obtain ⟨vs, r, hvs, he⟩ := h
          obtain ⟨-, rfl⟩ := Prod.mk.inj (Option.some.inj he)
          exact (hskip ▸ consumed_skipSpace cs).trans (consumed_elements hvs)
    split at h
    next hbrace =>
      refine Consumed.cons_of_eq hbrace (by decide) ?_
      split at h
      next => cases h
      next d tail hskip =>
        split at h
        next hd =>
          obtain ⟨-, rfl⟩ := Prod.mk.inj (Option.some.inj h)
          exact Consumed.separator hskip hd (by decide)
        next hd =>
          simp only [Option.bind_eq_bind, Option.bind_eq_some_iff, Prod.exists] at h
          obtain ⟨ms, r, hms, he⟩ := h
          obtain ⟨-, rfl⟩ := Prod.mk.inj (Option.some.inj he)
          exact (hskip ▸ consumed_skipSpace cs).trans (consumed_members hms)
    split at h
    · exact consumed_keyword (by decide) h
    split at h
    · exact consumed_keyword (by decide) h
    split at h
    · exact consumed_keyword (by decide) h
    simp only [Option.bind_eq_bind, Option.bind_eq_some_iff, Prod.exists] at h
    obtain ⟨n, r, hn, he⟩ := h
    obtain ⟨-, rfl⟩ := Prod.mk.inj (Option.some.inj he)
    exact consumed_numberText hn

theorem consumed_elements {fuel : Nat} {cs rest : List Char} {vs : List Json}
    (h : elements fuel cs = some (vs, rest)) : Consumed cs rest := by
  match fuel with
  | 0 => cases h
  | fuel + 1 =>
    simp only [elements, Option.bind_eq_bind, Option.bind_eq_some_iff, Prod.exists] at h
    obtain ⟨v, r, hv, h⟩ := h
    refine (consumed_value hv).trans ?_
    split at h
    next => cases h
    next d tail hskip =>
      split at h
      next hcomma =>
        simp only [Option.bind_eq_some_iff, Prod.exists] at h
        obtain ⟨ws, r', hws, he⟩ := h
        obtain ⟨-, rfl⟩ := Prod.mk.inj (Option.some.inj he)
        exact (Consumed.separator hskip hcomma (by decide)).trans
          ((consumed_skipSpace tail).trans (consumed_elements hws))
      next hcomma =>
        split at h
        next hend =>
          obtain ⟨-, rfl⟩ := Prod.mk.inj (Option.some.inj h)
          exact Consumed.separator hskip hend (by decide)
        next => cases h

theorem consumed_members {fuel : Nat} {cs rest : List Char} {ms : List (String × Json)}
    (h : members fuel cs = some (ms, rest)) : Consumed cs rest := by
  match fuel, cs with
  | 0, _ => cases h
  | _ + 1, [] => cases h
  | fuel + 1, c :: cs =>
    rw [members] at h
    split at h
    next hquote =>
      refine Consumed.cons_of_eq hquote (by decide) ?_
      simp only [Option.bind_eq_bind, Option.bind_eq_some_iff, Prod.exists] at h
      obtain ⟨name, r, hname, h⟩ := h
      refine (consumed_stringBody hname).trans ?_
      split at h
      next => cases h
      next d tail hskip =>
        split at h
        next hcolon =>
          simp only [Option.bind_eq_some_iff, Prod.exists] at h
          obtain ⟨v, r', hv, h⟩ := h
          refine (Consumed.separator hskip hcolon (by decide)).trans
            ((consumed_skipSpace tail).trans ((consumed_value hv).trans ?_))
          split at h
          next => cases h
          next e tail' hskip' =>
            split at h
            next hcomma =>
              simp only [Option.bind_eq_some_iff, Prod.exists] at h
              obtain ⟨ms', r'', hms, he⟩ := h
              obtain ⟨-, rfl⟩ := Prod.mk.inj (Option.some.inj he)
              exact (Consumed.separator hskip' hcomma (by decide)).trans
                ((consumed_skipSpace tail').trans (consumed_members hms))
            next hcomma =>
              split at h
              next hend =>
                obtain ⟨-, rfl⟩ := Prod.mk.inj (Option.some.inj h)
                exact Consumed.separator hskip' hend (by decide)
              next => cases h
        next => cases h
    next => cases h

end

/-- A text that is read has no control character apart from spaces. -/
theorem parse_no_control {text : String} {v : Json} (h : parse text = some v) :
    ∀ c ∈ text.toList, c.toNat < 0x20 → isSpace c = true := by
  unfold parse at h
  split at h
  next v' rest hvalue =>
    split at h
    next hend =>
      have hall : Consumed text.toList [] := (consumed_skipSpace _).trans
        ((consumed_value hvalue).trans (hend ▸ consumed_skipSpace rest))
      obtain ⟨cs, he, hcs⟩ := hall
      rwa [← he, List.append_nil]
    next => cases h
  next => cases h

end Control

end Json
