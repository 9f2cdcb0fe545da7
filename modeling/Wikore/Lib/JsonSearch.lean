import Wikore.Lib.Json
import Mathlib.Data.List.Infix

/-! Searching the text of a JSON value for a word in quotation marks.  It is found where a string of
the value is the word, or ends with a quotation mark and the word: in the text of such a string the
mark stands after a backslash, and the end of the string closes the word. -/

namespace Json

/-- Strings are escaped with backslashes, the quotation mark by one before it. -/
structure Escaping (esc : Char → List Char) : Prop where
  quote : esc '"' = ['\\', '"']
  others : ∀ c, c ≠ '"' → '"' ∉ esc c ∧ (esc c = [c] ∧ c ≠ '\\' ∨ (esc c).head? = some '\\')

/-- A word that is written as it is and does not begin like what follows a string. -/
structure Plain (esc : Char → List Char) (w : List Char) : Prop where
  same : ∀ c ∈ w, esc c = [c] ∧ c ≠ '"' ∧ c ≠ '\\'
  head : ∃ x tail, w = x :: tail ∧ x ∉ [',', ':', ']', '}']

def inQuotes (w : List Char) : List Char := '"' :: (w ++ ['"'])

/-- The string is the word, or ends with it after a quotation mark. -/
def Spells (w : List Char) (s : String) : Prop := s.toList = w ∨ '"' :: w <:+ s.toList

/-- Nothing follows, or what follows a value. -/
def Separated (rest : List Char) : Prop := ∀ c ∈ rest.head?, c ∈ [',', ':', ']', '}']

/-! ### Numbers -/

def numberMarks : List Char := ['-', '+', '.', 'e', 'E']

def NumberChars (ds : List Char) : Prop := ∀ c ∈ ds, c.isDigit = true ∨ c ∈ numberMarks

theorem NumberChars.nil : NumberChars [] := fun _ hc => absurd hc List.not_mem_nil

theorem NumberChars.append {a b : List Char} (ha : NumberChars a) (hb : NumberChars b) :
    NumberChars (a ++ b) := fun c hc => (List.mem_append.mp hc).elim (ha c) (hb c)

theorem NumberChars.cons {c : Char} {ds : List Char} (hc : c ∈ numberMarks) (h : NumberChars ds) :
    NumberChars (c :: ds) := by
  intro d hd
  rcases List.mem_cons.mp hd with rfl | hd
  · exact .inr hc
  · exact h d hd

theorem numberChars_digits {cs ds rest : List Char} (h : digits cs = some (ds, rest)) :
    NumberChars ds := by
  unfold digits at h
  split at h
  · cases h
  next d tail htake =>
    obtain ⟨rfl, -⟩ := Prod.mk.inj (Option.some.inj h)
    rw [← htake]
    exact fun c hc => .inl (List.mem_takeWhile_imp hc)

theorem numberChars_sign {marks cs : List Char} (hmarks : ∀ c ∈ marks, c ∈ numberMarks) :
    NumberChars (sign marks cs).1 := by
  cases cs with
  | nil => exact .nil
  | cons c cs =>
    simp only [sign]
    split
    next hc => exact .cons (hmarks c hc) .nil
    next => exact .nil

theorem numberChars_numberText {cs ds rest : List Char} (h : numberText cs = some (ds, rest)) :
    NumberChars ds := by
  simp only [numberText, Option.bind_eq_bind, Option.bind_eq_some_iff, Prod.exists] at h
  obtain ⟨whole, r₁, hwhole, frac, r₂, hfrac, exp, r₃, hexp, he⟩ := h
  obtain ⟨rfl, -⟩ := Prod.mk.inj (Option.some.inj he)
  have hsign : NumberChars (sign ['-'] cs).1 := numberChars_sign (by simp [numberMarks])
  have hint : NumberChars whole := by
    unfold integer at hwhole
    split at hwhole
    next c tail =>
      split at hwhole
      next =>
        obtain ⟨rfl, -⟩ := Prod.mk.inj (Option.some.inj hwhole)
        exact fun c hc => .inl (by rw [List.mem_singleton.mp hc]; rfl)
      next => exact numberChars_digits hwhole
    next => cases hwhole
  have hpoint : NumberChars frac := by
    unfold fraction at hfrac
    split at hfrac
    next c tail =>
      split at hfrac
      next hc =>
        obtain ⟨⟨ds, r⟩, hd, he⟩ := Option.map_eq_some_iff.mp hfrac
        obtain ⟨rfl, -⟩ := Prod.mk.inj he
        exact .cons (by rw [hc]; decide) (numberChars_digits hd)
      next =>
        obtain ⟨rfl, -⟩ := Prod.mk.inj (Option.some.inj hfrac)
        exact .nil
    next =>
      obtain ⟨rfl, -⟩ := Prod.mk.inj (Option.some.inj hfrac)
      exact .nil
  have hpower : NumberChars exp := by
    unfold exponent at hexp
    split at hexp
    next c tail =>
      split at hexp
      next hc =>
        obtain ⟨⟨ds, r⟩, hd, he⟩ := Option.map_eq_some_iff.mp hexp
        obtain ⟨rfl, -⟩ := Prod.mk.inj he
        have hmark : c ∈ numberMarks := by
          rcases hc with rfl | rfl <;> decide
        exact (NumberChars.cons hmark (numberChars_sign (by simp [numberMarks]))).append (numberChars_digits hd)
      next =>
        obtain ⟨rfl, -⟩ := Prod.mk.inj (Option.some.inj hexp)
        exact .nil
    next =>
      obtain ⟨rfl, -⟩ := Prod.mk.inj (Option.some.inj hexp)
      exact .nil
  exact ((hsign.append hint).append hpoint).append hpower

theorem IsNumber.not_mem_quote {text : String} (h : IsNumber text) : '"' ∉ text.toList := by
  intro hmem
  have hchars := numberChars_numberText h '"' hmem
  revert hchars
  decide

/-! ### Strings and numbers of a member -/

theorem mem_elementStrings {s : String} {vs : List Json} (h : .string s ∈ vs) :
    s ∈ elementStrings vs := by
  induction vs with
  | nil => cases h
  | cons v vs ih =>
    rcases List.mem_cons.mp h with rfl | h
    · exact List.mem_append_left _ List.mem_cons_self
    · exact List.mem_append_right _ (ih h)

theorem strings_subset_of_lookup {name : String} {v : Json} {ms : List (String × Json)}
    (h : ms.lookup name = some v) : v.strings ⊆ memberStrings ms := by
  induction ms with
  | nil => cases h
  | cons m ms ih =>
    rw [List.lookup_cons] at h
    split at h
    · obtain rfl := Option.some.inj h
      exact fun s hs => List.mem_cons_of_mem _ (List.mem_append_left _ hs)
    · exact fun s hs => List.mem_cons_of_mem _ (List.mem_append_right _ (ih h hs))

theorem numbers_subset_of_lookup {name : String} {v : Json} {ms : List (String × Json)}
    (h : ms.lookup name = some v) : v.numbers ⊆ memberNumbers ms := by
  induction ms with
  | nil => cases h
  | cons m ms ih =>
    rw [List.lookup_cons] at h
    split at h
    · obtain rfl := Option.some.inj h
      exact fun s hs => List.mem_append_left _ hs
    · exact fun s hs => List.mem_append_right _ (ih h hs)

/-! ### One string -/

section Search

variable {esc : Char → List Char} {w rest : List Char}

/-- A text without quotation marks is passed. -/
theorem infix_skip (cs : List Char) {t : List Char} (hcs : '"' ∉ cs) (h : '"' :: t <:+: cs ++ rest) :
    '"' :: t <:+: rest := by
  induction cs with
  | nil => exact h
  | cons c cs ih =>
    rw [List.cons_append, List.infix_cons_iff] at h
    rcases h with hpre | h
    · exact absurd (List.cons_prefix_cons.mp hpre).1 fun he => hcs (he ▸ List.mem_cons_self)
    · exact ih (fun hm => hcs (List.mem_cons_of_mem c hm)) h

/-- Where the rest of an escaped string begins with the word and a mark, it is the word. -/
theorem eq_of_begins (hesc : Escaping esc) (hw : ∀ c ∈ w, esc c = [c] ∧ c ≠ '"' ∧ c ≠ '\\')
    {s : List Char} (h : w ++ ['"'] <+: s.flatMap esc ++ '"' :: rest) : s = w := by
  induction w generalizing s with
  | nil =>
    cases s with
    | nil => rfl
    | cons c s =>
      -- no escaped character begins with a quotation mark
      have hhead : ∀ x ∈ (esc c).head?, x ≠ '"' := by
        intro x hx
        by_cases hc : c = '"'
        · rw [hc, hesc.quote] at hx
          obtain rfl : '\\' = x := by simpa using hx
          decide
        · obtain ⟨hnot, -⟩ := hesc.others c hc
          exact fun he => hnot (he ▸ List.mem_of_head? hx)
      have hne : esc c ≠ [] := by
        by_cases hc : c = '"'
        · rw [hc, hesc.quote]
          exact List.cons_ne_nil _ _
        · rcases (hesc.others c hc).2 with ⟨hself, -⟩ | hback
          · rw [hself]
            exact List.cons_ne_nil _ _
          · intro hnil
            rw [hnil] at hback
            cases hback
      obtain ⟨x, tail, hx⟩ := List.exists_cons_of_ne_nil hne
      rw [List.flatMap_cons, hx] at h
      have heq := (List.cons_prefix_cons.mp h).1
      exact absurd heq.symm (hhead x (by rw [hx]; rfl))
  | cons x w ih =>
    obtain ⟨-, hquote, hback⟩ := hw x List.mem_cons_self
    cases s with
    | nil => exact absurd (List.cons_prefix_cons.mp h).1 hquote
    | cons c s =>
      rw [List.flatMap_cons, List.append_assoc] at h
      have hself : esc c = [c] := by
        by_cases hc : c = '"'
        · rw [hc, hesc.quote] at h
          exact absurd (List.cons_prefix_cons.mp h).1 hback
        · rcases (hesc.others c hc).2 with ⟨hself, -⟩ | hslash
          · exact hself
          · obtain ⟨tail, htail⟩ := List.head?_eq_some_iff.mp hslash
            rw [htail] at h
            exact absurd (List.cons_prefix_cons.mp h).1 hback
      rw [hself] at h
      obtain ⟨heq, hnext⟩ := List.cons_prefix_cons.mp h
      rw [heq, ih (fun d hd => hw d (List.mem_cons_of_mem x hd)) hnext]

/-- In the rest of an escaped string the word is found after an escaped mark only. -/
theorem infix_body (hesc : Escaping esc) (hw : Plain esc w) (hrest : Separated rest)
    {s : List Char} (h : inQuotes w <:+: s.flatMap esc ++ '"' :: rest) :
    '"' :: w <:+ s ∨ inQuotes w <:+: rest := by
  induction s with
  | nil =>
    rw [List.flatMap_nil, List.nil_append, List.infix_cons_iff] at h
    rcases h with hpre | h
    · -- the closing mark opens no word
      obtain ⟨x, tail, rfl, hx⟩ := hw.head
      obtain ⟨t, ht⟩ := (List.cons_prefix_cons.mp hpre).2
      exact absurd (hrest x (by rw [← ht]; rfl)) hx
    · exact .inr h
  | cons c s ih =>
    rw [List.flatMap_cons, List.append_assoc] at h
    have hnext : inQuotes w <:+: s.flatMap esc ++ '"' :: rest →
        '"' :: w <:+ c :: s ∨ inQuotes w <:+: rest := fun hin =>
      (ih hin).imp_left fun hsuf => hsuf.trans (List.suffix_cons c s)
    by_cases hc : c = '"'
    · rw [hc, hesc.quote] at h
      have hmark : inQuotes w <:+: '"' :: (s.flatMap esc ++ '"' :: rest) := by
        rw [List.cons_append, List.infix_cons_iff] at h
        exact h.resolve_left fun hpre => absurd (List.cons_prefix_cons.mp hpre).1 (by decide)
      rcases List.infix_cons_iff.mp hmark with hpre | hin
      · left
        rw [hc, eq_of_begins hesc hw.same (List.cons_prefix_cons.mp hpre).2]
      · exact hnext hin
    · exact hnext (infix_skip _ (hesc.others c hc).1 h)

theorem infix_quoted (hesc : Escaping esc) (hw : Plain esc w) (hrest : Separated rest) {s : String}
    (h : inQuotes w <:+: quoted esc s ++ rest) : Spells w s ∨ inQuotes w <:+: rest := by
  have hinput : quoted esc s ++ rest = '"' :: (s.toList.flatMap esc ++ '"' :: rest) := by
    simp [quoted]
  rw [hinput, List.infix_cons_iff] at h
  rcases h with hpre | h
  · exact .inl (.inl (eq_of_begins hesc hw.same (List.cons_prefix_cons.mp hpre).2))
  · exact (infix_body hesc hw hrest h).imp_left .inr

theorem quoted_of_spells (hesc : Escaping esc) (hw : Plain esc w) {s : String} (h : Spells w s) :
    inQuotes w <:+: quoted esc s := by
  have hsame : w.flatMap esc = w := by
    have hcongr := List.flatMap_congr fun c hc => (hw.same c hc).1
    rw [hcongr]
    exact List.flatMap_singleton' w
  rcases h with h | ⟨p, h⟩
  · rw [quoted, h, hsame]
    exact List.infix_refl _
  · rw [quoted, ← h, List.flatMap_append, List.flatMap_cons, hesc.quote, hsame]
    exact ⟨'"' :: (p.flatMap esc ++ ['\\']), [], by simp [inQuotes]⟩

/-! ### Values -/

theorem separated_cons {c : Char} (h : c ∈ [',', ':', ']', '}']) (rest : List Char) :
    Separated (c :: rest) := by
  intro d hd
  obtain rfl : c = d := by simpa using hd
  exact h

theorem infix_skip_one {c : Char} (hc : c ≠ '"') (h : inQuotes w <:+: c :: rest) :
    inQuotes w <:+: rest :=
  infix_skip [c] (by simpa using hc.symm) h

/-- Some string among these is the word, or ends with it after a quotation mark. -/
def AnySpells (w : List Char) (strings : List String) : Prop := ∃ s ∈ strings, Spells w s

theorem AnySpells.mono {l l' : List String} (h : AnySpells w l) (hsub : l ⊆ l') :
    AnySpells w l' := by
  obtain ⟨s, hs, hspells⟩ := h
  exact ⟨s, hsub hs, hspells⟩

mutual

/-- A word found from the text of a value on is spelled by a string of it, or found after it. -/
theorem infix_render (hesc : Escaping esc) (hw : Plain esc w) (v : Json)
    (hnum : ∀ n ∈ v.numbers, IsNumber n) {rest : List Char} (hrest : Separated rest)
    (h : inQuotes w <:+: render esc v ++ rest) :
    AnySpells w v.strings ∨ inQuotes w <:+: rest := by
  match v with
  | .null => exact .inr (infix_skip "null".toList (by decide) h)
  | .bool true => exact .inr (infix_skip "true".toList (by decide) h)
  | .bool false => exact .inr (infix_skip "false".toList (by decide) h)
  | .number text =>
    exact .inr (infix_skip _ (hnum text List.mem_cons_self).not_mem_quote h)
  | .string s =>
    exact (infix_quoted hesc hw hrest h).imp_left fun hs => ⟨s, List.mem_cons_self, hs⟩
  | .array vs =>
    exact infix_renderElements hesc hw vs hnum hrest (infix_skip_one (by decide) h)
  | .object ms =>
    exact infix_renderMembers hesc hw ms hnum hrest (infix_skip_one (by decide) h)

theorem infix_renderElements (hesc : Escaping esc) (hw : Plain esc w) (vs : List Json)
    (hnum : ∀ n ∈ elementNumbers vs, IsNumber n) {rest : List Char} (hrest : Separated rest)
    (h : inQuotes w <:+: renderElements esc vs ++ rest) :
    AnySpells w (elementStrings vs) ∨ inQuotes w <:+: rest := by
  match vs with
  | [] => exact .inr (infix_skip_one (by decide) h)
  | [v] =>
    rw [renderElements, List.append_assoc] at h
    have hv : ∀ n ∈ v.numbers, IsNumber n := fun n hn => hnum n (List.mem_append_left _ hn)
    rcases infix_render hesc hw v hv (separated_cons (by decide) rest) h with hs | h
    · exact .inl (hs.mono (List.subset_append_left _ _))
    · exact .inr (infix_skip_one (by decide) h)
  | v :: u :: vs =>
    rw [renderElements, List.append_assoc] at h
    have hv : ∀ n ∈ v.numbers, IsNumber n := fun n hn => hnum n (List.mem_append_left _ hn)
    rcases infix_render hesc hw v hv (separated_cons (by decide) _) h with hs | h
    · exact .inl (hs.mono (List.subset_append_left _ _))
    · have hvs : ∀ n ∈ elementNumbers (u :: vs), IsNumber n := fun n hn =>
        hnum n (List.mem_append_right _ hn)
      have hnext := infix_renderElements hesc hw (u :: vs) hvs hrest (infix_skip_one (by decide) h)
      exact hnext.imp_left fun hs => hs.mono (List.subset_append_right _ _)

theorem infix_renderMembers (hesc : Escaping esc) (hw : Plain esc w) (ms : List (String × Json))
    (hnum : ∀ n ∈ memberNumbers ms, IsNumber n) {rest : List Char} (hrest : Separated rest)
    (h : inQuotes w <:+: renderMembers esc ms ++ rest) :
    AnySpells w (memberStrings ms) ∨ inQuotes w <:+: rest := by
  match ms with
  | [] => exact .inr (infix_skip_one (by decide) h)
  | [(name, v)] =>
    rw [renderMembers, List.append_assoc, List.cons_append, List.append_assoc] at h
    rcases infix_quoted hesc hw (separated_cons (by decide) _) h with hs | h
    · exact .inl ⟨name, List.mem_cons_self, hs⟩
    have hv : ∀ n ∈ v.numbers, IsNumber n := fun n hn => hnum n (List.mem_append_left _ hn)
    have hafter := infix_skip_one (by decide) h
    rcases infix_render hesc hw v hv (separated_cons (by decide) rest) hafter with hs | h
    · exact .inl (hs.mono fun s hs => List.mem_cons_of_mem _ (List.mem_append_left _ hs))
    · exact .inr (infix_skip_one (by decide) h)
  | (name, v) :: m :: ms =>
    rw [renderMembers, List.append_assoc, List.cons_append, List.append_assoc] at h
    rcases infix_quoted hesc hw (separated_cons (by decide) _) h with hs | h
    · exact .inl ⟨name, List.mem_cons_self, hs⟩
    have hv : ∀ n ∈ v.numbers, IsNumber n := fun n hn => hnum n (List.mem_append_left _ hn)
    have hafter := infix_skip_one (by decide) h
    rcases infix_render hesc hw v hv (separated_cons (by decide) _) hafter with hs | h
    · exact .inl (hs.mono fun s hs => List.mem_cons_of_mem _ (List.mem_append_left _ hs))
    · have hms : ∀ n ∈ memberNumbers (m :: ms), IsNumber n := fun n hn =>
        hnum n (List.mem_append_right _ hn)
      have hnext := infix_renderMembers hesc hw (m :: ms) hms hrest (infix_skip_one (by decide) h)
      exact hnext.imp_left fun hs =>
        hs.mono fun s hs => List.mem_cons_of_mem _ (List.mem_append_right _ hs)

end

mutual

/-- Each string stands in the text of the value, in quotation marks and escaped. -/
theorem quoted_infix_render (v : Json) {s : String} (hs : s ∈ v.strings) :
    quoted esc s <:+: render esc v := by
  match v with
  | .null => cases hs
  | .bool _ => cases hs
  | .number _ => cases hs
  | .string t =>
    obtain rfl := List.mem_singleton.mp hs
    exact List.infix_refl _
  | .array vs => exact (quoted_infix_elements vs hs).trans (List.suffix_cons _ _).isInfix
  | .object ms => exact (quoted_infix_members ms hs).trans (List.suffix_cons _ _).isInfix

theorem quoted_infix_elements (vs : List Json) {s : String} (hs : s ∈ elementStrings vs) :
    quoted esc s <:+: renderElements esc vs := by
  match vs with
  | [] => cases hs
  | [v] =>
    rw [elementStrings, elementStrings, List.append_nil] at hs
    exact (quoted_infix_render v hs).trans (List.prefix_append _ _).isInfix
  | v :: u :: vs =>
    rw [renderElements]
    rcases List.mem_append.mp hs with hs | hs
    · exact (quoted_infix_render v hs).trans (List.prefix_append _ _).isInfix
    · have htail := (quoted_infix_elements (u :: vs) hs).trans (List.suffix_cons ',' _).isInfix
      exact htail.trans (List.suffix_append _ _).isInfix

theorem quoted_infix_members (ms : List (String × Json)) {s : String} (hs : s ∈ memberStrings ms) :
    quoted esc s <:+: renderMembers esc ms := by
  match ms with
  | [] => cases hs
  | [(name, v)] =>
    rw [renderMembers]
    rcases List.mem_cons.mp hs with rfl | hs
    · exact (List.prefix_append _ _).isInfix
    · have hv : s ∈ v.strings := (List.mem_append.mp hs).resolve_right nofun
      have hvalue := (quoted_infix_render v hv).trans (List.prefix_append _ ['}']).isInfix
      exact (hvalue.trans (List.suffix_cons ':' _).isInfix).trans (List.suffix_append _ _).isInfix
  | (name, v) :: m :: ms =>
    rw [renderMembers]
    rcases List.mem_cons.mp hs with rfl | hs
    · exact (List.prefix_append _ _).isInfix
    · have hafter : quoted esc s <:+: render esc v ++ ',' :: renderMembers esc (m :: ms) := by
        rcases List.mem_append.mp hs with hs | hs
        · exact (quoted_infix_render v hs).trans (List.prefix_append _ _).isInfix
        · have htail := (quoted_infix_members (m :: ms) hs).trans (List.suffix_cons ',' _).isInfix
          exact htail.trans (List.suffix_append _ _).isInfix
      exact (hafter.trans (List.suffix_cons ':' _).isInfix).trans (List.suffix_append _ _).isInfix

end

/-- The word is found in quotation marks exactly where some string of the value spells it. -/
theorem infix_render_iff (hesc : Escaping esc) (hw : Plain esc w) {v : Json}
    (hnum : ∀ n ∈ v.numbers, IsNumber n) :
    inQuotes w <:+: render esc v ↔ AnySpells w v.strings := by
  constructor
  · intro h
    rw [← List.append_nil (render esc v)] at h
    have hend : Separated [] := fun c hc => absurd hc (Option.not_mem_none c)
    exact (infix_render hesc hw v hnum hend h).resolve_right fun hnil =>
      absurd (List.infix_nil.mp hnil) (List.cons_ne_nil _ _)
  · rintro ⟨s, hs, hspells⟩
    exact (quoted_of_spells hesc hw hspells).trans (quoted_infix_render v hs)

end Search

end Json
