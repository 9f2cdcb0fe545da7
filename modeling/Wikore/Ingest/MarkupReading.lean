import Mathlib.Logic.Relation
import Wikore.Ingest.PlainTextParser

/-! How `strip_markdown_html` reads a Markdown text.  At each place it takes out a piece of markup or
copies one byte, and what it puts out is the bytes at the places that it copies from. -/

namespace Wikore.Parser

open ContextBuilder (Bytes Error utf8)
open Relation (ReflTransGen)

/-- The tag that the text begins with, in lower case and without its brackets, and what stands after
it. -/
def tagAt : Bytes → Option (Bytes × Bytes)
  | [] => none
  | c :: cs =>
    if c ≠ 60 then none
    else
      match Delimited.cut [62] cs with
      | none => none
      | some (inner, after) =>
        let tag := lowerAscii inner
        if (tag.drop (nameStart tag)).head?.any isalpha then some (tag, after) else none

/-- Whether the content of the tag's element is taken out with it. -/
def opensHidden (tag : Bytes) : Bool :=
  hiddenTag tag (tagName tag) (nameStart tag + (tagName tag).length) && tagName tag ≠ [] &&
    tag.head? ≠ some 47 && !isSelfClosingTag tag && !isVoidHtmlElement (tagName tag)

/-- The text begins with a piece of markup: a tag, or a hidden element up to the `>` after the first
`</` that its name follows. -/
inductive Markup : Bytes → Bytes → Prop
  | tag {s tag after : Bytes} :
    tagAt s = some (tag, after) → opensHidden tag = false → Markup s after
  | element {s tag after next : Bytes} :
    tagAt s = some (tag, after) → opensHidden tag = true →
    afterClose (tagName tag) after = some next → Markup s next

/-- One step of the reading: a piece of markup, or one byte at a place where no tag begins. -/
inductive ReadsTo : Bytes → Bytes → Prop
  | markup {s next : Bytes} : Markup s next → ReadsTo s next
  | copy {c : UInt8} {cs : Bytes} : tagAt (c :: cs) = none → ReadsTo (c :: cs) cs

/-! ### The tag at a place -/

theorem tagAt_cons_iff {c : UInt8} {cs tag after : Bytes} :
    tagAt (c :: cs) = some (tag, after) ↔ c = 60 ∧ ∃ inner, cs = inner ++ 62 :: after ∧
      62 ∉ inner ∧ tag = lowerAscii inner ∧ (tag.drop (nameStart tag)).head?.any isalpha = true := by
  constructor
  · intro h
    rw [tagAt] at h
    split at h
    · cases h
    next hc =>
      split at h
      · cases h
      next inner rest hcut =>
        dsimp only at h
        split at h
        next halpha =>
          cases h
          obtain ⟨hcs, hinner⟩ := Delimited.cut_singleton_iff.mp hcut
          exact ⟨not_not.mp hc, inner, hcs, hinner, rfl, halpha⟩
        · cases h
  · rintro ⟨rfl, inner, rfl, hinner, rfl, halpha⟩
    rw [tagAt, if_neg (not_not.mpr rfl), Delimited.cut_singleton_iff.mpr ⟨rfl, hinner⟩]
    dsimp only
    rw [if_pos halpha]

/-- What begins with a tag has a `>` after the first byte. -/
theorem mem_of_tagAt {s tag after : Bytes} (h : tagAt s = some (tag, after)) :
    ∃ cs, s = 60 :: cs ∧ 62 ∈ cs := by
  cases s with
  | nil => cases h
  | cons c cs =>
    obtain ⟨rfl, inner, rfl, -⟩ := tagAt_cons_iff.mp h
    exact ⟨_, rfl, List.mem_append_right inner List.mem_cons_self⟩

theorem suffix_of_tagAt {s tag after : Bytes} (h : tagAt s = some (tag, after)) :
    after <:+ s ∧ after.length < s.length := by
  cases s with
  | nil => cases h
  | cons c cs =>
    obtain ⟨rfl, inner, rfl, -⟩ := tagAt_cons_iff.mp h
    refine ⟨⟨60 :: (inner ++ [62]), by simp⟩, ?_⟩
    simp only [List.length_cons, List.length_append]
    omega

theorem suffix_of_afterClose {name after next : Bytes} (h : afterClose name after = some next) :
    next <:+ after := by
  unfold afterClose at h
  split at h
  · cases h
  · obtain ⟨⟨body, rest⟩, hcut, rfl⟩ := Option.map_eq_some_iff.mp h
    have hrest := Delimited.append_of_cut hcut
    have hnext : rest <:+ body ++ ([62] ++ rest) := ⟨body ++ [62], List.append_assoc body [62] rest⟩
    rw [← hrest] at hnext
    exact hnext.trans (List.drop_suffix _ after)

theorem Markup.suffix {s next : Bytes} (h : Markup s next) :
    next <:+ s ∧ next.length < s.length := by
  cases h with
  | tag htag => exact suffix_of_tagAt htag
  | element htag _ hclose =>
    obtain ⟨hsuffix, hlt⟩ := suffix_of_tagAt htag
    have hnext := suffix_of_afterClose hclose
    exact ⟨hnext.trans hsuffix, Nat.lt_of_le_of_lt hnext.length_le hlt⟩

theorem Markup.tagAt_ne_none {s next : Bytes} (h : Markup s next) : tagAt s ≠ none := by
  cases h with
  | tag htag => simp [htag]
  | element htag => simp [htag]

/-- One piece at most begins at a place. -/
theorem Markup.unique {s next next' : Bytes} (h : Markup s next) (h' : Markup s next') :
    next = next' := by
  cases h with
  | tag htag hplain =>
    cases h' with
    | tag htag' =>
      cases htag.symm.trans htag'
      rfl
    | element htag' hopens =>
      cases htag.symm.trans htag'
      rw [hplain] at hopens
      cases hopens
  | element htag hopens hclose =>
    cases h' with
    | tag htag' hplain =>
      cases htag.symm.trans htag'
      rw [hplain] at hopens
      cases hopens
    | element htag' _ hclose' =>
      cases htag.symm.trans htag'
      exact Option.some.inj (hclose.symm.trans hclose')

theorem ReadsTo.suffix {s next : Bytes} (h : ReadsTo s next) :
    next <:+ s ∧ next.length < s.length := by
  cases h with
  | markup h => exact h.suffix
  | copy => exact ⟨List.suffix_cons _ _, Nat.lt_succ_self _⟩

theorem ReadsTo.unique {s next next' : Bytes} (h : ReadsTo s next) (h' : ReadsTo s next') :
    next = next' := by
  cases h with
  | markup h =>
    cases h' with
    | markup h' => exact h.unique h'
    | copy hnone => exact absurd hnone h.tagAt_ne_none
  | copy hnone =>
    cases h' with
    | markup h' => exact absurd hnone h'.tagAt_ne_none
    | copy => rfl

/-! ### What one pass of the loop does -/

/-- A pass copies the rest of a text that no `>` follows, copies a byte, or takes out markup. -/
theorem stripMarkup_eq (c : UInt8) (cs : Bytes) :
    stripMarkup c cs =
      match tagAt (c :: cs) with
      | none => .ok (if c = 60 ∧ 62 ∉ cs then (c :: cs, []) else ([c], cs))
      | some (tag, after) =>
        if opensHidden tag then
          match afterClose (tagName tag) after with
          | none => .error (.invalidInput "ingest.unclosed_hidden_tag")
          | some next => .ok ([], next)
        else .ok ([], after) := by
  unfold stripMarkup tagAt
  dsimp only
  by_cases hc : c = 60
  · rw [if_neg (not_not.mpr hc), if_neg (not_not.mpr hc)]
    cases hcut : Delimited.cut [62] cs with
    | none =>
      have hnone := Delimited.cut_singleton_eq_none.mp hcut
      simp [hc, hnone]
    | some p =>
      obtain ⟨inner, after⟩ := p
      have hmem : 62 ∈ cs := by
        rw [(Delimited.cut_singleton_iff.mp hcut).1]
        exact List.mem_append_right inner List.mem_cons_self
      dsimp only
      by_cases halpha : ((lowerAscii inner).drop (nameStart (lowerAscii inner))).head?.any isalpha
      · rw [if_neg (not_not.mpr halpha), if_pos halpha]
        dsimp only
        generalize lowerAscii inner = tag
        by_cases hopens : opensHidden tag = true
        · rw [if_pos hopens]
          simp only [opensHidden, Bool.and_eq_true, decide_eq_true_eq, Bool.not_eq_true'] at hopens
          obtain ⟨⟨⟨⟨hhidden, hname⟩, hslash⟩, hself⟩, hvoid⟩ := hopens
          refine (if_pos ⟨hhidden, hname, hslash⟩).trans ?_
          refine (if_neg (by simp [hself, hvoid])).trans ?_
          cases afterClose (tagName tag) after <;> rfl
        · rw [if_neg hopens]
          split
          next hhidden =>
            rw [if_pos]
            by_contra hcontent
            refine hopens ?_
            simp only [not_or, Bool.not_eq_true] at hcontent
            simp [opensHidden, hhidden, hcontent]
          next => rfl
      · rw [if_pos halpha, if_neg halpha]
        simp [hmem]
  · rw [if_pos hc, if_pos hc]
    simp [hc]

theorem stripMarkup_cases {c : UInt8} {cs add next : Bytes}
    (h : stripMarkup c cs = .ok (add, next)) :
    add = [] ∧ Markup (c :: cs) next ∨
      add = [c] ∧ next = cs ∧ tagAt (c :: cs) = none ∨
      add = c :: cs ∧ next = [] ∧ c = 60 ∧ 62 ∉ cs := by
  rw [stripMarkup_eq] at h
  split at h
  next hnone =>
    split at h
    next hrest =>
      cases h
      exact .inr (.inr ⟨rfl, rfl, hrest⟩)
    next =>
      cases h
      exact .inr (.inl ⟨rfl, rfl, hnone⟩)
  next tag after htag =>
    split at h
    next hopens =>
      split at h
      · cases h
      next hclose =>
        cases h
        exact .inl ⟨rfl, .element htag hopens hclose⟩
    next hplain =>
      cases h
      exact .inl ⟨rfl, .tag htag (Bool.not_eq_true _ ▸ hplain)⟩

theorem stripMarkup_of_markup {c : UInt8} {cs next : Bytes} (h : Markup (c :: cs) next) :
    stripMarkup c cs = .ok ([], next) := by
  rw [stripMarkup_eq]
  cases h with
  | tag htag hplain => simp [htag, hplain]
  | element htag hopens hclose => simp [htag, hopens, hclose]

/-! ### The places of the output -/

/-- The loop of `strip_markdown_html` with the place of each byte that it puts out, given by the text
from there on. -/
def places : Bytes → Except Error (List Bytes)
  | [] => .ok []
  | c :: cs =>
    match _h : stripMarkup c cs with
    | .error e => .error e
    | .ok (add, next) => do
      let ps ← places next
      return (c :: cs).tails.take add.length ++ ps
termination_by s => s.length
decreasing_by exact length_stripMarkup _h

theorem places_nil : places [] = .ok [] := by rw [places]

theorem places_of_pass {c : UInt8} {cs add next : Bytes} {ps : List Bytes}
    (h : stripMarkup c cs = .ok (add, next)) (hnext : places next = .ok ps) :
    places (c :: cs) = .ok ((c :: cs).tails.take add.length ++ ps) := by
  rw [places, h]
  dsimp only
  rw [hnext]
  rfl

theorem heads_of_tails (a b : Bytes) :
    ((a ++ b).tails.take a.length).filterMap List.head? = a := by
  induction a with
  | nil => rfl
  | cons x a ih =>
    rw [List.cons_append, List.tails, List.length_cons, List.take_succ_cons,
      List.filterMap_cons_some (f := List.head?) (b := x) rfl, ih]

theorem mem_take_tails {s u : Bytes} : u ∈ s.tails.take s.length ↔ u <:+ s ∧ u ≠ [] := by
  induction s with
  | nil => simp
  | cons c cs ih =>
    rw [List.tails, List.length_cons, List.take_succ_cons, List.mem_cons, ih, List.suffix_cons_iff]
    constructor
    · rintro (rfl | ⟨hu, hne⟩)
      · exact ⟨.inl rfl, List.cons_ne_nil c cs⟩
      · exact ⟨.inr hu, hne⟩
    · rintro ⟨rfl | hu, hne⟩
      · exact .inl rfl
      · exact .inr ⟨hu, hne⟩

/-- The output is the bytes at the places. -/
theorem stripMarkdownHtml_eq (output s : Bytes) :
    stripMarkdownHtml output s =
      (places s).map fun ps => output ++ ps.filterMap List.head? := by
  induction output, s using stripMarkdownHtml.induct with
  | case1 output =>
    rw [stripMarkdownHtml, places]
    simp [Except.map]
  | case2 output c cs e herror =>
    rw [stripMarkdownHtml, places, herror]
    rfl
  | case3 output c cs add next hok ih =>
    rw [stripMarkdownHtml, places, hok]
    dsimp only
    rw [ih]
    have hheads : ((c :: cs).tails.take add.length).filterMap List.head? = add := by
      rcases stripMarkup_ok hok with ⟨-, he⟩ | ⟨rfl, -⟩
      · rw [← he]
        exact heads_of_tails add next
      · rfl
    cases places next with
    | error e => rfl
    | ok ps =>
      refine congrArg Except.ok ?_
      dsimp only
      rw [List.filterMap_append, hheads, List.append_assoc]

theorem suffix_of_reads {s t : Bytes} (h : ReflTransGen ReadsTo s t) : t <:+ s := by
  induction h with
  | refl => exact List.suffix_refl s
  | tail _ hstep ih => exact hstep.suffix.1.trans ih

/-- The reading comes to a place at once or after its first step. -/
theorem readsTo_iff {s next u : Bytes} (h : ReadsTo s next) :
    ReflTransGen ReadsTo s u ↔ u = s ∨ ReflTransGen ReadsTo next u := by
  constructor
  · intro hreads
    rcases ReflTransGen.cases_head hreads with rfl | ⟨t, hstep, hrest⟩
    · exact .inl rfl
    · rw [h.unique hstep]
      exact .inr hrest
  · rintro (rfl | hrest)
    · exact .refl
    · exact .head h hrest

/-- Where no `>` follows, every byte is copied. -/
theorem reads_of_unclosed {c : UInt8} {cs u : Bytes} (h : 62 ∉ cs) (hu : u <:+ c :: cs) :
    ReflTransGen ReadsTo (c :: cs) u ∧ tagAt u = none := by
  have hnone : ∀ {v : Bytes}, v <:+ c :: cs → tagAt v = none := by
    intro v hv
    cases htag : tagAt v with
    | none => rfl
    | some p =>
      obtain ⟨ds, rfl, hmem⟩ := mem_of_tagAt htag
      rcases List.suffix_cons_iff.mp hv with heq | hv
      · cases heq
        exact absurd hmem h
      · exact absurd (hv.subset (List.mem_cons_of_mem _ hmem)) h
  refine ⟨?_, hnone hu⟩
  induction cs generalizing c with
  | nil =>
    rcases List.suffix_cons_iff.mp hu with rfl | hu
    · exact .refl
    · obtain rfl := List.suffix_nil.mp hu
      exact .single (.copy (hnone (List.suffix_refl _)))
  | cons d ds ih =>
    rcases List.suffix_cons_iff.mp hu with rfl | hu
    · exact .refl
    · refine .head (.copy (hnone (List.suffix_refl _))) (ih ?_ hu ?_)
      · exact fun hmem => h (List.mem_cons_of_mem d hmem)
      · exact fun hv => hnone (hv.trans (List.suffix_cons c _))

/-- The places are those that the reading comes to and where no tag begins. -/
theorem mem_places {s u : Bytes} {ps : List Bytes} (h : places s = .ok ps) :
    u ∈ ps ↔ ReflTransGen ReadsTo s u ∧ tagAt u = none ∧ u ≠ [] := by
  induction s using places.induct generalizing ps with
  | case1 =>
    rw [places] at h
    cases h
    refine iff_of_false (List.not_mem_nil) ?_
    rintro ⟨hreads, -, hne⟩
    exact hne (List.suffix_nil.mp (suffix_of_reads hreads))
  | case2 c cs e herror =>
    rw [places, herror] at h
    cases h
  | case3 c cs add next hok ih =>
    rw [places, hok] at h
    obtain ⟨rest, hrest, h⟩ := Fallible.bind_ok.mp h
    cases h
    rw [List.mem_append, ih hrest]
    rcases stripMarkup_cases hok with ⟨rfl, hmarkup⟩ | ⟨rfl, rfl, hnone⟩ | ⟨rfl, rfl, -, hclose⟩
    · rw [readsTo_iff (.markup hmarkup)]
      constructor
      · rintro (hu | ⟨hreads, hu⟩)
        · cases hu
        · exact ⟨.inr hreads, hu⟩
      · rintro ⟨rfl | hreads, hu⟩
        · exact absurd hu.1 hmarkup.tagAt_ne_none
        · exact .inr ⟨hreads, hu⟩
    · rw [readsTo_iff (.copy hnone)]
      constructor
      · rintro (hu | ⟨hreads, hu⟩)
        · obtain rfl : u = c :: next := by simpa [List.tails] using hu
          exact ⟨.inl rfl, hnone, List.cons_ne_nil _ _⟩
        · exact ⟨.inr hreads, hu⟩
      · rintro ⟨rfl | hreads, hu⟩
        · exact .inl (by simp [List.tails])
        · exact .inr ⟨hreads, hu⟩
    · rw [mem_take_tails]
      constructor
      · rintro (⟨hu, hne⟩ | ⟨hreads, -, hne⟩)
        · obtain ⟨hreads, hnone⟩ := reads_of_unclosed hclose hu
          exact ⟨hreads, hnone, hne⟩
        · exact absurd (List.suffix_nil.mp (suffix_of_reads hreads)) hne
      · rintro ⟨hreads, -, hne⟩
        exact .inl ⟨suffix_of_reads hreads, hne⟩

end Wikore.Parser
