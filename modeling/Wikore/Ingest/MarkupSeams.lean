import Wikore.Ingest.MarkupReading

/-! When what `strip_markdown_html` puts out has a tag of its own.  A `<` that opens no tag is copied,
and so is what follows the markup behind it, so that the two may make a tag that was in no text. -/

namespace Wikore.Parser

open ContextBuilder (Bytes Error utf8)
open Relation (ReflTransGen)

/-- The reading of a text puts the other one out. -/
inductive PutsOut : Bytes → Bytes → Prop
  | nil : PutsOut [] []
  | markup {s next output : Bytes} : Markup s next → PutsOut next output → PutsOut s output
  | copy {c : UInt8} {cs output : Bytes} :
    tagAt (c :: cs) = none → PutsOut cs output → PutsOut (c :: cs) (c :: output)

theorem putsOut_of_forall {s : Bytes} (h : ∀ t, t <:+ s → tagAt t = none) : PutsOut s s := by
  induction s with
  | nil => exact .nil
  | cons c cs ih =>
    exact .copy (h _ (List.suffix_refl _)) (ih fun t ht => h t (ht.trans (List.suffix_cons c cs)))

/-- What is put out is no longer than the text, and as long only when no tag is in the text. -/
theorem PutsOut.length {s output : Bytes} (h : PutsOut s output) :
    output.length ≤ s.length ∧ (output.length = s.length → ∀ t, t <:+ s → tagAt t = none) := by
  induction h with
  | nil =>
    refine ⟨Nat.le_refl _, fun _ t ht => ?_⟩
    obtain rfl := List.suffix_nil.mp ht
    rfl
  | markup hmarkup _ ih =>
    have hlt := hmarkup.suffix.2
    refine ⟨by omega, fun heq => ?_⟩
    omega
  | copy hnone _ ih =>
    simp only [List.length_cons, Nat.add_le_add_iff_right, Nat.add_right_cancel_iff]
    refine ⟨ih.1, fun heq t ht => ?_⟩
    rcases List.suffix_cons_iff.mp ht with rfl | ht
    · exact hnone
    · exact ih.2 heq t ht

/-- A text that is put out as it is has no tag, and the other way round. -/
theorem putsOut_self_iff {s : Bytes} : PutsOut s s ↔ ∀ t, t <:+ s → tagAt t = none :=
  ⟨fun h => h.length.2 rfl, putsOut_of_forall⟩

theorem putsOut_of_unclosed {c : UInt8} {cs : Bytes} (h : 62 ∉ cs) : PutsOut (c :: cs) (c :: cs) :=
  putsOut_of_forall fun _ ht => (reads_of_unclosed h ht).2

theorem PutsOut.unique {s output output' : Bytes} (h : PutsOut s output)
    (h' : PutsOut s output') : output = output' := by
  induction h generalizing output' with
  | nil =>
    cases h' with
    | nil => rfl
    | markup hmarkup => exact absurd rfl hmarkup.tagAt_ne_none
  | markup hmarkup _ ih =>
    cases h' with
    | nil => exact absurd rfl hmarkup.tagAt_ne_none
    | markup hmarkup' hrest =>
      rw [← hmarkup.unique hmarkup'] at hrest
      exact ih hrest
    | copy hnone => exact absurd hnone hmarkup.tagAt_ne_none
  | copy hnone _ ih =>
    cases h' with
    | markup hmarkup => exact absurd hnone hmarkup.tagAt_ne_none
    | copy _ hrest => rw [ih hrest]

/-- The function returns what the reading puts out. -/
theorem stripMarkdownHtml_putsOut {output s r : Bytes} (h : stripMarkdownHtml output s = .ok r) :
    ∃ o, r = output ++ o ∧ PutsOut s o := by
  induction output, s using stripMarkdownHtml.induct with
  | case1 output =>
    rw [stripMarkdownHtml] at h
    cases h
    exact ⟨[], (List.append_nil _).symm, .nil⟩
  | case2 output c cs e herror =>
    rw [stripMarkdownHtml, herror] at h
    cases h
  | case3 output c cs add next hok ih =>
    rw [stripMarkdownHtml, hok] at h
    obtain ⟨o, rfl, hrest⟩ := ih h
    rcases stripMarkup_cases hok with ⟨rfl, hmarkup⟩ | ⟨rfl, rfl, hnone⟩ | ⟨rfl, rfl, -, hclose⟩
    · exact ⟨o, by rw [List.append_nil], .markup hmarkup hrest⟩
    · exact ⟨c :: o, by simp, .copy hnone hrest⟩
    · obtain rfl := hrest.unique .nil
      exact ⟨c :: cs, List.append_nil _, putsOut_of_unclosed hclose⟩

theorem stripMarkdownHtml_of_putsOut {s o : Bytes} (output : Bytes) (h : PutsOut s o) :
    stripMarkdownHtml output s = .ok (output ++ o) := by
  induction h generalizing output with
  | nil => rw [stripMarkdownHtml, List.append_nil]
  | @markup s next o hmarkup _ ih =>
    cases s with
    | nil => exact absurd rfl hmarkup.tagAt_ne_none
    | cons c cs =>
      rw [stripMarkdownHtml, stripMarkup_of_markup hmarkup]
      dsimp only
      rw [ih, List.append_nil]
  | @copy c cs o hnone hrest ih =>
    have hpass := stripMarkup_eq c cs
    rw [hnone] at hpass
    dsimp only at hpass
    split at hpass
    next hclose =>
      have hall := putsOut_of_unclosed (c := c) hclose.2
      obtain rfl := (List.cons.inj ((PutsOut.copy hnone hrest).unique hall)).2
      rw [stripMarkdownHtml, hpass]
      dsimp only
      rw [stripMarkdownHtml]
    next =>
      rw [stripMarkdownHtml, hpass]
      dsimp only
      rw [ih, List.append_assoc, List.singleton_append]

theorem stripMarkdownHtml_iff {s output : Bytes} :
    stripMarkdownHtml [] s = .ok output ↔ PutsOut s output := by
  constructor
  · intro h
    obtain ⟨o, rfl, ho⟩ := stripMarkdownHtml_putsOut h
    exact ho
  · exact stripMarkdownHtml_of_putsOut []

/-! ### The places of the bytes that are put out -/

theorem PutsOut.readsTo_of_suffix {s output r : Bytes} {c : UInt8} (h : PutsOut s output)
    (hr : c :: r <:+ output) :
    ∃ cs, ReflTransGen ReadsTo s (c :: cs) ∧ tagAt (c :: cs) = none ∧ PutsOut cs r := by
  induction h with
  | nil => cases List.suffix_nil.mp hr
  | markup hmarkup _ ih =>
    obtain ⟨cs, hreads, hcs⟩ := ih hr
    exact ⟨cs, .head (.markup hmarkup) hreads, hcs⟩
  | @copy d ds o hnone hrest ih =>
    rcases List.suffix_cons_iff.mp hr with heq | hr
    · cases heq
      exact ⟨ds, .refl, hnone, hrest⟩
    · obtain ⟨cs, hreads, hcs⟩ := ih hr
      exact ⟨cs, .head (.copy hnone) hreads, hcs⟩

theorem PutsOut.suffix_of_readsTo {s output cs : Bytes} {c : UInt8} (h : PutsOut s output)
    (hreads : ReflTransGen ReadsTo s (c :: cs)) (hc : tagAt (c :: cs) = none) :
    ∃ r, c :: r <:+ output ∧ PutsOut cs r := by
  induction h with
  | nil => cases List.suffix_nil.mp (suffix_of_reads hreads)
  | markup hmarkup _ ih =>
    rcases (readsTo_iff (.markup hmarkup)).mp hreads with rfl | hreads
    · exact absurd hc hmarkup.tagAt_ne_none
    · exact ih hreads
  | copy hnone hrest ih =>
    rcases (readsTo_iff (.copy hnone)).mp hreads with heq | hreads
    · cases heq
      exact ⟨_, List.suffix_refl _, hrest⟩
    · obtain ⟨r, hr, hcs⟩ := ih hreads
      exact ⟨r, hr.trans (List.suffix_cons _ _), hcs⟩

/-- Before the first byte that is put out stands markup. -/
theorem PutsOut.first {s r : Bytes} {b : UInt8} (h : PutsOut s (b :: r)) :
    ∃ v, ReflTransGen Markup s (b :: v) ∧ PutsOut (b :: v) (b :: r) ∧ PutsOut v r := by
  generalize hout : b :: r = output at h
  induction h with
  | nil => cases hout
  | markup hmarkup _ ih =>
    obtain ⟨v, hv, hrest⟩ := ih hout
    exact ⟨v, .head hmarkup hv, hrest⟩
  | copy hnone hrest =>
    cases hout
    exact ⟨_, .refl, .copy hnone hrest, hrest⟩

theorem PutsOut.after_markup {s t output : Bytes} (h : PutsOut s output)
    (hmarkup : ReflTransGen Markup s t) : PutsOut t output := by
  induction hmarkup with
  | refl => exact h
  | tail _ hstep ih =>
    cases ih with
    | nil => exact absurd rfl hstep.tagAt_ne_none
    | markup hstep' hrest => rwa [hstep.unique hstep']
    | copy hnone => exact absurd hnone hstep.tagAt_ne_none

/-- What begins with another byte than `<` puts this byte out. -/
theorem PutsOut.of_cons {s output : Bytes} {b : UInt8} (h : PutsOut (b :: s) output)
    (hb : b ≠ 60) : ∃ r, output = b :: r ∧ PutsOut s r := by
  cases h with
  | markup hmarkup =>
    have hnone : tagAt (b :: s) = none := by
      rw [tagAt, if_pos hb]
    exact absurd hnone hmarkup.tagAt_ne_none
  | copy _ hrest => exact ⟨_, rfl, hrest⟩

/-- A `>` is put out where the reading comes to one. -/
theorem PutsOut.mem_close_iff {s output : Bytes} (h : PutsOut s output) :
    62 ∈ output ↔ ∃ x, ReflTransGen ReadsTo s (62 :: x) := by
  constructor
  · intro hmem
    obtain ⟨a, r, rfl⟩ := List.append_of_mem hmem
    obtain ⟨x, hreads, -⟩ := h.readsTo_of_suffix (List.suffix_append a (62 :: r))
    exact ⟨x, hreads⟩
  · rintro ⟨x, hreads⟩
    obtain ⟨r, hr, -⟩ := h.suffix_of_readsTo hreads rfl
    exact hr.subset List.mem_cons_self

/-! ### What makes a tag -/

def StartsName (s : Bytes) : Prop := s.head?.any (fun b => isalpha (tolower b)) = true

/-- What stands behind the `<` of a tag: a letter, or a slash and a letter. -/
def SpellsTag (s : Bytes) : Prop := StartsName s ∨ ∃ w, s = 47 :: w ∧ StartsName w

theorem alpha_iff (inner : Bytes) :
    ((lowerAscii inner).drop (nameStart (lowerAscii inner))).head?.any isalpha = true ↔
      SpellsTag inner := by
  cases inner with
  | nil => simp [lowerAscii, SpellsTag, StartsName]
  | cons c cs =>
    have hslash : tolower c = 47 ↔ c = 47 := by
      unfold tolower
      split
      next hupper =>
        refine iff_of_false ?_ ?_
        · intro h
          have hlow := UInt8.le_iff_toNat_le.mp hupper.1
          have hhigh := UInt8.le_iff_toNat_le.mp hupper.2
          have hnat := congrArg UInt8.toNat h
          rw [UInt8.toNat_add] at hnat
          simp only [UInt8.reduceToNat] at hlow hhigh hnat
          omega
        · rintro rfl
          exact absurd hupper.1 (by decide)
      next => rfl
    by_cases hc : c = 47
    · subst hc
      have hstart : nameStart (lowerAscii (47 :: cs)) = 1 := rfl
      have hname : ¬StartsName (47 :: cs) := by
        rw [StartsName]
        exact Bool.false_ne_true
      rw [hstart, SpellsTag, or_iff_right hname]
      cases cs <;> simp [lowerAscii, StartsName]
    · have hstart : nameStart (lowerAscii (c :: cs)) = 0 := by
        rw [nameStart, if_neg]
        simpa [lowerAscii, hslash] using hc
      have hno : ¬∃ w, c :: cs = 47 :: w ∧ StartsName w := by
        rintro ⟨w, heq, -⟩
        exact hc (List.cons.inj heq).1
      rw [hstart, SpellsTag, or_iff_left hno]
      rfl

theorem spellsTag_append (inner after : Bytes) :
    SpellsTag (inner ++ 62 :: after) ↔ SpellsTag inner := by
  cases inner with
  | nil => simp [SpellsTag, StartsName, tolower, isalpha]
  | cons c cs =>
    cases cs with
    | nil => simp [SpellsTag, StartsName, tolower, isalpha]
    | cons d ds => simp [SpellsTag, StartsName]

theorem tagAt_ne_none_iff {r : Bytes} : tagAt (60 :: r) ≠ none ↔ 62 ∈ r ∧ SpellsTag r := by
  constructor
  · intro h
    cases htag : tagAt (60 :: r) with
    | none => exact absurd htag h
    | some p =>
      obtain ⟨tag, after⟩ := p
      obtain ⟨-, inner, rfl, -, rfl, halpha⟩ := tagAt_cons_iff.mp htag
      refine ⟨List.mem_append_right inner List.mem_cons_self, ?_⟩
      rw [spellsTag_append]
      exact (alpha_iff inner).mp halpha
  · rintro ⟨hmem, hspells⟩
    obtain ⟨inner, after, rfl, hinner⟩ := List.eq_append_cons_of_mem hmem
    rw [spellsTag_append] at hspells
    have htag : tagAt (60 :: (inner ++ 62 :: after)) = some (lowerAscii inner, after) :=
      tagAt_cons_iff.mpr ⟨rfl, inner, rfl, hinner, rfl, (alpha_iff inner).mpr hspells⟩
    simp [htag]

/-- Behind the markup that follows a `<`, or a `<` and a slash, the text goes on with a letter. -/
def Joins (cs name : Bytes) : Prop :=
  StartsName name ∧
    (ReflTransGen Markup cs name ∨
      ∃ w, ReflTransGen Markup cs (47 :: w) ∧ ReflTransGen Markup w name)

/-- No `<` that the reading copies is joined to a letter and a later `>` that it copies. -/
def NoSeam (s : Bytes) : Prop :=
  ∀ cs name x, ReflTransGen ReadsTo s (60 :: cs) → tagAt (60 :: cs) = none → Joins cs name →
    ¬ReflTransGen ReadsTo name (62 :: x)

theorem StartsName.cons {s : Bytes} (h : StartsName s) : ∃ b cs, s = b :: cs ∧ b ≠ 60 := by
  cases s with
  | nil => cases h
  | cons b cs =>
    refine ⟨b, cs, rfl, ?_⟩
    rintro rfl
    cases h

/-- What is put out behind a `<` spells a tag when the text joins it to a letter. -/
theorem Joins.spellsTag {cs name r : Bytes} (h : Joins cs name) (hr : PutsOut cs r) :
    SpellsTag r ∧ ∃ r', PutsOut name r' ∧ (62 ∈ r' → 62 ∈ r) := by
  obtain ⟨hname, hmarkup | ⟨w, hslash, hmarkup⟩⟩ := h
  · have hrest := hr.after_markup hmarkup
    obtain ⟨b, v, rfl, hb⟩ := hname.cons
    obtain ⟨r', rfl, -⟩ := hrest.of_cons hb
    exact ⟨.inl hname, _, hrest, id⟩
  · obtain ⟨r₁, rfl, hw⟩ := (hr.after_markup hslash).of_cons (by decide)
    have hrest := hw.after_markup hmarkup
    obtain ⟨b, v, rfl, hb⟩ := hname.cons
    obtain ⟨r', rfl, -⟩ := hrest.of_cons hb
    exact ⟨.inr ⟨_, rfl, hname⟩, _, hrest, List.mem_cons_of_mem 47⟩

/-- What spells a tag behind a `<` has been joined to it. -/
theorem joins_of_spellsTag {cs r : Bytes} (hr : PutsOut cs r) (h : SpellsTag r) (hmem : 62 ∈ r) :
    ∃ name r', Joins cs name ∧ PutsOut name r' ∧ 62 ∈ r' := by
  rcases h with hname | ⟨w, rfl, hname⟩
  · obtain ⟨b, r, rfl, -⟩ := hname.cons
    obtain ⟨v, hmarkup, hrest, -⟩ := hr.first
    exact ⟨b :: v, b :: r, ⟨hname, .inl hmarkup⟩, hrest, hmem⟩
  · obtain ⟨u, hslash, -, hu⟩ := hr.first
    obtain ⟨b, r, rfl, -⟩ := hname.cons
    obtain ⟨v, hmarkup, hrest, -⟩ := hu.first
    refine ⟨b :: v, b :: r, ⟨hname, .inr ⟨u, hslash, hmarkup⟩⟩, hrest, ?_⟩
    rcases List.mem_cons.mp hmem with heq | hmem
    · exact absurd heq (by decide)
    · exact hmem

/-- What is put out is returned as it is by a second run exactly when the text joins no `<` that is
no tag's, over the markup behind it, to a letter and a later `>`. -/
theorem stripMarkdownHtml_fixed_iff {s output : Bytes} (h : stripMarkdownHtml [] s = .ok output) :
    stripMarkdownHtml [] output = .ok output ↔ NoSeam s := by
  have hout := stripMarkdownHtml_iff.mp h
  rw [stripMarkdownHtml_iff, putsOut_self_iff]
  constructor
  · intro hnone cs name x hreads hcs hjoins hclose
    obtain ⟨r, hr, hrest⟩ := hout.suffix_of_readsTo hreads hcs
    obtain ⟨hspells, r', hname, hmem⟩ := hjoins.spellsTag hrest
    exact tagAt_ne_none_iff.mpr ⟨hmem (hname.mem_close_iff.mpr ⟨x, hclose⟩), hspells⟩ (hnone _ hr)
  · intro hseam t ht
    by_contra htag
    obtain ⟨p, hp⟩ := Option.ne_none_iff_exists'.mp htag
    obtain ⟨r, rfl, -⟩ := mem_of_tagAt hp
    obtain ⟨hmem, hspells⟩ := tagAt_ne_none_iff.mp htag
    obtain ⟨cs, hreads, hcs, hrest⟩ := hout.readsTo_of_suffix ht
    obtain ⟨name, r', hjoins, hname, hmem⟩ := joins_of_spellsTag hrest hspells hmem
    obtain ⟨x, hclose⟩ := hname.mem_close_iff.mp hmem
    exact hseam cs name x hreads hcs hjoins hclose

theorem opensHidden_bold : opensHidden (utf8 "b") = false := by
  have hattr : hasBooleanAttribute (utf8 "hidden") (utf8 "b") [] = false := by
    rw [hasBooleanAttribute]
    rfl
  have hhidden : hiddenTag (utf8 "b") (tagName (utf8 "b"))
      (nameStart (utf8 "b") + (tagName (utf8 "b")).length) = false := hattr
  rw [opensHidden, hhidden]
  rfl

theorem boldTag_fixed :
    stripMarkdownHtml [] (utf8 "ac") = .ok (utf8 "ac") ↔ NoSeam (utf8 "a<b>c") := by
  refine stripMarkdownHtml_fixed_iff (stripMarkdownHtml_iff.mpr ?_)
  have htag : tagAt (utf8 "<b>c") = some (utf8 "b", utf8 "c") := rfl
  exact .copy rfl (.markup (.tag htag opensHidden_bold) (.copy rfl .nil))

/-- The tag of a script is made of the two sides of another tag, and a second run refuses it. -/
theorem boldTag_assembles :
    stripMarkdownHtml [] (utf8 "<<b>script>") = .ok (utf8 "<script>") ∧
      stripMarkdownHtml [] (utf8 "<script>") =
        .error (.invalidInput "ingest.unclosed_hidden_tag") := by
  constructor
  · have htag : tagAt (utf8 "<b>script>") = some (utf8 "b", utf8 "script>") := rfl
    rw [stripMarkdownHtml_iff]
    refine .copy rfl (.markup (.tag htag opensHidden_bold) ?_)
    exact .copy rfl (.copy rfl (.copy rfl (.copy rfl (.copy rfl (.copy rfl (.copy rfl .nil))))))
  · have hpass : stripMarkup 60 (utf8 "script>") =
      .error (.invalidInput "ingest.unclosed_hidden_tag") := rfl
    have hinput : utf8 "<script>" = 60 :: utf8 "script>" := rfl
    rw [hinput, stripMarkdownHtml, hpass]

end Wikore.Parser
