import Wikore.Ingest.MarkupReading

/-! The hidden elements of a Markdown text, as HTML has them, and when `strip_markdown_html` puts out
no byte of their contents.  The function ends a tag at the first `>`, looks for a few texts in it, and
ends a hidden element at the first text `</` that the element's name follows.  A tag of HTML ends at a
`>` outside of its quoted values, has attributes, and its element ends at the tag of its whole name
that closes it. -/

namespace Wikore.Parser

open Chunker (isspace)
open ContextBuilder (Bytes Error utf8)
open Relation (ReflTransGen)

/-! ### Tags and elements of HTML -/

/-- What a byte of a tag belongs to. -/
inductive TagState
  | name
  | between
  | attribute
  | afterAttribute
  | beforeValue
  | quoted (mark : UInt8)
  | unquoted
  deriving DecidableEq

def TagState.next : TagState → UInt8 → TagState
  | .name, c => if isspace c ∨ c = 47 then .between else .name
  | .between, c => if isspace c ∨ c = 47 then .between else .attribute
  | .attribute, c =>
    if c = 61 then .beforeValue
    else if c = 47 then .between
    else if isspace c then .afterAttribute
    else .attribute
  | .afterAttribute, c =>
    if c = 61 then .beforeValue
    else if c = 47 then .between
    else if isspace c then .afterAttribute
    else .attribute
  | .beforeValue, c =>
    if isspace c then .beforeValue
    else if c = 34 ∨ c = 39 then .quoted c
    else .unquoted
  | .quoted mark, c => if c = mark then .between else .quoted mark
  | .unquoted, c => if isspace c then .between else .unquoted

def TagState.isQuoted : TagState → Bool
  | .quoted _ => true
  | _ => false

/-- The rest of a tag, and what stands after the `>` that ends it. -/
def cutTag (state : TagState) : Bytes → Option (Bytes × Bytes)
  | [] => none
  | c :: cs =>
    if c = 62 ∧ ¬state.isQuoted then some ([], cs)
    else (cutTag (state.next c) cs).map fun p => (c :: p.1, p.2)

/-- A tag of HTML: its text after `<` or `</`, in lower case, and what stands after it. -/
structure HtmlTag where
  closing : Bool
  text : Bytes
  after : Bytes

def readHtmlTag : Bytes → Option HtmlTag
  | [] => none
  | c :: cs =>
    let closing := cs.head? = some 47
    let rest := if closing then cs.drop 1 else cs
    if c = 60 ∧ rest.head?.any fun b => isalpha (tolower b) then
      (cutTag .name rest).map fun p => ⟨closing, lowerAscii p.1, p.2⟩
    else none

structure Attribute where
  name : Bytes
  value : Bytes

/-- The attributes of the rest of a tag, the last one first, when the ones in `read` come before it. -/
def readAttributes (state : TagState) (read : List Attribute) : Bytes → List Attribute
  | [] => read
  | c :: cs =>
    let read :=
      match state, state.next c, read with
      | .attribute, .attribute, a :: as => { a with name := a.name ++ [c] } :: as
      | _, .attribute, as => ⟨[c], []⟩ :: as
      | .quoted _, .quoted _, a :: as => { a with value := a.value ++ [c] } :: as
      | _, .unquoted, a :: as => { a with value := a.value ++ [c] } :: as
      | _, _, as => as
    readAttributes (state.next c) read cs

/-- The text without the blanks around it. -/
def unpadded (text : Bytes) : Bytes := (text.dropWhile isspace).rdropWhile isspace

/-- The value of a declaration, whether it is marked as important or not. -/
def declaredValue (text : Bytes) : Option Bytes :=
  match Delimited.cut [33] text with
  | none => some (unpadded text)
  | some (value, mark) => if unpadded mark = utf8 "important" then some (unpadded value) else none

/-- The declaration, with any blanks around its parts, gives the property the value. -/
def declares (property value declaration : Bytes) : Bool :=
  match Delimited.cut [58] declaration with
  | none => false
  | some (before, after) => unpadded before = property && declaredValue after = some value

namespace HtmlTag

/-- The whole name. -/
def name (tag : HtmlTag) : Bytes := tag.text.takeWhile fun b => !isspace b && b ≠ 47

/-- The state in which the text ends. -/
def endState (text : Bytes) : TagState := text.foldl TagState.next .name

/-- The tag ends with a slash that belongs to no value. -/
def closesItself (tag : HtmlTag) : Bool :=
  let text := tag.text.rdropWhile isspace
  text.getLast? = some 47 && endState text = .between

def opens (tag : HtmlTag) : Bool :=
  !tag.closing && !tag.closesItself && !isVoidHtmlElement tag.name

def attributes (tag : HtmlTag) : List Attribute := (readAttributes .name [] tag.text).reverse

/-- The declarations of the first style attribute, which is the one that counts. -/
def style (tag : HtmlTag) : List Bytes :=
  match tag.attributes.find? fun a => a.name = utf8 "style" with
  | none => []
  | some a => a.value.splitOn 59

def hidden (tag : HtmlTag) : Bool :=
  tag.name = utf8 "script" || tag.name = utf8 "style" ||
    tag.attributes.any (fun a => a.name = utf8 "hidden") ||
    tag.style.any (fun d => declares (utf8 "display") (utf8 "none") d ||
      declares (utf8 "visibility") (utf8 "hidden") d)

/-- The content of a script or a style has no tags but those of its own name. -/
def isRaw (tag : HtmlTag) : Bool := tag.name = utf8 "script" || tag.name = utf8 "style"

end HtmlTag

/-- The closing tag that matches when `depth` elements of the name are open inside. -/
def closingTag (name : Bytes) : Nat → List (Bytes × HtmlTag) → Option (Bytes × HtmlTag)
  | _, [] => none
  | depth, (place, tag) :: rest =>
    if tag.name ≠ name then closingTag name depth rest
    else if tag.closing then
      match depth with
      | 0 => some (place, tag)
      | depth + 1 => closingTag name depth rest
    else closingTag name (if tag.opens then depth + 1 else depth) rest

/-- The tags that begin anywhere in the text, each with the text from there on. -/
def writtenTags (s : Bytes) : List (Bytes × HtmlTag) :=
  s.tails.filterMap fun place => (readHtmlTag place).map fun tag => (place, tag)

/-- Where the tags of the document go on after a tag: behind the element of a script or a style. -/
def HtmlTag.goesOn (tag : HtmlTag) : Bytes :=
  if tag.opens && tag.isRaw then
    match closingTag tag.name 0 (writtenTags tag.after) with
    | none => tag.after
    | some (_, close) => close.after
  else tag.after

/-- The tags of a document of which `skip` bytes are passed over. -/
def documentTags : Nat → Bytes → List (Bytes × HtmlTag)
  | _, [] => []
  | skip + 1, _ :: cs => documentTags skip cs
  | 0, c :: cs =>
    match readHtmlTag (c :: cs) with
    | none => documentTags 0 cs
    | some tag => (c :: cs, tag) :: documentTags (cs.length - tag.goesOn.length) cs

/-- The text from the content of an element on, and from its closing tag on. -/
structure HiddenElement where
  content : Bytes
  close : Bytes
  deriving DecidableEq

/-- The hidden element that the tag opens, when a closing tag matches it. -/
def HtmlTag.hiddenElement (tag : HtmlTag) : Option HiddenElement :=
  if tag.opens && tag.hidden then
    let inside := if tag.isRaw then writtenTags tag.after else documentTags 0 tag.after
    (closingTag tag.name 0 inside).map fun p => ⟨tag.after, p.1⟩
  else none

def hiddenElements (s : Bytes) : List HiddenElement :=
  (documentTags 0 s).filterMap fun p => p.2.hiddenElement

example : hiddenElements (utf8 "<div/hidden>x</div>") = [⟨utf8 "x</div>", utf8 "</div>"⟩] := by decide

example : hiddenElements (utf8 "<p style='top:1px; Display : none'>x</p>") =
    [⟨utf8 "x</p>", utf8 "</p>"⟩] := by decide

example : hiddenElements (utf8 "<p title='display:none'>x</p>") = [] := by decide

/-- The place lies in the content of the element. -/
def HiddenElement.Contains (e : HiddenElement) (place : Bytes) : Prop :=
  e.close.length < place.length ∧ place.length ≤ e.content.length

/-! ### Where the function comes into the content -/

/-- After a step that leaves what is before the content the reading goes on at `y`. -/
def EntersAt (s content y : Bytes) : Prop :=
  ∃ x, ReflTransGen ReadsTo s x ∧ ReadsTo x y ∧ content.length < x.length ∧ y.length ≤ content.length

/-- From where the reading comes into the content or past it, nothing but markup stands before the
closing tag. -/
def HiddenElement.Covered (s : Bytes) (e : HiddenElement) : Prop :=
  ∀ y, EntersAt s e.content y → ∃ z, ReflTransGen Markup y z ∧ z.length ≤ e.close.length

theorem length_of_cutTag {state : TagState} {s inner after : Bytes}
    (h : cutTag state s = some (inner, after)) : after.length < s.length := by
  induction s generalizing state inner after with
  | nil => cases h
  | cons c cs ih =>
    rw [cutTag] at h
    split at h
    · cases h
      exact Nat.lt_succ_self _
    · obtain ⟨⟨inner, rest⟩, hcut, heq⟩ := Option.map_eq_some_iff.mp h
      cases heq
      exact Nat.lt_succ_of_lt (ih hcut)

theorem length_of_readHtmlTag {s : Bytes} {tag : HtmlTag} (h : readHtmlTag s = some tag) :
    tag.after.length < s.length := by
  cases s with
  | nil => cases h
  | cons c cs =>
    rw [readHtmlTag] at h
    generalize hrest : (if cs.head? = some 47 then cs.drop 1 else cs) = rest at h
    have hle : rest.length ≤ cs.length := by
      rw [← hrest]
      split
      · rw [List.length_drop]
        omega
      · exact Nat.le_refl _
    split at h
    · obtain ⟨⟨inner, after⟩, hcut, rfl⟩ := Option.map_eq_some_iff.mp h
      exact Nat.lt_succ_of_lt (Nat.lt_of_lt_of_le (length_of_cutTag hcut) hle)
    · cases h

theorem mem_documentTags {skip : Nat} {s place : Bytes} {tag : HtmlTag}
    (h : (place, tag) ∈ documentTags skip s) : place <:+ s ∧ readHtmlTag place = some tag := by
  induction s generalizing skip with
  | nil => simp [documentTags] at h
  | cons c cs ih =>
    cases skip with
    | succ skip =>
      obtain ⟨hplace, hread⟩ := ih h
      exact ⟨hplace.trans (List.suffix_cons c cs), hread⟩
    | zero =>
      rw [documentTags] at h
      split at h
      · obtain ⟨hplace, hread⟩ := ih h
        exact ⟨hplace.trans (List.suffix_cons c cs), hread⟩
      next hread =>
        rcases List.mem_cons.mp h with heq | h
        · cases heq
          exact ⟨List.suffix_refl _, hread⟩
        · obtain ⟨hplace, hread⟩ := ih h
          exact ⟨hplace.trans (List.suffix_cons c cs), hread⟩

/-- The content of an element stands behind a tag. -/
theorem length_content {s : Bytes} {e : HiddenElement} (h : e ∈ hiddenElements s) :
    e.content.length < s.length := by
  obtain ⟨⟨place, tag⟩, hmem, helement⟩ := List.mem_filterMap.mp h
  obtain ⟨hplace, hread⟩ := mem_documentTags hmem
  have hlen := Nat.lt_of_lt_of_le (length_of_readHtmlTag hread) hplace.length_le
  dsimp only [HtmlTag.hiddenElement] at helement
  split at helement
  · obtain ⟨p, -, rfl⟩ := Option.map_eq_some_iff.mp helement
    exact hlen
  · cases helement

/-- A reading that comes into the content enters it. -/
theorem entersAt_of_reads {s content u : Bytes} (h : ReflTransGen ReadsTo s u)
    (hs : content.length < s.length) (hu : u.length ≤ content.length) :
    ∃ y, EntersAt s content y ∧ ReflTransGen ReadsTo y u := by
  induction h with
  | refl => exact absurd hs (Nat.not_lt.mpr hu)
  | @tail x u hreads hstep ih =>
    by_cases hx : x.length ≤ content.length
    · obtain ⟨y, hy, hrest⟩ := ih hx
      exact ⟨y, hy, hrest.tail hstep⟩
    · exact ⟨u, ⟨x, hreads, hstep, Nat.lt_of_not_le hx, hu⟩, .refl⟩

/-- A piece of markup that goes up to the content or over its beginning is the step that enters it. -/
theorem entersAt_iff {s place content next y : Bytes} (hreads : ReflTransGen ReadsTo s place)
    (hmarkup : Markup place next) (hplace : content.length < place.length)
    (hnext : next.length ≤ content.length) : EntersAt s content y ↔ y = next := by
  have hstep : ReadsTo place next := .markup hmarkup
  constructor
  · rintro ⟨x, hx, hxy, hlt, hle⟩
    have hunique : Relator.RightUnique ReadsTo := fun _ _ _ h h' => h.unique h'
    rcases ReflTransGen.total_of_right_unique hunique hx hreads with h | h
    · rcases (readsTo_iff hxy).mp h with rfl | h
      · exact hxy.unique hstep
      · have hle' := (suffix_of_reads h).length_le
        omega
    · rcases (readsTo_iff hstep).mp h with rfl | h
      · exact hxy.unique hstep
      · have hle' := (suffix_of_reads h).length_le
        omega
  · rintro rfl
    exact ⟨place, hreads, hstep, hplace, hnext⟩

/-- Where the function reads the opening tag as one of a hidden element, it comes to what stands
behind the first `</` that the name follows. -/
theorem entersAt_hidden {s place tag after next y : Bytes} (hreads : ReflTransGen ReadsTo s place)
    (htag : tagAt place = some (tag, after)) (hopens : opensHidden tag = true)
    (hclose : afterClose (tagName tag) after = some next) : EntersAt s after y ↔ y = next :=
  entersAt_iff hreads (.element htag hopens hclose) (suffix_of_tagAt htag).2
    (suffix_of_afterClose hclose).length_le

/-- Where the function reads the tag as one that hides nothing, it comes to the whole content. -/
theorem entersAt_plain {s place tag after y : Bytes} (hreads : ReflTransGen ReadsTo s place)
    (htag : tagAt place = some (tag, after)) (hplain : opensHidden tag = false) :
    EntersAt s after y ↔ y = after :=
  entersAt_iff hreads (.tag htag hplain) (suffix_of_tagAt htag).2 (Nat.le_refl _)

/-- A reading that begins with markup up to the limit meets markup at each place before it. -/
theorem markup_of_reads {y z u : Bytes} {limit : Nat} (hmarkup : ReflTransGen Markup y z)
    (hz : z.length ≤ limit) (hreads : ReflTransGen ReadsTo y u) (hu : limit < u.length) :
    ∃ next, Markup u next := by
  induction hmarkup using ReflTransGen.head_induction_on with
  | refl =>
    have hle := (suffix_of_reads hreads).length_le
    omega
  | head hstep _ ih =>
    rcases (readsTo_iff (.markup hstep)).mp hreads with rfl | hrest
    · exact ⟨_, hstep⟩
    · exact ih hrest

/-- Where the text is not refused, the tags that the reading comes to begin markup. -/
theorem markup_of_tagAt {s u : Bytes} {ps : List Bytes} (h : places s = .ok ps)
    (hreads : ReflTransGen ReadsTo s u) (hu : tagAt u ≠ none) : ∃ next, Markup u next := by
  induction s using places.induct generalizing ps with
  | case1 =>
    obtain rfl := List.suffix_nil.mp (suffix_of_reads hreads)
    exact absurd rfl hu
  | case2 c cs e herror =>
    rw [places, herror] at h
    cases h
  | case3 c cs add next hok ih =>
    rw [places, hok] at h
    obtain ⟨rest, hrest, -⟩ := Fallible.bind_ok.mp h
    rcases stripMarkup_cases hok with ⟨-, hmarkup⟩ | ⟨-, rfl, hnone⟩ | ⟨-, -, -, hclose⟩
    · rcases (readsTo_iff (.markup hmarkup)).mp hreads with rfl | hreads
      · exact ⟨next, hmarkup⟩
      · exact ih hrest hreads
    · rcases (readsTo_iff (.copy hnone)).mp hreads with rfl | hreads
      · exact absurd hnone hu
      · exact ih hrest hreads
    · exact absurd (reads_of_unclosed hclose (suffix_of_reads hreads)).2 hu

/-- Where nothing in the content is put out, markup leads from a place in it to the closing tag. -/
theorem markup_of_hidden {s y : Bytes} {ps : List Bytes} {e : HiddenElement}
    (h : places s = .ok ps) (hout : ∀ u ∈ ps, ¬e.Contains u) (hreads : ReflTransGen ReadsTo s y)
    (hy : y.length ≤ e.content.length) :
    ∃ z, ReflTransGen Markup y z ∧ z.length ≤ e.close.length := by
  by_cases hlimit : y.length ≤ e.close.length
  · exact ⟨y, .refl, hlimit⟩
  · have htag : tagAt y ≠ none := by
      intro hnone
      have hne : y ≠ [] := by
        rintro rfl
        exact hlimit (Nat.zero_le _)
      exact hout y ((mem_places h).mpr ⟨hreads, hnone, hne⟩) ⟨Nat.lt_of_not_le hlimit, hy⟩
    obtain ⟨next, hmarkup⟩ := markup_of_tagAt h hreads htag
    have hlt := hmarkup.suffix.2
    obtain ⟨z, hz, hle⟩ := markup_of_hidden h hout (hreads.tail (.markup hmarkup)) (by omega)
    exact ⟨z, .head hmarkup hz, hle⟩
termination_by y.length

/-- No byte of the content of a hidden element is put out exactly when, of each hidden element that a
closing tag matches, nothing but markup is left where the reading comes into its content. -/
theorem stripMarkdownHtml_hides_iff {s output : Bytes} (h : stripMarkdownHtml [] s = .ok output) :
    ∃ ps, places s = .ok ps ∧ output = ps.filterMap List.head? ∧
      ((∀ e ∈ hiddenElements s, ∀ u ∈ ps, ¬e.Contains u) ↔
        ∀ e ∈ hiddenElements s, e.Covered s) := by
  rw [stripMarkdownHtml_eq] at h
  cases hplaces : places s with
  | error e =>
    rw [hplaces] at h
    cases h
  | ok ps =>
    rw [hplaces] at h
    cases h
    refine ⟨ps, rfl, rfl, ?_, ?_⟩
    · rintro hout e he y ⟨x, hx, hstep, -, hy⟩
      exact markup_of_hidden hplaces (hout e he) (hx.tail hstep) hy
    · rintro hcovered e he u hu ⟨hclose, hcontent⟩
      obtain ⟨hreads, hnone, -⟩ := (mem_places hplaces).mp hu
      obtain ⟨y, hy, hrest⟩ := entersAt_of_reads hreads (length_content he) hcontent
      obtain ⟨z, hmarkup, hz⟩ := hcovered e he y hy
      obtain ⟨next, hnext⟩ := markup_of_reads hmarkup hz hrest hclose
      exact hnext.tagAt_ne_none hnone

theorem scriptElement_hides :
    ∃ ps, places (utf8 "a<script>b</script>") = .ok ps ∧ utf8 "a" = ps.filterMap List.head? ∧
      ((∀ e ∈ hiddenElements (utf8 "a<script>b</script>"), ∀ u ∈ ps, ¬e.Contains u) ↔
        ∀ e ∈ hiddenElements (utf8 "a<script>b</script>"),
          e.Covered (utf8 "a<script>b</script>")) := by
  refine stripMarkdownHtml_hides_iff ?_
  have hcopy : stripMarkup 97 (utf8 "<script>b</script>") =
    .ok ([97], utf8 "<script>b</script>") := rfl
  have hscript : stripMarkup 60 (utf8 "script>b</script>") = .ok ([], []) := rfl
  have hplaces : places (97 :: utf8 "<script>b</script>") = .ok [utf8 "a<script>b</script>"] :=
    places_of_pass hcopy (places_of_pass hscript places_nil)
  have hinput : utf8 "a<script>b</script>" = 97 :: utf8 "<script>b</script>" := rfl
  rw [stripMarkdownHtml_eq, hinput, hplaces]
  rfl

/-- A script is taken for closed by a tag whose name only begins with `script`. -/
theorem longerName_leaks :
    stripMarkdownHtml [] (utf8 "<script></scripty>x</script>") = .ok (utf8 "x") ∧
      ∃ ps, places (utf8 "<script></scripty>x</script>") = .ok ps ∧
        ∃ e ∈ hiddenElements (utf8 "<script></scripty>x</script>"), ∃ u ∈ ps, e.Contains u := by
  have hscript : stripMarkup 60 (utf8 "script></scripty>x</script>") =
    .ok ([], utf8 "x</script>") := rfl
  have hcopy : stripMarkup 120 (utf8 "</script>") = .ok ([120], utf8 "</script>") := rfl
  have hclose : stripMarkup 60 (utf8 "/script>") = .ok ([], []) := rfl
  have hplaces : places (utf8 "<script></scripty>x</script>") = .ok [utf8 "x</script>"] :=
    places_of_pass hscript (places_of_pass hcopy (places_of_pass hclose places_nil))
  refine ⟨?_, _, hplaces, ⟨utf8 "</scripty>x</script>", utf8 "</script>"⟩, ?_,
    utf8 "x</script>", List.mem_cons_self, ?_⟩
  · rw [stripMarkdownHtml_eq, hplaces]
    rfl
  · exact List.mem_filterMap.mpr ⟨_, List.mem_cons_self, rfl⟩
  · constructor <;> decide

end Wikore.Parser
