import Wikore.Ingest.ChunkedWords
import Wikore.Ingest.PptxParser

/-! From a presentation to its chunks: every word of a shape that the parser sees is whole in a chunk
with the title of its slide. -/

namespace Wikore.Parser.PptxParser

open Chunker (ParsedSection SectionChunks isWord preorders sectionsOf substr)
open ContextBuilder (Bytes utf8)
open Runs (IsRun)
open XlsxParser (childByLocal document)
open XmlNode (localName)

/-! ### The sizes of the texts -/

mutual

/-- The elements of a tree and the bytes of its texts. -/
def weight : XmlNode → Nat
  | .element _ _ children => weights children + 1
  | .pcdata value => value.length
  | .cdata value => value.length

def weights : List XmlNode → Nat
  | [] => 0
  | n :: rest => weight n + weights rest

end

theorem weight_le_of_mem {n : XmlNode} {ns : List XmlNode} (h : n ∈ ns) : weight n ≤ weights ns := by
  induction ns with
  | nil => cases h
  | cons m rest ih =>
    rw [weights]
    rcases List.mem_cons.mp h with rfl | h
    · exact Nat.le_add_right _ _
    · exact (ih h).trans (Nat.le_add_left _ _)

theorem weights_children_le (n : XmlNode) : weights n.children ≤ weight n := by
  cases n with
  | element name attributes children => exact Nat.le_succ _
  | pcdata value => exact Nat.zero_le _
  | cdata value => exact Nat.zero_le _

/-- What each node adds is no longer than the node. -/
theorem length_flatMap_le {f : XmlNode → Bytes} {ns : List XmlNode}
    (h : ∀ n ∈ ns, (f n).length ≤ weight n) : (ns.flatMap f).length ≤ weights ns := by
  induction ns with
  | nil => exact Nat.le_refl 0
  | cons n rest ih =>
    rw [List.flatMap_cons, List.length_append, weights]
    have hn := h n List.mem_cons_self
    have hrest := ih fun m hm => h m (List.mem_cons_of_mem n hm)
    omega

theorem weights_filter_le (p : XmlNode → Bool) (ns : List XmlNode) :
    weights (ns.filter p) ≤ weights ns := by
  induction ns with
  | nil => exact Nat.le_refl 0
  | cons n rest ih =>
    rw [List.filter_cons, weights]
    split
    · rw [weights]
      omega
    · omega

theorem length_textGet_le (n : XmlNode) : n.textGet.length ≤ weight n := by
  have hfirst : ∀ ns : List XmlNode, ((ns.findSome? XmlNode.textValue).getD []).length ≤ weights ns := by
    intro ns
    induction ns with
    | nil => exact Nat.le_refl 0
    | cons m rest ih =>
      rw [List.findSome?_cons, weights]
      cases m with
      | element name attributes children => exact ih.trans (Nat.le_add_left _ _)
      | pcdata value => exact Nat.le_add_right _ _
      | cdata value => exact Nat.le_add_right _ _
  cases n with
  | element name attributes children => exact (hfirst children).trans (Nat.le_succ _)
  | pcdata value => exact Nat.le_refl _
  | cdata value => exact Nat.le_refl _

/-- A node with a name is an element. -/
theorem weight_eq_of_localName {n : XmlNode} {name : String} (hname : utf8 name ≠ [])
    (h : localName n.name = utf8 name) : weight n = weights n.children + 1 := by
  cases n with
  | element _ _ _ => rfl
  | pcdata value => exact absurd h.symm hname
  | cdata value => exact absurd h.symm hname

theorem length_paragraphText_le (para : XmlNode) :
    (paragraphText para).length ≤ weights para.children := by
  refine length_flatMap_le fun child _ => ?_
  split
  · refine (length_flatMap_le fun t _ => length_textGet_le t).trans ?_
    exact (weights_filter_le _ _).trans (weights_children_le child)
  · split
    · rename_i hbr
      rw [weight_eq_of_localName (by decide) hbr]
      exact Nat.le_add_left 1 _
    · exact Nat.zero_le _

theorem length_addText_le (out text : Bytes) :
    (addText out text).length ≤ out.length + text.length + 1 := by
  rw [addText, List.length_append]
  split
  · rw [List.length_append, show (utf8 "\n").length = 1 from rfl]
    omega
  · omega

/-- A text body is no longer than its elements and texts: there is an element for each line end. -/
theorem length_extractTxbodyText_le (txbody : XmlNode) :
    (extractTxbodyText txbody).length ≤ weight txbody := by
  have hfold : ∀ (paras : List XmlNode) (out : Bytes),
      (∀ para ∈ paras, localName para.name = utf8 "p") →
      ((paras.map paragraphText).foldl
        (fun out text => if text = [] then out else addText out text) out).length ≤
          out.length + weights paras := by
    intro paras
    induction paras with
    | nil => exact fun out _ => Nat.le_refl _
    | cons para rest ih =>
      intro out hall
      have hweight := weight_eq_of_localName (by decide) (hall para List.mem_cons_self)
      have htext := length_paragraphText_le para
      have hrest : ∀ n ∈ rest, localName n.name = utf8 "p" := fun n hn =>
        hall n (List.mem_cons_of_mem para hn)
      rw [List.map_cons, List.foldl_cons, weights]
      split
      · have := ih out hrest
        omega
      · have := ih (addText out (paragraphText para)) hrest
        have hadd := length_addText_le out (paragraphText para)
        omega
  have hparas := hfold (txbody.children.filter fun para => localName para.name = utf8 "p") []
    fun para hpara => by simpa using (List.mem_filter.mp hpara).2
  have hfilter := weights_filter_le (fun para => decide (localName para.name = utf8 "p"))
    txbody.children
  have hchildren := weights_children_le txbody
  rw [extractTxbodyText]
  rw [List.length_nil] at hparas
  omega

theorem length_shapeText_lt {n : XmlNode} {text : Bytes} (h : shapeText n = some text) :
    text.length < weight n := by
  rw [shapeText] at h
  split at h
  · rename_i hsp
    obtain ⟨txbody, hfind, rfl⟩ := Option.map_eq_some_iff.mp h
    rw [weight_eq_of_localName (by decide) hsp]
    have hin := weight_le_of_mem (List.mem_of_find?_eq_some hfind)
    have htext := length_extractTxbodyText_le txbody
    omega
  · cases h

/-- The texts of the shapes with a line end after each. -/
def lined (shapes : List Shape) : Bytes := shapes.flatMap fun shape => shape.text ++ [10]

theorem lined_append (shapes more : List Shape) :
    lined (shapes ++ more) = lined shapes ++ lined more := List.flatMap_append

mutual

theorem length_lined_shapesOf : ∀ (depth : Nat) (n : XmlNode),
    (lined (shapesOf depth n)).length ≤ weight n
  | depth, .element name attributes children => by
    rw [shapesOf_eq]
    split
    · rename_i text htext
      have hlt := length_shapeText_lt htext
      split
      · exact Nat.zero_le _
      · rw [lined, List.flatMap_cons, List.flatMap_nil, List.append_nil, List.length_append]
        exact hlt
    · exact (length_lined_shapesOfAll (depth + 1) children).trans (Nat.le_succ _)
  | depth, .pcdata _ => Nat.zero_le _
  | depth, .cdata _ => Nat.zero_le _

theorem length_lined_shapesOfAll : ∀ (depth : Nat) (ns : List XmlNode),
    (lined (shapesOfAll depth ns)).length ≤ weights ns
  | depth, [] => Nat.zero_le _
  | depth, n :: rest => by
    have hn := length_lined_shapesOf depth n
    have hrest := length_lined_shapesOfAll depth rest
    rw [shapesOfAll, lined_append, List.length_append, weights]
    omega

end

theorem length_lined_filter_le (p : Shape → Bool) (shapes : List Shape) :
    (lined (shapes.filter p)).length ≤ (lined shapes).length := by
  induction shapes with
  | nil => exact Nat.le_refl 0
  | cons shape rest ih =>
    rw [List.filter_cons, show shape :: rest = [shape] ++ rest from rfl, lined_append,
      List.length_append]
    split
    · rw [show shape :: rest.filter p = [shape] ++ rest.filter p from rfl, lined_append,
        List.length_append]
      omega
    · omega

theorem length_intercalate_le (shapes : List Shape) :
    ([10].intercalate (shapes.map Shape.text)).length ≤ (lined shapes).length := by
  induction shapes with
  | nil => exact Nat.le_refl 0
  | cons shape rest ih =>
    rw [show shape :: rest = [shape] ++ rest from rfl, lined_append, List.length_append]
    cases rest with
    | nil => simp [lined]
    | cons next rest =>
      rw [List.singleton_append, List.map_cons, List.map_cons, List.intercalate_cons_cons,
        ← List.map_cons, List.length_append, List.length_append]
      simp only [lined, List.flatMap_cons, List.flatMap_nil, List.append_nil, List.length_append]
        at ih ⊢
      omega

/-! ### The sections -/

theorem preorders_flat {sections : List ParsedSection} (h : ∀ sec ∈ sections, sec.children = []) :
    preorders sections = sections := by
  induction sections with
  | nil => rfl
  | cons sec rest ih =>
    have hsec : Chunker.preorder sec = [sec] := by
      have hnil := h sec List.mem_cons_self
      obtain ⟨heading, depth, text, children, dbId⟩ := sec
      obtain rfl : children = [] := hnil
      rfl
    rw [preorders, hsec, ih fun s hs => h s (List.mem_cons_of_mem sec hs)]
    rfl

/-- One of the texts is whole between line ends. -/
theorem exists_split_intercalate {texts : List Bytes} {text : Bytes} (h : text ∈ texts) :
    ∃ before after, [10].intercalate texts = before ++ (text ++ after) ∧
      (∀ c ∈ before.getLast?, c = 10) ∧ ∀ c ∈ after.head?, c = 10 := by
  induction texts with
  | nil => cases h
  | cons first rest ih =>
    cases rest with
    | nil =>
      obtain rfl := List.mem_singleton.mp h
      exact ⟨[], [], by simp, by simp, by simp⟩
    | cons next rest =>
      rw [List.intercalate_cons_cons]
      rcases List.mem_cons.mp h with rfl | h
      · exact ⟨[], [10] ++ [10].intercalate (next :: rest), by simp, by simp, by simp⟩
      · obtain ⟨before, after, hsplit, hbefore, hafter⟩ := ih h
        refine ⟨first ++ ([10] ++ before), after, by rw [hsplit]; simp, ?_, hafter⟩
        rw [← List.append_assoc]
        by_cases hnil : before = []
        · simp [hnil]
        · rwa [List.getLast?_append_of_ne_nil _ hnil]

variable {env : PptxEnv} {content filename : Bytes} {doc : ParsedDocument}

theorem length_lined_shapesIn
    (hload : ∀ xml nodes, env.loadBuffer xml = some nodes → weights nodes ≤ 2 * xml.length)
    (xml : Bytes) : (lined (shapesIn env xml)).length ≤ 2 * xml.length := by
  rw [shapesIn]
  split
  · exact Nat.zero_le _
  · rename_i nodes hnodes
    exact (length_lined_filter_le _ _).trans
      ((length_lined_shapesOfAll 0 nodes).trans (hload xml nodes hnodes))

theorem length_section_le (shapes : List Shape) :
    (Slide.of shapes).section.text.length ≤ (lined shapes).length := by
  have hbody : (Slide.of shapes).body.length ≤ (lined shapes).length :=
    (length_intercalate_le _).trans (length_lined_filter_le _ _)
  have htitle : (Slide.of shapes).title.length ≤ (lined shapes).length := by
    rw [Slide.of]
    dsimp only
    cases hfind : shapes.find? fun shape => shape.title with
    | none => exact Nat.zero_le _
    | some shape =>
      obtain ⟨front, back, rfl⟩ := List.append_of_mem (List.mem_of_find?_eq_some hfind)
      rw [lined_append, show shape :: back = [shape] ++ back from rfl, lined_append]
      simp only [lined, List.flatMap_cons, List.flatMap_nil, List.append_nil, List.length_append,
        Option.map_some, Option.getD_some]
      omega
  rw [Slide.section]
  split
  · exact htitle
  · exact hbody

/-- The heading that the chunks of a slide carry. -/
def chunkHeading (s : Slide) : Option Bytes := if s.title = [] then none else some s.title

/-- From a presentation to its chunks: whatever ids the sections are given, every word of every shape
down to level 8 of every slide whose XML can be extracted and loaded is whole in a chunk with the
title of the slide, unless the shape is a title, and so is every word of the title of a slide that
has no other text. -/
theorem shape_words_chunked
    (hload : ∀ xml nodes, env.loadBuffer xml = some nodes → weights nodes ≤ 2 * xml.length)
    (h : parse env content filename = .ok doc) {sections : List ParsedSection}
    (hsections : (preorders sections).map entryOf = (preorders doc.sections).map entryOf)
    (documentVersionId companyId : String) :
    ∃ chunks, Chunker.chunk documentVersionId companyId ⟨sections, doc.fullText⟩ = some chunks ∧
      chunks.map Chunker.Chunk.chunkIndex = List.range chunks.length ∧
      ∀ path ∈ slideFiles env content, ∀ xml, pptxExtract env content path = xml → xml ≠ [] →
        (∀ nodes, env.loadBuffer xml = some nodes → ∀ d sp text, Below nodes d sp → d ≤ 8 →
          shapeText sp = some text → isTitle sp = false →
            ∀ a b, IsRun (isWord text) text.length a b → ∃ c ∈ chunks,
              substr text a (b - a) <:+: c.text ∧
                c.sectionHeading = chunkHeading (parseSlide env xml)) ∧
        ((parseSlide env xml).body = [] → let title := (parseSlide env xml).title
          ∀ a b, IsRun (isWord title) title.length a b → ∃ c ∈ chunks,
            substr title a (b - a) <:+: c.text ∧
              c.sectionHeading = chunkHeading (parseSlide env xml)) := by
  obtain ⟨-, -, -, -, hne, hsum, rfl⟩ := parse_ok.mp h
  have hchildless : ∀ sec ∈ (slideXmls env content (unique [] (slideFiles env content))).map
      fun xml => (parseSlide env xml).section, sec.children = [] := by
    intro sec hsec
    obtain ⟨xml, -, rfl⟩ := List.mem_map.mp hsec
    rfl
  have hflatDoc := preorders_flat hchildless
  rw [hflatDoc, List.map_map] at hsections
  have hsome : sections ≠ [] := by
    rintro rfl
    exact hne (List.map_eq_nil_iff.mp hsections.symm)
  have hlen : ∀ sec ∈ preorders sections, sec.text.length < 2 ^ 31 - Chunker.kMaxChars := by
    intro sec hsec
    have hentry : entryOf sec ∈ (preorders sections).map entryOf := List.mem_map_of_mem hsec
    rw [hsections] at hentry
    obtain ⟨xml, hxml, he⟩ := List.mem_map.mp hentry
    have htext : (Slide.of (shapesIn env xml)).section.text = sec.text := by
      rw [← parseSlide_eq]
      exact congrArg Entry.text he
    have hle := (length_section_le _).trans (length_lined_shapesIn hload xml)
    have hpart := (List.sublist_flatten_of_mem hxml).length_le
    rw [kPptxMaxTotalXmlBytes] at hsum
    rw [← htext, Chunker.kMaxChars]
    omega
  obtain ⟨parts, hchunk, hindex, hparts⟩ := Chunker.chunk_covers documentVersionId companyId
    ⟨sections, _⟩ (by rwa [sectionsOf, if_neg (by simpa using hsome)])
  rw [sectionsOf, if_neg (by simpa using hsome)] at hparts
  refine ⟨parts.flatten, hchunk, hindex, fun path hpath xml hpathXml hxml => ?_⟩
  have hin : xml ∈ slideXmls env content (unique [] (slideFiles env content)) := by
    refine List.mem_filter.mpr ⟨List.mem_map.mpr ⟨path, ?_, hpathXml⟩, decide_eq_true hxml⟩
    exact mem_unique.mpr ⟨hpath, List.not_mem_nil⟩
  -- what is whole between line ends in the text of the section is in its chunks, word by word
  have hwords : ∀ text, HasLine text (entryOf (parseSlide env xml).section) →
      ∀ a b, IsRun (isWord text) text.length a b → ∃ c ∈ parts.flatten,
        substr text a (b - a) <:+: c.text ∧ c.sectionHeading = chunkHeading (parseSlide env xml) := by
    intro text hline a b run
    have hentry : entryOf (parseSlide env xml).section ∈ (preorders sections).map entryOf := by
      rw [hsections]
      exact List.mem_map_of_mem hin
    obtain ⟨sec, hsec, he⟩ := List.mem_map.mp hentry
    obtain ⟨part, hpart, hchunks⟩ := exists_mem_left hparts.flip hsec
    obtain ⟨c, hc, hword, hheading⟩ := exists_chunk_of_line hchunks (he ▸ hline) run
    have htitle : sec.heading = (parseSlide env xml).title := congrArg Entry.heading he
    refine ⟨c, List.mem_flatten.mpr ⟨part, hpart, hc⟩, hword, ?_⟩
    rw [hheading, htitle, chunkHeading]
  have hne_of_run : ∀ {text : Bytes} {a b : Nat}, IsRun (isWord text) text.length a b →
      text ≠ [] := by
    rintro text a b run rfl
    exact absurd run.le (Nat.not_le.mpr (Nat.lt_of_le_of_lt (Nat.zero_le a) run.lt))
  refine ⟨fun nodes hnodes d sp text hbelow hd htext htitle a b run => ?_, fun hbody a b run => ?_⟩
  · refine hwords text ?_ a b run
    have hshape : (⟨d, false, text⟩ : Shape) ∈ shapesIn env xml := by
      rw [shapesIn, hnodes]
      refine List.mem_filter.mpr ⟨mem_shapesOfAll_iff.mpr ⟨d, sp, hbelow, ?_⟩, decide_eq_true hd⟩
      exact ⟨(Nat.zero_add d).symm, htitle.symm, htext, hne_of_run run⟩
    have hmem : text ∈ ((shapesIn env xml).filter fun shape => !shape.title).map Shape.text :=
      List.mem_map.mpr ⟨_, List.mem_filter.mpr ⟨hshape, rfl⟩, rfl⟩
    obtain ⟨before, after, hsplit, hbefore, hafter⟩ := exists_split_intercalate hmem
    have hbody : (parseSlide env xml).body = before ++ (text ++ after) := by
      rw [parseSlide_eq]
      exact hsplit
    refine ⟨before, after, ?_, hbefore, hafter⟩
    have hsome : (parseSlide env xml).body ≠ [] := by
      rw [hbody]
      simp [hne_of_run run]
    rw [entryOf, Slide.section, if_neg fun hboth => hsome hboth.1]
    exact hbody
  · refine hwords _ ⟨[], [], ?_, by simp, by simp⟩ a b run
    rw [entryOf, Slide.section, if_pos ⟨hbody, hne_of_run run⟩, List.append_nil, List.nil_append]

/-! ### The presentation of one slide -/

set_option maxRecDepth 4000 in
theorem deck_chunked : ∃ chunks, Chunker.chunk "v1" "co1" ⟨[deckSection], utf8 "Hi"⟩ = some chunks ∧
    ∃ c ∈ chunks, utf8 "Hi" <:+: c.text ∧ c.sectionHeading = none := by
  have hload : ∀ xml nodes, deckEnv.loadBuffer xml = some nodes → weights nodes ≤ 2 * xml.length := by
    intro xml nodes h
    rw [deckEnv] at h
    dsimp only at h
    split at h
    · rename_i hxml
      cases h
      rw [hxml]
      decide
    · cases h
  have hxml := deckEnv_slideXml
  have hfiles := deckEnv_slideFiles
  have hslide := deckEnv_parseSlide
  have hparse : parse deckEnv deck (utf8 "deck.pptx") =
      .ok ⟨utf8 "deck.pptx", pptxMime, [deckSection], utf8 "Hi"⟩ := by
    refine parse_ok.mpr ?_
    dsimp only
    rw [deckEnv_slideXmls, List.map_singleton, hslide]
    refine ⟨List.cons_ne_nil _ _, by decide, ⟨_, rfl⟩, ?_, List.cons_ne_nil _ _, by decide, rfl⟩
    rw [hfiles]
    decide
  obtain ⟨chunks, hchunk, -, hwords⟩ := shape_words_chunked hload hparse rfl "v1" "co1"
  obtain ⟨hbody, -⟩ := hwords slidePath (by rw [hfiles]; exact List.mem_singleton_self _) slideXml hxml
    (by decide)
  have hletters : ∀ i < 2, isWord (utf8 "Hi") i = true := by decide
  have run : IsRun (isWord (utf8 "Hi")) (utf8 "Hi").length 0 2 :=
    ⟨by decide, by decide, fun i _ hi => hletters i hi, by simp, fun _ => rfl⟩
  have hbelow : Below slideNodes 1 slideShape :=
    .under (List.mem_singleton_self _) rfl (.here (List.mem_singleton_self _))
  obtain ⟨c, hc, hin, hheading⟩ := hbody slideNodes deckEnv_nodes 1 slideShape (utf8 "Hi") hbelow
    (by decide) rfl rfl 0 2 run
  refine ⟨chunks, hchunk, c, hc, hin, ?_⟩
  rw [hheading, hslide]
  rfl

end Wikore.Parser.PptxParser
