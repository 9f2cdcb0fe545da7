import Wikore.Ingest.PlainTextContent
import Wikore.Ingest.XlsxParser
import Wikore.Lib.Sorting

/-! `PptxParser`: the slides of a presentation as sections, each with the texts of its shapes. -/

namespace Wikore.Parser.PptxParser

open Chunker (ParsedSection isspace)
open ContextBuilder (Bytes Error utf8)
open Fallible (rejectIf)
open XlsxParser (ZipEntry childByLocal document strtol)
open XmlNode (localName)

def kMaxPptxSlides : Nat := 2000

def kPptxMaxTotalXmlBytes : Nat := 128 * 1024 * 1024

def kPptxMaxXmlBytes : Nat := 16 * 1024 * 1024

/-! ### Entries of the archive -/

/-- An archive as minizip opens it: its entries by their names, and the names in order. -/
structure Archive where
  locate : Bytes → Option ZipEntry
  names : List Bytes

/-- What is taken from minizip, from pugixml and from `std::sort`, by the number of the slide. -/
structure PptxEnv where
  unzOpen : Bytes → Option Archive
  loadBuffer : Bytes → Option (List XmlNode)
  sort : (Bytes → Int) → List Bytes → List Bytes

def pptxExtract (env : PptxEnv) (zip entry : Bytes) : Bytes :=
  match env.unzOpen zip with
  | none => []
  | some archive =>
    match archive.locate entry with
    | none => []
    | some fi =>
      if kPptxMaxXmlBytes < fi.uncompressedSize then []
      else
        match fi.data with
        | none => []
        | some out => if out.length = fi.uncompressedSize then out else []

def pptxListEntries (env : PptxEnv) (zip entryPrefix : Bytes) : List Bytes :=
  match env.unzOpen zip with
  | none => []
  | some archive => archive.names.filter fun name =>
      entryPrefix.isPrefixOf name && (utf8 ".xml").isSuffixOf name

/-! ### The order of the slides -/

def slideType : Bytes :=
  utf8 "http://schemas.openxmlformats.org/officeDocument/2006/relationships/slide"

/-- The entry of the map that a relationship makes. -/
def relationship (rel : XmlNode) : Option (Bytes × Bytes) :=
  if localName rel.name ≠ utf8 "Relationship" then none
  else if rel.attributeValue "Type" = slideType then
    let target := rel.attributeValue "Target"
    let path := match target with
      | 47 :: rest => rest
      | _ => utf8 "ppt/" ++ target
    some (rel.attributeValue "Id", path)
  else none

/-- `rid_to_file`, in the order of the assignments. -/
def ridToFile (nodes : List XmlNode) : List (Bytes × Bytes) :=
  match childByLocal (document nodes) "Relationships" with
  | some root => root.children.filterMap relationship
  | none => []

mutual

/-- `find_list`, of one of the children: the first list of slides in the tree. -/
def findList : XmlNode → Option XmlNode
  | .element name attributes children =>
    if localName name = utf8 "sldIdLst" then some (.element name attributes children)
    else findLists children
  | .pcdata _ => none
  | .cdata _ => none

def findLists : List XmlNode → Option XmlNode
  | [] => none
  | n :: rest =>
    match findList n with
    | some found => some found
    | none => findLists rest

end

/-- The relationships that the elements of the list name. -/
def slideIds (list : XmlNode) : List Bytes :=
  list.children.flatMap fun sid =>
    (sid.attributes.filter fun a => contains a.1 (utf8 "id") && decide (58 ∈ a.1)).map Prod.snd

def slideOrderFromRels (env : PptxEnv) (zip : Bytes) : List Bytes :=
  let prs := pptxExtract env zip (utf8 "ppt/presentation.xml")
  let rels := pptxExtract env zip (utf8 "ppt/_rels/presentation.xml.rels")
  if prs = [] ∨ rels = [] then []
  else
    match env.loadBuffer rels with
    | none => []
    | some relNodes =>
      if ridToFile relNodes = [] then []
      else
        match env.loadBuffer prs with
        | none => []
        | some prsNodes =>
          match findLists prsNodes with
          | none => []
          -- a later assignment to the map overwrites an earlier one
          | some list => (slideIds list).filterMap fun rid =>
              (ridToFile relNodes).reverse.lookup rid

/-- The position after the last `c`. -/
def afterLast (c : UInt8) (s : Bytes) : Option Nat :=
  if c ∈ s then some (s.length - (s.reverse.takeWhile fun b => b ≠ c).length) else none

/-- `std::stoi`, with 0 where it throws. -/
def stoiOrZero (s : Bytes) : Int :=
  match strtol s with
  | none => 0
  | some n => if -2147483648 ≤ n ∧ n ≤ 2147483647 then n else 0

def slideNum (path : Bytes) : Int :=
  match afterLast 47 path, afterLast 46 path with
  | some slash, some dot =>
    -- both are one past the position that the source has
    if dot < slash + 6 then 0
    else stoiOrZero ((path.drop (slash + 5)).take (dot - 1 - (slash + 5)))
  | _, _ => 0

/-- The paths without those that were there before. -/
def unique (seen : List Bytes) : List Bytes → List Bytes
  | [] => []
  | p :: ps => if p ∈ seen then unique seen ps else p :: unique (p :: seen) ps

/-- The entries for slides, without those for relationships. -/
def slideEntries (env : PptxEnv) (content : Bytes) : List Bytes :=
  (pptxListEntries env content (utf8 "ppt/slides/slide")).filter fun p =>
    !contains p (utf8 "_rels")

/-- The files of the slides, before the same file is taken once only. -/
def slideFiles (env : PptxEnv) (content : Bytes) : List Bytes :=
  match slideOrderFromRels env content with
  | [] => env.sort slideNum (slideEntries env content)
  | order => order

/-! ### One slide -/

/-- The text of a paragraph: its runs, and a line end for each break. -/
def paragraphText (para : XmlNode) : Bytes :=
  para.children.flatMap fun child =>
    if localName child.name = utf8 "r" then
      (child.children.filter fun t => localName t.name = utf8 "t").flatMap XmlNode.textGet
    else if localName child.name = utf8 "br" then [10]
    else []

def extractTxbodyText (txbody : XmlNode) : Bytes :=
  ((txbody.children.filter fun para => localName para.name = utf8 "p").map paragraphText).foldl
    (fun out text => if text = [] then out else addText out text) []

/-- The placeholder of a shape. -/
def placeholder (sp : XmlNode) : Option XmlNode := do
  let nvSpPr ← childByLocal sp "nvSpPr"
  let nvPr ← childByLocal nvSpPr "nvPr"
  childByLocal nvPr "ph"

def isTitle (sp : XmlNode) : Bool :=
  match placeholder sp with
  | none => false
  | some ph =>
    ph.attributeValue "type" = utf8 "title" || ph.attributeValue "type" = utf8 "ctrTitle"

/-- The text of the shape, if the node is a shape with one. -/
def shapeText (n : XmlNode) : Option Bytes :=
  if localName n.name = utf8 "sp" then (childByLocal n "txBody").map extractTxbodyText else none

/-- The title and the body so far. -/
structure Slide where
  title : Bytes
  body : Bytes
deriving DecidableEq

def Slide.addShape (s : Slide) (title : Bool) (text : Bytes) : Slide :=
  if text = [] then s
  else if title then { s with title := if s.title = [] then text else s.title }
  else { s with body := addText s.body text }

/-- One pass of the loop of `walk`; `descend` is the walk below a child. -/
def visit (descend : Slide → XmlNode → Slide) (s : Slide) (child : XmlNode) : Slide :=
  match shapeText child with
  | some text => s.addShape (isTitle child) text
  | none => descend s child

/-- `walk`, with `left` levels below this. -/
def walk : Nat → Slide → XmlNode → Slide
  | 0, s, n => n.children.foldl (visit fun s _ => s) s
  | left + 1, s, n => n.children.foldl (visit (walk left)) s

def parseSlide (env : PptxEnv) (xml : Bytes) : Slide :=
  match env.loadBuffer xml with
  | none => ⟨[], []⟩
  | some nodes => walk 8 ⟨[], []⟩ (document nodes)

def Slide.section (s : Slide) : ParsedSection :=
  ⟨s.title, 1, if s.body = [] ∧ s.title ≠ [] then s.title else s.body, [], none⟩

/-! ### `PptxParser::parse` -/

/-- The loop over the slides, with `total` bytes of XML before. -/
def parseSlides (env : PptxEnv) (content : Bytes) :
    List Bytes → Nat → Except Error (List ParsedSection)
  | [], _ => .ok []
  | path :: paths, total =>
    let xml := pptxExtract env content path
    if xml = [] then parseSlides env content paths total
    else do
      rejectIf (kPptxMaxTotalXmlBytes < total + xml.length)
        (.invalidInput "ingest.pptx.aggregate_xml_too_large")
      let sections ← parseSlides env content paths (total + xml.length)
      return (parseSlide env xml).section :: sections

def parse (env : PptxEnv) (content filename : Bytes) : Except Error ParsedDocument := do
  rejectIf (content = []) (.invalidInput "ingest.empty_file")
  rejectIf (kMaxInputBytes < content.length) (.invalidInput "ingest.file_too_large")
  rejectIf (¬[80, 75, 3, 4].isPrefixOf content) (.invalidInput "ingest.mime_type_mismatch")
  let slides := slideFiles env content
  rejectIf (slides = []) (.invalidInput "ingest.pptx.no_slides_found")
  let slides := unique [] slides
  rejectIf (kMaxPptxSlides < slides.length) (.invalidInput "ingest.pptx.too_many_slides")
  let sections ← parseSlides env content slides 0
  rejectIf (sections = []) (.invalidInput "ingest.pptx.no_text_content")
  return ⟨filename, pptxMime, sections, (sections.map ParsedSection.text).foldl addText []⟩

/-! ### The order and the number of the slides -/

theorem mem_unique {seen ps : List Bytes} {p : Bytes} :
    p ∈ unique seen ps ↔ p ∈ ps ∧ p ∉ seen := by
  induction ps generalizing seen with
  | nil => simp [unique]
  | cons q ps ih =>
    rw [unique]
    split
    · rename_i hq
      rw [ih, List.mem_cons]
      constructor
      · rintro ⟨hp, hnot⟩
        exact ⟨.inr hp, hnot⟩
      · rintro ⟨rfl | hp, hnot⟩
        · exact absurd hq hnot
        · exact ⟨hp, hnot⟩
    · rename_i hq
      rw [List.mem_cons, ih, List.mem_cons, List.mem_cons, not_or]
      constructor
      · rintro (rfl | ⟨hp, -, hnot⟩)
        · exact ⟨.inl rfl, hq⟩
        · exact ⟨.inr hp, hnot⟩
      · rintro ⟨rfl | hp, hnot⟩
        · exact .inl rfl
        · by_cases he : p = q
          · exact .inl he
          · exact .inr ⟨hp, he, hnot⟩

theorem unique_sublist (seen ps : List Bytes) : (unique seen ps).Sublist ps := by
  induction ps generalizing seen with
  | nil => exact List.Sublist.refl []
  | cons p ps ih =>
    rw [unique]
    split
    · exact (ih seen).cons p
    · exact (ih (p :: seen)).cons_cons p

/-- The paths come in the order of their first places. -/
theorem unique_pairwise (seen ps : List Bytes) :
    (unique seen ps).Pairwise fun p q => ps.idxOf p < ps.idxOf q := by
  induction ps generalizing seen with
  | nil => exact List.Pairwise.nil
  | cons p ps ih =>
    -- a path that was there before stands nowhere in the result
    have hrest : ∀ seen, p ∈ seen → (unique seen ps).Pairwise fun q r =>
        (p :: ps).idxOf q < (p :: ps).idxOf r := by
      intro seen hseen
      refine (ih seen).imp_of_mem fun {q r} hq hr hlt => ?_
      have hne : ∀ t ∈ unique seen ps, p ≠ t := by
        rintro t ht rfl
        exact (mem_unique.mp ht).2 hseen
      rw [List.idxOf_cons_ne ps (hne q hq), List.idxOf_cons_ne ps (hne r hr)]
      exact Nat.succ_lt_succ hlt
    rw [unique]
    split
    · rename_i hp
      exact hrest seen hp
    · refine List.pairwise_cons.mpr ⟨fun q hq => ?_, hrest (p :: seen) (List.mem_cons_self ..)⟩
      have hne : p ≠ q := by
        rintro rfl
        exact (mem_unique.mp hq).2 (List.mem_cons_self ..)
      rw [List.idxOf_cons_self, List.idxOf_cons_ne ps hne]
      exact Nat.succ_pos _

/-- The slides of the presentation, each file once: those that it names, in the order in which it
first names them, or, where it names none, all the entries for slides, by their numbers. -/
structure Presented (env : PptxEnv) (content : Bytes) (slides : List Bytes) : Prop where
  nodup : slides.Nodup
  named : slideOrderFromRels env content ≠ [] →
    (∀ p, p ∈ slides ↔ p ∈ slideOrderFromRels env content) ∧ slides.Pairwise fun p q =>
      (slideOrderFromRels env content).idxOf p < (slideOrderFromRels env content).idxOf q
  numbered : slideOrderFromRels env content = [] →
    (∀ p, p ∈ slides ↔ p ∈ slideEntries env content) ∧ slides.Pairwise fun p q =>
      slideNum p ≤ slideNum q

theorem presented_slides {env : PptxEnv} (hsort : Sorting.Sorts slideNum (env.sort slideNum))
    (content : Bytes) : Presented env content (unique [] (slideFiles env content)) where
  nodup := (unique_pairwise [] (slideFiles env content)).imp fun hlt he => by
    rw [he] at hlt
    exact Nat.lt_irrefl _ hlt
  named hne := by
    have hfiles : slideFiles env content = slideOrderFromRels env content := by
      rw [slideFiles]
      split
      · rename_i hnil
        exact absurd hnil hne
      · rfl
    rw [← hfiles]
    exact ⟨fun p => by simp [mem_unique], unique_pairwise [] _⟩
  numbered hnil := by
    have hfiles : slideFiles env content = env.sort slideNum (slideEntries env content) := by
      rw [slideFiles, hnil]
    rw [hfiles]
    refine ⟨fun p => ?_, ?_⟩
    · rw [mem_unique, hsort.mem_iff]
      simp
    · exact (List.pairwise_map.mp (hsort.ordered _)).sublist (unique_sublist [] _)

/-- The XML of the slides, without those that cannot be extracted. -/
def slideXmls (env : PptxEnv) (content : Bytes) (paths : List Bytes) : List Bytes :=
  (paths.map (pptxExtract env content)).filter fun xml => xml ≠ []

theorem parseSlides_ok {env : PptxEnv} {content : Bytes} {paths : List Bytes} {total : Nat}
    (htotal : total ≤ kPptxMaxTotalXmlBytes) {sections : List ParsedSection} :
    parseSlides env content paths total = .ok sections ↔
      total + (slideXmls env content paths).flatten.length ≤ kPptxMaxTotalXmlBytes ∧
        sections = (slideXmls env content paths).map fun xml => (parseSlide env xml).section := by
  induction paths generalizing total sections with
  | nil =>
    simp only [parseSlides, slideXmls, List.map_nil, List.filter_nil, List.flatten_nil,
      List.length_nil, Nat.add_zero, htotal, true_and, Except.ok.injEq]
    exact eq_comm
  | cons path paths ih =>
    rw [parseSlides]
    by_cases hxml : pptxExtract env content path = []
    · have hskip : slideXmls env content (path :: paths) = slideXmls env content paths := by
        rw [slideXmls, List.map_cons, List.filter_cons_of_neg (by simpa using hxml), slideXmls]
      rw [if_pos hxml, hskip]
      exact ih htotal
    · have hkeep : slideXmls env content (path :: paths) =
          pptxExtract env content path :: slideXmls env content paths := by
        rw [slideXmls, List.map_cons, List.filter_cons_of_pos (by simpa using hxml), slideXmls]
      rw [if_neg hxml, hkeep, Fallible.rejectIf_bind_ok, Nat.not_lt, List.flatten_cons,
        List.length_append, List.map_cons, Fallible.bind_ok]
      constructor
      · rintro ⟨hfits, rest, hrest, hsections⟩
        cases hsections
        obtain ⟨hsum, rfl⟩ := (ih hfits).mp hrest
        exact ⟨by omega, rfl⟩
      · rintro ⟨hsum, rfl⟩
        have hfits : total + (pptxExtract env content path).length ≤ kPptxMaxTotalXmlBytes := by
          omega
        exact ⟨hfits, _, (ih hfits).mpr ⟨by omega, rfl⟩, rfl⟩

/-! ### The shapes of a slide -/

/-- A shape with a text, and how many elements below the document are around it. -/
structure Shape where
  depth : Nat
  title : Bool
  text : Bytes
deriving DecidableEq

mutual

/-- The shapes with texts in document order, at any depth; a shape with a text body is not searched
for more. -/
def shapesOf (depth : Nat) : XmlNode → List Shape
  | .element name attributes children =>
    match shapeText (.element name attributes children) with
    | some text =>
      if text = [] then [] else [⟨depth, isTitle (.element name attributes children), text⟩]
    | none => shapesOfAll (depth + 1) children
  | .pcdata _ => []
  | .cdata _ => []

def shapesOfAll (depth : Nat) : List XmlNode → List Shape
  | [] => []
  | n :: rest => shapesOf depth n ++ shapesOfAll depth rest

end

theorem shapesOf_eq (depth : Nat) (n : XmlNode) : shapesOf depth n =
    match shapeText n with
    | some text => if text = [] then [] else [⟨depth, isTitle n, text⟩]
    | none => shapesOfAll (depth + 1) n.children := by
  cases n with
  | element name attributes children => rw [shapesOf, XmlNode.children]
  | pcdata value => rfl
  | cdata value => rfl

mutual

theorem le_depth_shapesOf : ∀ (depth : Nat) (n : XmlNode), ∀ s ∈ shapesOf depth n, depth ≤ s.depth
  | depth, .element name attributes children => by
    rw [shapesOf_eq]
    split
    · split
      · exact fun s hs => absurd hs List.not_mem_nil
      · rintro s hs
        obtain rfl := List.mem_singleton.mp hs
        exact Nat.le_refl depth
    · exact fun s hs => Nat.le_of_succ_le (le_depth_shapesOfAll (depth + 1) children s hs)
  | depth, .pcdata _ => fun s hs => absurd hs List.not_mem_nil
  | depth, .cdata _ => fun s hs => absurd hs List.not_mem_nil

theorem le_depth_shapesOfAll : ∀ (depth : Nat) (ns : List XmlNode),
    ∀ s ∈ shapesOfAll depth ns, depth ≤ s.depth
  | depth, [] => fun s hs => absurd hs List.not_mem_nil
  | depth, n :: rest => by
    intro s hs
    rcases List.mem_append.mp hs with hs | hs
    · exact le_depth_shapesOf depth n s hs
    · exact le_depth_shapesOfAll depth rest s hs

end

/-- What the shapes add to a slide. -/
def Slide.add (s : Slide) (shapes : List Shape) : Slide :=
  shapes.foldl (fun s shape => s.addShape shape.title shape.text) s

theorem foldl_visit {descend : Slide → XmlNode → Slide} {depth bound : Nat} (hdepth : depth ≤ bound)
    (hdescend : ∀ s n, descend s n =
      s.add ((shapesOfAll (depth + 1) n.children).filter fun shape => shape.depth ≤ bound))
    (children : List XmlNode) (s : Slide) : children.foldl (visit descend) s =
      s.add ((shapesOfAll depth children).filter fun shape => shape.depth ≤ bound) := by
  induction children generalizing s with
  | nil => rfl
  | cons child rest ih =>
    rw [List.foldl_cons, ih, shapesOfAll, List.filter_append, Slide.add, Slide.add,
      List.foldl_append]
    congr 1
    rw [visit, shapesOf_eq]
    split
    · rename_i text hshape
      split
      · rename_i hnil
        rw [Slide.addShape, if_pos hnil]
        rfl
      · rw [List.filter_cons_of_pos (by simpa using hdepth)]
        rfl
    · exact hdescend s child

theorem Slide.add_concat (s : Slide) (shapes : List Shape) (shape : Shape) :
    s.add (shapes ++ [shape]) = (s.add shapes).addShape shape.title shape.text := by
  rw [add, List.foldl_append]
  rfl

/-- The walk sees the shapes down to its last level. -/
theorem walk_eq (left depth : Nat) (s : Slide) (n : XmlNode) : walk left s n =
    s.add ((shapesOfAll depth n.children).filter fun shape => shape.depth ≤ depth + left) := by
  induction left generalizing depth s n with
  | zero =>
    refine foldl_visit (Nat.le_refl depth) (fun s n => ?_) n.children s
    have hnone : (shapesOfAll (depth + 1) n.children).filter (fun shape => shape.depth ≤ depth) =
        [] := by
      refine List.filter_eq_nil_iff.mpr fun shape hshape => ?_
      have := le_depth_shapesOfAll (depth + 1) n.children shape hshape
      rw [decide_eq_true_eq]
      omega
    rw [Nat.add_zero, hnone]
    rfl
  | succ left ih =>
    refine foldl_visit (Nat.le_add_right depth _) (fun s n => ?_) n.children s
    rw [ih (depth + 1), Nat.add_right_comm]
    rfl

/-- The title of the shapes, and the texts of the others. -/
def Slide.of (shapes : List Shape) : Slide where
  title := ((shapes.find? fun shape => shape.title).map Shape.text).getD []
  body := [10].intercalate ((shapes.filter fun shape => !shape.title).map Shape.text)

theorem add_nil {shapes : List Shape} (h : ∀ shape ∈ shapes, shape.text ≠ []) :
    Slide.add ⟨[], []⟩ shapes = .of shapes := by
  have hadd : Slide.add ⟨[], []⟩ shapes =
      ⟨((shapes.find? fun shape => shape.title).map Shape.text).getD [],
        ((shapes.filter fun shape => !shape.title).map Shape.text).foldl addText []⟩ := by
    induction shapes using List.reverseRecOn with
    | nil => rfl
    | append_singleton shapes shape ih =>
      have hne := h shape (by simp)
      rw [Slide.add_concat, ih fun x hx => h x (List.mem_append_left _ hx), List.find?_append,
        List.filter_append, List.map_append, List.foldl_append, Slide.addShape, if_neg hne]
      by_cases htitle : shape.title = true
      · rw [if_pos htitle, List.find?_singleton, if_pos htitle,
          List.filter_cons_of_neg (by simpa using htitle), List.filter_nil, List.map_nil,
          List.foldl_nil]
        congr 1
        cases hfind : shapes.find? fun shape => shape.title with
        | none => rfl
        | some first =>
          have hfirst := h first (List.mem_append_left _ (List.mem_of_find?_eq_some hfind))
          exact if_neg hfirst
      · rw [if_neg htitle, List.find?_singleton, if_neg htitle, Option.or_none,
          List.filter_cons_of_pos (by simpa using htitle), List.filter_nil, List.map_cons,
          List.map_nil, List.foldl_cons, List.foldl_nil]
  have hkept : ((shapes.filter fun shape => !shape.title).map Shape.text).filter (fun t => t ≠ []) =
      (shapes.filter fun shape => !shape.title).map Shape.text := by
    refine List.filter_eq_self.mpr fun t ht => ?_
    obtain ⟨shape, hshape, rfl⟩ := List.mem_map.mp ht
    exact decide_eq_true (h shape (List.mem_of_mem_filter hshape))
  rw [hadd, foldl_addText_nil, hkept, Slide.of]

/-- The node is below `d` elements of the tree, none of which is a shape with a text body. -/
inductive Below : List XmlNode → Nat → XmlNode → Prop
  | here {ns : List XmlNode} {n : XmlNode} : n ∈ ns → Below ns 0 n
  | under {ns : List XmlNode} {n m : XmlNode} {d : Nat} : n ∈ ns → shapeText n = none →
      Below n.children d m → Below ns (d + 1) m

/-- The shape is the one of the node, `d` levels below the document. -/
structure Shape.Is (shape : Shape) (d : Nat) (sp : XmlNode) : Prop where
  depth : shape.depth = d
  title : shape.title = isTitle sp
  text : shapeText sp = some shape.text
  ne : shape.text ≠ []

mutual

theorem below_of_mem_shapesOf : ∀ (depth : Nat) (n : XmlNode) {shape : Shape},
    shape ∈ shapesOf depth n → ∃ d sp, Below [n] d sp ∧ shape.Is (depth + d) sp
  | depth, .element name attributes children, shape, h => by
    rw [shapesOf_eq] at h
    split at h
    · rename_i text htext
      split at h
      · exact absurd h List.not_mem_nil
      · rename_i hne
        obtain rfl := List.mem_singleton.mp h
        exact ⟨0, _, .here (List.mem_singleton_self _), rfl, rfl, htext, hne⟩
    · rename_i hnone
      obtain ⟨d, sp, hbelow, his⟩ := below_of_mem_shapesOfAll (depth + 1) children h
      refine ⟨d + 1, sp, .under (List.mem_singleton_self _) hnone hbelow, ?_⟩
      rwa [Nat.add_right_comm] at his
  | depth, .pcdata _, shape, h => absurd h List.not_mem_nil
  | depth, .cdata _, shape, h => absurd h List.not_mem_nil

theorem below_of_mem_shapesOfAll : ∀ (depth : Nat) (ns : List XmlNode) {shape : Shape},
    shape ∈ shapesOfAll depth ns → ∃ d sp, Below ns d sp ∧ shape.Is (depth + d) sp
  | depth, [], shape, h => absurd h List.not_mem_nil
  | depth, n :: rest, shape, h => by
    have hmono : ∀ {ns : List XmlNode} {d : Nat} {sp : XmlNode}, Below ns d sp →
        (∀ m ∈ ns, m ∈ n :: rest) → Below (n :: rest) d sp := by
      intro ns d sp hbelow hsub
      cases hbelow with
      | here hm => exact .here (hsub _ hm)
      | under hm hnone hrest => exact .under (hsub _ hm) hnone hrest
    rcases List.mem_append.mp h with h | h
    · obtain ⟨d, sp, hbelow, his⟩ := below_of_mem_shapesOf depth n h
      exact ⟨d, sp, hmono hbelow (by simp), his⟩
    · obtain ⟨d, sp, hbelow, his⟩ := below_of_mem_shapesOfAll depth rest h
      exact ⟨d, sp, hmono hbelow (by simp +contextual), his⟩

end

theorem mem_shapesOfAll_of_mem {depth : Nat} {ns : List XmlNode} {n : XmlNode} {shape : Shape}
    (hn : n ∈ ns) (h : shape ∈ shapesOf depth n) : shape ∈ shapesOfAll depth ns := by
  induction ns with
  | nil => cases hn
  | cons m rest ih =>
    rcases List.mem_cons.mp hn with rfl | hn
    · exact List.mem_append_left _ h
    · exact List.mem_append_right _ (ih hn)

/-- The shapes are those of the nodes that no shape with a text body is around. -/
theorem mem_shapesOfAll_iff {depth : Nat} {ns : List XmlNode} {shape : Shape} :
    shape ∈ shapesOfAll depth ns ↔ ∃ d sp, Below ns d sp ∧ shape.Is (depth + d) sp := by
  refine ⟨below_of_mem_shapesOfAll depth ns, ?_⟩
  rintro ⟨d, sp, hbelow, his⟩
  induction hbelow generalizing depth with
  | here hn =>
    refine mem_shapesOfAll_of_mem hn ?_
    rw [shapesOf_eq, his.text]
    dsimp only
    rw [if_neg his.ne, List.mem_singleton, ← his.title]
    obtain ⟨d, t, text⟩ := shape
    have hd : d = depth := his.depth
    rw [hd]
  | under hn hnone _ ih =>
    refine mem_shapesOfAll_of_mem hn ?_
    rw [shapesOf_eq, hnone]
    exact ih (by rwa [Nat.add_right_comm])

/-! ### The presentation -/

/-- The shapes of a slide that the walk sees. -/
def shapesIn (env : PptxEnv) (xml : Bytes) : List Shape :=
  match env.loadBuffer xml with
  | none => []
  | some nodes => (shapesOfAll 0 nodes).filter fun shape => shape.depth ≤ 8

theorem parseSlide_eq (env : PptxEnv) (xml : Bytes) : parseSlide env xml = .of (shapesIn env xml) := by
  rw [parseSlide, shapesIn]
  split
  · rfl
  · rename_i nodes _
    rw [walk_eq 8 0]
    refine (add_nil fun shape hshape => ?_).trans (by rw [Nat.zero_add]; rfl)
    obtain ⟨d, sp, -, his⟩ := mem_shapesOfAll_iff.mp (List.mem_of_mem_filter hshape)
    exact his.ne

variable {env : PptxEnv} {content filename : Bytes} {doc : ParsedDocument}

/-- What a run that succeeds has checked, and the document in terms of its slides. -/
theorem parse_ok : parse env content filename = .ok doc ↔
    let slides := unique [] (slideFiles env content)
    let xmls := slideXmls env content slides
    let sections := xmls.map fun xml => (parseSlide env xml).section
    content ≠ [] ∧ content.length ≤ kMaxInputBytes ∧ [80, 75, 3, 4] <+: content ∧
      slides.length ≤ kMaxPptxSlides ∧ xmls ≠ [] ∧
      xmls.flatten.length ≤ kPptxMaxTotalXmlBytes ∧
      doc = ⟨filename, pptxMime, sections, (sections.map ParsedSection.text).foldl addText []⟩ := by
  dsimp only
  rw [parse, Fallible.rejectIf_bind_ok, Fallible.rejectIf_bind_ok, Fallible.rejectIf_bind_ok,
    Nat.not_lt, not_not, List.isPrefixOf_iff_prefix]
  refine and_congr_right fun _ => and_congr_right fun _ => and_congr_right fun _ => ?_
  rw [Fallible.rejectIf_bind_ok, Fallible.rejectIf_bind_ok, Nat.not_lt, Fallible.bind_ok]
  constructor
  · rintro ⟨-, hcount, sections, hparse, hrest⟩
    obtain ⟨hne, hdoc⟩ := Fallible.rejectIf_bind_ok.mp hrest
    obtain ⟨hsum, rfl⟩ := (parseSlides_ok (Nat.zero_le _)).mp hparse
    cases hdoc
    exact ⟨hcount, fun hnil => hne (by rw [hnil]; rfl), by omega, rfl⟩
  · rintro ⟨hcount, hne, hsum, rfl⟩
    refine ⟨fun hnil => hne ?_, hcount, _, (parseSlides_ok (Nat.zero_le _)).mpr ⟨by omega, rfl⟩, ?_⟩
    · rw [hnil]
      rfl
    · exact Fallible.rejectIf_bind_ok.mpr ⟨by simpa using hne, rfl⟩

/-- A presentation is accepted exactly within the limits, and when the XML of a slide can be
extracted.  Its sections are then those slides, each file once, in the order of the presentation, and
the section of a slide has the first title as heading and the texts of the other shapes, down to
level 8, in the order of the document; where there is none of these, its text is the heading. -/
theorem parse_ok_iff (hsort : Sorting.Sorts slideNum (env.sort slideNum)) :
    let slides := unique [] (slideFiles env content)
    let xmls := slideXmls env content slides
    let sections := xmls.map fun xml => (Slide.of (shapesIn env xml)).section
    Presented env content slides ∧ (parse env content filename = .ok doc ↔
      content ≠ [] ∧ content.length ≤ kMaxInputBytes ∧ [80, 75, 3, 4] <+: content ∧
        slides.length ≤ kMaxPptxSlides ∧ xmls ≠ [] ∧
        xmls.flatten.length ≤ kPptxMaxTotalXmlBytes ∧
        doc = ⟨filename, pptxMime, sections,
          [10].intercalate ((sections.map ParsedSection.text).filter fun text => text ≠ [])⟩) := by
  dsimp only
  refine ⟨presented_slides hsort content, ?_⟩
  rw [parse_ok]
  simp only [parseSlide_eq, foldl_addText_nil]

/-! ### A presentation of one slide -/

def slidePath : Bytes := utf8 "ppt/slides/slide1.xml"

def slideXml : Bytes :=
  utf8 "<p:sld><p:sp><p:txBody><a:p><a:r><a:t>Hi</a:t></a:r></a:p></p:txBody></p:sp></p:sld>"

/-- The shape of the slide. -/
def slideShape : XmlNode :=
  .element (utf8 "p:sp") [] [.element (utf8 "p:txBody") [] [.element (utf8 "a:p") []
    [.element (utf8 "a:r") [] [.element (utf8 "a:t") [] [.pcdata (utf8 "Hi")]]]]]

def slideNodes : List XmlNode := [.element (utf8 "p:sld") [] [slideShape]]

/-- The archive with the slide, stored as it is. -/
def deck : Bytes :=
  [80, 75, 3, 4, 20, 0, 0, 0, 0, 0, 0, 0, 33, 0, 151, 5, 66, 47, 84, 0, 0, 0, 84, 0, 0, 0, 21, 0, 0,
    0] ++ slidePath ++ slideXml ++
  [80, 75, 1, 2, 20, 3, 20, 0, 0, 0, 0, 0, 0, 0, 33, 0, 151, 5, 66, 47, 84, 0, 0, 0, 84, 0, 0, 0,
    21, 0, 0, 0, 0, 0, 0, 0, 0, 0, 0, 0, 128, 1, 0, 0, 0, 0] ++ slidePath ++
  [80, 75, 5, 6, 0, 0, 0, 0, 1, 0, 1, 0, 67, 0, 0, 0, 135, 0, 0, 0, 0, 0]

def deckArchive : Archive where
  locate name := if name = slidePath then some ⟨84, some slideXml⟩ else none
  names := [slidePath]

def deckEnv : PptxEnv where
  unzOpen zip := if zip = deck then some deckArchive else none
  loadBuffer xml := if xml = slideXml then some slideNodes else none
  sort key := List.insertionSort fun p q => key p ≤ key q

def deckSection : ParsedSection := ⟨[], 1, utf8 "Hi", [], none⟩

theorem deckEnv_open : deckEnv.unzOpen deck = some deckArchive := by
  rw [deckEnv]
  dsimp only
  rw [if_pos rfl]

theorem deckEnv_nodes : deckEnv.loadBuffer slideXml = some slideNodes := by
  rw [deckEnv]
  dsimp only
  rw [if_pos rfl]

theorem deckEnv_slideXml : pptxExtract deckEnv deck slidePath = slideXml := by
  rw [pptxExtract, deckEnv_open]
  rfl

theorem deckEnv_slideOrder : slideOrderFromRels deckEnv deck = [] := by
  have hnone : pptxExtract deckEnv deck (utf8 "ppt/presentation.xml") = [] := by
    rw [pptxExtract, deckEnv_open]
    rfl
  rw [slideOrderFromRels, hnone]
  exact if_pos (.inl rfl)

theorem deckEnv_slideFiles : slideFiles deckEnv deck = [slidePath] := by
  rw [slideFiles, deckEnv_slideOrder]
  dsimp only
  rw [slideEntries, pptxListEntries, deckEnv_open]
  rfl

theorem deckEnv_parseSlide : parseSlide deckEnv slideXml = ⟨[], utf8 "Hi"⟩ := by
  rw [parseSlide, deckEnv_nodes]
  rfl

theorem deckEnv_slideXmls :
    slideXmls deckEnv deck (unique [] (slideFiles deckEnv deck)) = [slideXml] := by
  rw [deckEnv_slideFiles, slideXmls, show unique [] [slidePath] = [slidePath] from rfl,
    List.map_singleton, deckEnv_slideXml]
  rfl

set_option maxRecDepth 4000 in
theorem deck_parsed : Presented deckEnv deck [slidePath] ∧
    parse deckEnv deck (utf8 "deck.pptx") =
      .ok ⟨utf8 "deck.pptx", pptxMime, [deckSection], utf8 "Hi"⟩ := by
  have hsort : Sorting.Sorts slideNum (deckEnv.sort slideNum) :=
    ⟨fun l => List.perm_insertionSort _ l, fun l =>
      List.pairwise_map.mpr (List.pairwise_insertionSort (fun p q => slideNum p ≤ slideNum q) l)⟩
  obtain ⟨hslides, hok⟩ := @parse_ok_iff deckEnv deck (utf8 "deck.pptx")
    ⟨utf8 "deck.pptx", pptxMime, [deckSection], utf8 "Hi"⟩ hsort
  rw [deckEnv_slideFiles] at hslides
  refine ⟨hslides, hok.mpr ?_⟩
  rw [deckEnv_slideXmls, List.map_singleton, ← parseSlide_eq, deckEnv_parseSlide]
  refine ⟨List.cons_ne_nil _ _, by decide, ⟨_, rfl⟩, ?_, List.cons_ne_nil _ _, by decide, rfl⟩
  rw [deckEnv_slideFiles]
  decide

end Wikore.Parser.PptxParser
