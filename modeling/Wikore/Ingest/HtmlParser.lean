import Wikore.Ingest.SectionBuilders

/-! The walk over the tree of an HTML document.  The block walk and the inline text test each
element for suppression; the flattening of a table tests neither rows nor cells. -/

namespace Wikore.Parser

open Chunker (ParsedSection isspace substr findFirstNotOf findLastNotOf)
open ContextBuilder (Bytes utf8)

/-- A node of libxml2.  Of the nodes that are neither elements nor texts nothing is read. -/
inductive HtmlNode where
  | element (tag : Bytes) (attributes : List (Bytes × Bytes)) (children : List HtmlNode)
  | text (content : Bytes)
  | other

/-! ### Names -/

def nameEq (n : Bytes) (ref : String) : Bool := n.map tolower = (utf8 ref).map tolower

def headingLevel : Bytes → Nat
  | [h, digit] =>
    if (h = 104 ∨ h = 72) ∧ 49 ≤ digit ∧ digit ≤ 54 then (digit - 48).toNat else 0
  | _ => 0

def isBlockElement (tag : Bytes) : Bool :=
  tag ∈ ["p", "div", "article", "section", "main", "aside", "nav", "header", "footer",
    "blockquote", "pre", "ul", "ol", "dl", "li", "dt", "dd", "figure", "figcaption", "address",
    "h1", "h2", "h3", "h4", "h5", "h6", "tr", "th", "td"].map utf8

/-! ### `is_suppressed_element` -/

/-- `xmlGetProp`. -/
def getProp (attributes : List (Bytes × Bytes)) (name : String) : Option Bytes :=
  (attributes.find? fun a => a.1 = utf8 name).map Prod.snd

/-- The bytes `" \t\r\n\f\v"`. -/
def cssBlanks : Bytes := [32, 9, 13, 10, 12, 11]

/-- The lambda `trim`. -/
def cssTrim (s : Bytes) : Bytes :=
  match findFirstNotOf cssBlanks s, findLastNotOf cssBlanks s with
  | some f, some l => substr s f (l - f + 1)
  | _, _ => []

/-- Whether a declaration of a `style` attribute hides the element. -/
def declarationHides (decl : Bytes) : Bool :=
  if 58 ∈ decl then
    let prop := lowerAscii (cssTrim (decl.takeWhile fun c => c ≠ 58))
    let val := lowerAscii (cssTrim ((decl.dropWhile fun c => c ≠ 58).drop 1))
    -- what is from `!important` on is dropped
    let val := if 33 ∈ val then lowerAscii (cssTrim (val.takeWhile fun c => c ≠ 33)) else val
    (prop = utf8 "display" && val = utf8 "none") ||
      (prop = utf8 "visibility" && val = utf8 "hidden")
  else false

def isSuppressedElement (tag : Bytes) (attributes : List (Bytes × Bytes)) : Bool :=
  (nameEq tag "script" || nameEq tag "style" || nameEq tag "head" || nameEq tag "noscript" ||
      nameEq tag "svg" || nameEq tag "math") ||
    (getProp attributes "hidden").isSome ||
    getProp attributes "aria-hidden" = some (utf8 "true") ||
    (getProp attributes "style").any fun style => (style.splitOn 59).any declarationHides

/-! ### Inline text and tables -/

/-- The loop of `collapse_ws`; `ws` is whether white space has just been passed over. -/
def collapseFrom (ws : Bool) (out : Bytes) : Bytes → Bytes
  | [] => out
  | c :: s =>
    if isspace c then collapseFrom true out s
    else collapseFrom false ((if ws ∧ out ≠ [] then out ++ utf8 " " else out) ++ [c]) s

def collapseWs (text : Bytes) : Bytes := collapseFrom false [] text

mutual

/-- What a child adds to the text of its parent. -/
def textFromChild : HtmlNode → Bytes
  | .text content => collapseWs content
  | .element tag attributes children =>
    if isSuppressedElement tag attributes then [] else textFromChildren [] children
  | .other => []

/-- The loop of `text_from_node`. -/
def textFromChildren (out : Bytes) : List HtmlNode → Bytes
  | [] => out
  | c :: rest =>
    textFromChildren (if textFromChild c = [] then out else glue (utf8 " ") (textFromChild c) out)
      rest

end

def isCell (tag : Bytes) : Bool := nameEq tag "td" || nameEq tag "th"

def isRowGroup (tag : Bytes) : Bool :=
  nameEq tag "tbody" || nameEq tag "thead" || nameEq tag "tfoot" || nameEq tag "colgroup"

/-- The loop over the cells of a row. -/
def rowCells (first : Bool) : List HtmlNode → Bytes
  | [] => []
  | .element tag _ children :: rest =>
    if isCell tag then
      (if first then [] else utf8 " | ") ++ (textFromChildren [] children ++ rowCells false rest)
    else rowCells first rest
  | _ :: rest => rowCells first rest

mutual

/-- `find_rows`. -/
def findRows : List HtmlNode → Bytes
  | [] => []
  | c :: rest => findRow c ++ findRows rest

def findRow : HtmlNode → Bytes
  | .element tag _ children =>
    if nameEq tag "tr" then rowCells true children ++ utf8 "\n"
    else if isRowGroup tag then findRows children
    else []
  | _ => []

end

def flattenTable (children : List HtmlNode) : Bytes := findRows children

/-! ### The walk -/

structure Builder where
  outline : Outline
  pendingText : Bytes

def Builder.receive (b : Builder) (e : HtmlEvent) : Builder :=
  ⟨(HtmlBuilder.commands b.pendingText e).1.foldl Outline.exec b.outline,
    (HtmlBuilder.commands b.pendingText e).2⟩

mutual

def walkNode : HtmlNode → Builder → Builder
  | .text content, b =>
    if collapseWs content = [] then b else b.receive (.text (collapseWs content))
  | .other, b => b
  | .element tag attributes children, b =>
    if isSuppressedElement tag attributes then b
    else if 0 < headingLevel tag then
      b.receive (.heading (headingLevel tag) (trimTitle (textFromChildren [] children)))
    else if nameEq tag "br" then b.receive .newline
    else if nameEq tag "table" then b.receive (.table (flattenTable children))
    else if isBlockElement tag then
      (walkNodes children (b.receive .flush)).receive .newline
    else walkNodes children b

def walkNodes : List HtmlNode → Builder → Builder
  | [], b => b
  | c :: rest, b => walkNodes rest (walkNode c b)

end

/-- The sections of `HtmlParser::parse`, with the flush that commits trailing text. -/
def htmlSections (root : HtmlNode) : List ParsedSection :=
  ((walkNode root ⟨⟨[], []⟩, []⟩).receive .flush).outline.sections

/-! ### What is read, and what is hidden -/

/-- Which of the recursions a node is in; `first` is whether no cell of the row came before. -/
inductive Region where
  | block
  | inline
  | rows
  | row (first : Bool)
  | outside
deriving DecidableEq

namespace Region

def reads : Region → Bool
  | .block => true
  | .inline => true
  | _ => false

/-- The region of the children of an element. -/
def inside (region : Region) (tag : Bytes) (suppressed : Bool) : Region :=
  match region with
  | .block =>
    if suppressed then .outside
    else if 0 < headingLevel tag then .inline
    else if nameEq tag "br" then .outside
    else if nameEq tag "table" then .rows
    else .block
  | .inline => if suppressed then .outside else .inline
  | .rows => if nameEq tag "tr" then .row true else if isRowGroup tag then .rows else .outside
  | .row _ => if isCell tag then .inline else .outside
  | .outside => .outside

def after : Region → HtmlNode → Region
  | .row first, .element tag _ _ => if isCell tag then .row false else .row first
  | region, _ => region

/-- The bar before a cell that is not the first of its row. -/
def bars : Region → Bytes → Bool
  | .row first, tag => isCell tag && !first
  | _, _ => false

end Region

/-- A bar between cells, or a text with whether it is hidden and whether it is read. -/
inductive Token where
  | bar
  | text (hidden read : Bool) (content : Bytes)

mutual

/-- The texts below a node in document order, and the bars of its tables.  A text is hidden if it
has a suppressed element above it. -/
def tokensOf (region : Region) (hidden : Bool) : HtmlNode → List Token
  | .text content => [.text hidden region.reads content]
  | .other => []
  | .element tag attributes children =>
    (if region.bars tag then [.bar] else []) ++
      tokensOfAll (region.inside tag (isSuppressedElement tag attributes))
        (hidden || isSuppressedElement tag attributes) children

def tokensOfAll (region : Region) (hidden : Bool) : List HtmlNode → List Token
  | [] => []
  | c :: rest => tokensOf region hidden c ++ tokensOfAll (region.after c) hidden rest

end

/-- What a token shows of the text that is read. -/
def Token.shown : Token → Bytes
  | .bar => utf8 "|"
  | .text _ read content => if read then visible content else []

def shown (ts : List Token) : Bytes := ts.flatMap Token.shown

theorem shown_append (ts us : List Token) : shown (ts ++ us) = shown ts ++ shown us :=
  List.flatMap_append ..

/-! ### The sections show what is read -/

theorem visible_collapseFrom (ws : Bool) (out s : Bytes) :
    visible (collapseFrom ws out s) = visible out ++ visible s := by
  induction s generalizing ws out with
  | nil => exact (List.append_nil _).symm
  | cons c s ih =>
    rw [collapseFrom]
    split
    next hspace => rw [ih, visible_cons_space hspace]
    next hspace =>
      have hblank : visible (if ws = true ∧ out ≠ [] then out ++ utf8 " " else out) =
          visible out := by
        split
        · rw [visible_append]
          exact List.append_nil _
        · rfl
      have hspace : isspace c = false := Bool.eq_false_iff.mpr hspace
      rw [ih, visible_append, hblank, List.append_assoc, visible_cons hspace,
        visible_cons hspace]
      rfl

theorem visible_collapseWs (s : Bytes) : visible (collapseWs s) = visible s :=
  visible_collapseFrom false [] s

theorem visible_glue (sep text old : Bytes) (hsep : visible sep = []) :
    visible (glue sep text old) = visible old ++ visible text := by
  unfold glue
  rw [visible_append]
  split
  next h => rw [h]
  next => rw [visible_append, hsep, List.append_nil]

mutual

theorem shown_outside (hidden : Bool) (node : HtmlNode) :
    shown (tokensOf .outside hidden node) = [] := by
  match node with
  | .text _ => rfl
  | .other => rfl
  | .element tag attributes children => exact shown_outside_all _ children

theorem shown_outside_all (hidden : Bool) (nodes : List HtmlNode) :
    shown (tokensOfAll .outside hidden nodes) = [] := by
  match nodes with
  | [] => rfl
  | c :: rest =>
    rw [tokensOfAll, shown_append, shown_outside hidden c]
    exact shown_outside_all hidden rest

end

mutual

theorem visible_textFromChild (hidden : Bool) (node : HtmlNode) :
    visible (textFromChild node) = shown (tokensOf .inline hidden node) := by
  match node with
  | .text content =>
    rw [textFromChild, visible_collapseWs]
    exact (List.append_nil _).symm
  | .other => rfl
  | .element tag attributes children =>
    rw [textFromChild, tokensOf]
    split
    next hsuppressed =>
      rw [hsuppressed]
      exact (shown_outside_all _ children).symm
    next hshown =>
      rw [Bool.eq_false_iff.mpr hshown, visible_textFromChildren (hidden || false) [] children]
      rfl

theorem visible_textFromChildren (hidden : Bool) (out : Bytes) (nodes : List HtmlNode) :
    visible (textFromChildren out nodes) =
      visible out ++ shown (tokensOfAll .inline hidden nodes) := by
  match nodes with
  | [] => exact (List.append_nil _).symm
  | c :: rest =>
    rw [textFromChildren, visible_textFromChildren hidden _ rest, tokensOfAll, shown_append,
      ← visible_textFromChild hidden c, ← List.append_assoc]
    congr 1
    split
    next hempty =>
      rw [hempty]
      exact (List.append_nil _).symm
    next => exact visible_glue _ _ _ rfl

end

/-- Nothing below a node that is not an element, or of another name, is read in a row. -/
theorem visible_rowCells (hidden first : Bool) (nodes : List HtmlNode) :
    visible (rowCells first nodes) = shown (tokensOfAll (.row first) hidden nodes) := by
  induction nodes generalizing first with
  | nil => rfl
  | cons c rest ih =>
    rw [tokensOfAll, shown_append]
    cases c with
    | text content => exact ih first
    | other => exact ih first
    | element tag attributes children =>
      rw [rowCells, tokensOf, shown_append, Region.inside, Region.after, Region.bars]
      by_cases hcell : isCell tag = true
      · rw [if_pos hcell, if_pos hcell, if_pos hcell, hcell, visible_append, visible_append,
          visible_textFromChildren _ [] children, ih false, List.append_assoc]
        cases first <;> rfl
      · rw [if_neg hcell, if_neg hcell, if_neg hcell, Bool.eq_false_iff.mpr hcell,
          shown_outside_all, ih first]
        rfl

mutual

theorem visible_findRows (hidden : Bool) (nodes : List HtmlNode) :
    visible (findRows nodes) = shown (tokensOfAll .rows hidden nodes) := by
  match nodes with
  | [] => rfl
  | c :: rest =>
    rw [findRows, visible_append, visible_findRow hidden c, visible_findRows hidden rest,
      tokensOfAll, shown_append]
    rfl

theorem visible_findRow (hidden : Bool) (node : HtmlNode) :
    visible (findRow node) = shown (tokensOf .rows hidden node) := by
  match node with
  | .text _ => rfl
  | .other => rfl
  | .element tag attributes children =>
    rw [findRow, tokensOf, shown_append, Region.inside]
    split
    · rw [visible_append, visible_rowCells (hidden || isSuppressedElement tag attributes)]
      exact List.append_nil _
    · split
      · exact visible_findRows _ children
      · exact (shown_outside_all _ children).symm

end

/-- What an event says. -/
def eventText : HtmlEvent → Bytes
  | .text t => t
  | .flush => []
  | .newline => []
  | .table tbl => tbl
  | .heading _ title => title

/-- The visible bytes of the sections and of the text that waits. -/
def Shows (b : Builder) (bytes : Bytes) : Prop :=
  ∃ es, b.outline.Law [] es ∧ visible (said es) ++ visible b.pendingText = bytes

section Events

variable {o : Outline} {es : List Entry}

/-- A text that is added after white space is added to what is visible. -/
theorem visible_receive_glue {sep : Bytes} (hsep : visible sep = []) (text : Bytes) :
    visible (said (receive (receive es .implicitSection) (.setText (glue sep text)))) =
      visible (said es) ++ visible text := by
  obtain ⟨gap, hgap, hsaid⟩ := said_receive_glue sep text es
  have hblank : visible gap = [] := by
    rcases hgap with rfl | rfl
    · rfl
    · exact hsep
  rw [hsaid, visible_append, visible_append, hblank, List.nil_append]

theorem visible_flushText (pending : Bytes) :
    visible (said ((HtmlBuilder.flushText pending).foldl receive es)) =
      visible (said es) ++ visible pending := by
  unfold HtmlBuilder.flushText
  split
  next hnone =>
    rw [visible_of_trim hnone]
    exact (List.append_nil _).symm
  next t hsome =>
    rw [← visible_trim hsome]
    exact visible_receive_glue rfl t

theorem visible_endLine (es : List Entry) :
    visible (said (receive es (.setText HtmlBuilder.endLine))) = visible (said es) := by
  cases es using List.reverseRecOn with
  | nil => rfl
  | append_singleton init e =>
    have hend : visible (HtmlBuilder.endLine e.text) = visible e.text := by
      unfold HtmlBuilder.endLine
      split
      · rw [visible_append]
        exact List.append_nil _
      · rfl
    show visible (said (onLast _ (init ++ [e]))) = _
    rw [onLast_concat, said_concat, said_concat, visible_append, visible_append, visible_append,
      visible_append]
    exact congrArg (fun t => _ ++ (_ ++ t)) hend

theorem visible_heading (es : List Entry) (title : Bytes) (depth : Nat) :
    visible (said (receive es (.openSection title depth))) =
      visible (said es) ++ visible title := by
  show visible (said (es ++ [⟨title, depth, []⟩])) = _
  rw [said_concat, visible_append, List.append_nil]

/-- An event adds what it says. -/
theorem receive_shows {b : Builder} {bytes : Bytes} (h : Shows b bytes) (e : HtmlEvent) :
    Shows (b.receive e) (bytes ++ visible (eventText e)) := by
  obtain ⟨es, hlaw, rfl⟩ := h
  refine ⟨_, hlaw.execAll (HtmlBuilder.commands b.pendingText e).1, ?_⟩
  cases e with
  | text t =>
    show visible (said es) ++ visible (b.pendingText ++ t ++ utf8 " ") = _
    rw [visible_append, visible_append, List.append_assoc, List.append_assoc]
    exact congrArg (_ ++ ·) (congrArg (_ ++ ·) (List.append_nil _))
  | flush =>
    show visible (said ((HtmlBuilder.flushText _).foldl receive es)) ++ [] = _ ++ []
    rw [visible_flushText]
  | newline =>
    show visible (said ((HtmlBuilder.flushText _ ++ [_]).foldl receive es)) ++ [] = _ ++ []
    rw [List.foldl_append, List.foldl_cons, List.foldl_nil, visible_endLine, visible_flushText]
  | table tbl =>
    show visible (said ((HtmlBuilder.flushText _ ++ _).foldl receive es)) ++ [] = _
    rw [List.foldl_append, List.append_nil]
    split
    next hempty =>
      rw [List.foldl_nil, visible_flushText, eventText, hempty]
      exact (List.append_nil _).symm
    next =>
      show visible (said (receive (receive _ .implicitSection) (.setText (glue _ tbl)))) = _
      rw [visible_receive_glue rfl, visible_flushText]
      rfl
  | heading depth title =>
    show visible (said ((HtmlBuilder.flushText _ ++ _).foldl receive es)) ++ [] = _
    rw [List.foldl_append, List.append_nil]
    split
    next hempty =>
      rw [List.foldl_nil, visible_flushText, eventText, hempty]
      exact (List.append_nil _).symm
    next =>
      show visible (said (receive _ (.openSection title depth))) = _
      rw [visible_heading, visible_flushText]
      rfl

end Events

mutual

theorem walkNode_shows (hidden : Bool) (node : HtmlNode) {b : Builder} {bytes : Bytes}
    (h : Shows b bytes) : Shows (walkNode node b) (bytes ++ shown (tokensOf .block hidden node)) := by
  match node with
  | .text content =>
    have hshown : shown (tokensOf .block hidden (.text content)) = visible (collapseWs content) := by
      rw [visible_collapseWs]
      exact List.append_nil _
    rw [walkNode, hshown]
    split
    next hempty =>
      rw [hempty]
      exact (List.append_nil bytes).symm ▸ h
    next => exact receive_shows h (.text (collapseWs content))
  | .other => exact (List.append_nil bytes).symm ▸ h
  | .element tag attributes children =>
    rw [walkNode, tokensOf, shown_append, Region.inside]
    show Shows _ (bytes ++ ([] ++ _))
    rw [List.nil_append]
    split
    next hsuppressed =>
      rw [shown_outside_all, List.append_nil]
      exact h
    split
    next hheading =>
      have hevent := receive_shows h
        (.heading (headingLevel tag) (trimTitle (textFromChildren [] children)))
      rw [eventText, visible_trimTitle, visible_textFromChildren
        (hidden || isSuppressedElement tag attributes) [] children] at hevent
      exact hevent
    split
    next hbr =>
      rw [shown_outside_all]
      exact receive_shows h .newline
    split
    next htable =>
      have hevent := receive_shows h (.table (flattenTable children))
      rw [eventText, flattenTable,
        visible_findRows (hidden || isSuppressedElement tag attributes)] at hevent
      exact hevent
    split
    next hblock =>
      have hflush := receive_shows h .flush
      have hinner := walkNodes_shows (hidden || isSuppressedElement tag attributes) children hflush
      have hend := receive_shows hinner .newline
      have hnil : visible (eventText .flush) = [] := rfl
      have hnil' : visible (eventText .newline) = [] := rfl
      rw [hnil, hnil', List.append_nil, List.append_nil] at hend
      exact hend
    next => exact walkNodes_shows _ children h

theorem walkNodes_shows (hidden : Bool) (nodes : List HtmlNode) {b : Builder} {bytes : Bytes}
    (h : Shows b bytes) :
    Shows (walkNodes nodes b) (bytes ++ shown (tokensOfAll .block hidden nodes)) := by
  match nodes with
  | [] => exact (List.append_nil bytes).symm ▸ h
  | c :: rest =>
    have hrest := walkNodes_shows hidden rest (walkNode_shows hidden c h)
    rw [List.append_assoc, ← shown_append] at hrest
    exact hrest

end

/-- The visible bytes of the sections are those of the texts that are read, with the bars. -/
theorem visible_htmlSections (root : HtmlNode) :
    visible (textsOf (htmlSections root)).flatten = shown (tokensOf .block false root) := by
  have hstart : Shows ⟨⟨[], []⟩, []⟩ [] := ⟨[], Outline.law_nil [], rfl⟩
  have hend := receive_shows (walkNode_shows false root hstart) .flush
  obtain ⟨es, hlaw, hbytes⟩ := hend
  have hnil : visible (eventText .flush) = [] := rfl
  rw [hnil, List.append_nil, List.nil_append] at hbytes
  rw [htmlSections, hlaw.said, ← hbytes]
  exact (List.append_nil _).symm

/-! ### The order of the visible text -/

/-- What is left without white space and bars. -/
def bare (s : Bytes) : Bytes := s.filter fun c => !isspace c && c != 124

mutual

/-- The text nodes in document order. -/
def textNodes : HtmlNode → List Bytes
  | .text content => [content]
  | .other => []
  | .element _ _ children => textNodesAll children

def textNodesAll : List HtmlNode → List Bytes
  | [] => []
  | c :: rest => textNodes c ++ textNodesAll rest

end

namespace Token

def read : Token → Bool
  | .bar => true
  | .text _ read _ => read

/-- The bare bytes of a text, read or not. -/
def bareText : Token → Bytes
  | .bar => []
  | .text _ _ content => bare content

end Token

theorem bare_append (s t : Bytes) : bare (s ++ t) = bare s ++ bare t := List.filter_append ..

mutual

theorem bare_textNodes (region : Region) (hidden : Bool) (node : HtmlNode) :
    bare (textNodes node).flatten = (tokensOf region hidden node).flatMap Token.bareText := by
  match node with
  | .text content =>
    show bare (content ++ []) = bare content ++ []
    rw [List.append_nil, List.append_nil]
  | .other => rfl
  | .element tag attributes children =>
    rw [textNodes, tokensOf, List.flatMap_append, bare_textNodesAll]
    split <;> rfl

theorem bare_textNodesAll (region : Region) (hidden : Bool) (nodes : List HtmlNode) :
    bare (textNodesAll nodes).flatten =
      (tokensOfAll region hidden nodes).flatMap Token.bareText := by
  match nodes with
  | [] => rfl
  | c :: rest =>
    rw [textNodesAll, List.flatten_append, bare_append, bare_textNodes region hidden c,
      bare_textNodesAll (region.after c) hidden rest, tokensOfAll, List.flatMap_append]

end

theorem bare_eq (s : Bytes) : bare s = (visible s).filter fun c => c != 124 := by
  rw [bare, visible, List.filter_filter]
  refine List.filter_congr fun c _ => Bool.and_comm _ _

/-- Without the bars what is shown is the text that is read. -/
theorem bare_shown (ts : List Token) :
    (shown ts).filter (fun c => c != 124) = (ts.filter Token.read).flatMap Token.bareText := by
  induction ts with
  | nil => rfl
  | cons t ts ih =>
    show (t.shown ++ shown ts).filter _ = _
    rw [List.filter_append, ih, List.filter_cons]
    cases t with
    | bar => rfl
    | text hidden read content =>
      cases read with
      | true =>
        show (visible content).filter _ ++ _ = bare content ++ _
        rw [bare_eq]
        rfl
      | false => rfl

/-- The sections say what the text nodes say, in their order, exactly if the text that is not read
has nothing but white space and bars. -/
theorem htmlSections_bare_iff (root : HtmlNode) :
    bare (textsOf (htmlSections root)).flatten = bare (textNodes root).flatten ↔
      ∀ t ∈ tokensOf .block false root, t.read = false → t.bareText = [] := by
  rw [bare_eq, visible_htmlSections, bare_shown, bare_textNodes .block false root,
    flatMap_filter_eq_iff]

/-- A table with a caption. -/
def captionedTable : HtmlNode :=
  .element (utf8 "table") [] [.element (utf8 "caption") [] [.text (utf8 "x")],
    .element (utf8 "tr") [] [.element (utf8 "td") [] [.text (utf8 "a")]]]

theorem captionedTable_loses :
    bare (textsOf (htmlSections captionedTable)).flatten = utf8 "a" ∧
      bare (textNodes captionedTable).flatten = utf8 "xa" ∧ utf8 "a" ≠ utf8 "xa" :=
  ⟨by decide, by decide, by decide⟩

/-! ### Hidden text -/

mutual

/-- The tree without its hidden text. -/
def eraseHidden (hidden : Bool) : HtmlNode → HtmlNode
  | .text content => if hidden then .text [] else .text content
  | .other => .other
  | .element tag attributes children =>
    .element tag attributes (eraseHiddenAll (hidden || isSuppressedElement tag attributes) children)

def eraseHiddenAll (hidden : Bool) : List HtmlNode → List HtmlNode
  | [] => []
  | c :: rest => eraseHidden hidden c :: eraseHiddenAll hidden rest

end

/-- No hidden text that is read has anything but white space. -/
def Quiet (ts : List Token) : Prop :=
  ∀ content, Token.text true true content ∈ ts → visible content = []

theorem quiet_append {ts us : List Token} (h : Quiet (ts ++ us)) : Quiet ts ∧ Quiet us :=
  ⟨fun content hc => h content (List.mem_append_left _ hc),
    fun content hc => h content (List.mem_append_right _ hc)⟩

theorem collapseFrom_blank (ws : Bool) {s : Bytes} (h : ∀ c ∈ s, isspace c = true) :
    collapseFrom ws [] s = [] := by
  induction s generalizing ws with
  | nil => rfl
  | cons c s ih =>
    rw [collapseFrom, if_pos (h c List.mem_cons_self)]
    exact ih true fun d hd => h d (List.mem_cons_of_mem c hd)

theorem collapseWs_blank {s : Bytes} (h : visible s = []) : collapseWs s = [] :=
  collapseFrom_blank false (isspace_of_visible h)

mutual

theorem textFromChild_erase {hidden : Bool} (node : HtmlNode)
    (h : Quiet (tokensOf .inline hidden node)) :
    textFromChild (eraseHidden hidden node) = textFromChild node := by
  match node with
  | .text content =>
    cases hidden with
    | false => rfl
    | true => exact (collapseWs_blank (h content List.mem_cons_self)).symm
  | .other => rfl
  | .element tag attributes children =>
    rw [eraseHidden, textFromChild, textFromChild]
    split
    · rfl
    next hshown =>
      have hinner := (quiet_append h).2
      rw [Region.inside, if_neg hshown] at hinner
      exact textFromChildren_erase [] children hinner

theorem textFromChildren_erase {hidden : Bool} (out : Bytes) (nodes : List HtmlNode)
    (h : Quiet (tokensOfAll .inline hidden nodes)) :
    textFromChildren out (eraseHiddenAll hidden nodes) = textFromChildren out nodes := by
  match nodes with
  | [] => rfl
  | c :: rest =>
    rw [eraseHiddenAll, textFromChildren, textFromChildren,
      textFromChild_erase c (quiet_append h).1]
    exact textFromChildren_erase _ rest (quiet_append h).2

end

theorem rowCells_erase {hidden : Bool} (first : Bool) (nodes : List HtmlNode)
    (h : Quiet (tokensOfAll (.row first) hidden nodes)) :
    rowCells first (eraseHiddenAll hidden nodes) = rowCells first nodes := by
  induction nodes generalizing first with
  | nil => rfl
  | cons c rest ih =>
    obtain ⟨hc, hrest⟩ := quiet_append h
    cases c with
    | text content =>
      rw [eraseHiddenAll, eraseHidden]
      split <;> exact ih first hrest
    | other => exact ih first hrest
    | element tag attributes children =>
      rw [eraseHiddenAll, eraseHidden, rowCells, rowCells]
      rw [Region.after] at hrest
      split
      next hcell =>
        have hinner := (quiet_append hc).2
        rw [Region.inside, if_pos hcell] at hinner
        rw [if_pos hcell] at hrest
        rw [textFromChildren_erase [] children hinner, ih false hrest]
      next hcell =>
        rw [if_neg hcell] at hrest
        exact ih first hrest

mutual

theorem findRows_erase {hidden : Bool} (nodes : List HtmlNode)
    (h : Quiet (tokensOfAll .rows hidden nodes)) :
    findRows (eraseHiddenAll hidden nodes) = findRows nodes := by
  match nodes with
  | [] => rfl
  | c :: rest =>
    rw [eraseHiddenAll, findRows, findRows, findRow_erase c (quiet_append h).1,
      findRows_erase rest (quiet_append h).2]

theorem findRow_erase {hidden : Bool} (node : HtmlNode)
    (h : Quiet (tokensOf .rows hidden node)) :
    findRow (eraseHidden hidden node) = findRow node := by
  match node with
  | .text content =>
    rw [eraseHidden]
    split <;> rfl
  | .other => rfl
  | .element tag attributes children =>
    have hinner := (quiet_append h).2
    rw [eraseHidden, findRow, findRow]
    rw [Region.inside] at hinner
    split
    next hrow =>
      rw [if_pos hrow] at hinner
      rw [rowCells_erase true children hinner]
    next hrow =>
      rw [if_neg hrow] at hinner
      split
      next hgroup =>
        rw [if_pos hgroup] at hinner
        exact findRows_erase children hinner
      next => rfl

end

mutual

/-- Quiet hidden text does not change the walk. -/
theorem walkNode_erase {hidden : Bool} (node : HtmlNode) (b : Builder)
    (h : Quiet (tokensOf .block hidden node)) :
    walkNode (eraseHidden hidden node) b = walkNode node b := by
  match node with
  | .text content =>
    cases hidden with
    | false => rfl
    | true =>
      have hblank := collapseWs_blank (h content List.mem_cons_self)
      show walkNode (.text []) b = walkNode (.text content) b
      rw [walkNode, walkNode, hblank]
      rfl
  | .other => rfl
  | .element tag attributes children =>
    have hinner := (quiet_append h).2
    rw [eraseHidden, walkNode, walkNode]
    rw [Region.inside] at hinner
    split
    · rfl
    next hshown =>
    rw [if_neg hshown] at hinner
    split
    next hheading =>
      rw [if_pos hheading] at hinner
      rw [textFromChildren_erase [] children hinner]
    next hheading =>
    rw [if_neg hheading] at hinner
    split
    · rfl
    next hbr =>
    rw [if_neg hbr] at hinner
    split
    next htable =>
      rw [if_pos htable] at hinner
      rw [flattenTable, flattenTable, findRows_erase children hinner]
    next htable =>
    rw [if_neg htable] at hinner
    split
    · rw [walkNodes_erase children _ hinner]
    · exact walkNodes_erase children b hinner

theorem walkNodes_erase {hidden : Bool} (nodes : List HtmlNode) (b : Builder)
    (h : Quiet (tokensOfAll .block hidden nodes)) :
    walkNodes (eraseHiddenAll hidden nodes) b = walkNodes nodes b := by
  match nodes with
  | [] => rfl
  | c :: rest =>
    rw [eraseHiddenAll, walkNodes, walkNodes, walkNode_erase c b (quiet_append h).1]
    exact walkNodes_erase rest _ (quiet_append h).2

end

def Token.erase : Token → Token
  | .bar => .bar
  | .text hidden read content => .text hidden read (if hidden then [] else content)

theorem after_erase (region : Region) (hidden : Bool) (node : HtmlNode) :
    region.after (eraseHidden hidden node) = region.after node := by
  cases node with
  | text content =>
    rw [eraseHidden]
    split <;> cases region <;> rfl
  | other => rfl
  | element tag attributes children => cases region <;> rfl

mutual

theorem tokensOf_erase (region : Region) (hidden : Bool) (node : HtmlNode) :
    tokensOf region hidden (eraseHidden hidden node) =
      (tokensOf region hidden node).map Token.erase := by
  match node with
  | .text content => cases hidden <;> rfl
  | .other => rfl
  | .element tag attributes children =>
    rw [eraseHidden, tokensOf, tokensOf, List.map_append, tokensOfAll_erase]
    split <;> rfl

theorem tokensOfAll_erase (region : Region) (hidden : Bool) (nodes : List HtmlNode) :
    tokensOfAll region hidden (eraseHiddenAll hidden nodes) =
      (tokensOfAll region hidden nodes).map Token.erase := by
  match nodes with
  | [] => rfl
  | c :: rest =>
    rw [eraseHiddenAll, tokensOfAll, tokensOfAll, List.map_append, tokensOf_erase region hidden c,
      after_erase, tokensOfAll_erase (region.after c) hidden rest]

end

theorem length_shown_erase (t : Token) : t.erase.shown.length ≤ t.shown.length := by
  cases t with
  | bar => exact Nat.le_refl _
  | text hidden read content =>
    cases hidden with
    | false => exact Nat.le_refl _
    | true => cases read <;> exact Nat.zero_le _

theorem length_shown_le (ts : List Token) :
    (shown (ts.map Token.erase)).length ≤ (shown ts).length := by
  induction ts with
  | nil => exact Nat.le_refl _
  | cons t ts ih =>
    show (t.erase.shown ++ shown _).length ≤ (t.shown ++ shown ts).length
    rw [List.length_append, List.length_append]
    exact Nat.add_le_add (length_shown_erase t) ih

/-- Hidden text that is read takes room. -/
theorem quiet_of_length {ts : List Token}
    (h : (shown (ts.map Token.erase)).length = (shown ts).length) : Quiet ts := by
  induction ts with
  | nil => nofun
  | cons t ts ih =>
    have h : (t.erase.shown ++ shown (ts.map Token.erase)).length = (t.shown ++ shown ts).length := h
    rw [List.length_append, List.length_append] at h
    have hhead := length_shown_erase t
    have htail := length_shown_le ts
    intro content hc
    rcases List.mem_cons.mp hc with rfl | hc
    · have hnil : 0 = (visible content).length := by
        have hzero : (Token.text true true content).erase.shown.length = 0 := rfl
        have hlen : (Token.text true true content).shown.length = (visible content).length := rfl
        omega
      exact List.length_eq_zero_iff.mp hnil.symm
    · exact ih (by omega) content hc

/-- Hidden text adds nothing to the sections exactly if what is read of it is white space. -/
theorem htmlSections_erase_iff (root : HtmlNode) :
    htmlSections (eraseHidden false root) = htmlSections root ↔
      ∀ content, Token.text true true content ∈ tokensOf .block false root →
        visible content = [] := by
  constructor
  · intro h
    refine quiet_of_length ?_
    rw [← tokensOf_erase, ← visible_htmlSections, ← visible_htmlSections, h]
  · intro h
    rw [htmlSections, walkNode_erase root _ h]
    rfl

/-- A table with a hidden row. -/
def hiddenRow : HtmlNode :=
  .element (utf8 "table") [] [.element (utf8 "tr") [(utf8 "hidden", [])]
    [.element (utf8 "td") [] [.text (utf8 "x")]]]

theorem hiddenRow_leaks : isSuppressedElement (utf8 "tr") [(utf8 "hidden", [])] = true ∧
    (textsOf (htmlSections hiddenRow)).flatten = utf8 "x\n" ∧
    htmlSections (eraseHidden false hiddenRow) ≠ htmlSections hiddenRow := by
  have hshown : (textsOf (htmlSections hiddenRow)).flatten = utf8 "x\n" := by decide
  refine ⟨by decide, hshown, fun h => ?_⟩
  rw [← h] at hshown
  exact absurd hshown (by decide)

end Wikore.Parser
