import Wikore.Ingest.SectionBuilders
import Wikore.Ingest.XmlTree
import Wikore.Lib.Budget
import Wikore.Lib.Weave

/-! The body of an ODT document.  All text is charged to one budget.  A list inside a list item is
walked as if it were a section, so that the items of an inner list are not dispatched. -/

namespace Wikore.Parser

open Budget
open Chunker (ParsedSection isspace)
open ContextBuilder (Bytes utf8)
open Weave
open XmlNode (localName)

def kOdtMaxSpanDepth : Nat := 64

def kMaxWalkDepth : Nat := 64

def kMaxOdtSpaceExpansion : Int := 256

/-- `attr_by_local`. -/
def attrByLocal (attributes : List (Bytes × Bytes)) (name : String) : Option Bytes :=
  (attributes.find? fun a => localName a.1 = utf8 name).map Prod.snd

section Parse

-- `as_int` of pugixml
variable (asInt : Bytes → Int)

def attrInt (attributes : List (Bytes × Bytes)) (name : String) : Int :=
  match attrByLocal attributes name with
  | some value => asInt value
  | none => 1

/-- How many blanks a `text:s` stands for. -/
def spaceCount (attributes : List (Bytes × Bytes)) : Nat :=
  (max 0 (min (attrInt asInt attributes "c") kMaxOdtSpaceExpansion)).toNat

def outlineLevel (attributes : List (Bytes × Bytes)) : Nat :=
  (max 1 (min (attrInt asInt attributes "outline-level") 6)).toNat

/-- The inline elements whose text is collected. -/
def transparent : List Bytes :=
  ["span", "a", "bookmark", "bookmark-start", "bookmark-end", "reference-mark",
    "reference-mark-start"].map utf8

/-! ### `collect_text` -/

mutual

/-- One pass of the loop of `collect_text`. -/
def collectChild (depth : Nat) : XmlNode → Limited Bytes
  | .pcdata value => do
    consume value.length
    pure value
  | .cdata value => do
    consume value.length
    pure value
  | .element name attributes children =>
    if localName name = utf8 "s" then do
      consume (spaceCount asInt attributes)
      pure (List.replicate (spaceCount asInt attributes) 32)
    else if localName name = utf8 "tab" then do
      consume 1
      pure (utf8 "\t")
    else if localName name = utf8 "line-break" then do
      consume 1
      pure (utf8 "\n")
    else if localName name ∈ transparent then
      if kOdtMaxSpanDepth < depth + 1 then truncate else collectAll (depth + 1) children
    else pure []

def collectAll (depth : Nat) : List XmlNode → Limited Bytes
  | [] => pure []
  | child :: rest => do
    let t ← collectChild depth child
    let u ← collectAll depth rest
    pure (t ++ u)

end

def collectText (n : XmlNode) : Limited Bytes := collectAll asInt 0 n.children

/-! ### `flatten_odt_table` -/

/-- The paragraphs of a cell; `cp` is whether one with text came before. -/
def cellText (cp : Bool) : List XmlNode → Limited Bytes
  | [] => pure []
  | p :: rest =>
    if localName p.name = utf8 "p" ∨ localName p.name = utf8 "h" then do
      let t ← collectText asInt p
      if t = [] then cellText cp rest
      else if cp then do
        consume 1
        let u ← cellText true rest
        pure (utf8 " " ++ (t ++ u))
      else do
        let u ← cellText true rest
        pure (t ++ u)
    else cellText cp rest

def rowText (first : Bool) : List XmlNode → Limited Bytes
  | [] => pure []
  | cell :: rest =>
    if localName cell.name = utf8 "table-cell" then
      if first then do
        let t ← cellText asInt false cell.children
        let u ← rowText false rest
        pure (t ++ u)
      else do
        consume 3
        let t ← cellText asInt false cell.children
        let u ← rowText false rest
        pure (utf8 " | " ++ (t ++ u))
    else rowText first rest

def tableText : List XmlNode → Limited Bytes
  | [] => pure []
  | row :: rest =>
    if localName row.name = utf8 "table-row" then do
      let t ← rowText asInt true row.children
      consume 1
      let u ← tableText rest
      pure (t ++ (utf8 "\n" ++ u))
    else tableText rest

def flattenOdtTable (tbl : XmlNode) : Limited Bytes := tableText asInt tbl.children

/-! ### `parse_odt_body` -/

mutual

/-- One pass of the loop of `walk`. -/
def walkChild (depth : Nat) : XmlNode → Outline → Limited Outline
  | .element name attributes children, o =>
    if localName name = utf8 "h" then do
      let t ← collectAll asInt 0 children
      if trimTitle t = [] then pure o
      else pure (o.openSection (heading (trimTitle t) (outlineLevel asInt attributes)))
    else if localName name = utf8 "p" then do
      let t ← collectAll asInt 0 children
      pure (o.appendLine t)
    else if localName name = utf8 "list" then walkItems depth children o
    else if localName name = utf8 "table" then do
      let t ← tableText asInt children
      pure (o.appendLine t)
    else if localName name = utf8 "section" ∨ localName name = utf8 "text-section" then
      if kMaxWalkDepth < depth + 1 then truncate else walkAll (depth + 1) children o
    else pure o
  | _, o => pure o

def walkAll (depth : Nat) : List XmlNode → Outline → Limited Outline
  | [], o => pure o
  | child :: rest, o => do
    let o ← walkChild depth child o
    walkAll depth rest o

/-- The loop over the children of a list. -/
def walkItems (depth : Nat) : List XmlNode → Outline → Limited Outline
  | [], o => pure o
  | item :: rest, o => do
    let o ← walkItem depth item o
    walkItems depth rest o

def walkItem (depth : Nat) : XmlNode → Outline → Limited Outline
  | .element name _ children, o =>
    if localName name = utf8 "list-item" then walkItemChildren depth children o else pure o
  | _, o => pure o

/-- The loop over the children of an item. -/
def walkItemChildren (depth : Nat) : List XmlNode → Outline → Limited Outline
  | [], o => pure o
  | child :: rest, o => do
    let o ← walkItemChild depth child o
    walkItemChildren depth rest o

def walkItemChild (depth : Nat) : XmlNode → Outline → Limited Outline
  | .element name _ children, o =>
    if localName name = utf8 "p" then do
      let t ← collectAll asInt 0 children
      if t = [] then pure o else pure (o.appendLine (utf8 "- " ++ t))
    else if localName name = utf8 "list" then
      if kMaxWalkDepth < depth + 1 then truncate else walkAll (depth + 1) children o
    else pure o
  | _, o => pure o

end

def parseOdtBody (body : XmlNode) : Limited Outline := walkAll asInt 0 body.children ⟨[], []⟩

end Parse

/-! ### The paragraphs of a body -/

/-- Where an element stands, as far as the walk tells places apart. -/
inductive Place where
  | body
  | list
  | item
  | table
  | row
  | cell
  | outside
deriving DecidableEq

def containers : List Bytes :=
  ["section", "text-section", "list", "list-item", "table", "table-header-rows", "table-rows",
    "table-row-group", "table-row", "table-cell", "covered-table-cell"].map utf8

/-- The place inside a container; the walk does not go to `outside`. -/
def Place.next (place : Place) (name : Bytes) : Option Place :=
  if name ∉ containers then none
  else some <| match place with
    | .body =>
      if name = utf8 "list" then .list
      else if name = utf8 "table" then .table
      else if name = utf8 "section" ∨ name = utf8 "text-section" then .body
      else .outside
    | .list => if name = utf8 "list-item" then .item else .outside
    | .item => if name = utf8 "list" then .body else .outside
    | .table => if name = utf8 "table-row" then .row else .outside
    | .row => if name = utf8 "table-cell" then .cell else .outside
    | .cell => .outside
    | .outside => .outside

/-- Whether the walk reads an element of a name, `p` or `h`, at a place. -/
def Place.reads (place : Place) (name : Bytes) : Bool :=
  match place with
  | .body => true
  | .item => name = utf8 "p"
  | .cell => true
  | _ => false

mutual

/-- The paragraphs and headings that are reached through containers, in document order, each with
whether the walk reads it. -/
def paragraphsOf (place : Place) : XmlNode → List (Bool × XmlNode)
  | .element name attributes children =>
    if localName name = utf8 "p" ∨ localName name = utf8 "h" then
      [(place.reads (localName name), .element name attributes children)]
    else match place.next (localName name) with
      | some inner => paragraphsOfAll inner children
      | none => []
  | _ => []

def paragraphsOfAll (place : Place) : List XmlNode → List (Bool × XmlNode)
  | [] => []
  | node :: rest => paragraphsOf place node ++ paragraphsOfAll place rest

end

section Text

variable (asInt : Bytes → Int)

mutual

/-- The text of a child of a paragraph, whatever the budget. -/
def plainChild : XmlNode → Bytes
  | .pcdata value => value
  | .cdata value => value
  | .element name attributes children =>
    if localName name = utf8 "s" then List.replicate (spaceCount asInt attributes) 32
    else if localName name = utf8 "tab" then utf8 "\t"
    else if localName name = utf8 "line-break" then utf8 "\n"
    else if localName name ∈ transparent then plainAll children
    else []

def plainAll : List XmlNode → Bytes
  | [] => []
  | child :: rest => plainChild child ++ plainAll rest

end

def plainText (n : XmlNode) : Bytes := plainAll asInt n.children

/-- The text of a paragraph; that of a heading without the blanks around it. -/
def pieceOf (n : XmlNode) : Bytes :=
  if localName n.name = utf8 "h" then trimTitle (plainText asInt n) else plainText asInt n

/-- The texts of the paragraphs that are not blank. -/
def pieces (ps : List (Bool × XmlNode)) : List Bytes :=
  ((ps.map Prod.snd).filter fun n => visible (plainText asInt n) ≠ []).map (pieceOf asInt)

/-- The bars between the cells of a row. -/
def rowMarks (first : Bool) : List XmlNode → List Bytes
  | [] => []
  | cell :: rest =>
    if localName cell.name = utf8 "table-cell" then
      (if first then [] else [utf8 "|"]) ++ rowMarks false rest
    else rowMarks first rest

mutual

/-- What the walk writes besides the texts and white space: the dashes before the paragraphs of
items and the bars between cells. -/
def marksOf (place : Place) : XmlNode → List Bytes
  | .element name _ children =>
    if place = .item ∧ localName name = utf8 "p" then
      if plainAll asInt children = [] then [] else [utf8 "-"]
    else if place = .table ∧ localName name = utf8 "table-row" then rowMarks true children
    else match place.next (localName name) with
      | some inner => marksOfAll inner children
      | none => []
  | _ => []

def marksOfAll (place : Place) : List XmlNode → List Bytes
  | [] => []
  | node :: rest => marksOf place node ++ marksOfAll place rest

end

end Text

/-! ### What the walk writes -/

section Spec

variable {asInt : Bytes → Int}

mutual

theorem collectChild_returns (depth : Nat) (node : XmlNode) :
    Returns (collectChild asInt depth node) (· = plainChild asInt node) := by
  match node with
  | .pcdata value => exact .paid (.pure rfl)
  | .cdata value => exact .paid (.pure rfl)
  | .element name attributes children =>
    rw [collectChild, plainChild]
    split
    · exact .paid (.pure rfl)
    split
    · exact .paid (.pure rfl)
    split
    · exact .paid (.pure rfl)
    split
    · exact .ite (fun _ => .truncate) fun _ => collectAll_returns (depth + 1) children
    · exact .pure rfl

theorem collectAll_returns (depth : Nat) (nodes : List XmlNode) :
    Returns (collectAll asInt depth nodes) (· = plainAll asInt nodes) := by
  match nodes with
  | [] => exact .pure rfl
  | child :: rest =>
    refine .bind (collectChild_returns depth child) fun t ht => ?_
    refine .bind (collectAll_returns depth rest) fun u hu => .pure ?_
    rw [ht, hu, plainAll]

end

/-- The texts of the paragraphs that the walk reads. -/
def readPieces (asInt : Bytes → Int) (ps : List (Bool × XmlNode)) : List Bytes :=
  pieces asInt (ps.filter Prod.fst)

theorem readPieces_append (ps qs : List (Bool × XmlNode)) :
    readPieces asInt (ps ++ qs) = readPieces asInt ps ++ readPieces asInt qs := by
  simp only [readPieces, pieces, List.filter_append, List.map_append]

theorem readPieces_unread {ps : List (Bool × XmlNode)} (h : ∀ x ∈ ps, x.1 = false) :
    readPieces asInt ps = [] := by
  have hnil : ps.filter Prod.fst = [] := by
    rw [List.filter_eq_nil_iff]
    intro x hx
    rw [h x hx]
    exact Bool.false_ne_true
  rw [readPieces, hnil]
  rfl

theorem readPieces_one (n : XmlNode) : readPieces asInt [(true, n)] =
    if visible (plainText asInt n) = [] then [] else [pieceOf asInt n] := by
  show ((([n].filter fun n => visible (plainText asInt n) ≠ [])).map (pieceOf asInt)) = _
  by_cases h : visible (plainText asInt n) = []
  · simp [h]
  · simp [h]

/-- The text of a paragraph is its piece, with blanks around it. -/
theorem woven_plainText (n : XmlNode) :
    Woven isspace [] (readPieces asInt [(true, n)]) (plainText asInt n) := by
  rw [readPieces_one]
  split
  next hblank => exact woven_fill (isspace_of_visible hblank)
  next =>
    unfold pieceOf
    split
    · obtain ⟨front, back, hs, hfront, hback⟩ := exists_trimTitle (plainText asInt n)
      have hwoven := (woven_fill hfront).append
        ((woven_piece (trimTitle (plainText asInt n))).append (woven_fill hback))
      rw [← hs] at hwoven
      exact hwoven
    · exact woven_piece _

/-! ### Outside -/

theorem paragraphsOf_eq (place : Place) (n : XmlNode) : paragraphsOf place n =
    if localName n.name = utf8 "p" ∨ localName n.name = utf8 "h" then
      [(place.reads (localName n.name), n)]
    else match place.next (localName n.name) with
      | some inner => paragraphsOfAll inner n.children
      | none => [] := by
  cases n <;> rfl

theorem marksOf_eq (place : Place) (n : XmlNode) : marksOf asInt place n =
    if place = .item ∧ localName n.name = utf8 "p" then
      if plainText asInt n = [] then [] else [utf8 "-"]
    else if place = .table ∧ localName n.name = utf8 "table-row" then rowMarks true n.children
    else match place.next (localName n.name) with
      | some inner => marksOfAll asInt inner n.children
      | none => [] := by
  cases n with
  | element name attributes children => rfl
  | pcdata value => cases place <;> rfl
  | cdata value => cases place <;> rfl

theorem Place.next_outside {name : Bytes} {inner : Place}
    (h : Place.outside.next name = some inner) : inner = .outside := by
  unfold Place.next at h
  split at h
  · cases h
  · cases h
    rfl

mutual

theorem unread_outside (node : XmlNode) : ∀ x ∈ paragraphsOf .outside node, x.1 = false := by
  match node with
  | .pcdata _ => nofun
  | .cdata _ => nofun
  | .element name attributes children =>
    intro x hx
    rw [paragraphsOf] at hx
    split at hx
    · rw [List.mem_singleton.mp hx]
      rfl
    · split at hx
      next inner hnext =>
        rw [Place.next_outside hnext] at hx
        exact unread_outside_all children x hx
      next => cases hx

theorem unread_outside_all (nodes : List XmlNode) :
    ∀ x ∈ paragraphsOfAll .outside nodes, x.1 = false := by
  match nodes with
  | [] => nofun
  | node :: rest =>
    intro x hx
    rcases List.mem_append.mp hx with hx | hx
    · exact unread_outside node x hx
    · exact unread_outside_all rest x hx

end

mutual

theorem marksOf_outside (node : XmlNode) : marksOf asInt .outside node = [] := by
  match node with
  | .pcdata _ => rfl
  | .cdata _ => rfl
  | .element name attributes children =>
    rw [marksOf, if_neg (fun h => nomatch h.1), if_neg (fun h => nomatch h.1)]
    split
    next inner hnext =>
      rw [Place.next_outside hnext]
      exact marksOfAll_outside children
    next => rfl

theorem marksOfAll_outside (nodes : List XmlNode) : marksOfAll asInt .outside nodes = [] := by
  match nodes with
  | [] => rfl
  | node :: rest =>
    rw [marksOfAll, marksOf_outside node, marksOfAll_outside rest]
    rfl

end

/-- The walk does not go into an element: what is below it is not read, and has no marks. -/
theorem skipped {place : Place} {node : XmlNode}
    (hreads : localName node.name = utf8 "p" ∨ localName node.name = utf8 "h" →
      place.reads (localName node.name) = false)
    (hnext : ∀ inner, place.next (localName node.name) = some inner → inner = .outside) :
    readPieces asInt (paragraphsOf place node) = [] := by
  refine readPieces_unread fun x hx => ?_
  rw [paragraphsOf_eq] at hx
  split at hx
  next hname =>
    rw [List.mem_singleton.mp hx]
    exact hreads hname
  next =>
    split at hx
    next inner hinner =>
      rw [hnext inner hinner] at hx
      exact unread_outside_all node.children x hx
    next => cases hx

/-! ### Tables -/

theorem reads_paragraph {place : Place} {n : XmlNode}
    (hname : localName n.name = utf8 "p" ∨ localName n.name = utf8 "h")
    (hreads : place.reads (localName n.name) = true) : paragraphsOf place n = [(true, n)] := by
  rw [paragraphsOf_eq, if_pos hname, hreads]

theorem cellText_returns (cp : Bool) (nodes : List XmlNode) :
    Returns (cellText asInt cp nodes) fun t =>
      Woven isspace [] (readPieces asInt (paragraphsOfAll .cell nodes)) t := by
  induction nodes generalizing cp with
  | nil => exact .pure .nil
  | cons p rest ih =>
    rw [cellText, paragraphsOfAll, readPieces_append]
    refine .ite (fun hname => ?_) fun hname => ?_
    · rw [reads_paragraph hname rfl]
      refine .bind (collectAll_returns 0 p.children) fun t ht => ?_
      have hpiece : Woven isspace [] (readPieces asInt [(true, p)]) (plainText asInt p) :=
        woven_plainText p
      rw [plainText, ← ht] at hpiece
      refine .ite (fun hempty => ?_) fun _ => .ite (fun _ => .paid ?_) fun _ => ?_
      · refine (ih cp).mono fun u hu => ?_
        have hboth := hpiece.append hu
        rwa [hempty] at hboth
      · exact .bind (ih true) fun u hu => .pure (.fill rfl (hpiece.append hu))
      · exact .bind (ih true) fun u hu => .pure (hpiece.append hu)
    · have hskip : readPieces asInt (paragraphsOf .cell p) = [] := by
        refine skipped (fun h => absurd h hname) fun inner hinner => ?_
        unfold Place.next at hinner
        split at hinner <;> cases hinner
        rfl
      rw [hskip]
      exact ih cp

theorem paragraphsOf_container {place inner : Place} {n : XmlNode}
    (hname : ¬(localName n.name = utf8 "p" ∨ localName n.name = utf8 "h"))
    (hnext : place.next (localName n.name) = some inner) :
    paragraphsOf place n = paragraphsOfAll inner n.children := by
  rw [paragraphsOf_eq, if_neg hname, hnext]

theorem rowText_returns (first : Bool) (nodes : List XmlNode) :
    Returns (rowText asInt first nodes) fun t =>
      Woven isspace (rowMarks first nodes) (readPieces asInt (paragraphsOfAll .row nodes)) t := by
  induction nodes generalizing first with
  | nil => exact .pure .nil
  | cons cell rest ih =>
    rw [rowText, rowMarks, paragraphsOfAll, readPieces_append]
    refine .ite (fun hname => ?_) fun hname => ?_
    · have hinner : paragraphsOf .row cell = paragraphsOfAll .cell cell.children := by
        refine paragraphsOf_container ?_ ?_
        · rw [hname]
          decide
        · rw [hname]
          decide
      rw [hinner, if_pos hname]
      cases first with
      | true =>
        refine .bind (cellText_returns false cell.children) fun t ht => ?_
        exact .bind (ih false) fun u hu => .pure (ht.append hu)
      | false =>
        refine .paid (.bind (cellText_returns false cell.children) fun t ht => ?_)
        refine .bind (ih false) fun u hu => .pure ?_
        exact .fill rfl (.mark (.fill rfl (ht.append hu)))
    · have hskip : readPieces asInt (paragraphsOf .row cell) = [] := by
        refine skipped (fun _ => rfl) fun inner hinner => ?_
        unfold Place.next at hinner
        dsimp only at hinner
        rw [if_neg hname] at hinner
        split at hinner <;> cases hinner
        rfl
      rw [hskip, if_neg hname]
      exact ih first

theorem marksOf_container {place inner : Place} {n : XmlNode}
    (hitem : ¬(place = .item ∧ localName n.name = utf8 "p"))
    (hrow : ¬(place = .table ∧ localName n.name = utf8 "table-row"))
    (hnext : place.next (localName n.name) = some inner) :
    marksOf asInt place n = marksOfAll asInt inner n.children := by
  rw [marksOf_eq, if_neg hitem, if_neg hrow, hnext]

/-- An element that the walk skips has no marks. -/
theorem marksOf_skipped {place : Place} {n : XmlNode}
    (hitem : ¬(place = .item ∧ localName n.name = utf8 "p"))
    (hrow : ¬(place = .table ∧ localName n.name = utf8 "table-row"))
    (hnext : ∀ inner, place.next (localName n.name) = some inner → inner = .outside) :
    marksOf asInt place n = [] := by
  rw [marksOf_eq, if_neg hitem, if_neg hrow]
  split
  next inner hinner =>
    rw [hnext inner hinner]
    exact marksOfAll_outside n.children
  next => rfl

theorem tableText_returns (nodes : List XmlNode) :
    Returns (tableText asInt nodes) fun t => Woven isspace (marksOfAll asInt .table nodes)
      (readPieces asInt (paragraphsOfAll .table nodes)) t := by
  induction nodes with
  | nil => exact .pure .nil
  | cons row rest ih =>
    rw [tableText, marksOfAll, paragraphsOfAll, readPieces_append]
    refine .ite (fun hname => ?_) fun hname => ?_
    · have hinner : paragraphsOf .table row = paragraphsOfAll .row row.children := by
        refine paragraphsOf_container ?_ ?_
        · rw [hname]
          decide
        · rw [hname]
          decide
      have hmarks : marksOf asInt .table row = rowMarks true row.children := by
        rw [marksOf_eq, if_neg (fun h => nomatch h.1), if_pos ⟨rfl, hname⟩]
      rw [hinner, hmarks]
      refine .bind (rowText_returns true row.children) fun t ht => .paid ?_
      exact .bind ih fun u hu => .pure (ht.append (.fill rfl hu))
    · have hnext : ∀ inner, Place.table.next (localName row.name) = some inner →
          inner = .outside := by
        intro inner hinner
        unfold Place.next at hinner
        dsimp only at hinner
        rw [if_neg hname] at hinner
        split at hinner <;> cases hinner
        rfl
      have hmarks : marksOf asInt .table row = [] :=
        marksOf_skipped (fun h => nomatch h.1) (fun h => hname h.2) hnext
      rw [skipped (fun _ => rfl) hnext, hmarks]
      exact ih

/-! ### The walk -/

/-- Sections that obey the law and say more than the entries by the marks and the pieces. -/
def Writes (es : List Entry) (ms ps : List Bytes) (o : Outline) : Prop :=
  ∃ es' out, o.Law [] es' ∧ said es' = said es ++ out ∧ Woven isspace ms ps out

theorem writes_refl {o : Outline} {es : List Entry} (h : o.Law [] es) : Writes es [] [] o :=
  ⟨es, [], h, (List.append_nil _).symm, .nil⟩

theorem Writes.trans {es es' : List Entry} {ms ms' ps ps' : List Bytes} {o : Outline} {out : Bytes}
    (hsaid : said es' = said es ++ out) (hout : Woven isspace ms ps out)
    (h : Writes es' ms' ps' o) : Writes es (ms ++ ms') (ps ++ ps') o := by
  obtain ⟨es'', out', hlaw, hsaid', hout'⟩ := h
  refine ⟨es'', out ++ out', hlaw, ?_, hout.append hout'⟩
  rw [hsaid', hsaid, List.append_assoc]

/-- A text is added on a line of its own. -/
theorem writes_line {o : Outline} {es : List Entry} (h : o.Law [] es) {ms ps : List Bytes}
    {t : Bytes} (ht : Woven isspace ms ps t) : Writes es ms ps (o.appendLine t) := by
  obtain ⟨es', hlaw, gap, hgap, hsaid⟩ := h.appendLine t
  refine ⟨es', gap ++ t, hlaw, hsaid, ?_⟩
  have hfill : ∀ c ∈ gap, isspace c = true := by
    rcases hgap with rfl | rfl
    · nofun
    · exact List.all_eq_true.mp (show (utf8 "\n").all isspace = true by decide)
  exact (woven_fill hfill).append ht

theorem writes_heading {o : Outline} {es : List Entry} (h : o.Law [] es) {n : XmlNode}
    (hname : localName n.name = utf8 "h") (level : Nat) :
    Writes es [] (readPieces asInt [(true, n)])
      (o.openSection (heading (trimTitle (plainText asInt n)) level)) := by
  refine ⟨_, trimTitle (plainText asInt n), h.openSection rfl, ?_, ?_⟩
  · rw [said_concat]
    exact congrArg (said es ++ ·) (List.append_nil _)
  · rw [readPieces_one]
    split
    next hblank =>
      rw [← visible_trimTitle] at hblank
      exact woven_fill (isspace_of_visible hblank)
    next =>
      rw [pieceOf, if_pos hname]
      exact woven_piece _

/-- What is blank is neither a mark nor a piece. -/
theorem readPieces_blank {n : XmlNode} (h : visible (plainText asInt n) = []) :
    readPieces asInt [(true, n)] = [] := by
  rw [readPieces_one, if_pos h]

theorem Place.next_body {name : Bytes} (hlist : name ≠ utf8 "list") (htable : name ≠ utf8 "table")
    (hsection : ¬(name = utf8 "section" ∨ name = utf8 "text-section")) (inner : Place)
    (h : Place.body.next name = some inner) : inner = .outside := by
  unfold Place.next at h
  dsimp only at h
  rw [if_neg hlist, if_neg htable, if_neg hsection] at h
  split at h <;> cases h
  rfl

theorem Place.next_list {name : Bytes} (hitem : name ≠ utf8 "list-item") (inner : Place)
    (h : Place.list.next name = some inner) : inner = .outside := by
  unfold Place.next at h
  dsimp only at h
  rw [if_neg hitem] at h
  split at h <;> cases h
  rfl

theorem Place.next_item {name : Bytes} (hlist : name ≠ utf8 "list") (inner : Place)
    (h : Place.item.next name = some inner) : inner = .outside := by
  unfold Place.next at h
  dsimp only at h
  rw [if_neg hlist] at h
  split at h <;> cases h
  rfl

/-- The walk goes from a place to the one inside a container. -/
theorem goes_inside {place inner : Place} {n : XmlNode} {es : List Entry} {o : Outline}
    (hname : ¬(localName n.name = utf8 "p" ∨ localName n.name = utf8 "h"))
    (hrow : ¬(place = .table ∧ localName n.name = utf8 "table-row"))
    (hnext : place.next (localName n.name) = some inner)
    (h : Writes es (marksOfAll asInt inner n.children)
      (readPieces asInt (paragraphsOfAll inner n.children)) o) :
    Writes es (marksOf asInt place n) (readPieces asInt (paragraphsOf place n)) o := by
  rw [marksOf_container (fun hitem => hname (.inl hitem.2)) hrow hnext,
    paragraphsOf_container hname hnext]
  exact h

/-- The walk leaves an element out. -/
theorem leaves_out {place : Place} {n : XmlNode} {es : List Entry} {o : Outline}
    (h : o.Law [] es) (hitem : ¬(place = .item ∧ localName n.name = utf8 "p"))
    (hrow : ¬(place = .table ∧ localName n.name = utf8 "table-row"))
    (hreads : localName n.name = utf8 "p" ∨ localName n.name = utf8 "h" →
      place.reads (localName n.name) = false)
    (hnext : ∀ inner, place.next (localName n.name) = some inner → inner = .outside) :
    Writes es (marksOf asInt place n) (readPieces asInt (paragraphsOf place n)) o := by
  rw [marksOf_skipped hitem hrow hnext, skipped hreads hnext]
  exact writes_refl h

theorem marksOf_paragraph {n : XmlNode}
    (hname : localName n.name = utf8 "p" ∨ localName n.name = utf8 "h") :
    marksOf asInt .body n = [] := by
  have hnext : Place.body.next (localName n.name) = none := by
    rcases hname with h | h <;> rw [h] <;> decide
  rw [marksOf_eq, if_neg (fun h => nomatch h.1), if_neg (fun h => nomatch h.1), hnext]

mutual

theorem walkChild_returns (depth : Nat) (node : XmlNode) {o : Outline} {es : List Entry}
    (h : o.Law [] es) : Returns (walkChild asInt depth node o) (Writes es
      (marksOf asInt .body node) (readPieces asInt (paragraphsOf .body node))) := by
  match node with
  | .pcdata _ => exact .pure (writes_refl h)
  | .cdata _ => exact .pure (writes_refl h)
  | .element name attributes children =>
    rw [walkChild]
    refine .ite (fun hh => ?_) fun hh => ?_
    · have hname : localName name = utf8 "p" ∨ localName name = utf8 "h" := .inr hh
      rw [marksOf_paragraph (n := .element name attributes children) hname,
        reads_paragraph (n := .element name attributes children) hname rfl]
      refine .bind (collectAll_returns 0 children) fun t ht => ?_
      subst ht
      refine .ite (fun hempty => .pure ?_) fun _ =>
        .pure (writes_heading h (n := .element name attributes children) hh _)
      have hblank : visible (plainText asInt (.element name attributes children)) = [] := by
        rw [← visible_trimTitle]
        exact congrArg visible hempty
      rw [readPieces_blank hblank]
      exact writes_refl h
    refine .ite (fun hp => ?_) fun hp => ?_
    · have hname : localName name = utf8 "p" ∨ localName name = utf8 "h" := .inl hp
      rw [marksOf_paragraph (n := .element name attributes children) hname,
        reads_paragraph (n := .element name attributes children) hname rfl]
      refine .bind (collectAll_returns 0 children) fun t ht => .pure ?_
      subst ht
      exact writes_line h (woven_plainText (.element name attributes children))
    have hname : ¬(localName name = utf8 "p" ∨ localName name = utf8 "h") := not_or.mpr ⟨hp, hh⟩
    refine .ite (fun hlist => ?_) fun hlist => ?_
    · refine (walkItems_returns depth children h).mono fun o' ho' => ?_
      exact goes_inside hname (fun h => nomatch h.1)
        (show Place.body.next (localName name) = some .list by rw [hlist]; decide) ho'
    refine .ite (fun htable => ?_) fun htable => ?_
    · refine .bind (tableText_returns children) fun t ht => .pure ?_
      exact goes_inside hname (fun h => nomatch h.1)
        (show Place.body.next (localName name) = some .table by rw [htable]; decide)
        (writes_line h ht)
    refine .ite (fun hsection => ?_) fun hsection => .pure ?_
    · refine .ite (fun _ => .truncate) fun _ => ?_
      refine (walkAll_returns (depth + 1) children h).mono fun o' ho' => ?_
      refine goes_inside hname (fun h => nomatch h.1)
        (show Place.body.next (localName name) = some .body from ?_) ho'
      rcases hsection with hs | hs <;> rw [hs] <;> decide
    · exact leaves_out h (fun h => nomatch h.1) (fun h => nomatch h.1)
        (fun hn => absurd hn hname) (Place.next_body hlist htable hsection)

theorem walkAll_returns (depth : Nat) (nodes : List XmlNode) {o : Outline} {es : List Entry}
    (h : o.Law [] es) : Returns (walkAll asInt depth nodes o) (Writes es
      (marksOfAll asInt .body nodes) (readPieces asInt (paragraphsOfAll .body nodes))) := by
  match nodes with
  | [] => exact .pure (writes_refl h)
  | child :: rest =>
    rw [marksOfAll, paragraphsOfAll, readPieces_append]
    refine .bind (walkChild_returns depth child h) fun o' ho' => ?_
    obtain ⟨es', out, hlaw, hsaid, hout⟩ := ho'
    exact (walkAll_returns depth rest hlaw).mono fun o'' ho'' => ho''.trans hsaid hout

theorem walkItems_returns (depth : Nat) (nodes : List XmlNode) {o : Outline} {es : List Entry}
    (h : o.Law [] es) : Returns (walkItems asInt depth nodes o) (Writes es
      (marksOfAll asInt .list nodes) (readPieces asInt (paragraphsOfAll .list nodes))) := by
  match nodes with
  | [] => exact .pure (writes_refl h)
  | item :: rest =>
    rw [marksOfAll, paragraphsOfAll, readPieces_append]
    refine .bind (walkItem_returns depth item h) fun o' ho' => ?_
    obtain ⟨es', out, hlaw, hsaid, hout⟩ := ho'
    exact (walkItems_returns depth rest hlaw).mono fun o'' ho'' => ho''.trans hsaid hout

theorem walkItem_returns (depth : Nat) (node : XmlNode) {o : Outline} {es : List Entry}
    (h : o.Law [] es) : Returns (walkItem asInt depth node o) (Writes es
      (marksOf asInt .list node) (readPieces asInt (paragraphsOf .list node))) := by
  match node with
  | .pcdata _ => exact .pure (writes_refl h)
  | .cdata _ => exact .pure (writes_refl h)
  | .element name attributes children =>
    rw [walkItem]
    refine .ite (fun hitem => ?_) fun hitem => .pure ?_
    · refine (walkItemChildren_returns depth children h).mono fun o' ho' => ?_
      refine goes_inside (n := .element name attributes children) ?_ (fun h => nomatch h.1)
        (show Place.list.next (localName name) = some .item by rw [hitem]; decide) ho'
      show ¬(localName name = utf8 "p" ∨ localName name = utf8 "h")
      rw [hitem]
      decide
    · exact leaves_out h (fun h => nomatch h.1) (fun h => nomatch h.1) (fun _ => rfl)
        (Place.next_list hitem)

theorem walkItemChildren_returns (depth : Nat) (nodes : List XmlNode) {o : Outline}
    {es : List Entry} (h : o.Law [] es) : Returns (walkItemChildren asInt depth nodes o) (Writes es
      (marksOfAll asInt .item nodes) (readPieces asInt (paragraphsOfAll .item nodes))) := by
  match nodes with
  | [] => exact .pure (writes_refl h)
  | child :: rest =>
    rw [marksOfAll, paragraphsOfAll, readPieces_append]
    refine .bind (walkItemChild_returns depth child h) fun o' ho' => ?_
    obtain ⟨es', out, hlaw, hsaid, hout⟩ := ho'
    exact (walkItemChildren_returns depth rest hlaw).mono fun o'' ho'' => ho''.trans hsaid hout

theorem walkItemChild_returns (depth : Nat) (node : XmlNode) {o : Outline} {es : List Entry}
    (h : o.Law [] es) : Returns (walkItemChild asInt depth node o) (Writes es
      (marksOf asInt .item node) (readPieces asInt (paragraphsOf .item node))) := by
  match node with
  | .pcdata _ => exact .pure (writes_refl h)
  | .cdata _ => exact .pure (writes_refl h)
  | .element name attributes children =>
    rw [walkItemChild]
    refine .ite (fun hp => ?_) fun hp => ?_
    · have hreads : Place.item.reads (localName name) = true := by
        rw [hp]
        decide
      rw [marksOf_eq, if_pos ⟨rfl, hp⟩,
        reads_paragraph (n := .element name attributes children) (.inl hp) hreads]
      refine .bind (collectAll_returns 0 children) fun t ht => ?_
      subst ht
      refine .ite (fun hempty => .pure ?_) fun hempty => .pure ?_
      · have hblank : visible (plainText asInt (.element name attributes children)) = [] :=
          congrArg visible hempty
        rw [readPieces_blank hblank]
        exact (if_pos (c := plainText asInt (.element name attributes children) = []) hempty) ▸
          writes_refl h
      · have hdash : Woven isspace []
            (readPieces asInt [(true, .element name attributes children)])
            (plainText asInt (.element name attributes children)) := woven_plainText _
        have hmark : (if plainText asInt (.element name attributes children) = [] then [] else
            [utf8 "-"]) = [utf8 "-"] := if_neg hempty
        rw [hmark]
        exact writes_line h (.mark (.fill rfl hdash))
    refine .ite (fun hlist => ?_) fun hlist => .pure ?_
    · refine .ite (fun _ => .truncate) fun _ => ?_
      refine (walkAll_returns (depth + 1) children h).mono fun o' ho' => ?_
      refine goes_inside (n := .element name attributes children) ?_ (fun h => nomatch h.1)
        (show Place.item.next (localName name) = some .body by rw [hlist]; decide) ho'
      show ¬(localName name = utf8 "p" ∨ localName name = utf8 "h")
      rw [hlist]
      decide
    · refine leaves_out h (fun hand => hp hand.2) (fun h => nomatch h.1) (fun hn => ?_)
        (Place.next_item hlist)
      exact decide_eq_false hp

end

/-! ### What is lost -/

theorem visible_pieceOf (n : XmlNode) :
    visible (pieceOf asInt n) = visible (plainText asInt n) := by
  unfold pieceOf
  split
  · exact visible_trimTitle _
  · rfl

/-- How much the paragraphs say, but for white space. -/
def weightOf (asInt : Bytes → Int) (ps : List (Bool × XmlNode)) : Nat :=
  (ps.map fun p => (visible (plainText asInt p.2)).length).sum

theorem weight_pieces (ps : List (Bool × XmlNode)) :
    ((pieces asInt ps).map (weight isspace)).sum = weightOf asInt ps := by
  induction ps with
  | nil => rfl
  | cons p ps ih =>
    have hweight : weight isspace (pieceOf asInt p.2) =
        (visible (plainText asInt p.2)).length := congrArg List.length (visible_pieceOf p.2)
    unfold weightOf at ih ⊢
    unfold pieces at ih ⊢
    rw [List.map_cons, List.filter_cons, List.map_cons, List.sum_cons, ← ih]
    split
    · rw [List.map_cons, List.map_cons, List.sum_cons, hweight]
    next hblank =>
      have hblank : visible (plainText asInt p.2) = [] := by simpa using hblank
      rw [hblank]
      exact (Nat.zero_add _).symm

theorem weightOf_split (ps : List (Bool × XmlNode)) : weightOf asInt ps =
    weightOf asInt (ps.filter Prod.fst) + weightOf asInt (ps.filter fun p => !p.1) := by
  induction ps with
  | nil => rfl
  | cons p ps ih =>
    obtain ⟨read, n⟩ := p
    unfold weightOf at ih ⊢
    rw [List.map_cons, List.sum_cons, ih]
    cases read with
    | true =>
      rw [List.filter_cons_of_pos rfl, List.filter_cons_of_neg (by simp), List.map_cons,
        List.sum_cons, Nat.add_assoc]
    | false =>
      rw [List.filter_cons_of_neg (by simp), List.filter_cons_of_pos rfl, List.map_cons,
        List.sum_cons, Nat.add_left_comm]

theorem blank_of_weightOf {ps : List (Bool × XmlNode)} (h : weightOf asInt ps = 0) :
    ∀ p ∈ ps, visible (plainText asInt p.2) = [] := by
  induction ps with
  | nil => nofun
  | cons p ps ih =>
    obtain ⟨hp, hps⟩ := Nat.add_eq_zero_iff.mp h
    exact List.forall_mem_cons.mpr ⟨List.length_eq_zero_iff.mp hp, ih hps⟩

/-- Blank paragraphs are not missed. -/
theorem pieces_eq_readPieces {ps : List (Bool × XmlNode)}
    (h : ∀ p ∈ ps, p.1 = false → visible (plainText asInt p.2) = []) :
    pieces asInt ps = readPieces asInt ps := by
  induction ps with
  | nil => rfl
  | cons p ps ih =>
    have ih := ih fun q hq => h q (List.mem_cons_of_mem p hq)
    obtain ⟨read, n⟩ := p
    have hcons : ∀ b : Bool, pieces asInt ((b, n) :: ps) =
        pieces asInt [(b, n)] ++ pieces asInt ps := by
      intro b
      simp only [pieces, List.map_cons, List.map_nil, List.filter_cons, List.filter_nil]
      split <;> rfl
    have happend : readPieces asInt ((read, n) :: ps) =
        readPieces asInt [(read, n)] ++ readPieces asInt ps := readPieces_append [(read, n)] ps
    rw [hcons, happend, ih]
    cases read with
    | true => rfl
    | false =>
      have hblank : visible (plainText asInt n) = [] := h (false, n) List.mem_cons_self rfl
      have hnone : pieces asInt [(false, n)] = [] := by simp [pieces, hblank]
      rw [hnone]
      rfl

/-- A body that is not cut off loses no paragraph exactly if the paragraphs that the walk does not
read are blank. -/
theorem parseOdtBody_complete_iff {body : XmlNode} {budget : Nat} {r : Outline × Nat}
    (h : parseOdtBody asInt body budget = some r) :
    Woven isspace (marksOfAll asInt .body body.children)
        (pieces asInt (paragraphsOfAll .body body.children)) (textsOf r.1.sections).flatten ↔
      ∀ p ∈ paragraphsOfAll .body body.children,
        p.1 = false → visible (plainText asInt p.2) = [] := by
  obtain ⟨es, out, hlaw, hsaid, hwoven⟩ :=
    walkAll_returns 0 body.children (Outline.law_nil []) budget r h
  have hout : (textsOf r.1.sections).flatten = out := hlaw.said.trans hsaid
  rw [hout]
  constructor
  · intro hall
    have hweight := hall.weight_eq
    have hsplit : weightOf asInt (paragraphsOfAll .body body.children) = _ := weightOf_split _
    rw [hwoven.weight_eq, Nat.add_left_cancel_iff, weight_pieces, readPieces, weight_pieces]
      at hweight
    have hlost : weightOf asInt
        ((paragraphsOfAll .body body.children).filter fun p => !p.1) = 0 := by omega
    intro p hp hread
    exact blank_of_weightOf hlost p (List.mem_filter.mpr ⟨hp, by rw [hread]; rfl⟩)
  · intro hblank
    rw [pieces_eq_readPieces hblank]
    exact hwoven

end Spec

/-- A heading and an item. -/
def shortBody : XmlNode :=
  .element (utf8 "office:text") [] [.element (utf8 "text:h") [] [.pcdata (utf8 " a")],
    .element (utf8 "text:list") [] [.element (utf8 "text:list-item") []
      [.element (utf8 "text:p") [] [.pcdata (utf8 "b")]]]]

theorem shortBody_complete : ∃ r, parseOdtBody (fun _ => 1) shortBody 100 = some r ∧
    Woven isspace [utf8 "-"] [utf8 "a", utf8 "b"] (textsOf r.1.sections).flatten := by
  cases hrun : parseOdtBody (fun _ => 1) shortBody 100 with
  | none =>
    have hsome : (parseOdtBody (fun _ => 1) shortBody 100).isSome = true := by decide
    rw [hrun] at hsome
    cases hsome
  | some r =>
    refine ⟨r, rfl, (parseOdtBody_complete_iff hrun).mpr ?_⟩
    have hreads : ((paragraphsOfAll .body shortBody.children).all Prod.fst) = true := by decide
    intro p hp hread
    have := List.all_eq_true.mp hreads p hp
    rw [hread] at this
    cases this

/-- A paragraph in an inner list. -/
def innerList : XmlNode :=
  .element (utf8 "office:text") [] [.element (utf8 "text:p") [] [.pcdata (utf8 "a")],
    .element (utf8 "text:list") [] [.element (utf8 "text:list-item") []
      [.element (utf8 "text:list") [] [.element (utf8 "text:list-item") []
        [.element (utf8 "text:p") [] [.pcdata (utf8 "x")]]]]]]

theorem innerList_loses : ∃ r, parseOdtBody (fun _ => 1) innerList 100 = some r ∧
    pieces (fun _ => 1) (paragraphsOfAll .body innerList.children) = [utf8 "a", utf8 "x"] ∧
    (textsOf r.1.sections).flatten = utf8 "a" ∧
    ¬Woven isspace (marksOfAll (fun _ => 1) .body innerList.children) [utf8 "a", utf8 "x"]
      (textsOf r.1.sections).flatten := by
  refine ⟨_, rfl, rfl, rfl, fun hwoven => ?_⟩
  have hweight := hwoven.weight_eq
  exact absurd hweight (by decide)

end Wikore.Parser
