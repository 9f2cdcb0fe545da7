import Wikore.Ingest.SectionBuilders
import Wikore.Ingest.XmlTree

/-! The body of a DOCX document.  The text of a paragraph comes from its runs, directly or through
one container; what lies in a container of a container is not read. -/

namespace Wikore.Parser

open ContextBuilder (Bytes utf8)

/-! ### `parse_heading_level` -/

def parseHeadingLevel (styleVal : Bytes) : Nat :=
  let s := lowerAscii styleVal
  if s.length < 8 ∨ s.take 7 ≠ utf8 "heading" then 0
  else
    let rest := s.drop 7
    let rest := if rest.length = 2 ∧ rest.head? = some 32 then rest.drop 1 else rest
    match rest with
    | [c] => if 49 ≤ c ∧ c ≤ 57 then (c - 48).toNat else 0
    | _ => 0

/-! ### The text of a paragraph -/

/-- `normalise_xml_text`: a no-break space becomes a blank, and a soft hyphen is dropped. -/
def normaliseXmlText : Bytes → Bytes
  | [] => []
  | [b] => [b]
  | b0 :: b1 :: s =>
    if b0 = 0xC2 ∧ b1 = 0xA0 then 32 :: normaliseXmlText s
    else if b0 = 0xC2 ∧ b1 = 0xAD then normaliseXmlText s
    else b0 :: normaliseXmlText (b1 :: s)

/-- The texts of a run. -/
def runText (r : XmlNode) : Bytes :=
  (r.childrenNamed "w:t").flatMap fun t => normaliseXmlText t.textGet

def extractParaText (para : XmlNode) : Bytes :=
  para.children.flatMap fun child =>
    if child.name = utf8 "w:del" then []
    else if child.name = utf8 "w:r" then runText child
    else if child.name = utf8 "w:ins" then (child.childrenNamed "w:r").flatMap runText
    else if child.name = utf8 "w:hyperlink" ∨ child.name = utf8 "w:fldSimple" ∨
        child.name = utf8 "w:smartTag" then
      (child.childrenNamed "w:r").flatMap runText
    else []

/-- The cells of a row, and the paragraphs of a cell, with what stands between them. -/
def joinWith (sep : Bytes) : List Bytes → Bytes
  | [] => []
  | [t] => t
  | t :: u :: ts => t ++ sep ++ joinWith sep (u :: ts)

def extractTableText (tbl : XmlNode) : Bytes :=
  (tbl.childrenNamed "w:tr").flatMap fun row =>
    joinWith (utf8 " | ") ((row.childrenNamed "w:tc").map fun cell =>
      joinWith (utf8 " ") ((cell.childrenNamed "w:p").map extractParaText)) ++ utf8 "\n"

/-! ### `parse_body` -/

/-- One pass of the loop of `parse_body`. -/
def parseChild (out : Outline) (child : XmlNode) : Outline :=
  if child.name = utf8 "w:p" then
    let level :=
      parseHeadingLevel (((child.child "w:pPr").child "w:pStyle").attributeValue "w:val")
    let text := extractParaText child
    if 0 < level then
      -- a blank heading is skipped
      if text = [] then out else out.openSection (heading text level)
    else out.appendLine text
  else if child.name = utf8 "w:tbl" then out.appendLine (extractTableText child)
  else out

def parseBody (body : XmlNode) (out : Outline) : Outline := body.children.foldl parseChild out

/-- What a child of the body sends to the builder. -/
def bodyEvent (child : XmlNode) : Option Event :=
  if child.name = utf8 "w:p" then
    let level :=
      parseHeadingLevel (((child.child "w:pPr").child "w:pStyle").attributeValue "w:val")
    if 0 < level then some (.heading level (extractParaText child))
    else some (.text (extractParaText child))
  else if child.name = utf8 "w:tbl" then some (.text (extractTableText child))
  else none

theorem parseBody_eq (body : XmlNode) (out : Outline) : parseBody body out =
    ((body.children.filterMap bodyEvent).flatMap DocxParser.commands).foldl Outline.exec out := by
  unfold parseBody
  induction body.children generalizing out with
  | nil => rfl
  | cons child rest ih =>
    have hstep : parseChild out child =
        ((bodyEvent child).toList.flatMap DocxParser.commands).foldl Outline.exec out := by
      unfold parseChild bodyEvent
      dsimp only
      split
      · split
        · rw [Option.toList_some, List.flatMap_singleton, DocxParser.commands, bodyCommands]
          split <;> rfl
        · rw [Option.toList_some, List.flatMap_singleton]
          exact (exec_text out _).symm
      · split
        · rw [Option.toList_some, List.flatMap_singleton]
          exact (exec_text out _).symm
        · rfl
    rw [List.foldl_cons, ih, hstep, ← List.foldl_append, ← List.flatMap_append]
    cases hevent : bodyEvent child with
    | none => rw [List.filterMap_cons_none hevent]; rfl
    | some e => rw [List.filterMap_cons_some hevent]; rfl

/-! ### The runs of a paragraph -/

def inlineContainers : List Bytes := ["w:ins", "w:hyperlink", "w:fldSimple", "w:smartTag"].map utf8

mutual

/-- The runs that are reached through containers alone, in document order, each with the number of
containers around it. -/
def runsOf (n : Nat) : XmlNode → List (Nat × XmlNode)
  | .element name attributes children =>
    if name = utf8 "w:r" then [(n, .element name attributes children)]
    else if name ∈ inlineContainers then runsOfAll (n + 1) children
    else []
  | _ => []

def runsOfAll (n : Nat) : List XmlNode → List (Nat × XmlNode)
  | [] => []
  | node :: rest => runsOf n node ++ runsOfAll n rest

end

theorem runsOfAll_eq (n : Nat) (nodes : List XmlNode) :
    runsOfAll n nodes = nodes.flatMap (runsOf n) := by
  induction nodes with
  | nil => rfl
  | cons node nodes ih => rw [runsOfAll, ih, List.flatMap_cons]

mutual

theorem le_of_mem_runsOf {n : Nat} (node : XmlNode) {r : Nat × XmlNode} (h : r ∈ runsOf n node) :
    n ≤ r.1 := by
  match node with
  | .pcdata _ => cases h
  | .cdata _ => cases h
  | .element name attributes children =>
    rw [runsOf] at h
    split at h
    · obtain rfl := List.mem_singleton.mp h
      exact Nat.le_refl n
    · split at h
      · exact Nat.le_of_succ_le (le_of_mem_runsOfAll children h)
      · cases h

theorem le_of_mem_runsOfAll {n : Nat} (nodes : List XmlNode) {r : Nat × XmlNode}
    (h : r ∈ runsOfAll n nodes) : n ≤ r.1 := by
  match nodes with
  | [] => cases h
  | node :: rest =>
    rcases List.mem_append.mp h with h | h
    · exact le_of_mem_runsOf node h
    · exact le_of_mem_runsOfAll rest h

end

theorem mem_inlineContainers {name : Bytes} : name ∈ inlineContainers ↔ name = utf8 "w:ins" ∨
    name = utf8 "w:hyperlink" ∨ name = utf8 "w:fldSimple" ∨ name = utf8 "w:smartTag" := by
  simp [inlineContainers]

/-- Of the children of a container, the paragraph reads the runs. -/
theorem runText_runsOf_one (node : XmlNode) :
    (((runsOf 1 node).filter fun r => decide (r.1 ≤ 1)).flatMap fun r => runText r.2) =
      if node.name = utf8 "w:r" then runText node else [] := by
  cases node with
  | pcdata value => rfl
  | cdata value => rfl
  | element name attributes children =>
    rw [runsOf]
    show _ = if name = utf8 "w:r" then runText _ else []
    by_cases hrun : name = utf8 "w:r"
    · rw [if_pos hrun, if_pos hrun]
      show runText _ ++ [] = _
      rw [List.append_nil]
    · rw [if_neg hrun, if_neg hrun]
      have hdeep : ((if name ∈ inlineContainers then runsOfAll 2 children else []).filter
          fun r => decide (r.1 ≤ 1)) = [] := by
        rw [List.filter_eq_nil_iff]
        intro r hr
        split at hr
        · have := le_of_mem_runsOfAll children hr
          simp only [decide_eq_true_eq]
          omega
        · cases hr
      rw [hdeep]
      rfl

theorem runText_runsOfAll_one (nodes : List XmlNode) :
    (((runsOfAll 1 nodes).filter fun r => decide (r.1 ≤ 1)).flatMap fun r => runText r.2) =
      (nodes.filter fun child => child.name = utf8 "w:r").flatMap runText := by
  induction nodes with
  | nil => rfl
  | cons node nodes ih =>
    rw [runsOfAll, List.filter_append, List.flatMap_append, ih, runText_runsOf_one,
      List.filter_cons]
    by_cases hrun : node.name = utf8 "w:r"
    · rw [if_pos hrun, if_pos (decide_eq_true hrun), List.flatMap_cons]
    · rw [if_neg hrun, if_neg (by simpa using hrun), List.nil_append]

/-- `extract_para_text` reads the runs with at most one container around them. -/
theorem extractParaText_eq (para : XmlNode) : extractParaText para =
    (((runsOfAll 0 para.children).filter fun r => decide (r.1 ≤ 1)).flatMap
      fun r => runText r.2) := by
  unfold extractParaText
  rw [runsOfAll_eq, List.filter_flatMap, List.flatMap_assoc]
  refine List.flatMap_congr fun child _ => ?_
  cases child with
  | pcdata value => rfl
  | cdata value => rfl
  | element name attributes children =>
    have hinside := runText_runsOfAll_one children
    show (if name = utf8 "w:del" then [] else if name = utf8 "w:r" then runText _ else
      if name = utf8 "w:ins" then _ else if name = utf8 "w:hyperlink" ∨
        name = utf8 "w:fldSimple" ∨ name = utf8 "w:smartTag" then _ else []) = _
    rw [runsOf]
    by_cases hdel : name = utf8 "w:del"
    · rw [hdel]
      rfl
    by_cases hrun : name = utf8 "w:r"
    · rw [if_neg hdel, if_pos hrun, if_pos hrun]
      exact (List.append_nil _).symm
    rw [if_neg hdel, if_neg hrun, if_neg hrun]
    by_cases hins : name = utf8 "w:ins"
    · rw [if_pos hins, if_pos (mem_inlineContainers.mpr (.inl hins))]
      exact hinside.symm
    · rw [if_neg hins]
      split
      next hother =>
        rw [if_pos (mem_inlineContainers.mpr (.inr hother))]
        exact hinside.symm
      next hother =>
        rw [if_neg (mt mem_inlineContainers.mp (not_or.mpr ⟨hins, hother⟩))]
        rfl

/-- The text of a paragraph is complete if what lies in two or more containers has no text. -/
theorem extractParaText_complete_iff (para : XmlNode) :
    extractParaText para = ((runsOfAll 0 para.children).flatMap fun r => runText r.2) ↔
      ∀ r ∈ runsOfAll 0 para.children, 2 ≤ r.1 → runText r.2 = [] := by
  rw [extractParaText_eq, flatMap_filter_eq_iff]
  refine forall₂_congr fun r _ => ?_
  rw [decide_eq_false_iff_not, Nat.not_le]
  rfl

/-- An insertion inside a link. -/
def insertionInLink : XmlNode :=
  .element (utf8 "w:p") [] [.element (utf8 "w:hyperlink") [] [.element (utf8 "w:ins") []
    [.element (utf8 "w:r") [] [.element (utf8 "w:t") [] [.pcdata (utf8 "x")]]]]]

theorem insertionInLink_incomplete : extractParaText insertionInLink ≠
    (runsOfAll 0 insertionInLink.children).flatMap fun r => runText r.2 := by
  have hcode : extractParaText insertionInLink = [] := rfl
  have hall : ((runsOfAll 0 insertionInLink.children).flatMap fun r => runText r.2) =
      utf8 "x" := rfl
  rw [hcode, hall]
  decide

end Wikore.Parser
