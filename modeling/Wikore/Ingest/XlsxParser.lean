import Wikore.Ingest.PlainTextParser
import Wikore.Ingest.XmlTree
import Wikore.Lib.Meter

/-! `XlsxParser`: the worksheets of a workbook as texts, one line for each row, with the cells of a
row in their columns.  All text is charged to one counter of output bytes. -/

namespace Wikore.Parser.XlsxParser

open Chunker (ParsedSection isspace)
open ContextBuilder (Bytes Error utf8)
open Meter
open XmlNode (localName)

def kXlsxMaxXmlBytes : Nat := 16 * 1024 * 1024

def kXlsxMaxTotalXmlBytes : Nat := 128 * 1024 * 1024

def kXlsxMaxOutputBytes : Nat := 16 * 1024 * 1024

def kXlsxMaxSheets : Nat := 500

def kXlsxXmlMaxDepth : Nat := 64

def kXlsxMaxCol : Nat := 16384

def kXlsxMaxCellsPerRow : Nat := 16384

/-! ### Entries of the archive -/

/-- An entry as the archive lists it, and what reading it returned, if it could be opened. -/
structure ZipEntry where
  uncompressedSize : Nat
  data : Option Bytes

/-- What is taken from minizip, the entries of an archive by their names, and from pugixml. -/
structure XlsxEnv where
  unzOpen : Bytes → Option (Bytes → Option ZipEntry)
  loadBuffer : Bytes → Option (List XmlNode)

inductive XlsxExtractStatus
  | ok | notFound | error
deriving DecidableEq, Repr

structure XlsxExtractResult where
  content : Bytes
  status : XlsxExtractStatus

def xlsxExtract (env : XlsxEnv) (zip entry : Bytes) : XlsxExtractResult :=
  match env.unzOpen zip with
  | none => ⟨[], .error⟩
  | some locate =>
    match locate entry with
    | none => ⟨[], .notFound⟩
    | some fi =>
      if kXlsxMaxXmlBytes < fi.uncompressedSize then ⟨[], .error⟩
      else
        match fi.data with
        | none => ⟨[], .error⟩
        | some out => if out.length = fi.uncompressedSize then ⟨out, .ok⟩ else ⟨[], .error⟩

/-! ### Searches level by level -/

/-- The attribute, if there is one. -/
def attributeOf (n : XmlNode) (name : String) : Option Bytes :=
  (n.attributes.find? fun a => a.1 = utf8 name).map Prod.snd

def childByLocal (n : XmlNode) (lname : String) : Option XmlNode :=
  n.children.find? fun child => localName child.name = utf8 lname

/-- `bfs_find`: the queue holds one level of the tree after another, `left` levels below this. -/
def bfsFind (target : String) (left : Nat) (level : List XmlNode) : Option XmlNode :=
  match level.find? fun n => localName n.name = utf8 target with
  | some n => some n
  | none =>
    match left with
    | 0 => none
    | left + 1 => bfsFind target left (level.flatMap XmlNode.children)

def isText (n : XmlNode) : Bool := decide (localName n.name = utf8 "t")

/-- The texts of the `t` elements, in the order of the queue; what is in such an element is not
searched. -/
def bfsTexts (left : Nat) (level : List XmlNode) : List Bytes :=
  (level.filter isText).map XmlNode.textGet ++
    match left with
    | 0 => []
    | left + 1 =>
      bfsTexts left ((level.filter fun n => !isText n).flatMap XmlNode.children)

def document (nodes : List XmlNode) : XmlNode := .element [] [] nodes

/-! ### Shared strings and the order of the sheets -/

structure SharedStringsResult where
  strings : List Bytes
  status : XlsxExtractStatus

def sharedString (si : XmlNode) : Bytes := (bfsTexts kXlsxXmlMaxDepth [si]).flatten

def loadSharedStrings (env : XlsxEnv) (zip : Bytes) : SharedStringsResult :=
  match xlsxExtract env zip (utf8 "xl/sharedStrings.xml") with
  | ⟨_, .notFound⟩ => ⟨[], .notFound⟩
  | ⟨_, .error⟩ => ⟨[], .error⟩
  | ⟨content, .ok⟩ =>
    match env.loadBuffer content with
    | none => ⟨[], .error⟩
    | some nodes =>
      match bfsFind "sst" kXlsxXmlMaxDepth [document nodes] with
      | none => ⟨[], .error⟩
      | some sst =>
        ⟨(sst.children.filter fun si => localName si.name = utf8 "si").map sharedString, .ok⟩

structure SheetInfo where
  name : Bytes
  path : Bytes

def kWsTypeSuffix : Bytes := utf8 "/relationships/worksheet"

/-- The entry of the map that a relationship makes. -/
def relationship (rel : XmlNode) : Option (Bytes × Bytes) :=
  if localName rel.name ≠ utf8 "Relationship" then none
  else if kWsTypeSuffix.isSuffixOf (rel.attributeValue "Type") then
    let target := rel.attributeValue "Target"
    let path := match target with
      | 47 :: rest => rest
      | _ => utf8 "xl/" ++ target
    some (rel.attributeValue "Id", path)
  else none

/-- `rid_to_path`, in the order of the assignments. -/
def ridToPath (nodes : List XmlNode) : List (Bytes × Bytes) :=
  match bfsFind "Relationships" kXlsxXmlMaxDepth [document nodes] with
  | some root => root.children.filterMap relationship
  | none => []

def sheetRid (s : XmlNode) : Bytes :=
  ((s.attributes.find? fun a => localName a.1 = utf8 "id").map Prod.snd).getD []

/-- One pass of the loop over the sheets; a path that was listed before is skipped. -/
def addSheet (rels : List (Bytes × Bytes)) (out : List SheetInfo) (s : XmlNode) : List SheetInfo :=
  if localName s.name ≠ utf8 "sheet" then out
  else
    -- a later assignment to the map overwrites an earlier one
    match rels.reverse.lookup (sheetRid s) with
    | none => out
    | some path =>
      if path ∈ out.map SheetInfo.path then out else out ++ [⟨s.attributeValue "name", path⟩]

/-- `load_sheet_order`; `none` is its `false`. -/
def loadSheetOrder (env : XlsxEnv) (zip : Bytes) : Option (List SheetInfo) :=
  match xlsxExtract env zip (utf8 "xl/workbook.xml"),
    xlsxExtract env zip (utf8 "xl/_rels/workbook.xml.rels") with
  | ⟨wb, .ok⟩, ⟨rels, .ok⟩ => do
    let relNodes ← env.loadBuffer rels
    let wbNodes ← env.loadBuffer wb
    match bfsFind "sheets" kXlsxXmlMaxDepth [document wbNodes] with
    | none => some []
    | some sheets => some (sheets.children.foldl (addSheet (ridToPath relNodes)) [])
  | _, _ => none

/-! ### Cells -/

def isUpper (c : UInt8) : Bool := 65 ≤ c && c ≤ 90

/-- The letter as a digit from 1 to 26. -/
def letterValue (c : UInt8) : Nat := c.toNat - 65 + 1

/-- The loop of `col_from_ref` after the letters that made `col`. -/
def colLoop (col : Nat) : Bytes → Nat
  | [] => if kXlsxMaxCol < col then 0 else col
  | c :: rest =>
    if isUpper c then
      if (kXlsxMaxCol - letterValue c) / 26 < col then 0
      else colLoop (col * 26 + letterValue c) rest
    else if kXlsxMaxCol < col then 0 else col

def colFromRef (r : Bytes) : Nat := colLoop 0 r

def isDigit (c : UInt8) : Bool := 48 ≤ c && c ≤ 57

def kLongMin : Int := -9223372036854775808

def kLongMax : Int := 9223372036854775807

/-- `std::strtol` to base 10 with the value at the end of its range where it does not fit; `none`
where no digit was consumed. -/
def strtol (s : Bytes) : Option Int :=
  let s := s.dropWhile isspace
  let (negative, s) := match s with
    | 45 :: rest => (true, rest)
    | 43 :: rest => (false, rest)
    | _ => (false, s)
  match s.takeWhile isDigit with
  | [] => none
  | digits =>
    let n : Int := digits.foldl (fun n c => n * 10 + (c.toNat - 48 : Nat)) 0
    some (max kLongMin (min kLongMax (if negative then -n else n)))

/-- The shared string that the text of a cell is the index of. -/
def sharedValue (sharedStrings : List Bytes) (text : Bytes) : Option Bytes :=
  match strtol text with
  | none => none
  | some idx => if 0 ≤ idx then sharedStrings[idx.toNat]? else none

def inlineTexts (c : XmlNode) : List Bytes :=
  match childByLocal c "is" with
  | some is => bfsTexts kXlsxXmlMaxDepth [is]
  | none => []

/-- The texts that the value of a cell is made of, each charged on its own. -/
def cellTexts (sharedStrings : List Bytes) (c : XmlNode) : List Bytes :=
  let type := c.attributeValue "t"
  let v := (childByLocal c "v").map XmlNode.textGet
  if type = utf8 "s" then (v.bind (sharedValue sharedStrings)).toList
  else if type = utf8 "inlineStr" then inlineTexts c
  else if type = utf8 "b" then [if v = some (utf8 "1") then utf8 "TRUE" else utf8 "FALSE"]
  else if type = utf8 "e" then v.toList
  else
    match v with
    | some nv => [nv]
    | none => inlineTexts c

/-- The column of a cell, if the cell is not skipped. -/
def resolveColumn (c : XmlNode) (nextCol : Nat) : Option Nat :=
  match attributeOf c "r" with
  | some r => if colFromRef r = 0 then none else some (colFromRef r)
  | none => if kXlsxMaxCol < nextCol then none else some nextCol

/-! ### Rows -/

inductive XlsxStop
  | malformed | exceeded
deriving DecidableEq, Repr

/-- The variables of the loop over the cells of a row. -/
structure RowState where
  colVals : List (Nat × Bytes)
  maxCol : Nat
  nextCol : Nat
  cellsInRow : Nat

/-- `std::size_t`. -/
def sizeT : Arithmetic := wrapping (2 ^ 64)

section Parse

variable (ar : Arithmetic) (sharedStrings : List Bytes)

def chargeTexts : List Bytes → Metered XlsxStop Bytes
  | [] => pure []
  | t :: ts => do
    charge ar .exceeded t.length
    let rest ← chargeTexts ts
    pure (t ++ rest)

def parseCells : List XmlNode → RowState → Metered XlsxStop RowState
  | [], s => pure s
  | c :: cs, s =>
    if localName c.name ≠ utf8 "c" then parseCells cs s
    else
      match resolveColumn c s.nextCol with
      | none => parseCells cs s
      | some col =>
        if kXlsxMaxCellsPerRow < s.cellsInRow + 1 then stop .malformed
        else do
          let val ← chargeTexts ar (cellTexts sharedStrings c)
          parseCells cs {
            colVals := s.colVals ++ [(col, val)]
            maxCol := max s.maxCol col
            nextCol := col + 1
            cellsInRow := s.cellsInRow + 1 }

/-- The dense vector of a row: a later cell of a column overwrites an earlier one. -/
def denseRow (maxCol : Nat) (colVals : List (Nat × Bytes)) : List Bytes :=
  colVals.foldl (fun cells w =>
    if 1 ≤ w.1 ∧ w.1 ≤ maxCol then cells.set (w.1 - 1) w.2 else cells) (List.replicate maxCol [])

/-- `" | "` between the cells. -/
def joinCells (cells : List Bytes) : Bytes := (utf8 " | ").intercalate cells

def newline (out : Bytes) : Bytes := if out = [] then [] else utf8 "\n"

/-- The end of a row: separators and the line feed are charged before the vector is made, and paid
back if no cell has a text. -/
def finishRow (s : RowState) (out : Bytes) : Metered XlsxStop Bytes :=
  if s.maxCol = 0 then pure out
  else do
    let sepCost := if 1 < s.maxCol then (s.maxCol - 1) * 3 else 0
    charge ar .exceeded sepCost
    if out ≠ [] then charge ar .exceeded 1
    let cells := denseRow s.maxCol s.colVals
    if cells.all List.isEmpty then do
      refund ar (sepCost + if out ≠ [] then 1 else 0)
      pure out
    else pure (out ++ newline out ++ joinCells cells)

def parseRows : List XmlNode → Bytes → Metered XlsxStop Bytes
  | [], out => pure out
  | row :: rows, out =>
    if localName row.name ≠ utf8 "row" then parseRows rows out
    else do
      let s ← parseCells ar sharedStrings row.children ⟨[], 0, 1, 0⟩
      let out ← finishRow ar s out
      parseRows rows out

structure ParseWorksheetResult where
  body : Bytes
  status : XlsxExtractStatus

/-- `parse_worksheet` and the counter after it, which no caller reads where the worksheet is
corrupt; 0 says that the budget is exceeded. -/
def parseWorksheet (env : XlsxEnv) (xml : Bytes) (remaining : Nat) : ParseWorksheetResult × Nat :=
  match env.loadBuffer xml with
  | none => (⟨[], .error⟩, remaining)
  | some nodes =>
    match bfsFind "sheetData" kXlsxXmlMaxDepth [document nodes] with
    | none => (⟨[], .error⟩, remaining)
    | some sheetData =>
      match parseRows ar sharedStrings sheetData.children [] remaining with
      | .ok (body, remaining') => (⟨body, .ok⟩, remaining')
      | .error .malformed => (⟨[], .error⟩, remaining)
      | .error .exceeded => (⟨[], .ok⟩, 0)

/-! ### Workbooks -/

def corrupt : Error := .invalidInput "ingest.xlsx.corrupt"

def contentLimitExceeded : Error := .invalidInput "ingest.xlsx.content_limit_exceeded"

/-- The loop over the sheets. -/
def parseSheets (env : XlsxEnv) (content : Bytes) :
    List SheetInfo → Nat → Nat → Except Error (List ParsedSection)
  | [], _, _ => .ok []
  | sheet :: sheets, totalXmlBytes, outputRemaining =>
    match xlsxExtract env content sheet.path with
    | ⟨_, .error⟩ => .error corrupt
    | ⟨_, .notFound⟩ => .error corrupt
    | ⟨xml, .ok⟩ =>
      if kXlsxMaxTotalXmlBytes < totalXmlBytes + xml.length then .error contentLimitExceeded
      else
        let (ws, remaining) := parseWorksheet ar sharedStrings env xml outputRemaining
        if ws.status = .error then .error corrupt
        else if remaining = 0 then .error contentLimitExceeded
        else do
          let sections ← parseSheets env content sheets (totalXmlBytes + xml.length) remaining
          if ws.body = [] then .ok sections
          else .ok (⟨sheet.name, 1, ws.body, [], none⟩ :: sections)

end Parse

def fullText (sections : List ParsedSection) : Bytes :=
  sections.foldl (fun text s => text ++ newline text ++ s.text) []

def parse (ar : Arithmetic) (env : XlsxEnv) (content filename : Bytes) :
    Except Error ParsedDocument :=
  if content = [] then .error (.invalidInput "ingest.empty_file")
  else if kMaxInputBytes < content.length then .error (.invalidInput "ingest.file_too_large")
  else if ¬[80, 75, 3, 4].isPrefixOf content then .error (.invalidInput "ingest.mime_type_mismatch")
  else
    let sharedStrings := loadSharedStrings env content
    if sharedStrings.status = .error then .error corrupt
    else
      match loadSheetOrder env content with
      | none => .error corrupt
      | some sheets =>
        if sheets = [] then .error (.invalidInput "ingest.xlsx.no_worksheets")
        else if kXlsxMaxSheets < sheets.length then
          .error (.invalidInput "ingest.xlsx.too_many_sheets")
        else do
          let sections ← parseSheets ar sharedStrings.strings env content sheets 0
            kXlsxMaxOutputBytes
          if sections = [] then .error (.invalidInput "ingest.xlsx.no_text_content")
          else .ok ⟨filename, xlsxMime, sections, fullText sections⟩

end Wikore.Parser.XlsxParser
