import Wikore.Ingest.DocumentRepo
import Wikore.Ingest.HeadingPaths
import Wikore.Lib.Fallible
import Wikore.Lib.Upsert
import Wikore.Lib.Utf8
import Mathlib.Data.List.Range

/-! `write_sections` and `write_chunks` on the whole tables: the rows of every version, the foreign
keys between them and those of other tables that restrict a deletion. -/

namespace Wikore.Reingest

open Fallible (rejectIf)
open HeadingPaths (pgTextArray)

/-- `document_sections` and `document_chunks`.  `cited` are the chunks that rows of
`wiki_page_sources` and `knowledge_edge_endpoints` refer to, both with `ON DELETE RESTRICT`. -/
structure ContentTables where
  sections : List SectionRow
  chunks : List ChunkRow
  cited : List Uuid
deriving DecidableEq, Repr

inductive WriteError
  | databaseError (message : String)
  | foreignKeyViolation
  | restrictViolation
  | invalidTextRepresentation
deriving DecidableEq, Repr

/-- `UNIQUE (company_id, document_version_id, ordinal)`. -/
def sectionKey (r : SectionRow) : Uuid × Uuid × Nat :=
  (r.companyId, r.documentVersionId, r.ordinal)

/-- `DO UPDATE` of `upsert_section`. -/
def updateSection (old row : SectionRow) : SectionRow :=
  { old with
    parentSectionId := row.parentSectionId
    heading := row.heading
    headingPath := row.headingPath
    depth := row.depth }

/-- `UNIQUE (document_version_id, chunk_index)`. -/
def chunkKey (r : ChunkRow) : Uuid × Nat :=
  (r.documentVersionId, r.chunkIndex)

/-- `DO UPDATE` of `write_chunks`. -/
def updateChunk (old row : ChunkRow) : ChunkRow :=
  { old with
    content := row.content
    contentHash := row.contentHash
    prefilterScopeIds := row.prefilterScopeIds
    sectionId := row.sectionId }

/-- `document_sections_parent_same_version_fk`, which is not checked when the parent is NULL. -/
def parentExists (row : SectionRow) (rows : List SectionRow) : Bool :=
  match row.parentSectionId with
  | none => true
  | some id => rows.any fun p =>
    p.id = id ∧ p.companyId = row.companyId ∧ p.documentVersionId = row.documentVersionId

/-- The foreign key of `document_chunks.section_id`. -/
def sectionExists (row : ChunkRow) (rows : List SectionRow) : Bool :=
  match row.sectionId with
  | none => true
  | some id => rows.any fun p => p.id = id

/-- `literal::text[]`; the literals of `pg_text_array` begin with no explicit bounds. -/
def textArray (literal : List UInt8) : Except WriteError (List String) :=
  match ArrayInput.arrayIn (fun _ => none) literal with
  | none => .error .invalidTextRepresentation
  | some array =>
    match array.items.mapM fun item => item.bind Utf8.decode with
    | none => .error .invalidTextRepresentation
    | some texts => .ok texts

/-- The rows that `write_sections` deletes, after `m` sections. -/
def orphanSection (c v : Uuid) (m : Nat) (r : SectionRow) : Bool :=
  r.companyId = c ∧ r.documentVersionId = v ∧ m ≤ r.ordinal

/-- The rows that `write_chunks` deletes, after `n` chunks. -/
def orphanChunk (c v : Uuid) (n : Nat) (r : ChunkRow) : Bool :=
  r.companyId = c ∧ r.documentVersionId = v ∧ n ≤ r.chunkIndex

section Writes

-- `owner` gives the company of each row of `document_versions`
variable (owner : Uuid → Option Uuid)

/-- The statement of `upsert_section`. -/
def execUpsertSection (row : SectionRow) (rows : List SectionRow) :
    Except WriteError (List SectionRow × SectionRow) := do
  let written := Upsert.upsert sectionKey updateSection row rows
  rejectIf (owner row.documentVersionId ≠ some row.companyId) .foreignKeyViolation
  rejectIf (¬parentExists written.2 written.1) .foreignKeyViolation
  .ok written

/-- The statement of `write_chunks`. -/
def execUpsertChunk (sections : List SectionRow) (row : ChunkRow) (rows : List ChunkRow) :
    Except WriteError (List ChunkRow) := do
  let written := Upsert.upsert chunkKey updateChunk row rows
  rejectIf (owner row.documentVersionId ≠ some row.companyId) .foreignKeyViolation
  rejectIf (¬sectionExists written.2 sections) .foreignKeyViolation
  .ok written.1

variable (c v : Uuid) (newId : Nat → Uuid)

mutual

/-- `upsert_section`; `newId n` is the id that the server generates for a new row at ordinal `n`. -/
def upsertSection (parent : Option Uuid) (parentPath : List String) :
    ParsedSection → SectionCursor → Except WriteError (ParsedSection × SectionCursor)
  | ⟨heading, depth, text, children, _⟩, cursor => do
    let headingPath := if heading = "" then parentPath else parentPath ++ [heading]
    let headingOpt := if heading = "" then none else some heading
    let path ← textArray (pgTextArray (headingPath.map Utf8.encode))
    let written ← execUpsertSection owner
      ⟨newId cursor.ordinal, c, v, parent, cursor.ordinal, headingOpt.map textParam, path, depth⟩
      cursor.rows
    let below ← upsertSections (some written.2.id) headingPath children
      ⟨cursor.ordinal + 1, written.1⟩
    .ok (⟨heading, depth, text, below.1, some written.2.id⟩, below.2)

def upsertSections (parent : Option Uuid) (parentPath : List String) :
    List ParsedSection → SectionCursor → Except WriteError (List ParsedSection × SectionCursor)
  | [], cursor => .ok ([], cursor)
  | s :: rest, cursor => do
    let first ← upsertSection parent parentPath s cursor
    let others ← upsertSections parent parentPath rest first.2
    .ok (first.1 :: others.1, others.2)

end

/-- Whether a row goes with one of the rows `gone` by `ON DELETE CASCADE` of the parent key. -/
def childOf (gone : List SectionRow) (r : SectionRow) : Bool :=
  gone.any fun p => r.parentSectionId = some p.id ∧ r.companyId = p.companyId ∧
    r.documentVersionId = p.documentVersionId

/-- The rows that are left when the rows `gone` are deleted, generation after generation. -/
def cascade : Nat → List SectionRow → List SectionRow → List SectionRow
  | 0, _, rows => rows
  | fuel + 1, gone, rows =>
    if rows.any (childOf gone) then
      cascade fuel (rows.filter (childOf gone)) (rows.filter fun r => !childOf gone r)
    else rows

/-- `ON DELETE SET NULL` of the section key, after the deletion of the sections `gone`. -/
def unlink (gone : List Uuid) (r : ChunkRow) : ChunkRow :=
  if r.sectionId ∈ gone.map some then { r with sectionId := none } else r

/-- `DELETE FROM document_sections WHERE p`. -/
def deleteSections (p : SectionRow → Bool) (t : ContentTables) : ContentTables :=
  let kept := cascade t.sections.length (t.sections.filter p) (t.sections.filter fun r => !p r)
  let gone := (t.sections.filter fun r => r ∉ kept).map SectionRow.id
  { t with sections := kept, chunks := t.chunks.map (unlink gone) }

/-- `write_sections`: the tree with the ids of its rows, and the tables. -/
def writeSections (sections : List ParsedSection) (t : ContentTables) :
    Except WriteError (List ParsedSection × ContentTables) := do
  let written ← upsertSections owner c v newId none [] sections ⟨0, t.sections⟩
  .ok (written.1, deleteSections (orphanSection c v written.2.ordinal)
    { t with sections := written.2.rows })

variable (sha256Hex : String → Option String) (scopes : List Uuid)

/-- One pass of the loop of `write_chunks`. -/
def writeChunk (sections : List SectionRow) (rows : List ChunkRow) (chunk : Chunk) :
    Except WriteError (List ChunkRow) :=
  match sha256Hex chunk.text with
  | none => .error (.databaseError "write_chunks: content_hash digest failed")
  | some hash => execUpsertChunk owner sections ⟨newId chunk.chunkIndex, c, v, chunk.chunkIndex,
      textParam chunk.text, hash, scopes, chunk.sectionId⟩ rows

/-- `write_chunks`. -/
def writeChunks (chunks : List Chunk) (t : ContentTables) : Except WriteError ContentTables := do
  let rows ← chunks.foldlM (writeChunk owner c v newId sha256Hex scopes t.sections) t.chunks
  rejectIf (∃ r ∈ rows, orphanChunk c v chunks.length r ∧ r.id ∈ t.cited) .restrictViolation
  .ok { t with chunks := rows.filter fun r => !orphanChunk c v chunks.length r }

/-- The two writes of a unit of work, with the chunker between them; an error rolls both back. -/
def reingest (newChunkId : Nat → Uuid) (chunk : List ParsedSection → List Chunk)
    (sections : List ParsedSection) (t : ContentTables) : Except WriteError ContentTables := do
  let written ← writeSections owner c v newId sections t
  writeChunks owner c v newChunkId sha256Hex scopes (chunk written.1) written.2

end Writes

/-! ### What the tables guarantee -/

/-- The constraints of the two tables, and that a chunk is linked to a section of its own version,
which the ingest pipeline as the only writer of these links ensures. -/
structure Coherent (owner : Uuid → Option Uuid) (t : ContentTables) : Prop where
  sectionKeys : (t.sections.map sectionKey).Nodup
  sectionIds : (t.sections.map SectionRow.id).Nodup
  sectionOwner : ∀ r ∈ t.sections, owner r.documentVersionId = some r.companyId
  parents : ∀ r ∈ t.sections, parentExists r t.sections
  chunkKeys : (t.chunks.map chunkKey).Nodup
  chunkIds : (t.chunks.map ChunkRow.id).Nodup
  chunkOwner : ∀ r ∈ t.chunks, owner r.documentVersionId = some r.companyId
  links : ∀ r ∈ t.chunks, ∀ id, r.sectionId = some id →
    ∃ s ∈ t.sections, s.id = id ∧ s.documentVersionId = r.documentVersionId

/-! ### The new layout -/

/-- What a section of the tree has in its row; the parent is an ordinal. -/
structure Entry where
  parent : Option Nat
  heading : Option String
  headingPath : List String
  depth : Nat
deriving DecidableEq, Repr

mutual

/-- The entries of a tree in pre-order, the first at ordinal `n`. -/
def entries (n : Nat) (parent : Option Nat) (parentPath : List String) :
    ParsedSection → List Entry
  | ⟨heading, depth, _, children, _⟩ =>
    let path := if heading = "" then parentPath else parentPath ++ [heading]
    ⟨parent, if heading = "" then none else some heading, path, depth⟩ ::
      entriesOf (n + 1) (some n) path children

def entriesOf (n : Nat) (parent : Option Nat) (parentPath : List String) :
    List ParsedSection → List Entry
  | [] => []
  | s :: rest =>
    entries n parent parentPath s ++
      entriesOf (n + (entries n parent parentPath s).length) parent parentPath rest

end

mutual

/-- The tree with the id `ids n` at its section of ordinal `n`. -/
def labelled (ids : Nat → Uuid) (n : Nat) : ParsedSection → ParsedSection
  | ⟨heading, depth, text, children, _⟩ =>
    ⟨heading, depth, text, labelledOf ids (n + 1) children, some (ids n)⟩

def labelledOf (ids : Nat → Uuid) (n : Nat) : List ParsedSection → List ParsedSection
  | [] => []
  | s :: rest => labelled ids n s :: labelledOf ids (n + (entries 0 none [] s).length) rest

end

/-- The id of the version's row at ordinal `n`: that of the row that is there, or a new one. -/
def sectionIdAt (c v : Uuid) (newId : Nat → Uuid) (rows : List SectionRow) (n : Nat) : Uuid :=
  match rows.find? fun r => sectionKey r = (c, v, n) with
  | some old => old.id
  | none => newId n

def chunkIdAt (v : Uuid) (newId : Nat → Uuid) (rows : List ChunkRow) (n : Nat) : Uuid :=
  match rows.find? fun r => chunkKey r = (v, n) with
  | some old => old.id
  | none => newId n

def Entry.row (c v : Uuid) (ids : Nat → Uuid) (e : Entry) (n : Nat) : SectionRow :=
  ⟨ids n, c, v, e.parent.map ids, n, e.heading, e.headingPath, e.depth⟩

end Wikore.Reingest
