import Wikore.Ingest.Reingest

/-! Re-ingest converges: whatever an earlier run left, `write_sections` and `write_chunks` leave the
rows of the new layout and no other row of the version. -/

namespace Wikore.Reingest

open Fallible (rejectIf)
open HeadingPaths (pgTextArray)
open Upsert (upsert upserts stored Upserted)

/-- The ids that the server generates for `m` inserts: each one new. -/
structure FreshIds (newId : Nat → Uuid) (used : List Uuid) (m : Nat) : Prop where
  nodup : ((List.range m).map newId).Nodup
  fresh : ∀ n < m, newId n ∉ used

/-! ### The statements -/

theorem key_updateSection (old row : SectionRow) :
    sectionKey (updateSection old row) = sectionKey old := rfl

theorem key_updateChunk (old row : ChunkRow) : chunkKey (updateChunk old row) = chunkKey old := rfl

/-- A text that no NUL ends. -/
def NulFree (s : String) : Prop := '\x00' ∉ s.toList

instance (s : String) : Decidable (NulFree s) := inferInstanceAs (Decidable (_ ∉ _))

theorem textParam_eq {s : String} (h : NulFree s) : textParam s = s := by
  have hall : (s.toList.takeWhile fun c => c ≠ '\x00') = s.toList := by
    refine List.takeWhile_eq_self_iff.mpr fun c hc => decide_eq_true ?_
    rintro rfl
    exact h hc
  rw [textParam, hall, String.ofList_toList]

/-- The literal of a heading path is read back as the path. -/
theorem textArray_pgTextArray {v : List String} (h : ∀ s ∈ v, NulFree s) :
    textArray (pgTextArray (v.map Utf8.encode)) = .ok v := by
  have hbytes : ∀ bs ∈ v.map Utf8.encode, 0 ∉ bs := by
    intro bs hbs
    obtain ⟨s, hs, rfl⟩ := List.mem_map.mp hbs
    exact Utf8.zero_notMem_encode (h s hs)
  have hdecode : ((v.map Utf8.encode).map some).mapM (fun item => item.bind Utf8.decode) = some v := by
    rw [List.map_map]
    induction v with
    | nil => rfl
    | cons s v ih =>
      have hrest := ih (fun t ht => h t (List.mem_cons_of_mem s ht))
        fun bs hbs => hbytes bs (List.mem_cons_of_mem _ hbs)
      rw [List.map_cons, List.mapM_cons, hrest, Function.comp_apply, Option.bind_some,
        Utf8.decode_encode]
      rfl
  rw [textArray, HeadingPaths.arrayIn_pgTextArray _ _ hbytes]
  dsimp only
  rw [hdecode]

theorem parentExists_of_mem {row p : SectionRow} {rows : List SectionRow} (hp : p ∈ rows)
    (hid : row.parentSectionId = some p.id) (hc : p.companyId = row.companyId)
    (hv : p.documentVersionId = row.documentVersionId) : parentExists row rows := by
  simp only [parentExists, hid, List.any_eq_true, decide_eq_true_eq]
  exact ⟨p, hp, rfl, hc, hv⟩

theorem exists_of_parentExists {row : SectionRow} {rows : List SectionRow} {id : Uuid}
    (h : parentExists row rows) (hid : row.parentSectionId = some id) :
    ∃ p ∈ rows, p.id = id ∧ p.companyId = row.companyId ∧
      p.documentVersionId = row.documentVersionId := by
  simpa only [parentExists, hid, List.any_eq_true, decide_eq_true_eq] using h

/-! ### The walk of `write_sections` -/

section Walk

variable (owner : Uuid → Option Uuid) (c v : Uuid) (newId : Nat → Uuid)

/-- The row that the statement for ordinal `n` asks for. -/
def Entry.input (ids : Nat → Uuid) (e : Entry) (n : Nat) : SectionRow :=
  { Entry.row c v ids e n with id := newId n }

/-- The rows that the statements for entries from ordinal `n` on ask for. -/
def inputs (ids : Nat → Uuid) (n : Nat) (es : List Entry) : List SectionRow :=
  (es.zipIdx n).map fun x => Entry.input c v newId ids x.1 x.2

/-- The rows in which these statements end. -/
def rowsOf (ids : Nat → Uuid) (n : Nat) (es : List Entry) : List SectionRow :=
  (es.zipIdx n).map fun x => Entry.row c v ids x.1 x.2

variable {c v newId} {ids : Nat → Uuid}

theorem mem_rowsOf {es : List Entry} {r : SectionRow} :
    r ∈ rowsOf c v ids 0 es ↔ ∃ n e, es[n]? = some e ∧ r = Entry.row c v ids e n := by
  simp only [rowsOf, List.mem_map, Prod.exists, List.mk_mem_zipIdx_iff_getElem?]
  constructor
  · rintro ⟨e, n, h, hr⟩
    exact ⟨n, e, h, hr.symm⟩
  · rintro ⟨n, e, h, hr⟩
    exact ⟨e, n, h, hr.symm⟩

theorem keys_inputs (es : List Entry) : (inputs c v newId ids 0 es).map sectionKey =
    (List.range es.length).map fun n => (c, v, n) := by
  have hsnd : (es.zipIdx 0).map Prod.snd = List.range es.length := by
    rw [List.zipIdx_map_snd, List.range_eq_range']
  rw [← hsnd, inputs, List.map_map, List.map_map]
  rfl

theorem mem_keys_inputs {es : List Entry} {k : Uuid × Uuid × Nat} :
    k ∈ (inputs c v newId ids 0 es).map sectionKey ↔ k.1 = c ∧ k.2.1 = v ∧ k.2.2 < es.length := by
  rw [keys_inputs, List.mem_map]
  constructor
  · rintro ⟨n, hn, rfl⟩
    exact ⟨rfl, rfl, List.mem_range.mp hn⟩
  · rintro ⟨hc, hv, hn⟩
    exact ⟨k.2.2, List.mem_range.mpr hn, by rw [← hc, ← hv]⟩

theorem nodup_keys_inputs (es : List Entry) :
    ((inputs c v newId ids 0 es).map sectionKey).Nodup := by
  rw [keys_inputs]
  refine List.Nodup.map (fun m n h => ?_) List.nodup_range
  simpa using h

theorem inputs_append (n : Nat) (es es' : List Entry) :
    inputs c v newId ids n (es ++ es') =
      inputs c v newId ids n es ++ inputs c v newId ids (n + es.length) es' := by
  simp only [inputs, List.zipIdx_append, List.map_append]

/-- The row of ordinal `n` gets the id that `sectionIdAt` says. -/
theorem stored_input (rows : List SectionRow) (e : Entry) (n : Nat) :
    stored sectionKey updateSection rows (Entry.input c v newId ids e n) =
      { Entry.row c v ids e n with id := sectionIdAt c v newId rows n } := by
  simp only [stored, upsert, sectionIdAt]
  have hkey : sectionKey (Entry.input c v newId ids e n) = (c, v, n) := rfl
  rw [hkey]
  cases hf : rows.find? fun r => sectionKey r = (c, v, n) with
  | none => rfl
  | some old =>
    have hk : sectionKey old = (c, v, n) := by simpa using List.find?_some hf
    simp only [sectionKey, Prod.mk.injEq] at hk
    obtain ⟨hc, hv, hn⟩ := hk
    simp only [updateSection, Entry.input, Entry.row, hc, hv, hn]

variable {owner} {rows : List SectionRow}

/-- What the statements of the entries so far leave. -/
theorem upserted_inputs (hrows : (rows.map sectionKey).Nodup) (es : List Entry) :
    Upserted sectionKey updateSection rows (inputs c v newId ids 0 es)
      (upserts sectionKey updateSection rows (inputs c v newId ids 0 es)) :=
  Upsert.upserted_upserts key_updateSection hrows (nodup_keys_inputs es)

/-- The rows among which the parent of the next section is. -/
theorem row_mem_upserts (hrows : (rows.map sectionKey).Nodup)
    (hids : ids = sectionIdAt c v newId rows) {es : List Entry} {n : Nat} {e : Entry}
    (he : es[n]? = some e) : Entry.row c v ids e n ∈
      upserts sectionKey updateSection rows (inputs c v newId ids 0 es) := by
  rw [(upserted_inputs hrows es).mem_iff]
  refine .inl (List.mem_map.mpr ⟨Entry.input c v newId ids e n, ?_, ?_⟩)
  · exact List.mem_map.mpr ⟨(e, n), List.mk_mem_zipIdx_iff_getElem?.mpr he, rfl⟩
  · rw [stored_input, ← hids]
    rfl

/-- The statement for one more section returns the row of its entry. -/
theorem execUpsertSection_ok (hown : owner v = some c) (hrows : (rows.map sectionKey).Nodup)
    (hids : ids = sectionIdAt c v newId rows) (es : List Entry) (e : Entry)
    (hp : ∀ q, e.parent = some q → q < es.length) :
    execUpsertSection owner (Entry.input c v newId ids e es.length)
        (upserts sectionKey updateSection rows (inputs c v newId ids 0 es)) =
      .ok (upserts sectionKey updateSection rows (inputs c v newId ids 0 (es ++ [e])),
        Entry.row c v ids e es.length) := by
  have hnew : sectionKey (Entry.input c v newId ids e es.length) ∉
      (inputs c v newId ids 0 es).map sectionKey := by
    rw [mem_keys_inputs]
    exact fun h => Nat.lt_irrefl _ h.2.2
  have hrow : (upsert sectionKey updateSection (Entry.input c v newId ids e es.length)
      (upserts sectionKey updateSection rows (inputs c v newId ids 0 es))).2 =
        Entry.row c v ids e es.length := by
    refine ((upserted_inputs hrows es).stored_eq key_updateSection hrows hnew).trans ?_
    rw [stored_input, ← hids]
    rfl
  have hlist : (upsert sectionKey updateSection (Entry.input c v newId ids e es.length)
      (upserts sectionKey updateSection rows (inputs c v newId ids 0 es))).1 =
        upserts sectionKey updateSection rows (inputs c v newId ids 0 (es ++ [e])) := by
    rw [inputs_append]
    simp [upserts, inputs]
  have hparent : parentExists (Entry.row c v ids e es.length)
      (upserts sectionKey updateSection rows (inputs c v newId ids 0 (es ++ [e]))) := by
    cases hq : e.parent with
    | none => simp [parentExists, Entry.row, hq]
    | some q =>
      have hlt := hp q hq
      refine parentExists_of_mem (row_mem_upserts hrows hids (n := q) (e := es[q]) ?_) ?_ rfl rfl
      · rw [List.getElem?_append_left hlt, List.getElem?_eq_getElem hlt]
      · simp [Entry.row, hq]
  have howner : ¬(owner (Entry.input c v newId ids e es.length).documentVersionId ≠
      some (Entry.input c v newId ids e es.length).companyId) := not_not.mpr hown
  simp only [execUpsertSection, rejectIf, if_neg howner, hrow, hlist, hparent]
  simp only [not_true_eq_false, if_false]
  rw [← hlist, ← hrow]
  rfl

mutual

/-- The number of sections does not depend on where the tree stands. -/
theorem length_entries (n m : Nat) (p q : Option Nat) (path path' : List String) :
    ∀ s, (entries n p path s).length = (entries m q path' s).length
  | ⟨heading, _, _, children, _⟩ => by
    simp only [entries, List.length_cons]
    rw [length_entriesOf (n + 1) (m + 1) (some n) (some m) _ _ children]

theorem length_entriesOf (n m : Nat) (p q : Option Nat) (path path' : List String) :
    ∀ sections, (entriesOf n p path sections).length = (entriesOf m q path' sections).length
  | [] => rfl
  | s :: rest => by
    simp only [entriesOf, List.length_append]
    rw [length_entries n m p q path path' s,
      length_entriesOf _ (m + (entries m q path' s).length) p q path path' rest]

end

mutual

/-- The headings of a tree. -/
def headings : ParsedSection → List String
  | ⟨heading, _, _, children, _⟩ => heading :: headingsOf children

def headingsOf : List ParsedSection → List String
  | [] => []
  | s :: rest => headings s ++ headingsOf rest

end

mutual

/-- The walk runs the statements of the entries of the tree, in pre-order. -/
theorem upsertSection_ok (hown : owner v = some c) (hrows : (rows.map sectionKey).Nodup)
    (hids : ids = sectionIdAt c v newId rows) :
    ∀ (s : ParsedSection) (es : List Entry) (p : Option Nat) (path : List String),
    (∀ q, p = some q → q < es.length) → (∀ h ∈ path, NulFree h) → (∀ h ∈ headings s, NulFree h) →
    upsertSection owner c v newId (p.map ids) path s
        ⟨es.length, upserts sectionKey updateSection rows (inputs c v newId ids 0 es)⟩ =
      .ok (labelled ids es.length s, ⟨(es ++ entries es.length p path s).length,
        upserts sectionKey updateSection rows
          (inputs c v newId ids 0 (es ++ entries es.length p path s))⟩)
  | ⟨heading, depth, text, children, _⟩, es, p, path, hp, hpath, hs => by
    let path' := if heading = "" then path else path ++ [heading]
    let e : Entry := ⟨p, if heading = "" then none else some heading, path', depth⟩
    rw [headings, List.forall_mem_cons] at hs
    have hpath' : ∀ h ∈ path', NulFree h := by
      intro h hh
      by_cases hempty : heading = ""
      · exact hpath h (by simpa only [path', if_pos hempty] using hh)
      · simp only [path', if_neg hempty, List.mem_append, List.mem_singleton] at hh
        exact hh.elim (hpath h) fun heq => heq ▸ hs.1
    have hexec := execUpsertSection_ok hown hrows hids es e hp
    have hbelow := upsertSections_ok hown hrows hids children (es ++ [e]) (some es.length) path'
      (fun q hq => by rw [← Option.some.inj hq]; simp) hpath' hs.2
    have hheading : (if heading = "" then none else some heading).map textParam =
        if heading = "" then none else some heading := by
      split
      · rfl
      · rw [Option.map_some, textParam_eq hs.1]
    have hread : textArray (pgTextArray
        ((if heading = "" then path else path ++ [heading]).map Utf8.encode)) = .ok path' :=
      textArray_pgTextArray hpath'
    have hinput : Entry.input c v newId ids e es.length = ⟨newId es.length, c, v, p.map ids,
        es.length, if heading = "" then none else some heading, path', depth⟩ := rfl
    rw [List.length_append, List.length_singleton, List.append_assoc, List.singleton_append]
      at hbelow
    simp only [upsertSection, hread, hheading, bind, Except.bind]
    rw [← hinput, hexec]
    simp only [Entry.row, labelled, entries]
    rw [Option.map_some] at hbelow
    rw [hbelow]

theorem upsertSections_ok (hown : owner v = some c) (hrows : (rows.map sectionKey).Nodup)
    (hids : ids = sectionIdAt c v newId rows) :
    ∀ (sections : List ParsedSection) (es : List Entry) (p : Option Nat) (path : List String),
    (∀ q, p = some q → q < es.length) → (∀ h ∈ path, NulFree h) →
    (∀ h ∈ headingsOf sections, NulFree h) →
    upsertSections owner c v newId (p.map ids) path sections
        ⟨es.length, upserts sectionKey updateSection rows (inputs c v newId ids 0 es)⟩ =
      .ok (labelledOf ids es.length sections, ⟨(es ++ entriesOf es.length p path sections).length,
        upserts sectionKey updateSection rows
          (inputs c v newId ids 0 (es ++ entriesOf es.length p path sections))⟩)
  | [], es, p, path, _, _, _ => by simp [upsertSections, labelledOf, entriesOf]
  | s :: rest, es, p, path, hp, hpath, hs => by
    rw [headingsOf, List.forall_mem_append] at hs
    have hfirst := upsertSection_ok hown hrows hids s es p path hp hpath hs.1
    have hrest := upsertSections_ok hown hrows hids rest (es ++ entries es.length p path s) p path
      (fun q hq => by have := hp q hq; simp; omega) hpath hs.2
    rw [List.length_append, List.append_assoc] at hrest
    simp only [upsertSections, hfirst, bind, Except.bind, labelledOf, entriesOf]
    rw [List.length_append, hrest, length_entries 0 es.length none p [] path s]

end

mutual

/-- A parent in the layout stands before its section. -/
theorem entries_parent (n : Nat) (p : Option Nat) (path : List String) :
    ∀ (s : ParsedSection) (i q : Nat) (e : Entry), (entries n p path s)[i]? = some e →
      e.parent = some q → p = some q ∨ q < n + i
  | ⟨heading, _, _, children, _⟩, i, q, e, he, hq => by
    simp only [entries] at he
    cases i with
    | zero =>
      rw [List.getElem?_cons_zero, Option.some.injEq] at he
      subst he
      exact .inl hq
    | succ i =>
      rw [List.getElem?_cons_succ] at he
      rcases entriesOf_parent (n + 1) (some n) _ children i q e he hq with h | h
      · have := Option.some.inj h
        exact .inr (by omega)
      · exact .inr (by omega)

theorem entriesOf_parent (n : Nat) (p : Option Nat) (path : List String) :
    ∀ (sections : List ParsedSection) (i q : Nat) (e : Entry),
      (entriesOf n p path sections)[i]? = some e → e.parent = some q → p = some q ∨ q < n + i
  | [], i, q, e, he, _ => by simp [entriesOf] at he
  | s :: rest, i, q, e, he, hq => by
    simp only [entriesOf] at he
    by_cases hlt : i < (entries n p path s).length
    · rw [List.getElem?_append_left hlt] at he
      exact entries_parent n p path s i q e he hq
    · rw [List.getElem?_append_right (by omega)] at he
      rcases entriesOf_parent _ p path rest _ q e he hq with h | h
      · exact .inl h
      · exact .inr (by omega)

end

/-! ### The deletion of the orphans -/

/-- The rows after the walk. -/
theorem mem_written (hrows : (rows.map sectionKey).Nodup)
    (hids : ids = sectionIdAt c v newId rows) {es : List Entry} {r : SectionRow} :
    r ∈ upserts sectionKey updateSection rows (inputs c v newId ids 0 es) ↔
      r ∈ rowsOf c v ids 0 es ∨
        r ∈ rows ∧ ¬(r.companyId = c ∧ r.documentVersionId = v ∧ r.ordinal < es.length) := by
  have hstored : (inputs c v newId ids 0 es).map (stored sectionKey updateSection rows) =
      rowsOf c v ids 0 es := by
    rw [inputs, List.map_map, rowsOf]
    refine List.map_congr_left fun x _ => ?_
    rw [Function.comp_apply, stored_input, ← hids]
    rfl
  rw [(upserted_inputs hrows es).mem_iff, hstored, mem_keys_inputs]
  rfl

theorem nodup_ids_written (hrows : (rows.map sectionKey).Nodup)
    (hsids : (rows.map SectionRow.id).Nodup) {es : List Entry}
    (hfresh : FreshIds newId (rows.map SectionRow.id) es.length) :
    ((upserts sectionKey updateSection rows (inputs c v newId ids 0 es)).map
      SectionRow.id).Nodup := by
  have hsnd : (es.zipIdx 0).map Prod.snd = List.range es.length := by
    rw [List.zipIdx_map_snd, List.range_eq_range']
  have hinputs : (inputs c v newId ids 0 es).map SectionRow.id =
      (List.range es.length).map newId := by
    rw [← hsnd, inputs, List.map_map, List.map_map]
    rfl
  refine (upserted_inputs hrows es).unique SectionRow.id key_updateSection (fun _ _ => rfl) hrows
    hsids (hinputs ▸ hfresh.nodup) fun d hd => ?_
  have hmem : d.id ∈ (inputs c v newId ids 0 es).map SectionRow.id := List.mem_map.mpr ⟨d, hd, rfl⟩
  rw [hinputs] at hmem
  obtain ⟨n, hn, hid⟩ := List.mem_map.mp hmem
  rw [← hid]
  exact hfresh.fresh n (List.mem_range.mp hn)

theorem cascade_eq {fuel : Nat} {gone rows : List SectionRow}
    (h : ∀ r ∈ rows, childOf gone r = false) : cascade fuel gone rows = rows := by
  cases fuel with
  | zero => rfl
  | succ fuel =>
    rw [cascade, if_neg]
    simpa using h

/-- The cascade finds nothing: a row that stays has a parent of the new layout, whose ordinal is
below those of the orphans, or belongs to another version. -/
theorem not_childOf (hrows : (rows.map sectionKey).Nodup)
    (hsids : (rows.map SectionRow.id).Nodup) (hids : ids = sectionIdAt c v newId rows)
    {sections : List ParsedSection}
    (hfresh : FreshIds newId (rows.map SectionRow.id) (entriesOf 0 none [] sections).length)
    {gone : List SectionRow} {r : SectionRow}
    (hgone : ∀ g ∈ gone, g ∈ upserts sectionKey updateSection rows
      (inputs c v newId ids 0 (entriesOf 0 none [] sections)) ∧
      orphanSection c v (entriesOf 0 none [] sections).length g)
    (hr : r ∈ upserts sectionKey updateSection rows
      (inputs c v newId ids 0 (entriesOf 0 none [] sections)))
    (hkeep : orphanSection c v (entriesOf 0 none [] sections).length r = false) :
    childOf gone r = false := by
  rw [Bool.eq_false_iff]
  intro hchild
  simp only [childOf, List.any_eq_true, decide_eq_true_eq] at hchild
  obtain ⟨g, hg, hparent, hc, hv⟩ := hchild
  obtain ⟨hgmem, horphan⟩ := hgone g hg
  simp only [orphanSection, decide_eq_true_eq, decide_eq_false_iff_not] at horphan hkeep
  rcases (mem_written hrows hids).mp hr with hrow | ⟨-, hold⟩
  · obtain ⟨n, e, he, rfl⟩ := mem_rowsOf.mp hrow
    obtain ⟨q, hq, hid⟩ := Option.map_eq_some_iff.mp hparent
    have hlt : q < n := by
      rcases entriesOf_parent 0 none [] sections n q e he hq with h | h
      · cases h
      · omega
    obtain ⟨hn, -⟩ := List.getElem?_eq_some_iff.mp he
    have hqm : q < (entriesOf 0 none [] sections).length := by omega
    have hmem := row_mem_upserts hrows hids (List.getElem?_eq_getElem hqm)
    have hg' := Upsert.eq_of_key (nodup_ids_written hrows hsids hfresh) hgmem hmem hid.symm
    have hord : g.ordinal = q := congrArg SectionRow.ordinal hg'
    omega
  · obtain ⟨hgc, hgv, -⟩ := horphan
    refine hkeep ⟨hc.trans hgc, hv.trans hgv, ?_⟩
    by_contra hlt
    exact hold ⟨hc.trans hgc, hv.trans hgv, by omega⟩

/-- What `write_sections` leaves: the rows of the layout beside those of other versions, and chunks
that at most lost the links of the version's own rows. -/
structure SectionsWritten (c v : Uuid) (ids : Nat → Uuid) (es : List Entry)
    (t t' : ContentTables) : Prop where
  mem_iff : ∀ r, r ∈ t'.sections ↔
    r ∈ rowsOf c v ids 0 es ∨ r ∈ t.sections ∧ r.documentVersionId ≠ v
  keys : (t'.sections.map sectionKey).Nodup
  ids : (t'.sections.map SectionRow.id).Nodup
  cited : t'.cited = t.cited
  chunks : ∃ gone, t'.chunks = t.chunks.map (unlink gone) ∧
    ∀ r ∈ t.chunks, r.documentVersionId ≠ v → unlink gone r = r

theorem writeSections_ok (hown : owner v = some c) {t : ContentTables} (ht : Coherent owner t)
    (hids : ids = sectionIdAt c v newId t.sections) (sections : List ParsedSection)
    (hheadings : ∀ h ∈ headingsOf sections, NulFree h)
    (hfresh : FreshIds newId (t.sections.map SectionRow.id)
      (entriesOf 0 none [] sections).length) :
    ∃ t', writeSections owner c v newId sections t = .ok (labelledOf ids 0 sections, t') ∧
      SectionsWritten c v ids (entriesOf 0 none [] sections) t t' := by
  have hwalk := upsertSections_ok hown ht.sectionKeys hids sections [] none [] (by simp) (by simp)
    hheadings
  simp only [List.length_nil, List.nil_append, Option.map_none] at hwalk
  have hstart : upserts sectionKey updateSection t.sections (inputs c v newId ids 0 []) =
      t.sections := rfl
  rw [hstart] at hwalk
  generalize hes : entriesOf 0 none [] sections = es at hwalk hfresh ⊢
  generalize hwritten : upserts sectionKey updateSection t.sections
    (inputs c v newId ids 0 es) = written at hwalk
  have hmem : ∀ r, r ∈ written ↔ r ∈ rowsOf c v ids 0 es ∨ r ∈ t.sections ∧
      ¬(r.companyId = c ∧ r.documentVersionId = v ∧ r.ordinal < es.length) :=
    fun r => hwritten ▸ mem_written ht.sectionKeys hids
  have hidsNodup : (written.map SectionRow.id).Nodup :=
    hwritten ▸ nodup_ids_written ht.sectionKeys ht.sectionIds hfresh
  have hkept : cascade written.length (written.filter (orphanSection c v es.length))
      (written.filter fun r => !orphanSection c v es.length r) =
        written.filter fun r => !orphanSection c v es.length r := by
    refine cascade_eq fun r hr => ?_
    obtain ⟨hmr, hkeep⟩ := List.mem_filter.mp hr
    subst hes hwritten
    exact not_childOf ht.sectionKeys ht.sectionIds hids hfresh
      (fun g hg => List.mem_filter.mp hg) hmr (by simpa using hkeep)
  have hsub : (written.filter fun r => !orphanSection c v es.length r).Sublist written :=
    List.filter_sublist
  have hkeys : (written.map sectionKey).Nodup :=
    hwritten ▸ (upserted_inputs ht.sectionKeys es).keys
  refine ⟨deleteSections (orphanSection c v es.length) { t with sections := written }, ?_, ?_, ?_,
    ?_, rfl, _, rfl, fun r hr hv => ?_⟩
  · simp only [writeSections, hwalk, bind, Except.bind]
  · intro r
    simp only [deleteSections, hkept]
    simp only [List.mem_filter, hmem, orphanSection, Bool.not_eq_true', decide_eq_false_iff_not]
    constructor
    · rintro ⟨hrow | ⟨hr, hold⟩, hkeep⟩
      · exact .inl hrow
      · refine .inr ⟨hr, fun hv => ?_⟩
        have hc : r.companyId = c := Option.some.inj ((ht.sectionOwner r hr).symm.trans (hv ▸ hown))
        by_cases hlt : r.ordinal < es.length
        · exact hold ⟨hc, hv, hlt⟩
        · exact hkeep ⟨hc, hv, by omega⟩
    · rintro (hrow | ⟨hr, hv⟩)
      · refine ⟨.inl hrow, fun h => ?_⟩
        obtain ⟨n, e, he, rfl⟩ := mem_rowsOf.mp hrow
        obtain ⟨hn, -⟩ := List.getElem?_eq_some_iff.mp he
        have hle : es.length ≤ n := h.2.2
        omega
      · exact ⟨.inr ⟨hr, fun h => hv h.2.1⟩, fun h => hv h.2.1⟩
  · simp only [deleteSections, hkept]
    exact (hsub.map sectionKey).nodup hkeys
  · simp only [deleteSections, hkept]
    exact (hsub.map SectionRow.id).nodup hidsNodup
  · -- the section of a chunk of another version is none of the deleted ones
    simp only [hkept, unlink]
    rw [if_neg]
    intro hgone
    obtain ⟨id, hid, hlink⟩ := List.mem_map.mp hgone
    obtain ⟨g, hg, rfl⟩ := List.mem_map.mp hid
    obtain ⟨s, hs, hsid, hsv⟩ := ht.links r hr g.id hlink.symm
    simp only [List.mem_filter, decide_eq_true_eq, not_and, Bool.not_eq_true',
      Bool.not_eq_false] at hg
    have horphan := hg.2 hg.1
    simp only [orphanSection, decide_eq_true_eq] at horphan
    have hsmem : s ∈ written := (hmem s).mpr (.inr ⟨hs, fun h => hv (hsv.symm.trans h.2.1)⟩)
    have hsg := Upsert.eq_of_key hidsNodup hsmem hg.1 hsid
    exact hv (hsv.symm.trans (hsg ▸ horphan.2.1))

end Walk

/-! ### The loop of `write_chunks` -/

section Chunks

variable {owner : Uuid → Option Uuid} {c v : Uuid} {newId : Nat → Uuid}
  {sha256Hex : String → Option String} {hash : String → String} {scopes : List Uuid}

/-- The row of a chunk, where the version's row at index `n` has the id `ids n`. -/
def chunkRow (c v : Uuid) (ids : Nat → Uuid) (hash : String → String) (scopes : List Uuid)
    (chunk : Chunk) : ChunkRow :=
  ⟨ids chunk.chunkIndex, c, v, chunk.chunkIndex, chunk.text, hash chunk.text, scopes,
    chunk.sectionId⟩

theorem sectionId_stored (rows : List ChunkRow) (row : ChunkRow) :
    (stored chunkKey updateChunk rows row).sectionId = row.sectionId := by
  simp only [stored, upsert]
  cases rows.find? fun r => chunkKey r = chunkKey row with
  | none => rfl
  | some old => rfl

/-- Without a failing digest or foreign key the loop runs the statement of every chunk. -/
theorem writeChunk_loop (hown : owner v = some c)
    (hhash : ∀ text, sha256Hex text = some (hash text)) {sections : List SectionRow}
    {chunks : List Chunk} (htexts : ∀ ch ∈ chunks, NulFree ch.text)
    (hsec : ∀ ch ∈ chunks, ∀ id, ch.sectionId = some id → ∃ s ∈ sections, s.id = id)
    (rows : List ChunkRow) :
    chunks.foldlM (writeChunk owner c v newId sha256Hex scopes sections) rows =
      .ok (upserts chunkKey updateChunk rows (chunks.map (chunkRow c v newId hash scopes))) := by
  induction chunks generalizing rows with
  | nil => rfl
  | cons ch chunks ih =>
    have hexists : sectionExists (stored chunkKey updateChunk rows
        (chunkRow c v newId hash scopes ch)) sections := by
      simp only [sectionExists, sectionId_stored]
      cases hid : ch.sectionId with
      | none => simp [chunkRow, hid]
      | some id =>
        obtain ⟨s, hs, hsid⟩ := hsec ch List.mem_cons_self id hid
        simp only [chunkRow, hid, List.any_eq_true, decide_eq_true_eq]
        exact ⟨s, hs, hsid⟩
    have hfirst : writeChunk owner c v newId sha256Hex scopes sections rows ch =
        .ok (upsert chunkKey updateChunk (chunkRow c v newId hash scopes ch) rows).1 := by
      have howner : ¬(owner (chunkRow c v newId hash scopes ch).documentVersionId ≠
          some (chunkRow c v newId hash scopes ch).companyId) := not_not.mpr hown
      rw [writeChunk, hhash, textParam_eq (htexts ch List.mem_cons_self)]
      change execUpsertChunk owner sections (chunkRow c v newId hash scopes ch) rows = _
      rw [stored] at hexists
      simp only [execUpsertChunk, rejectIf]
      rw [if_neg howner, if_neg (not_not.mpr hexists)]
      rfl
    rw [List.foldlM_cons, hfirst]
    exact ih (fun x hx => htexts x (List.mem_cons_of_mem ch hx))
      (fun x hx => hsec x (List.mem_cons_of_mem ch hx)) _

/-- The row of index `n` gets the id that `chunkIdAt` says. -/
theorem stored_chunkRow (hown : owner v = some c) {rows : List ChunkRow}
    (howned : ∀ r ∈ rows, owner r.documentVersionId = some r.companyId) (ch : Chunk) :
    stored chunkKey updateChunk rows (chunkRow c v newId hash scopes ch) =
      chunkRow c v (chunkIdAt v newId rows) hash scopes ch := by
  simp only [stored, upsert]
  have hkey : chunkKey (chunkRow c v newId hash scopes ch) = (v, ch.chunkIndex) := rfl
  rw [hkey]
  cases hf : rows.find? fun r => chunkKey r = (v, ch.chunkIndex) with
  | none => simp only [chunkRow, chunkIdAt, hf]
  | some old =>
    have hk : chunkKey old = (v, ch.chunkIndex) := by simpa using List.find?_some hf
    simp only [chunkKey, Prod.mk.injEq] at hk
    obtain ⟨hv, hn⟩ := hk
    have hc : old.companyId = c := by
      have := howned old (List.mem_of_find?_eq_some hf)
      rw [hv, hown] at this
      exact (Option.some.inj this).symm
    simp only [updateChunk, chunkRow, chunkIdAt, hf, hv, hn, hc]

@[simp] theorem id_unlink (gone : List Uuid) (r : ChunkRow) : (unlink gone r).id = r.id := by
  rw [unlink]
  split <;> rfl

@[simp] theorem companyId_unlink (gone : List Uuid) (r : ChunkRow) :
    (unlink gone r).companyId = r.companyId := by
  rw [unlink]
  split <;> rfl

@[simp] theorem chunkKey_unlink (gone : List Uuid) (r : ChunkRow) :
    chunkKey (unlink gone r) = chunkKey r := by
  rw [unlink]
  split <;> rfl

@[simp] theorem documentVersionId_unlink (gone : List Uuid) (r : ChunkRow) :
    (unlink gone r).documentVersionId = r.documentVersionId :=
  congrArg Prod.fst (chunkKey_unlink gone r)

@[simp] theorem chunkIndex_unlink (gone : List Uuid) (r : ChunkRow) :
    (unlink gone r).chunkIndex = r.chunkIndex :=
  congrArg Prod.snd (chunkKey_unlink gone r)

theorem chunkIdAt_unlink (gone : List Uuid) (rows : List ChunkRow) :
    chunkIdAt v newId (rows.map (unlink gone)) = chunkIdAt v newId rows := by
  funext n
  simp only [chunkIdAt, List.find?_map, Function.comp_def, chunkKey_unlink]
  cases rows.find? fun r => chunkKey r = (v, n) with
  | none => rfl
  | some old => exact id_unlink gone old

end Chunks

/-! ### The new layout -/

mutual

/-- The ids at the sections of a tree. -/
def dbIds : ParsedSection → List Uuid
  | ⟨_, _, _, children, dbId⟩ => dbId.toList ++ dbIdsOf children

def dbIdsOf : List ParsedSection → List Uuid
  | [] => []
  | s :: rest => dbIds s ++ dbIdsOf rest

end

/-- A chunk list as the chunker makes it: numbered from 0, each chunk with the id of a section of
the tree or with none. -/
structure ChunksOf (sections : List ParsedSection) (chunks : List Chunk) : Prop where
  indices : chunks.map Chunk.chunkIndex = List.range chunks.length
  sectionIds : ∀ ch ∈ chunks, ∀ id, ch.sectionId = some id → id ∈ dbIdsOf sections

/-- The rows of the version are those of the new layout, and those of other versions are as they
were. -/
structure NewLayout (c v : Uuid) (ids chunkIds : Nat → Uuid) (hash : String → String)
    (scopes : List Uuid) (es : List Entry) (chunks : List Chunk) (t t' : ContentTables) :
    Prop where
  sections : ∀ r, r ∈ t'.sections ↔ (∃ n e, es[n]? = some e ∧ r = Entry.row c v ids e n) ∨
    r ∈ t.sections ∧ r.documentVersionId ≠ v
  chunks : ∀ r, r ∈ t'.chunks ↔
    (∃ n ch, chunks[n]? = some ch ∧ ch.chunkIndex = n ∧
      r = chunkRow c v chunkIds hash scopes ch) ∨
    r ∈ t.chunks ∧ r.documentVersionId ≠ v
  cited : t'.cited = t.cited

section Layout

variable {owner : Uuid → Option Uuid} {c v : Uuid} {ids : Nat → Uuid}

mutual

theorem dbIds_labelled (n : Nat) : ∀ (s : ParsedSection) (id : Uuid),
    id ∈ dbIds (labelled ids n s) → ∃ k, k < (entries 0 none [] s).length ∧ id = ids (n + k)
  | ⟨heading, depth, text, children, _⟩, id, h => by
    simp only [labelled, dbIds, Option.toList_some, List.singleton_append, List.mem_cons] at h
    simp only [entries, List.length_cons, length_entriesOf (0 + 1) 0 (some 0) none _ [] children]
    rcases h with rfl | h
    · exact ⟨0, by omega, rfl⟩
    · obtain ⟨k, hk, rfl⟩ := dbIdsOf_labelledOf (n + 1) children id h
      exact ⟨k + 1, by omega, by rw [Nat.add_assoc, Nat.add_comm 1 k]⟩

theorem dbIdsOf_labelledOf (n : Nat) : ∀ (sections : List ParsedSection) (id : Uuid),
    id ∈ dbIdsOf (labelledOf ids n sections) →
      ∃ k, k < (entriesOf 0 none [] sections).length ∧ id = ids (n + k)
  | [], id, h => by simp [labelledOf, dbIdsOf] at h
  | s :: rest, id, h => by
    simp only [labelledOf, dbIdsOf, List.mem_append] at h
    simp only [entriesOf, List.length_append,
      length_entriesOf (0 + (entries 0 none [] s).length) 0 none none [] [] rest]
    rcases h with h | h
    · obtain ⟨k, hk, rfl⟩ := dbIds_labelled n s id h
      exact ⟨k, by omega, rfl⟩
    · obtain ⟨k, hk, rfl⟩ := dbIdsOf_labelledOf _ rest id h
      exact ⟨(entries 0 none [] s).length + k, by omega, by rw [Nat.add_assoc]⟩

end

mutual

/-- The labels are those of the ordinals of the tree only. -/
theorem labelled_congr (ids' : Nat → Uuid) (n : Nat) : ∀ (s : ParsedSection),
    (∀ k < (entries 0 none [] s).length, ids (n + k) = ids' (n + k)) →
      labelled ids n s = labelled ids' n s
  | ⟨heading, depth, text, children, _⟩, h => by
    simp only [entries, List.length_cons,
      length_entriesOf (0 + 1) 0 (some 0) none _ [] children] at h
    have hroot : ids n = ids' n := h 0 (by omega)
    have hchildren := labelledOf_congr ids' (n + 1) children fun k hk => by
      rw [Nat.add_assoc, Nat.add_comm 1 k]
      exact h (k + 1) (by omega)
    rw [labelled, labelled, hroot, hchildren]

theorem labelledOf_congr (ids' : Nat → Uuid) (n : Nat) : ∀ (sections : List ParsedSection),
    (∀ k < (entriesOf 0 none [] sections).length, ids (n + k) = ids' (n + k)) →
      labelledOf ids n sections = labelledOf ids' n sections
  | [], _ => rfl
  | s :: rest, h => by
    simp only [entriesOf, List.length_append,
      length_entriesOf (0 + (entries 0 none [] s).length) 0 none none [] [] rest] at h
    have hfirst := labelled_congr ids' n s fun k hk => h k (by omega)
    have hrest := labelledOf_congr ids' (n + (entries 0 none [] s).length) rest fun k hk => by
      rw [Nat.add_assoc]
      exact h ((entries 0 none [] s).length + k) (by omega)
    rw [labelledOf, labelledOf, hfirst, hrest]

end

/-- A row that is there gives its ordinal its id. -/
theorem sectionIdAt_of_mem {newId : Nat → Uuid} {rows : List SectionRow}
    (hrows : (rows.map sectionKey).Nodup) {r : SectionRow} (hr : r ∈ rows) {n : Nat}
    (hk : sectionKey r = (c, v, n)) : sectionIdAt c v newId rows n = r.id := by
  simp only [sectionIdAt]
  cases hf : rows.find? fun x => sectionKey x = (c, v, n) with
  | none =>
    have := List.find?_eq_none.mp hf r hr
    simp [hk] at this
  | some old =>
    have hk' : sectionKey old = (c, v, n) := by simpa using List.find?_some hf
    rw [Upsert.eq_of_key hrows (List.mem_of_find?_eq_some hf) hr (hk'.trans hk.symm)]

/-- The rows of the chunks of a list have the keys of its indices. -/
theorem mem_keys_chunkRows {newId : Nat → Uuid} {hash : String → String} {scopes : List Uuid}
    {chunks : List Chunk} (hidx : chunks.map Chunk.chunkIndex = List.range chunks.length)
    (k : Uuid × Nat) :
    k ∈ (chunks.map (chunkRow c v newId hash scopes)).map chunkKey ↔
      k.1 = v ∧ k.2 < chunks.length := by
  have hkeys : (chunks.map (chunkRow c v newId hash scopes)).map chunkKey =
      (List.range chunks.length).map fun n => (v, n) := by
    rw [← hidx, List.map_map, List.map_map]
    rfl
  rw [hkeys, List.mem_map]
  constructor
  · rintro ⟨n, hn, rfl⟩
    exact ⟨rfl, List.mem_range.mp hn⟩
  · rintro ⟨hv, hn⟩
    exact ⟨k.2, List.mem_range.mpr hn, by rw [← hv]⟩

theorem nodup_keys_chunkRows {newId : Nat → Uuid} {hash : String → String} {scopes : List Uuid}
    {chunks : List Chunk} (hidx : chunks.map Chunk.chunkIndex = List.range chunks.length) :
    ((chunks.map (chunkRow c v newId hash scopes)).map chunkKey).Nodup := by
  have hkeys : (chunks.map (chunkRow c v newId hash scopes)).map chunkKey =
      (List.range chunks.length).map fun n => (v, n) := by
    rw [← hidx, List.map_map, List.map_map]
    rfl
  rw [hkeys]
  refine List.Nodup.map (fun m n h => ?_) List.nodup_range
  simpa using h

/-- The chunk of index `n` is the one at place `n`. -/
theorem chunkIndex_eq {chunks : List Chunk}
    (hidx : chunks.map Chunk.chunkIndex = List.range chunks.length) {n : Nat} {ch : Chunk}
    (h : chunks[n]? = some ch) : ch.chunkIndex = n := by
  have hget : (chunks.map Chunk.chunkIndex)[n]? = some ch.chunkIndex := by
    rw [List.getElem?_map, h]
    rfl
  rw [hidx] at hget
  obtain ⟨hn, heq⟩ := List.getElem?_eq_some_iff.mp hget
  rw [← heq, List.getElem_range]

end Layout

/-! ### One run -/

section Run

variable {owner : Uuid → Option Uuid} {c v : Uuid} {newId newChunkId : Nat → Uuid}
  {sha256Hex : String → Option String} {hash : String → String} {scopes : List Uuid}
  {chunks : List Chunk} {t : ContentTables} {gone : List Uuid}

/-- What the statements of the chunks leave, before the orphans are deleted. -/
theorem upserted_chunks (ht : Coherent owner t)
    (hidx : chunks.map Chunk.chunkIndex = List.range chunks.length) :
    Upserted chunkKey updateChunk (t.chunks.map (unlink gone))
      (chunks.map (chunkRow c v newChunkId hash scopes))
      (upserts chunkKey updateChunk (t.chunks.map (unlink gone))
        (chunks.map (chunkRow c v newChunkId hash scopes))) := by
  refine Upsert.upserted_upserts key_updateChunk ?_ (nodup_keys_chunkRows hidx)
  rw [List.map_map]
  simpa [Function.comp_def] using ht.chunkKeys

theorem mem_writtenChunks (hown : owner v = some c) (ht : Coherent owner t)
    (hidx : chunks.map Chunk.chunkIndex = List.range chunks.length) (r : ChunkRow) :
    r ∈ upserts chunkKey updateChunk (t.chunks.map (unlink gone))
        (chunks.map (chunkRow c v newChunkId hash scopes)) ↔
      r ∈ chunks.map (chunkRow c v (chunkIdAt v newChunkId t.chunks) hash scopes) ∨
      r ∈ t.chunks.map (unlink gone) ∧
        ¬(r.documentVersionId = v ∧ r.chunkIndex < chunks.length) := by
  have howned : ∀ r ∈ t.chunks.map (unlink gone),
      owner r.documentVersionId = some r.companyId := by
    intro r hr
    obtain ⟨x, hx, rfl⟩ := List.mem_map.mp hr
    simpa using ht.chunkOwner x hx
  have hstored : (chunks.map (chunkRow c v newChunkId hash scopes)).map
        (stored chunkKey updateChunk (t.chunks.map (unlink gone))) =
      chunks.map (chunkRow c v (chunkIdAt v newChunkId t.chunks) hash scopes) := by
    rw [List.map_map]
    refine List.map_congr_left fun ch _ => ?_
    rw [Function.comp_apply, stored_chunkRow hown howned, chunkIdAt_unlink]
  rw [(upserted_chunks ht hidx).mem_iff, hstored, mem_keys_chunkRows hidx]
  rfl

theorem nodup_ids_writtenChunks (ht : Coherent owner t)
    (hidx : chunks.map Chunk.chunkIndex = List.range chunks.length)
    (hfresh : FreshIds newChunkId (t.chunks.map ChunkRow.id) chunks.length) :
    ((upserts chunkKey updateChunk (t.chunks.map (unlink gone))
      (chunks.map (chunkRow c v newChunkId hash scopes))).map ChunkRow.id).Nodup := by
  have hids : (chunks.map (chunkRow c v newChunkId hash scopes)).map ChunkRow.id =
      (List.range chunks.length).map newChunkId := by
    rw [← hidx, List.map_map, List.map_map]
    rfl
  have hold : (t.chunks.map (unlink gone)).map ChunkRow.id = t.chunks.map ChunkRow.id := by
    rw [List.map_map]
    exact List.map_congr_left fun r _ => id_unlink gone r
  have hkeys : ((t.chunks.map (unlink gone)).map chunkKey).Nodup := by
    rw [List.map_map]
    simpa [Function.comp_def] using ht.chunkKeys
  refine (upserted_chunks ht hidx).unique ChunkRow.id key_updateChunk (fun _ _ => rfl) hkeys
    (hold ▸ ht.chunkIds) (hids ▸ hfresh.nodup) fun d hd => ?_
  have hmem : d.id ∈ (chunks.map (chunkRow c v newChunkId hash scopes)).map ChunkRow.id :=
    List.mem_map.mpr ⟨d, hd, rfl⟩
  rw [hids] at hmem
  obtain ⟨n, hn, hid⟩ := List.mem_map.mp hmem
  rw [← hid, hold]
  exact hfresh.fresh n (List.mem_range.mp hn)

/-- A chunk of the version beyond the new layout is cited. -/
def OrphanCited (v : Uuid) (n : Nat) (t : ContentTables) : Prop :=
  ∃ r ∈ t.chunks, r.documentVersionId = v ∧ n ≤ r.chunkIndex ∧ r.id ∈ t.cited

/-- The orphans among the written rows are those among the old ones. -/
theorem exists_orphan_iff (hown : owner v = some c) (ht : Coherent owner t)
    (hidx : chunks.map Chunk.chunkIndex = List.range chunks.length) :
    (∃ r ∈ upserts chunkKey updateChunk (t.chunks.map (unlink gone))
        (chunks.map (chunkRow c v newChunkId hash scopes)),
      orphanChunk c v chunks.length r ∧ r.id ∈ t.cited) ↔ OrphanCited v chunks.length t := by
  simp only [mem_writtenChunks hown ht hidx, orphanChunk, decide_eq_true_eq]
  constructor
  · rintro ⟨r, hrow | ⟨hr, -⟩, ⟨-, hv, hn⟩, hcited⟩
    · obtain ⟨ch, hch, rfl⟩ := List.mem_map.mp hrow
      obtain ⟨i, hi⟩ := List.mem_iff_getElem?.mp hch
      obtain ⟨hlt, -⟩ := List.getElem?_eq_some_iff.mp hi
      have heq := chunkIndex_eq hidx hi
      simp only [chunkRow] at hn
      omega
    · obtain ⟨x, hx, rfl⟩ := List.mem_map.mp hr
      simp only [documentVersionId_unlink, chunkIndex_unlink, id_unlink] at hv hn hcited
      exact ⟨x, hx, hv, hn, hcited⟩
  · rintro ⟨x, hx, hv, hn, hcited⟩
    have hc : x.companyId = c := Option.some.inj ((ht.chunkOwner x hx).symm.trans (hv ▸ hown))
    refine ⟨unlink gone x, .inr ⟨List.mem_map.mpr ⟨x, hx, rfl⟩, ?_⟩, ?_, ?_⟩
    · simp only [documentVersionId_unlink, chunkIndex_unlink, not_and]
      intro _
      omega
    · simp only [companyId_unlink, documentVersionId_unlink, chunkIndex_unlink]
      exact ⟨hc, hv, hn⟩
    · simpa using hcited

variable (newChunkId hash scopes) in
/-- `write_chunks` after `write_sections`: it fails where an orphan is cited. -/
theorem writeChunks_eq (hown : owner v = some c) (ht : Coherent owner t)
    (hhash : ∀ text, sha256Hex text = some (hash text)) (htexts : ∀ ch ∈ chunks, NulFree ch.text)
    (hidx : chunks.map Chunk.chunkIndex = List.range chunks.length) {t' : ContentTables}
    (hsec : ∀ ch ∈ chunks, ∀ id, ch.sectionId = some id → ∃ s ∈ t'.sections, s.id = id)
    (hcited : t'.cited = t.cited) (hchunks : t'.chunks = t.chunks.map (unlink gone)) :
    (OrphanCited v chunks.length t →
      writeChunks owner c v newChunkId sha256Hex scopes chunks t' = .error .restrictViolation) ∧
    (¬OrphanCited v chunks.length t →
      writeChunks owner c v newChunkId sha256Hex scopes chunks t' = .ok { t' with
        chunks := (upserts chunkKey updateChunk (t.chunks.map (unlink gone))
          (chunks.map (chunkRow c v newChunkId hash scopes))).filter
            fun r => !orphanChunk c v chunks.length r }) := by
  have hloop : chunks.foldlM (writeChunk owner c v newChunkId sha256Hex scopes t'.sections)
      (t.chunks.map (unlink gone)) = .ok (upserts chunkKey updateChunk (t.chunks.map (unlink gone))
        (chunks.map (chunkRow c v newChunkId hash scopes))) :=
    writeChunk_loop hown hhash htexts hsec _
  have hiff : (∃ r ∈ upserts chunkKey updateChunk (t.chunks.map (unlink gone))
      (chunks.map (chunkRow c v newChunkId hash scopes)),
        orphanChunk c v chunks.length r ∧ r.id ∈ t'.cited) ↔ OrphanCited v chunks.length t :=
    hcited ▸ exists_orphan_iff hown ht hidx
  simp only [writeChunks, hchunks, hloop, bind, Except.bind, rejectIf]
  constructor
  · intro horphan
    rw [if_pos (hiff.mpr horphan)]
  · intro horphan
    rw [if_neg (mt hiff.mp horphan)]

variable (newChunkId hash scopes) in
/-- The tables of a run that succeeds. -/
theorem layout_of_written {ids : Nat → Uuid} (hown : owner v = some c) (ht : Coherent owner t)
    {es : List Entry} (hidx : chunks.map Chunk.chunkIndex = List.range chunks.length)
    {t' : ContentTables} (hsec : SectionsWritten c v ids es t t')
    (hother : ∀ r ∈ t.chunks, r.documentVersionId ≠ v → unlink gone r = r) :
    NewLayout c v ids (chunkIdAt v newChunkId t.chunks) hash scopes es chunks t { t' with
      chunks := (upserts chunkKey updateChunk (t.chunks.map (unlink gone))
        (chunks.map (chunkRow c v newChunkId hash scopes))).filter
          fun r => !orphanChunk c v chunks.length r } := by
  refine ⟨fun r => by rw [hsec.mem_iff, mem_rowsOf], fun r => ?_, hsec.cited⟩
  simp only [List.mem_filter, mem_writtenChunks hown ht hidx, orphanChunk, Bool.not_eq_true',
    decide_eq_false_iff_not]
  constructor
  · rintro ⟨hrow | ⟨hr, hold⟩, hkeep⟩
    · obtain ⟨ch, hch, rfl⟩ := List.mem_map.mp hrow
      obtain ⟨n, hn⟩ := List.mem_iff_getElem?.mp hch
      exact .inl ⟨n, ch, hn, chunkIndex_eq hidx hn, rfl⟩
    · obtain ⟨x, hx, rfl⟩ := List.mem_map.mp hr
      simp only [companyId_unlink, documentVersionId_unlink, chunkIndex_unlink] at hold hkeep
      have hv : x.documentVersionId ≠ v := by
        intro hv
        have hc : x.companyId = c := Option.some.inj ((ht.chunkOwner x hx).symm.trans (hv ▸ hown))
        by_cases hlt : x.chunkIndex < chunks.length
        · exact hold ⟨hv, hlt⟩
        · exact hkeep ⟨hc, hv, by omega⟩
      rw [hother x hx hv]
      exact .inr ⟨hx, hv⟩
  · rintro (⟨n, ch, hn, hidx', rfl⟩ | ⟨hr, hv⟩)
    · refine ⟨.inl (List.mem_map.mpr ⟨ch, List.mem_of_getElem? hn, rfl⟩), fun h => ?_⟩
      obtain ⟨hlt, -⟩ := List.getElem?_eq_some_iff.mp hn
      have hle : chunks.length ≤ ch.chunkIndex := h.2.2
      omega
    · exact ⟨.inr ⟨List.mem_map.mpr ⟨r, hr, hother r hr hv⟩, fun h => hv h.1⟩, fun h => hv h.2.1⟩

/-- The new layout satisfies the constraints of the tables. -/
theorem NewLayout.coherent {ids chunkIds : Nat → Uuid} {sections : List ParsedSection}
    {t' : ContentTables} (hown : owner v = some c) (ht : Coherent owner t)
    (hchunks : ChunksOf (labelledOf ids 0 sections) chunks)
    (h : NewLayout c v ids chunkIds hash scopes (entriesOf 0 none [] sections) chunks t t')
    (hkeys : (t'.sections.map sectionKey).Nodup) (hids : (t'.sections.map SectionRow.id).Nodup)
    (hckeys : (t'.chunks.map chunkKey).Nodup) (hcids : (t'.chunks.map ChunkRow.id).Nodup) :
    Coherent owner t' := by
  have hnew : ∀ n (hn : n < (entriesOf 0 none [] sections).length),
      Entry.row c v ids (entriesOf 0 none [] sections)[n] n ∈ t'.sections := fun n hn =>
    (h.sections _).mpr (.inl ⟨n, _, List.getElem?_eq_getElem hn, rfl⟩)
  refine ⟨hkeys, hids, fun r hr => ?_, fun r hr => ?_, hckeys, hcids, fun r hr => ?_,
    fun r hr id hid => ?_⟩
  · rcases (h.sections r).mp hr with ⟨n, e, -, rfl⟩ | ⟨hr, -⟩
    · exact hown
    · exact ht.sectionOwner r hr
  · rcases (h.sections r).mp hr with ⟨n, e, he, rfl⟩ | ⟨hr, hv⟩
    · cases hq : e.parent with
      | none => simp [parentExists, Entry.row, hq]
      | some q =>
        obtain ⟨hn, -⟩ := List.getElem?_eq_some_iff.mp he
        have hlt : q < n := by
          rcases entriesOf_parent 0 none [] sections n q e he hq with h | h
          · cases h
          · omega
        exact parentExists_of_mem (hnew q (by omega)) (by simp [Entry.row, hq]) rfl rfl
    · cases hq : r.parentSectionId with
      | none => simp [parentExists, hq]
      | some id =>
        obtain ⟨p, hp, rfl, hpc, hpv⟩ := exists_of_parentExists (ht.parents r hr) hq
        exact parentExists_of_mem ((h.sections p).mpr (.inr ⟨hp, hpv ▸ hv⟩)) hq hpc hpv
  · rcases (h.chunks r).mp hr with ⟨n, ch, -, -, rfl⟩ | ⟨hr, -⟩
    · exact hown
    · exact ht.chunkOwner r hr
  · rcases (h.chunks r).mp hr with ⟨n, ch, hch, -, rfl⟩ | ⟨hr, hv⟩
    · obtain ⟨k, hk, rfl⟩ := dbIdsOf_labelledOf 0 sections id
        (hchunks.sectionIds ch (List.mem_of_getElem? hch) id hid)
      rw [Nat.zero_add]
      exact ⟨_, hnew k hk, rfl, rfl⟩
    · obtain ⟨s, hs, hsid, hsv⟩ := ht.links r hr id hid
      exact ⟨s, (h.sections s).mpr (.inr ⟨hs, hsv ▸ hv⟩), hsid, hsv⟩

/-! ### The same run again -/

theorem unlink_nil (r : ChunkRow) : unlink [] r = r := by
  rw [unlink, if_neg]
  simp

/-- A deletion that matches no row changes nothing. -/
theorem deleteSections_eq {p : SectionRow → Bool} (h : ∀ r ∈ t.sections, p r = false) :
    deleteSections p t = t := by
  have hnone : t.sections.filter p = [] := List.filter_eq_nil_iff.mpr (by simpa using h)
  have hall : (t.sections.filter fun r => !p r) = t.sections :=
    List.filter_eq_self.mpr (by simpa using h)
  have hkept : cascade t.sections.length [] t.sections = t.sections :=
    cascade_eq fun r _ => by simp [childOf]
  have hgone : (t.sections.filter fun r => r ∉ t.sections) = [] :=
    List.filter_eq_nil_iff.mpr (by simp)
  have hid : unlink [] = id := funext unlink_nil
  simp only [deleteSections, hnone, hall, hkept, hgone, List.map_nil, hid, List.map_id]

theorem NewLayout.writeSections_again {ids chunkIds newId' : Nat → Uuid}
    {sections : List ParsedSection} {t' : ContentTables} (hown : owner v = some c)
    (hheadings : ∀ h ∈ headingsOf sections, NulFree h)
    (h : NewLayout c v ids chunkIds hash scopes (entriesOf 0 none [] sections) chunks t t')
    (ht' : Coherent owner t') :
    writeSections owner c v newId' sections t' = .ok (labelledOf ids 0 sections, t') := by
  have hrow : ∀ {n : Nat} {e : Entry}, (entriesOf 0 none [] sections)[n]? = some e →
      Entry.row c v ids e n ∈ t'.sections := fun he => (h.sections _).mpr (.inl ⟨_, _, he, rfl⟩)
  have hids : ∀ n < (entriesOf 0 none [] sections).length,
      sectionIdAt c v newId' t'.sections n = ids n := fun n hn =>
    sectionIdAt_of_mem ht'.sectionKeys (hrow (List.getElem?_eq_getElem hn)) rfl
  have hat : sectionIdAt c v newId' t'.sections = sectionIdAt c v newId' t'.sections := rfl
  have hwalk := upsertSections_ok hown ht'.sectionKeys hat sections [] none [] (by simp) (by simp)
    hheadings
  simp only [List.length_nil, List.nil_append, Option.map_none] at hwalk
  have hstart : upserts sectionKey updateSection t'.sections
      (inputs c v newId' (sectionIdAt c v newId' t'.sections) 0 []) = t'.sections := rfl
  have hsame : upserts sectionKey updateSection t'.sections (inputs c v newId'
      (sectionIdAt c v newId' t'.sections) 0 (entriesOf 0 none [] sections)) = t'.sections := by
    refine Upsert.upserts_of_mem ht'.sectionKeys fun d hd => ?_
    obtain ⟨⟨e, n⟩, hmem, rfl⟩ := List.mem_map.mp hd
    have he := List.mk_mem_zipIdx_iff_getElem?.mp hmem
    refine ⟨_, hrow he, rfl, ?_⟩
    have hparent : e.parent.map (sectionIdAt c v newId' t'.sections) = e.parent.map ids := by
      cases hq : e.parent with
      | none => rfl
      | some q =>
        obtain ⟨hn, -⟩ := List.getElem?_eq_some_iff.mp he
        rcases entriesOf_parent 0 none [] sections n q e he hq with h | h
        · cases h
        · rw [Option.map_some, Option.map_some, hids q (by omega)]
    simp only [updateSection, Entry.input, Entry.row, hparent]
  rw [hstart, hsame] at hwalk
  have hlabels : labelledOf (sectionIdAt c v newId' t'.sections) 0 sections =
      labelledOf ids 0 sections :=
    labelledOf_congr ids 0 sections fun k hk => by rw [Nat.zero_add, hids k hk]
  have hdelete : deleteSections
      (orphanSection c v (entriesOf 0 none [] sections).length) t' = t' := by
    refine deleteSections_eq fun r hr => ?_
    simp only [orphanSection, decide_eq_false_iff_not]
    rintro ⟨-, hv, hle⟩
    rcases (h.sections r).mp hr with ⟨n, e, he, rfl⟩ | ⟨-, hne⟩
    · obtain ⟨hn, -⟩ := List.getElem?_eq_some_iff.mp he
      have hle' : (entriesOf 0 none [] sections).length ≤ n := hle
      omega
    · exact hne hv
  simp only [writeSections, hwalk, bind, Except.bind, hlabels]
  rw [hdelete]

theorem NewLayout.writeChunks_again {ids chunkIds newChunkId' : Nat → Uuid}
    {sections : List ParsedSection} {t' : ContentTables} (hown : owner v = some c)
    (hhash : ∀ text, sha256Hex text = some (hash text)) (htexts : ∀ ch ∈ chunks, NulFree ch.text)
    (hchunks : ChunksOf (labelledOf ids 0 sections) chunks)
    (h : NewLayout c v ids chunkIds hash scopes (entriesOf 0 none [] sections) chunks t t')
    (ht' : Coherent owner t') :
    writeChunks owner c v newChunkId' sha256Hex scopes chunks t' = .ok t' := by
  have hsec : ∀ ch ∈ chunks, ∀ id, ch.sectionId = some id → ∃ s ∈ t'.sections, s.id = id := by
    intro ch hch id hid
    obtain ⟨k, hk, rfl⟩ := dbIdsOf_labelledOf 0 sections id (hchunks.sectionIds ch hch id hid)
    rw [Nat.zero_add]
    exact ⟨_, (h.sections _).mpr (.inl ⟨k, _, List.getElem?_eq_getElem hk, rfl⟩), rfl⟩
  have hsame : upserts chunkKey updateChunk t'.chunks
      (chunks.map (chunkRow c v newChunkId' hash scopes)) = t'.chunks := by
    refine Upsert.upserts_of_mem ht'.chunkKeys fun d hd => ?_
    obtain ⟨ch, hch, rfl⟩ := List.mem_map.mp hd
    obtain ⟨n, hn⟩ := List.mem_iff_getElem?.mp hch
    exact ⟨_, (h.chunks _).mpr (.inl ⟨n, ch, hn, chunkIndex_eq hchunks.indices hn, rfl⟩), rfl, rfl⟩
  have hloop : chunks.foldlM (writeChunk owner c v newChunkId' sha256Hex scopes t'.sections)
      t'.chunks = .ok t'.chunks := by
    rw [writeChunk_loop hown hhash htexts hsec, hsame]
  have hnone : ∀ r ∈ t'.chunks, orphanChunk c v chunks.length r = false := by
    intro r hr
    simp only [orphanChunk, decide_eq_false_iff_not]
    rintro ⟨-, hv, hle⟩
    rcases (h.chunks r).mp hr with ⟨n, ch, hn, hidx, rfl⟩ | ⟨-, hne⟩
    · obtain ⟨hlt, -⟩ := List.getElem?_eq_some_iff.mp hn
      have hle' : chunks.length ≤ ch.chunkIndex := hle
      omega
    · exact hne hv
  have hcited : ¬∃ r ∈ t'.chunks, orphanChunk c v chunks.length r ∧ r.id ∈ t'.cited := by
    rintro ⟨r, hr, horphan, -⟩
    simp [hnone r hr] at horphan
  have hall : (t'.chunks.filter fun r => !orphanChunk c v chunks.length r) = t'.chunks :=
    List.filter_eq_self.mpr (by simpa using hnone)
  simp only [writeChunks, hloop, bind, Except.bind, rejectIf, if_neg hcited, hall]

variable (scopes) in
/-- A run over any earlier layout, with headings and chunks that hold no NUL, leaves the new one, and
the same run again changes nothing; where a chunk beyond the new layout is cited it fails instead, and
the unit of work leaves the tables as they were. -/
theorem reingest_converges {ids : Nat → Uuid} (hown : owner v = some c) (ht : Coherent owner t)
    (hids : ids = sectionIdAt c v newId t.sections) (sections : List ParsedSection)
    (chunk : List ParsedSection → List Chunk)
    (hlayout : chunk (labelledOf ids 0 sections) = chunks)
    (hchunks : ChunksOf (labelledOf ids 0 sections) chunks)
    (hheadings : ∀ h ∈ headingsOf sections, NulFree h) (htexts : ∀ ch ∈ chunks, NulFree ch.text)
    (hfresh : FreshIds newId (t.sections.map SectionRow.id) (entriesOf 0 none [] sections).length)
    (hcfresh : FreshIds newChunkId (t.chunks.map ChunkRow.id) chunks.length)
    (hhash : ∀ text, sha256Hex text = some (hash text)) :
    (OrphanCited v chunks.length t →
      reingest owner c v newId sha256Hex scopes newChunkId chunk sections t =
        .error .restrictViolation) ∧
    (¬OrphanCited v chunks.length t → ∃ t',
      reingest owner c v newId sha256Hex scopes newChunkId chunk sections t = .ok t' ∧
      NewLayout c v ids (chunkIdAt v newChunkId t.chunks) hash scopes
        (entriesOf 0 none [] sections) chunks t t' ∧
      Coherent owner t' ∧
      ∀ newId' newChunkId',
        reingest owner c v newId' sha256Hex scopes newChunkId' chunk sections t' = .ok t') := by
  obtain ⟨t1, hwrite, hsec⟩ := writeSections_ok hown ht hids sections hheadings hfresh
  obtain ⟨gone, hgone, hother⟩ := hsec.chunks
  have hlinks : ∀ ch ∈ chunks, ∀ id, ch.sectionId = some id → ∃ s ∈ t1.sections, s.id = id := by
    intro ch hch id hid
    obtain ⟨k, hk, rfl⟩ := dbIdsOf_labelledOf 0 sections id (hchunks.sectionIds ch hch id hid)
    rw [Nat.zero_add]
    exact ⟨_, (hsec.mem_iff _).mpr (.inl (mem_rowsOf.mpr ⟨k, _, List.getElem?_eq_getElem hk, rfl⟩)),
      rfl⟩
  obtain ⟨hfail, hok⟩ := writeChunks_eq newChunkId hash scopes hown ht hhash htexts hchunks.indices
    hlinks hsec.cited hgone
  have hrun : reingest owner c v newId sha256Hex scopes newChunkId chunk sections t =
      writeChunks owner c v newChunkId sha256Hex scopes chunks t1 := by
    simp only [reingest, hwrite, bind, Except.bind, hlayout]
  refine ⟨fun horphan => by rw [hrun, hfail horphan], fun horphan => ⟨_, by rw [hrun, hok horphan],
    ?_⟩⟩
  have hnew := layout_of_written newChunkId hash scopes hown ht hchunks.indices hsec hother
  have hsub {rows : List ChunkRow} {p : ChunkRow → Bool} : (rows.filter p).Sublist rows :=
    List.filter_sublist
  have hco := hnew.coherent hown ht hchunks hsec.keys hsec.ids
    ((hsub.map chunkKey).nodup (upserted_chunks ht hchunks.indices).keys)
    ((hsub.map ChunkRow.id).nodup (nodup_ids_writtenChunks ht hchunks.indices hcfresh))
  refine ⟨hnew, hco, fun newId' newChunkId' => ?_⟩
  simp only [reingest, hnew.writeSections_again hown hheadings hco, bind, Except.bind, hlayout]
  exact hnew.writeChunks_again hown hhash htexts hchunks hco

/-- Every version is one of company 1. -/
def soleCompany (_ : Uuid) : Option Uuid := some 1

/-- Two chunks of version 2; the second is cited. -/
def citedTables : ContentTables where
  sections := []
  chunks := [⟨10, 1, 2, 0, "a", "", [], none⟩, ⟨11, 1, 2, 1, "b", "", [], none⟩]
  cited := [11]

/-- The literal of a heading with a NUL ends inside its quotes. -/
theorem arrayIn_nul : ArrayInput.arrayIn (fun _ => none)
    (pgTextArray (["A\x00B"].map Utf8.encode)) = none := by
  decide +kernel

/-- A new layout with the first chunk only does not replace them, and a section with a NUL in its
heading is not even written to empty tables. -/
theorem citedTables_fail : Coherent soleCompany citedTables ∧
    ChunksOf [] [⟨0, "a", none, none⟩] ∧
    (¬∃ t', reingest soleCompany 1 2 (fun _ => 20) (fun text => some text) [] (fun _ => 21)
      (fun _ => [⟨0, "a", none, none⟩]) [] citedTables = .ok t') ∧
    reingest soleCompany 1 2 (fun _ => 20) (fun text => some text) [] (fun _ => 21) (fun _ => [])
      [⟨"A\x00B", 1, "", [], none⟩] ⟨[], [], []⟩ = .error .invalidTextRepresentation := by
  refine ⟨⟨by decide, by decide, by decide, by decide, by decide, by decide, by decide, ?_⟩,
    ⟨rfl, by simp⟩, ?_, ?_⟩
  · simp [citedTables]
  · rintro ⟨t', h⟩
    have hfail : reingest soleCompany 1 2 (fun _ => 20) (fun text => some text) []
      (fun _ => 21) (fun _ => [⟨0, "a", none, none⟩]) [] citedTables =
        .error .restrictViolation := by rfl
    rw [hfail] at h
    cases h
  · have hread : textArray (pgTextArray (["A\x00B"].map Utf8.encode)) =
        .error .invalidTextRepresentation := by
      rw [textArray, arrayIn_nul]
    have hpath : (if "A\x00B" = "" then [] else [] ++ ["A\x00B"]) = ["A\x00B"] := by decide
    simp only [reingest, writeSections, upsertSections, upsertSection, hpath, hread, bind,
      Except.bind]

/-- A chain of two sections with a chunk in the lower one, and a section of another version. -/
def chainTables : ContentTables where
  sections := [⟨10, 1, 2, none, 0, some "A", ["A"], 1⟩, ⟨11, 1, 2, some 10, 1, none, ["A"], 2⟩,
    ⟨12, 1, 3, none, 0, none, [], 1⟩]
  chunks := [⟨13, 1, 2, 0, "b", "", [], some 11⟩]
  cited := [13]

/-- The one chunk of a document, in its first section. -/
def firstSectionChunk : List ParsedSection → List Chunk
  | ⟨_, _, text, _, dbId⟩ :: _ => [⟨0, text, dbId, none⟩]
  | [] => []

/-- SHA-256 of the text that the run below digests. -/
def digestOfA (text : String) : String :=
  if text = "a" then "ca978112ca1bbdcafac231b39a23dc4da786eff8147c4e72b9807785afee48bb" else ""

def freshSectionId (n : Nat) : Uuid := ⟨BitVec.ofNat 128 (20 + n)⟩

def freshChunkId (n : Nat) : Uuid := ⟨BitVec.ofNat 128 (30 + n)⟩

theorem chain_converges : ∃ t', reingest soleCompany 1 2 freshSectionId
      (fun text => some (digestOfA text)) [] freshChunkId firstSectionChunk
      [⟨"", 1, "a", [], none⟩] chainTables = .ok t' ∧
    Coherent soleCompany t' ∧ ⟨12, 1, 3, none, 0, none, [], 1⟩ ∈ t'.sections := by
  have ht : Coherent soleCompany chainTables := by
    refine ⟨by decide, by decide, by decide, by decide, by decide, by decide, by decide, ?_⟩
    simp [chainTables]
  have hfresh : FreshIds freshSectionId (chainTables.sections.map SectionRow.id) 1 :=
    ⟨by decide, by decide⟩
  have hcfresh : FreshIds freshChunkId (chainTables.chunks.map ChunkRow.id) 1 :=
    ⟨by decide, by decide⟩
  have hchunks : ChunksOf
      (labelledOf (sectionIdAt 1 2 freshSectionId chainTables.sections) 0 [⟨"", 1, "a", [], none⟩])
      [⟨0, "a", some 10, none⟩] := ⟨rfl, by simp [labelledOf, labelled, dbIdsOf, dbIds]; rfl⟩
  have hown : soleCompany 2 = some 1 := rfl
  have hhash : ∀ text, some (digestOfA text) = some (digestOfA text) := fun _ => rfl
  have hlayout : firstSectionChunk (labelledOf
      (sectionIdAt 1 2 freshSectionId chainTables.sections) 0 [⟨"", 1, "a", [], none⟩]) =
      [⟨0, "a", some 10, none⟩] := rfl
  have hrun := reingest_converges [] hown ht rfl [⟨"", 1, "a", [], none⟩] firstSectionChunk hlayout
    hchunks (by decide) (by decide) hfresh hcfresh hhash
  obtain ⟨t', hok, hnew, hco, -⟩ := hrun.2 (by simp [OrphanCited, chainTables])
  exact ⟨t', hok, hco, (hnew.sections _).mpr (.inr ⟨by decide, by decide⟩)⟩

end Run

end Wikore.Reingest
