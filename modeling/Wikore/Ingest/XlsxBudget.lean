import Wikore.Ingest.XlsxRows

/-! The output budget of a workbook: the counter never wraps around and the sections never exceed
it.  A workbook that fits is rejected all the same when its text fills the budget to the last byte,
or when a row without text comes where its separators would not fit. -/

namespace Wikore.Parser.XlsxParser

open Chunker (ParsedSection)
open ContextBuilder (Bytes Error utf8)
open Meter
open XmlNode (localName)

/-! ### The counter does not wrap around -/

section Wrap

variable {ar : Arithmetic} {sharedStrings : List Bytes} {remaining r : Nat} {out out' : Bytes}
  {s s' : RowState} {cs data : List XmlNode}

theorem parseCells_le (har : ar.Exact (2 ^ 64)) {previous : Nat} (hnext : s.nextCol = previous + 1)
    (hcount : s.cellsInRow ≤ kXlsxMaxCellsPerRow) (hr : remaining < 2 ^ 64)
    (h : parseCells ar sharedStrings cs s remaining = .ok (s', r)) : r ≤ remaining := by
  obtain ⟨hcells, htext⟩ := parseCells_inv har previous cs s s' remaining r hnext hcount hr h
  obtain ⟨s'', hs, -⟩ := parseCells_ok har previous cs s remaining hnext hcells hr htext
  rw [hs] at h
  obtain ⟨-, rfl⟩ := Prod.mk.inj (Except.ok.inj h)
  exact Nat.sub_le _ _

theorem finishRow_le (har : ar.Exact (2 ^ 64)) (hr : remaining < 2 ^ 64)
    (h : finishRow ar s out remaining = .ok (out', r)) : r ≤ remaining := by
  by_cases hmax : s.maxCol = 0
  · rw [finishRow, if_pos hmax] at h
    obtain ⟨-, rfl⟩ := Prod.mk.inj (Except.ok.inj h)
    exact Nat.le_refl _
  · rw [finishRow_eq har s out remaining hmax hr] at h
    split at h
    · split at h
      · obtain ⟨-, rfl⟩ := Prod.mk.inj (Except.ok.inj h)
        exact Nat.le_refl _
      · obtain ⟨-, rfl⟩ := Prod.mk.inj (Except.ok.inj h)
        exact Nat.sub_le _ _
    · cases h

theorem parseRows_le (har : ar.Exact (2 ^ 64)) (hr : remaining < 2 ^ 64)
    (h : parseRows ar sharedStrings data out remaining = .ok (out', r)) : r ≤ remaining := by
  induction data generalizing out remaining with
  | nil =>
    obtain ⟨-, rfl⟩ := Prod.mk.inj (Except.ok.inj h)
    exact Nat.le_refl _
  | cons row data ih =>
    rw [parseRows] at h
    split at h
    next => exact ih hr h
    next =>
      obtain ⟨s, r₁, hcells, h⟩ := ok_of_bind h
      obtain ⟨out₁, r₂, hfinish, h⟩ := ok_of_bind h
      have hr₁ := parseCells_le har rfl (Nat.zero_le _) hr hcells
      have hr₂ := finishRow_le har (by omega) hfinish
      exact Nat.le_trans (ih (by omega) h) (by omega)

theorem parseCells_natural (har : ar.Exact (2 ^ 64)) (cs : List XmlNode) (s : RowState)
    (hr : remaining < 2 ^ 64) :
    parseCells ar sharedStrings cs s remaining =
      parseCells natural sharedStrings cs s remaining := by
  induction cs generalizing s remaining with
  | nil => rfl
  | cons c cs ih =>
    by_cases hc : localName c.name ≠ utf8 "c"
    · rw [parseCells, parseCells, if_pos hc, if_pos hc]
      exact ih s hr
    rw [parseCells, parseCells, if_neg hc, if_neg hc]
    cases resolveColumn c s.nextCol with
    | none => exact ih s hr
    | some col =>
      dsimp only
      by_cases hone : kXlsxMaxCellsPerRow < s.cellsInRow + 1
      · rw [if_pos hone, if_pos hone]
      · have hnat := natural_exact (2 ^ 64)
        rw [if_neg hone, if_neg hone]
        apply Meter.bind_congr
        · rw [chargeTexts_eq har _ _ hr, chargeTexts_eq hnat _ _ hr]
        · intro val r hval
          rw [chargeTexts_eq hnat _ _ hr] at hval
          split at hval
          · obtain ⟨-, rfl⟩ := Prod.mk.inj (Except.ok.inj hval)
            exact ih _ (by omega)
          · cases hval

theorem finishRow_natural (har : ar.Exact (2 ^ 64)) (s : RowState) (out : Bytes)
    (hr : remaining < 2 ^ 64) :
    finishRow ar s out remaining = finishRow natural s out remaining := by
  by_cases hmax : s.maxCol = 0
  · rw [finishRow, finishRow, if_pos hmax, if_pos hmax]
  · rw [finishRow_eq har s out remaining hmax hr,
      finishRow_eq (natural_exact (2 ^ 64)) s out remaining hmax hr]

theorem parseRows_natural (har : ar.Exact (2 ^ 64)) (data : List XmlNode) (out : Bytes)
    (hr : remaining < 2 ^ 64) :
    parseRows ar sharedStrings data out remaining =
      parseRows natural sharedStrings data out remaining := by
  have hnat := natural_exact (2 ^ 64)
  induction data generalizing out remaining with
  | nil => rfl
  | cons row data ih =>
    rw [parseRows, parseRows]
    split
    next => exact ih out hr
    next =>
      apply Meter.bind_congr (parseCells_natural har _ _ hr)
      intro s r₁ hcells
      have hr₁ := parseCells_le hnat rfl (Nat.zero_le _) hr hcells
      apply Meter.bind_congr (finishRow_natural har _ _ (by omega))
      intro out₁ r₂ hfinish
      have hr₂ := finishRow_le hnat (by omega) hfinish
      exact ih out₁ (by omega)

theorem parseWorksheet_natural (har : ar.Exact (2 ^ 64)) (env : XlsxEnv) (xml : Bytes)
    (hr : remaining < 2 ^ 64) :
    parseWorksheet ar sharedStrings env xml remaining =
      parseWorksheet natural sharedStrings env xml remaining := by
  unfold parseWorksheet
  split
  next => rfl
  next =>
    split
    next => rfl
    next => rw [parseRows_natural har _ _ hr]

theorem parseWorksheet_le (har : ar.Exact (2 ^ 64)) (env : XlsxEnv) (xml : Bytes)
    (hr : remaining < 2 ^ 64) :
    (parseWorksheet ar sharedStrings env xml remaining).2 ≤ remaining := by
  unfold parseWorksheet
  split
  next => exact Nat.le_refl _
  next =>
    split
    next => exact Nat.le_refl _
    next =>
      split
      next h => exact parseRows_le har hr h
      next => exact Nat.le_refl _
      next => exact Nat.zero_le _

theorem parseSheets_natural (har : ar.Exact (2 ^ 64)) (env : XlsxEnv) (content : Bytes)
    (sheets : List SheetInfo) (total : Nat) (hr : remaining < 2 ^ 64) :
    parseSheets ar sharedStrings env content sheets total remaining =
      parseSheets natural sharedStrings env content sheets total remaining := by
  induction sheets generalizing total remaining with
  | nil => rfl
  | cons sheet sheets ih =>
    rw [parseSheets, parseSheets]
    split
    next => rfl
    next => rfl
    next xml _ =>
      split
      next => rfl
      next =>
        have hle : (parseWorksheet natural sharedStrings env xml remaining).2 ≤ remaining :=
          parseWorksheet_le (natural_exact (2 ^ 64)) env xml hr
        rw [parseWorksheet_natural har env xml hr]
        simp only []
        rw [ih _ (by omega)]

theorem parse_natural (har : ar.Exact (2 ^ 64)) (env : XlsxEnv) (content filename : Bytes) :
    parse ar env content filename = parse natural env content filename := by
  unfold parse
  have hsheets : ∀ sharedStrings sheets,
      parseSheets ar sharedStrings env content sheets 0 kXlsxMaxOutputBytes =
        parseSheets natural sharedStrings env content sheets 0 kXlsxMaxOutputBytes :=
    fun _ sheets => parseSheets_natural har env content sheets 0 (by decide)
  simp only [hsheets]

end Wrap

/-! ### What a row adds to the text -/

section Growth

variable {cells : List (Nat × Bytes)} {m : Nat} {out : Bytes}

theorem length_flatten_set {l : List Bytes} {i : Nat} {old : Bytes} (h : l[i]? = some old)
    (v : Bytes) : (l.set i v).flatten.length + old.length = l.flatten.length + v.length := by
  induction l generalizing i with
  | nil => cases h
  | cons x l ih =>
    cases i with
    | zero =>
      obtain rfl := Option.some.inj h
      rw [List.set_cons_zero, List.flatten_cons, List.flatten_cons, List.length_append,
        List.length_append]
      omega
    | succ i =>
      have hrest := ih h
      rw [List.set_cons_succ, List.flatten_cons, List.flatten_cons, List.length_append,
        List.length_append]
      omega

theorem textBytes_concat (cells : List (Nat × Bytes)) (w : Nat × Bytes) :
    textBytes (cells ++ [w]) = textBytes cells + w.2.length := by
  rw [textBytes, List.flatMap_append, List.length_append]
  simp [textBytes]

theorem lastValue_of_not_mem {col : Nat} (h : col ∉ cells.map Prod.fst) :
    lastValue cells col = [] := by
  have hnone : (cells.reverse.find? fun w => w.1 = col) = none := by
    apply List.find?_eq_none.mpr
    intro w hw
    simp only [decide_eq_true_eq]
    rintro rfl
    exact h (List.mem_map_of_mem (List.mem_reverse.mp hw))
  rw [lastValue, hnone]
  rfl

/-- What one write adds to the vector. -/
theorem length_denseRow_concat {w : Nat × Bytes} (hcells : ∀ v ∈ cells ++ [w], 1 ≤ v.1 ∧ v.1 ≤ m) :
    (denseRow m (cells ++ [w])).flatten.length + (lastValue cells w.1).length =
      (denseRow m cells).flatten.length + w.2.length := by
  have hw := hcells w (List.mem_append_right _ List.mem_cons_self)
  have hold : (denseRow m cells)[w.1 - 1]? = some (lastValue cells (w.1 - 1 + 1)) :=
    getElem?_denseRow (by omega) fun v hv => (hcells v (List.mem_append_left _ hv)).1
  rw [Nat.sub_add_cancel hw.1] at hold
  rw [denseRow_concat, if_pos hw]
  exact length_flatten_set hold w.2

theorem length_denseRow_le (hcells : ∀ w ∈ cells, 1 ≤ w.1 ∧ w.1 ≤ m) :
    (denseRow m cells).flatten.length ≤ textBytes cells := by
  induction cells using List.reverseRecOn with
  | nil => simp [denseRow]
  | append_singleton cells w ih =>
    have hrest := ih fun v hv => hcells v (List.mem_append_left _ hv)
    have hwrite := length_denseRow_concat hcells
    rw [textBytes_concat]
    omega

theorem length_denseRow_eq (hcells : ∀ w ∈ cells, 1 ≤ w.1 ∧ w.1 ≤ m)
    (hcols : (cells.map Prod.fst).Nodup) :
    (denseRow m cells).flatten.length = textBytes cells := by
  induction cells using List.reverseRecOn with
  | nil => simp [denseRow, textBytes]
  | append_singleton cells w ih =>
    rw [List.map_append, List.map_singleton] at hcols
    have hfresh : w.1 ∉ cells.map Prod.fst := fun hmem =>
      List.disjoint_of_nodup_append hcols hmem List.mem_cons_self
    have hrest := ih (fun v hv => hcells v (List.mem_append_left _ hv)) hcols.of_append_left
    have hwrite := length_denseRow_concat hcells
    rw [lastValue_of_not_mem hfresh, List.length_nil] at hwrite
    rw [textBytes_concat]
    omega

/-- The cells of a row are in columns. -/
def InColumns (cells : List (Nat × Bytes)) : Prop := ∀ w ∈ cells, 1 ≤ w.1 ∧ w.1 ≤ kXlsxMaxCol

theorem InColumns.bounds (h : InColumns cells) : ∀ w ∈ cells, 1 ≤ w.1 ∧ w.1 ≤ width cells :=
  fun w hw => ⟨(h w hw).1, le_width hw⟩

theorem InColumns.columns_eq (h : InColumns cells) : columns cells = denseRow (width cells) cells :=
  (denseRow_eq fun w hw => (h w hw).1).symm

theorem length_columns (cells : List (Nat × Bytes)) : (columns cells).length = width cells := by
  rw [columns, List.length_map, List.length_range]

theorem rowNeed_of_line {line : Bytes} (h : rowLine cells = some line) :
    rowNeed out cells = textBytes cells + ((width cells - 1) * 3 + (newline out).length) := by
  apply if_neg
  rintro rfl
  cases h

/-- The text grows by no more than the row took from the counter. -/
theorem length_appendLine_le (h : InColumns cells) :
    (appendLine out cells).length ≤ out.length + rowCost out cells := by
  cases hline : rowLine cells with
  | none =>
    rw [appendLine_of_none hline]
    exact Nat.le_add_right _ _
  | some line =>
    have hblank : ¬(columns cells).all List.isEmpty := by
      intro hall
      rw [rowLine, if_pos hall] at hline
      cases hline
    have htext := length_denseRow_le h.bounds
    rw [← h.columns_eq] at htext
    rw [appendLine_of_some hline, rowCost, if_neg hblank, rowNeed_of_line hline]
    rw [rowLine, if_neg hblank] at hline
    rw [← Option.some.inj hline, List.length_append, List.length_append, length_joinCells,
      length_columns]
    omega

/-- It grows by exactly that where no column is named twice. -/
theorem length_appendLine (h : InColumns cells) (hcols : (cells.map Prod.fst).Nodup) :
    (appendLine out cells).length = out.length + rowCost out cells := by
  have htext := length_denseRow_eq h.bounds hcols
  rw [← h.columns_eq] at htext
  cases hline : rowLine cells with
  | none =>
    have hblank : (columns cells).all List.isEmpty := by
      by_contra hall
      rw [rowLine, if_neg hall] at hline
      cases hline
    have hempty : (columns cells).flatten = [] := by
      apply List.flatten_eq_nil_iff.mpr
      intro cell hcell
      exact List.isEmpty_iff.mp (List.all_eq_true.mp hblank cell hcell)
    rw [hempty, List.length_nil] at htext
    rw [appendLine_of_none hline, rowCost, if_pos hblank, ← htext]
    rfl
  | some line =>
    have hblank : ¬(columns cells).all List.isEmpty := by
      intro hall
      rw [rowLine, if_pos hall] at hline
      cases hline
    rw [appendLine_of_some hline, rowCost, if_neg hblank, rowNeed_of_line hline]
    rw [rowLine, if_neg hblank] at hline
    rw [← Option.some.inj hline, List.length_append, List.length_append, length_joinCells,
      length_columns]
    omega

end Growth

/-! ### The sections do not exceed the budget -/

theorem rowCost_le_rowNeed (out : Bytes) (cells : List (Nat × Bytes)) :
    rowCost out cells ≤ rowNeed out cells := by
  unfold rowCost
  split
  next => exact textBytes_le_rowNeed
  next => exact Nat.le_refl _

theorem inColumns_rowCells (sharedStrings : List Bytes) (row : XmlNode) :
    InColumns (rowCells sharedStrings row) := fun _ hw => mem_resolvedCells hw

section Spent

variable {ar : Arithmetic} {sharedStrings : List Bytes} {remaining r : Nat} {out out' : Bytes}

theorem length_parseRows_le (har : ar.Exact (2 ^ 64)) (data : List XmlNode)
    (hr : remaining < 2 ^ 64)
    (h : parseRows ar sharedStrings data out remaining = .ok (out', r)) :
    out'.length + r ≤ out.length + remaining := by
  induction data generalizing out remaining with
  | nil =>
    obtain ⟨rfl, rfl⟩ := Prod.mk.inj (Except.ok.inj h)
    exact Nat.le_refl _
  | cons row data ih =>
    by_cases hrow : localName row.name = utf8 "row"
    · have hcount : (rowCells sharedStrings row).length ≤ kXlsxMaxCellsPerRow := by
        rw [parseRows, if_neg (not_not.mpr hrow)] at h
        obtain ⟨s, r₁, hcells, -⟩ := ok_of_bind h
        have hinv := parseCells_inv har 0 row.children _ s remaining r₁ rfl (Nat.zero_le _) hr hcells
        rw [Nat.zero_add] at hinv
        exact hinv.1
      by_cases hneed : rowNeed out (rowCells sharedStrings row) ≤ remaining
      · rw [parseRows_cons har data hrow hcount hr hneed] at h
        have hrest := ih (by omega) h
        have hgrowth : (appendLine out (rowCells sharedStrings row)).length ≤
            out.length + rowCost out (rowCells sharedStrings row) :=
          length_appendLine_le (inColumns_rowCells sharedStrings row)
        have hcost := rowCost_le_rowNeed out (rowCells sharedStrings row)
        omega
      · rw [parseRows_full har data hrow hcount hr (Nat.not_le.mp hneed)] at h
        cases h
    · rw [parseRows, if_pos hrow] at h
      exact ih hr h

theorem length_parseWorksheet_le (har : ar.Exact (2 ^ 64)) (env : XlsxEnv) (xml : Bytes)
    (hr : remaining < 2 ^ 64) :
    (parseWorksheet ar sharedStrings env xml remaining).1.body.length +
      (parseWorksheet ar sharedStrings env xml remaining).2 ≤ remaining := by
  have hnone : ([] : Bytes).length + remaining ≤ remaining := Nat.le_of_eq (Nat.zero_add _)
  unfold parseWorksheet
  split
  next => exact hnone
  next =>
    split
    next => exact hnone
    next =>
      split
      next h =>
        have hrows := length_parseRows_le har _ hr h
        rw [List.length_nil, Nat.zero_add] at hrows
        exact hrows
      next => exact hnone
      next => exact Nat.zero_le _

theorem length_parseSheets_le (har : ar.Exact (2 ^ 64)) (env : XlsxEnv) (content : Bytes)
    (sheets : List SheetInfo) (total : Nat) {sections : List ParsedSection}
    (hr : remaining < 2 ^ 64)
    (h : parseSheets ar sharedStrings env content sheets total remaining = .ok sections) :
    (sections.flatMap ParsedSection.text).length ≤ remaining := by
  induction sheets generalizing total remaining sections with
  | nil =>
    obtain rfl := Except.ok.inj h
    exact Nat.zero_le _
  | cons sheet sheets ih =>
    rw [parseSheets] at h
    split at h
    next => cases h
    next => cases h
    next xml _ =>
      have hws : (parseWorksheet ar sharedStrings env xml remaining).1.body.length +
          (parseWorksheet ar sharedStrings env xml remaining).2 ≤ remaining :=
        length_parseWorksheet_le har env xml hr
      split at h
      next => cases h
      next =>
        simp only [] at h
        split at h
        next => cases h
        next =>
          split at h
          next => cases h
          next =>
            obtain ⟨rest, hrest, h⟩ := Fallible.bind_ok.mp h
            have hle := ih _ (by omega) hrest
            split at h
            next =>
              obtain rfl := Except.ok.inj h
              omega
            next =>
              obtain rfl := Except.ok.inj h
              rw [List.flatMap_cons, List.length_append]
              dsimp only
              omega

theorem length_parse_le (env : XlsxEnv) (content filename : Bytes) {doc : ParsedDocument}
    (h : parse sizeT env content filename = .ok doc) :
    (doc.sections.flatMap ParsedSection.text).length ≤ kXlsxMaxOutputBytes := by
  unfold parse at h
  split at h
  next => cases h
  split at h
  next => cases h
  split at h
  next => cases h
  simp only [] at h
  split at h
  next => cases h
  split at h
  next => cases h
  split at h
  next => cases h
  split at h
  next => cases h
  obtain ⟨sections, hsections, h⟩ := Fallible.bind_ok.mp h
  split at h
  next => cases h
  obtain rfl := Except.ok.inj h
  exact length_parseSheets_le (wrapping_exact (2 ^ 64)) env content _ 0 (by decide) hsections

end Spent

/-! ### Workbooks that fit -/

/-- No row names a column twice. -/
def DistinctColumns (rows : List (List (Nat × Bytes))) : Prop :=
  ∀ cells ∈ rows, (cells.map Prod.fst).Nodup

/-- Where `used` bytes are taken by the sheets before, every row without a line leaves room for
what is charged ahead of it. -/
def RowsFit (used : Nat) : Bytes → List (List (Nat × Bytes)) → Prop
  | _, [] => True
  | out, cells :: rows =>
    (rowLine cells = none → used + out.length + rowNeed out cells ≤ kXlsxMaxOutputBytes) ∧
      RowsFit used (appendLine out cells) rows

def SheetsFit (used : Nat) : List (List (List (Nat × Bytes))) → Prop
  | [] => True
  | rows :: tables => RowsFit used [] rows ∧ SheetsFit (used + (sheetBody rows).length) tables

/-- The bytes of the rendered texts of the sheets. -/
def renderedBytes (tables : List (List (List (Nat × Bytes)))) : Nat :=
  (tables.flatMap sheetBody).length

/-- The sheets are read to these rows, and break no other limit than that of the output. -/
def SheetsRead (env : XlsxEnv) (content : Bytes) (sharedStrings : List Bytes) :
    Nat → List SheetInfo → List (List (List (Nat × Bytes))) → Prop
  | _, [], [] => True
  | total, sheet :: sheets, rows :: tables =>
    ∃ xml nodes sheetData,
      xlsxExtract env content sheet.path = ⟨xml, .ok⟩ ∧
      total + xml.length ≤ kXlsxMaxTotalXmlBytes ∧
      env.loadBuffer xml = some nodes ∧
      bfsFind "sheetData" kXlsxXmlMaxDepth [document nodes] = some sheetData ∧
      rows = rowsOf sharedStrings sheetData.children ∧
      (∀ cells ∈ rows, cells.length ≤ kXlsxMaxCellsPerRow) ∧
      SheetsRead env content sharedStrings (total + xml.length) sheets tables
  | _, _, _ => False

/-- The workbook is read to these sheets and rows, and breaks no other limit. -/
structure WorkbookRead (env : XlsxEnv) (content : Bytes) (sheets : List SheetInfo)
    (tables : List (List (List (Nat × Bytes)))) : Prop where
  nonempty : content ≠ []
  size : content.length ≤ kMaxInputBytes
  magic : [80, 75, 3, 4].isPrefixOf content = true
  strings : (loadSharedStrings env content).status ≠ .error
  order : loadSheetOrder env content = some sheets
  listed : sheets ≠ []
  count : sheets.length ≤ kXlsxMaxSheets
  read : SheetsRead env content (loadSharedStrings env content).strings 0 sheets tables

section Fits

variable {ar : Arithmetic} {sharedStrings : List Bytes} {out : Bytes} {used : Nat}

theorem length_le_foldl_appendLine (rows : List (List (Nat × Bytes))) (out : Bytes) :
    out.length ≤ (rows.foldl appendLine out).length := by
  induction rows generalizing out with
  | nil => exact Nat.le_refl _
  | cons cells rows ih =>
    have hstep : out.length ≤ (appendLine out cells).length := by
      cases hline : rowLine cells with
      | none => rw [appendLine_of_none hline]
      | some line =>
        rw [appendLine_of_some hline, List.append_assoc, List.length_append]
        exact Nat.le_add_right _ _
    exact Nat.le_trans hstep (ih _)

theorem rowCost_of_line (out : Bytes) {line : Bytes} {cells : List (Nat × Bytes)} (h : rowLine cells = some line) :
    rowCost out cells = rowNeed out cells := by
  apply if_neg
  intro hall
  rw [rowLine, if_pos hall] at h
  cases h

/-- Rows that fit are parsed or rejected by the rows without a line alone. -/
theorem parseRows_fits (har : ar.Exact (2 ^ 64)) (data : List XmlNode) (out : Bytes) (used : Nat)
    (hcount : ∀ cells ∈ rowsOf sharedStrings data, cells.length ≤ kXlsxMaxCellsPerRow)
    (hcols : DistinctColumns (rowsOf sharedStrings data))
    (hfinal : used + ((rowsOf sharedStrings data).foldl appendLine out).length ≤
      kXlsxMaxOutputBytes) :
    (RowsFit used out (rowsOf sharedStrings data) →
      parseRows ar sharedStrings data out (kXlsxMaxOutputBytes - (used + out.length)) =
        .ok ((rowsOf sharedStrings data).foldl appendLine out, kXlsxMaxOutputBytes -
          (used + ((rowsOf sharedStrings data).foldl appendLine out).length))) ∧
    (¬RowsFit used out (rowsOf sharedStrings data) →
      parseRows ar sharedStrings data out (kXlsxMaxOutputBytes - (used + out.length)) =
        .error .exceeded) := by
  have hsize : kXlsxMaxOutputBytes < 2 ^ 64 := by decide
  induction data generalizing out with
  | nil => exact ⟨fun _ => rfl, fun h => absurd trivial h⟩
  | cons row data ih =>
    by_cases hrow : localName row.name = utf8 "row"
    · rw [rowsOf_cons hrow] at hcount hcols hfinal ⊢
      have hone := hcount _ List.mem_cons_self
      have hgrowth : (appendLine out (rowCells sharedStrings row)).length =
          out.length + rowCost out (rowCells sharedStrings row) :=
        length_appendLine (inColumns_rowCells sharedStrings row) (hcols _ List.mem_cons_self)
      have hmono := length_le_foldl_appendLine (rowsOf sharedStrings data)
        (appendLine out (rowCells sharedStrings row))
      rw [List.foldl_cons] at hfinal ⊢
      obtain ⟨hok, hfull⟩ := ih _ (fun cells hm => hcount cells (List.mem_cons_of_mem _ hm))
        (fun cells hm => hcols cells (List.mem_cons_of_mem _ hm)) hfinal
      have hstep : rowNeed out (rowCells sharedStrings row) ≤
          kXlsxMaxOutputBytes - (used + out.length) →
          parseRows ar sharedStrings (row :: data) out (kXlsxMaxOutputBytes - (used + out.length)) =
            parseRows ar sharedStrings data (appendLine out (rowCells sharedStrings row))
              (kXlsxMaxOutputBytes -
                (used + (appendLine out (rowCells sharedStrings row)).length)) := by
        intro hneed
        rw [parseRows_cons har data hrow hone (by omega) hneed, hgrowth, Nat.sub_sub, Nat.add_assoc]
      cases hline : rowLine (rowCells sharedStrings row) with
      | none =>
        by_cases hneed : rowNeed out (rowCells sharedStrings row) ≤
            kXlsxMaxOutputBytes - (used + out.length)
        · rw [hstep hneed]
          constructor
          · exact fun h => hok h.2
          · intro h
            apply hfull
            exact fun hrest => h ⟨fun _ => by omega, hrest⟩
        · rw [parseRows_full har data hrow hone (by omega) (Nat.not_le.mp hneed)]
          constructor
          · intro h
            have hroom := h.1 hline
            omega
          · exact fun _ => rfl
      | some line =>
        have hcost := rowCost_of_line out hline
        rw [hstep (by omega)]
        constructor
        · exact fun h => hok h.2
        · intro h
          apply hfull
          exact fun hrest => h ⟨fun hnone => absurd (hline.symm.trans hnone) (by simp), hrest⟩
    · rw [rowsOf_skip hrow] at hcount hcols hfinal ⊢
      rw [parseRows, if_pos hrow]
      exact ih out hcount hcols hfinal

theorem renderedBytes_cons (rows : List (List (Nat × Bytes)))
    (tables : List (List (List (Nat × Bytes)))) :
    renderedBytes (rows :: tables) = (sheetBody rows).length + renderedBytes tables := by
  rw [renderedBytes, List.flatMap_cons, List.length_append]
  rfl

/-- Sheets that fit are rejected where a row without a line leaves no room, or where the budget is
used up at the end of a sheet. -/
theorem parseSheets_fits (har : ar.Exact (2 ^ 64)) (env : XlsxEnv) (content : Bytes)
    (sheets : List SheetInfo) (tables : List (List (List (Nat × Bytes)))) (total used : Nat)
    (hread : SheetsRead env content sharedStrings total sheets tables)
    (hcols : ∀ rows ∈ tables, DistinctColumns rows)
    (hfits : used + renderedBytes tables ≤ kXlsxMaxOutputBytes) :
    parseSheets ar sharedStrings env content sheets total (kXlsxMaxOutputBytes - used) ≠
        .error contentLimitExceeded ↔
      SheetsFit used tables ∧ (tables ≠ [] → used + renderedBytes tables < kXlsxMaxOutputBytes) := by
  induction sheets generalizing tables total used with
  | nil =>
    cases tables with
    | nil => exact iff_of_true (Fallible.ok_ne_error _ _) ⟨trivial, fun h => absurd rfl h⟩
    | cons _ _ => exact hread.elim
  | cons sheet sheets ih =>
    cases tables with
    | nil => exact hread.elim
    | cons rows tables =>
      obtain ⟨xml, nodes, sheetData, hxml, htotal, hload, hfind, rfl, hcount, hrest⟩ := hread
      rw [renderedBytes_cons] at hfits ⊢
      have hbody : ((rowsOf sharedStrings sheetData.children).foldl appendLine []).length =
          (sheetBody (rowsOf sharedStrings sheetData.children)).length := by
        rw [foldl_appendLine]
      obtain ⟨hok, hfull⟩ := parseRows_fits har sheetData.children [] used hcount
        (hcols _ List.mem_cons_self) (by omega)
      rw [List.length_nil, Nat.add_zero] at hok hfull
      rw [foldl_appendLine] at hok
      rw [parseSheets, hxml]
      simp only []
      rw [if_neg (Nat.not_lt.mpr htotal)]
      by_cases hrows : RowsFit used [] (rowsOf sharedStrings sheetData.children)
      · have hws : parseWorksheet ar sharedStrings env xml (kXlsxMaxOutputBytes - used) =
            (⟨sheetBody (rowsOf sharedStrings sheetData.children), .ok⟩, kXlsxMaxOutputBytes -
              (used + (sheetBody (rowsOf sharedStrings sheetData.children)).length)) := by
          simp only [parseWorksheet, hload, hfind, hok hrows]
        rw [hws]
        dsimp only
        rw [if_neg (by decide)]
        by_cases hzero : kXlsxMaxOutputBytes -
            (used + (sheetBody (rowsOf sharedStrings sheetData.children)).length) = 0
        · rw [if_pos hzero]
          refine iff_of_false (fun h => h rfl) fun h => ?_
          have hroom := h.2 (List.cons_ne_nil _ _)
          omega
        · have hnext := ih tables (total + xml.length)
            (used + (sheetBody (rowsOf sharedStrings sheetData.children)).length) hrest
            (fun rows hm => hcols rows (List.mem_cons_of_mem _ hm)) (by omega)
          have htotal : ∀ sections : List ParsedSection,
              (if sheetBody (rowsOf sharedStrings sheetData.children) = [] then .ok sections
                else .ok (⟨sheet.name, 1, sheetBody (rowsOf sharedStrings sheetData.children), [],
                  none⟩ :: sections) : Except Error (List ParsedSection)) ≠
                .error contentLimitExceeded := by
            intro sections
            split <;> exact Fallible.ok_ne_error _ _
          rw [if_neg hzero, Fallible.bind_ne_error_iff htotal, hnext, Nat.add_assoc]
          constructor
          · rintro ⟨hsheets, hroom⟩
            refine ⟨⟨hrows, hsheets⟩, fun _ => ?_⟩
            cases tables with
            | nil =>
              have hnone : renderedBytes [] = 0 := rfl
              omega
            | cons rows tables => exact hroom (List.cons_ne_nil _ _)
          · rintro ⟨⟨-, hsheets⟩, hroom⟩
            exact ⟨hsheets, fun _ => hroom (List.cons_ne_nil _ _)⟩
      · have hws : parseWorksheet ar sharedStrings env xml (kXlsxMaxOutputBytes - used) =
            (⟨[], .ok⟩, 0) := by
          simp only [parseWorksheet, hload, hfind, hfull hrows]
        rw [hws]
        dsimp only
        rw [if_neg (by decide), if_pos rfl]
        exact iff_of_false (fun h => h rfl) fun h => hrows h.1.1

theorem SheetsRead.tables_ne_nil {env : XlsxEnv} {content : Bytes} {total : Nat}
    {sheets : List SheetInfo} {tables : List (List (List (Nat × Bytes)))}
    (h : SheetsRead env content sharedStrings total sheets tables) (hne : sheets ≠ []) :
    tables ≠ [] := by
  rintro rfl
  cases sheets with
  | nil => exact hne rfl
  | cons sheet sheets => exact h.elim

theorem parse_fits (har : ar.Exact (2 ^ 64)) {env : XlsxEnv} {content : Bytes} (filename : Bytes)
    {sheets : List SheetInfo} {tables : List (List (List (Nat × Bytes)))}
    (hread : WorkbookRead env content sheets tables) (hcols : ∀ rows ∈ tables, DistinctColumns rows)
    (hfits : renderedBytes tables ≤ kXlsxMaxOutputBytes) :
    parse ar env content filename ≠ .error contentLimitExceeded ↔
      renderedBytes tables < kXlsxMaxOutputBytes ∧ SheetsFit 0 tables := by
  have hsheets := parseSheets_fits har env content sheets tables 0 0 hread.read hcols
    (by rw [Nat.zero_add]; exact hfits)
  have hlast : ∀ sections : List ParsedSection,
      (if sections = [] then .error (.invalidInput "ingest.xlsx.no_text_content")
        else .ok ⟨filename, xlsxMime, sections, fullText sections⟩ :
          Except Error ParsedDocument) ≠ .error contentLimitExceeded := by
    intro sections
    split
    · exact fun h => absurd (Except.error.inj h) (by decide)
    · exact Fallible.ok_ne_error _ _
  unfold parse
  rw [if_neg hread.nonempty, if_neg (Nat.not_lt.mpr hread.size),
    if_neg (not_not.mpr hread.magic)]
  dsimp only
  rw [if_neg hread.strings, hread.order]
  dsimp only
  rw [if_neg hread.listed, if_neg (Nat.not_lt.mpr hread.count), Fallible.bind_ne_error_iff hlast]
  rw [Nat.sub_zero, Nat.zero_add] at hsheets
  rw [hsheets]
  have hne := hread.read.tables_ne_nil hread.listed
  constructor
  · rintro ⟨hrows, hroom⟩
    exact ⟨hroom hne, hrows⟩
  · rintro ⟨hroom, hrows⟩
    exact ⟨hrows, fun _ => hroom⟩

end Fits

/-- What the output budget is for. -/
structure BudgetExact (env : XlsxEnv) (content filename : Bytes) : Prop where
  /-- The sections of a document take no more than the budget. -/
  within : ∀ doc, parse sizeT env content filename = .ok doc →
    (doc.sections.flatMap ParsedSection.text).length ≤ kXlsxMaxOutputBytes
  /-- A workbook that fits, names no column twice and breaks no other limit is not rejected. -/
  notRejected : ∀ sheets tables, WorkbookRead env content sheets tables →
    (∀ rows ∈ tables, DistinctColumns rows) → renderedBytes tables ≤ kXlsxMaxOutputBytes →
    parse sizeT env content filename ≠ .error contentLimitExceeded
  /-- No result depends on what the counter does when it wraps around. -/
  noWrap : ∀ ar : Arithmetic, ar.Exact (2 ^ 64) →
    parse ar env content filename = parse sizeT env content filename

/-- The budget is exact unless a workbook that fits fills it to the last byte, or has a row without
a line where what is charged ahead of the row does not fit. -/
theorem budgetExact_iff (env : XlsxEnv) (content filename : Bytes) :
    BudgetExact env content filename ↔
      ∀ sheets tables, WorkbookRead env content sheets tables →
        (∀ rows ∈ tables, DistinctColumns rows) → renderedBytes tables ≤ kXlsxMaxOutputBytes →
        renderedBytes tables < kXlsxMaxOutputBytes ∧ SheetsFit 0 tables := by
  have hsize : sizeT.Exact (2 ^ 64) := wrapping_exact (2 ^ 64)
  constructor
  · intro h sheets tables hread hcols hfits
    exact (parse_fits hsize filename hread hcols hfits).mp
      (h.notRejected sheets tables hread hcols hfits)
  · intro h
    exact {
      within := fun doc hdoc => length_parse_le env content filename hdoc
      notRejected := fun sheets tables hread hcols hfits =>
        (parse_fits hsize filename hread hcols hfits).mpr (h sheets tables hread hcols hfits)
      noWrap := fun ar har => (parse_natural har env content filename).trans
        (parse_natural hsize env content filename).symm }

/-! ### Two sheets with one text each -/

def workbookXml : Bytes :=
  utf8 ("<workbook><sheets><sheet name='one' r:id='r1'/><sheet name='two' r:id='r2'/>" ++
    "</sheets></workbook>")

def workbookNodes : List XmlNode :=
  [.element (utf8 "workbook") [] [.element (utf8 "sheets") [] [
    .element (utf8 "sheet") [(utf8 "name", utf8 "one"), (utf8 "r:id", utf8 "r1")] [],
    .element (utf8 "sheet") [(utf8 "name", utf8 "two"), (utf8 "r:id", utf8 "r2")] []]]]

def relsXml : Bytes :=
  utf8 ("<Relationships>" ++
    "<Relationship Id='r1' Type='/relationships/worksheet' Target='worksheets/sheet1.xml'/>" ++
    "<Relationship Id='r2' Type='/relationships/worksheet' Target='worksheets/sheet2.xml'/>" ++
    "</Relationships>")

def relsNodes : List XmlNode :=
  [.element (utf8 "Relationships") [] [
    .element (utf8 "Relationship") [(utf8 "Id", utf8 "r1"),
      (utf8 "Type", utf8 "/relationships/worksheet"),
      (utf8 "Target", utf8 "worksheets/sheet1.xml")] [],
    .element (utf8 "Relationship") [(utf8 "Id", utf8 "r2"),
      (utf8 "Type", utf8 "/relationships/worksheet"),
      (utf8 "Target", utf8 "worksheets/sheet2.xml")] []]]

def textSheetXml (t : Bytes) : Bytes :=
  utf8 "<worksheet><sheetData><row><c t='str'><v>" ++ t ++
    utf8 "</v></c></row></sheetData></worksheet>"

def textCell (t : Bytes) : XmlNode :=
  .element (utf8 "c") [(utf8 "t", utf8 "str")] [.element (utf8 "v") [] [.pcdata t]]

def textSheetData (t : Bytes) : XmlNode :=
  .element (utf8 "sheetData") [] [.element (utf8 "row") [] [textCell t]]

def textSheetNodes (t : Bytes) : List XmlNode := [.element (utf8 "worksheet") [] [textSheetData t]]

def zipEntry (data : Bytes) : ZipEntry := ⟨data.length, some data⟩

def textArchive (t entry : Bytes) : Option ZipEntry :=
  if entry = utf8 "xl/workbook.xml" then some (zipEntry workbookXml)
  else if entry = utf8 "xl/_rels/workbook.xml.rels" then some (zipEntry relsXml)
  else if entry = utf8 "xl/worksheets/sheet1.xml" ∨ entry = utf8 "xl/worksheets/sheet2.xml" then
    some (zipEntry (textSheetXml t))
  else none

/-- An environment for the workbook. -/
def textEnv (t : Bytes) : XlsxEnv where
  unzOpen _ := some (textArchive t)
  loadBuffer xml :=
    if xml = workbookXml then some workbookNodes
    else if xml = relsXml then some relsNodes
    else if xml = textSheetXml t then some (textSheetNodes t)
    else none

def textSheets : List SheetInfo :=
  [⟨utf8 "one", utf8 "xl/worksheets/sheet1.xml"⟩, ⟨utf8 "two", utf8 "xl/worksheets/sheet2.xml"⟩]

def textTables (t : Bytes) : List (List (List (Nat × Bytes))) := [[[(1, t)]], [[(1, t)]]]

section Text

variable {t : Bytes}

theorem length_textSheetXml (t : Bytes) : (textSheetXml t).length = t.length + 79 := by
  have hopen : (utf8 "<worksheet><sheetData><row><c t='str'><v>").length = 41 := by decide
  have hclose : (utf8 "</v></c></row></sheetData></worksheet>").length = 38 := by decide
  rw [textSheetXml, List.length_append, List.length_append, hopen, hclose]
  omega

theorem load_textSheetXml (t : Bytes) :
    (textEnv t).loadBuffer (textSheetXml t) = some (textSheetNodes t) := by
  have htake : (textSheetXml t).take 7 = utf8 "<worksh" := rfl
  have hwb : textSheetXml t ≠ workbookXml := by
    intro h
    rw [h] at htake
    revert htake
    decide
  have hrels : textSheetXml t ≠ relsXml := by
    intro h
    rw [h] at htake
    revert htake
    decide
  unfold textEnv
  dsimp only
  rw [if_neg hwb, if_neg hrels, if_pos rfl]

theorem extract_entry {path data : Bytes} (hpath : textArchive t path = some (zipEntry data))
    (hsize : data.length ≤ kXlsxMaxXmlBytes) (zip : Bytes) :
    xlsxExtract (textEnv t) zip path = ⟨data, .ok⟩ := by
  have hopen : (textEnv t).unzOpen zip = some (textArchive t) := rfl
  have hcap : ¬kXlsxMaxXmlBytes < (zipEntry data).uncompressedSize := Nat.not_lt.mpr hsize
  unfold xlsxExtract
  rw [hopen]
  dsimp only
  rw [hpath]
  dsimp only
  rw [if_neg hcap]
  exact if_pos rfl

theorem load_workbookXml (t : Bytes) : (textEnv t).loadBuffer workbookXml = some workbookNodes := by
  unfold textEnv
  dsimp only
  rw [if_pos rfl]

theorem load_relsXml (t : Bytes) : (textEnv t).loadBuffer relsXml = some relsNodes := by
  unfold textEnv
  dsimp only
  rw [if_neg (by decide), if_pos rfl]

theorem loadSharedStrings_textEnv (zip : Bytes) :
    loadSharedStrings (textEnv t) zip = ⟨[], .notFound⟩ := by
  have hpath : textArchive t (utf8 "xl/sharedStrings.xml") = none := by
    unfold textArchive
    rw [if_neg (by decide), if_neg (by decide), if_neg (by decide)]
  have hopen : (textEnv t).unzOpen zip = some (textArchive t) := rfl
  have hextract : xlsxExtract (textEnv t) zip (utf8 "xl/sharedStrings.xml") = ⟨[], .notFound⟩ := by
    unfold xlsxExtract
    rw [hopen]
    dsimp only
    rw [hpath]
  unfold loadSharedStrings
  rw [hextract]

set_option maxRecDepth 2000 in
theorem loadSheetOrder_textEnv (zip : Bytes) :
    loadSheetOrder (textEnv t) zip = some textSheets := by
  have hwb : xlsxExtract (textEnv t) zip (utf8 "xl/workbook.xml") = ⟨workbookXml, .ok⟩ := by
    apply extract_entry
    · exact if_pos rfl
    · decide
  have hrels : xlsxExtract (textEnv t) zip (utf8 "xl/_rels/workbook.xml.rels") =
      ⟨relsXml, .ok⟩ := by
    apply extract_entry
    · unfold textArchive
      rw [if_neg (by decide), if_pos rfl]
    · decide
  unfold loadSheetOrder
  rw [hwb, hrels]
  dsimp only
  rw [load_relsXml, load_workbookXml]
  rfl

theorem textWorkbook_read (ht : t.length + 79 ≤ kXlsxMaxXmlBytes) :
    WorkbookRead (textEnv t) [80, 75, 3, 4] textSheets (textTables t) where
  nonempty := List.cons_ne_nil _ _
  size := by decide
  magic := rfl
  strings := by
    rw [loadSharedStrings_textEnv]
    decide
  order := loadSheetOrder_textEnv _
  listed := List.cons_ne_nil _ _
  count := by decide
  read := by
    rw [loadSharedStrings_textEnv]
    have hsize : (textSheetXml t).length ≤ kXlsxMaxXmlBytes := by
      rw [length_textSheetXml]
      exact ht
    have htotal : 0 + (textSheetXml t).length + (textSheetXml t).length ≤ kXlsxMaxTotalXmlBytes := by
      unfold kXlsxMaxXmlBytes at hsize
      unfold kXlsxMaxTotalXmlBytes
      omega
    have hvalue : cellValue [] (textCell t) = t := List.append_nil t
    have hrows : [[(1, t)]] = rowsOf [] (textSheetData t).children := by
      have hcells : rowsOf [] (textSheetData t).children = [[(1, cellValue [] (textCell t))]] := rfl
      rw [hcells, hvalue]
    have hcount : ∀ cells ∈ [[(1, t)]], cells.length ≤ kXlsxMaxCellsPerRow := by
      intro cells hm
      rw [List.mem_singleton.mp hm]
      exact (by decide : 1 ≤ kXlsxMaxCellsPerRow)
    have hone : textArchive t (utf8 "xl/worksheets/sheet1.xml") =
        some (zipEntry (textSheetXml t)) := by
      unfold textArchive
      rw [if_neg (by decide), if_neg (by decide), if_pos (.inl rfl)]
    have htwo : textArchive t (utf8 "xl/worksheets/sheet2.xml") =
        some (zipEntry (textSheetXml t)) := by
      unfold textArchive
      rw [if_neg (by decide), if_neg (by decide), if_pos (.inr rfl)]
    exact ⟨textSheetXml t, textSheetNodes t, textSheetData t, extract_entry hone hsize _, by omega,
      load_textSheetXml t, rfl, hrows, hcount,
      textSheetXml t, textSheetNodes t, textSheetData t, extract_entry htwo hsize _, htotal,
      load_textSheetXml t, rfl, hrows, hcount, trivial⟩

theorem renderedBytes_textTables (hne : t ≠ []) :
    renderedBytes (textTables t) = t.length + t.length := by
  have hline : rowLine [(1, t)] = some t := by
    have hcolumns : columns [(1, t)] = [t] := rfl
    have hjoin : joinCells [t] = t := List.intercalate_singleton
    rw [rowLine, hcolumns, if_neg (by simpa using hne), hjoin]
  have hbody : sheetBody [[(1, t)]] = t := by
    rw [sheetBody, List.filterMap_cons, hline]
    exact List.intercalate_singleton
  rw [textTables, renderedBytes_cons, renderedBytes_cons, hbody]
  rfl

end Text

/-- Two sheets of 8 MiB fill the budget to the last byte. -/
theorem fullWorkbook_not_exact :
    ¬BudgetExact (textEnv (List.replicate (8 * 1024 * 1024) 97)) [80, 75, 3, 4]
      (utf8 "full.xlsx") := by
  intro h
  have hlen : (List.replicate (8 * 1024 * 1024) (97 : UInt8)).length = 8 * 1024 * 1024 :=
    List.length_replicate
  generalize List.replicate (8 * 1024 * 1024) (97 : UInt8) = t at h hlen
  have hne : t ≠ [] := by
    rintro rfl
    cases hlen
  have hbytes : renderedBytes (textTables t) = kXlsxMaxOutputBytes := by
    rw [renderedBytes_textTables hne, hlen]
    rfl
  have hread : WorkbookRead (textEnv t) [80, 75, 3, 4] textSheets (textTables t) :=
    textWorkbook_read (by rw [hlen]; decide)
  have hcols : ∀ rows ∈ textTables t, DistinctColumns rows := by
    intro rows hm cells hcells
    have hrows : rows = [[(1, t)]] := by
      rcases List.mem_cons.mp hm with rfl | hm
      · rfl
      · exact List.mem_singleton.mp hm
    rw [hrows] at hcells
    rw [List.mem_singleton.mp hcells]
    exact List.nodup_singleton _
  have hnot := h.notRejected textSheets (textTables t) hread hcols (Nat.le_of_eq hbytes)
  have hroom := (parse_fits (wrapping_exact (2 ^ 64)) _ hread hcols (Nat.le_of_eq hbytes)).mp hnot
  omega

end Wikore.Parser.XlsxParser
