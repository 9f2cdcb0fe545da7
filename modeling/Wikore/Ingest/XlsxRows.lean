import Wikore.Ingest.PlainTextContent
import Wikore.Ingest.XlsxParser

/-! The lines of a worksheet against what its cells say: in which column a cell is, which value a
column of a row has, and which rows have a line. -/

namespace Wikore.Parser.XlsxParser

open ContextBuilder (Bytes utf8)
open Meter
open XmlNode (localName)

/-! ### Columns -/

/-- The number that letters write in bijective base 26. -/
def base26 (letters : Bytes) : Nat := letters.foldl (fun n c => n * 26 + letterValue c) 0

/-- The column that a reference names. -/
def referenceColumn (r : Bytes) : Nat := base26 (r.takeWhile isUpper)

theorem letterValue_le {c : UInt8} (h : isUpper c = true) : letterValue c ≤ 26 := by
  simp only [isUpper, Bool.and_eq_true, decide_eq_true_eq] at h
  have hle : c.toNat ≤ 90 := UInt8.le_iff_toNat_le.mp h.2
  unfold letterValue
  omega

theorem le_foldl_letters (letters : Bytes) (n : Nat) :
    n ≤ letters.foldl (fun n c => n * 26 + letterValue c) n := by
  induction letters generalizing n with
  | nil => exact Nat.le_refl n
  | cons c letters ih =>
    rw [List.foldl_cons]
    have hstep : n ≤ n * 26 + letterValue c := by omega
    exact Nat.le_trans hstep (ih _)

/-- The guard stops where the number would leave the columns. -/
theorem guard_iff {col : Nat} {c : UInt8} (h : isUpper c = true) :
    (kXlsxMaxCol - letterValue c) / 26 < col ↔ kXlsxMaxCol < col * 26 + letterValue c := by
  have hle := letterValue_le h
  unfold kXlsxMaxCol
  omega

theorem colLoop_eq {col : Nat} (r : Bytes) (hcol : col ≤ kXlsxMaxCol) :
    colLoop col r =
      let n := (r.takeWhile isUpper).foldl (fun n c => n * 26 + letterValue c) col
      if n ≤ kXlsxMaxCol then n else 0 := by
  induction r generalizing col with
  | nil =>
    rw [colLoop, if_neg (Nat.not_lt.mpr hcol)]
    exact (if_pos hcol).symm
  | cons c r ih =>
    rw [colLoop, List.takeWhile_cons]
    cases hc : isUpper c with
    | false =>
      rw [if_neg Bool.false_ne_true, if_neg (Nat.not_lt.mpr hcol)]
      exact (if_pos hcol).symm
    | true =>
      rw [if_pos rfl, if_pos rfl]
      by_cases hguard : (kXlsxMaxCol - letterValue c) / 26 < col
      · have hover := (guard_iff hc).mp hguard
        have hmono := le_foldl_letters (r.takeWhile isUpper) (col * 26 + letterValue c)
        rw [if_pos hguard]
        exact (if_neg (Nat.not_le.mpr (Nat.lt_of_lt_of_le hover hmono))).symm
      · have hfits := Nat.not_lt.mp ((guard_iff hc).not.mp hguard)
        rw [if_neg hguard, ih hfits]
        rfl

theorem colFromRef_eq (r : Bytes) :
    colFromRef r = if referenceColumn r ≤ kXlsxMaxCol then referenceColumn r else 0 :=
  colLoop_eq r (Nat.zero_le _)

/-- The products and sums that the loop of `col_from_ref` computes. -/
def computedColumns (col : Nat) : Bytes → List Nat
  | [] => []
  | c :: rest =>
    if isUpper c then
      if (kXlsxMaxCol - letterValue c) / 26 < col then []
      else col * 26 :: (col * 26 + letterValue c) ::
        computedColumns (col * 26 + letterValue c) rest
    else []

/-- Nothing that the loop computes leaves the columns. -/
theorem computedColumns_le (col : Nat) (r : Bytes) : ∀ n ∈ computedColumns col r, n ≤ kXlsxMaxCol := by
  induction r generalizing col with
  | nil => exact fun n hn => absurd hn List.not_mem_nil
  | cons c r ih =>
    intro n hn
    rw [computedColumns] at hn
    split at hn
    next hc =>
      split at hn
      next => exact absurd hn List.not_mem_nil
      next hguard =>
        have hfits := Nat.not_lt.mp ((guard_iff hc).not.mp hguard)
        rcases List.mem_cons.mp hn with rfl | hn
        · exact Nat.le_trans (Nat.le_add_right _ _) hfits
        rcases List.mem_cons.mp hn with rfl | hn
        · exact hfits
        · exact ih _ n hn
    next => exact absurd hn List.not_mem_nil

/-- The column of a cell after one that was resolved to `previous`, which is 0 before the first. -/
def columnOf (previous : Nat) (c : XmlNode) : Option Nat :=
  match attributeOf c "r" with
  | some r =>
    if 1 ≤ referenceColumn r ∧ referenceColumn r ≤ kXlsxMaxCol then some (referenceColumn r)
    else none
  | none => if previous + 1 ≤ kXlsxMaxCol then some (previous + 1) else none

theorem resolveColumn_eq (c : XmlNode) (previous : Nat) :
    resolveColumn c (previous + 1) = columnOf previous c := by
  unfold resolveColumn columnOf
  cases attributeOf c "r" with
  | some r =>
    dsimp only
    rw [colFromRef_eq]
    by_cases hle : referenceColumn r ≤ kXlsxMaxCol
    · rw [if_pos hle]
      by_cases hzero : referenceColumn r = 0
      · rw [if_pos hzero, if_neg (by omega)]
      · rw [if_neg hzero, if_pos ⟨Nat.pos_of_ne_zero hzero, hle⟩]
    · rw [if_neg hle, if_pos rfl, if_neg fun h => hle h.2]
  | none =>
    dsimp only
    by_cases hle : previous + 1 ≤ kXlsxMaxCol
    · rw [if_neg (Nat.not_lt.mpr hle), if_pos hle]
    · rw [if_pos (Nat.not_le.mp hle), if_neg hle]

theorem columnOf_bounds {previous col : Nat} {c : XmlNode} (h : columnOf previous c = some col) :
    1 ≤ col ∧ col ≤ kXlsxMaxCol := by
  unfold columnOf at h
  split at h
  next r =>
    split at h
    next hcol =>
      obtain rfl := Option.some.inj h
      exact hcol
    next => cases h
  next =>
    split at h
    next hcol =>
      obtain rfl := Option.some.inj h
      exact ⟨Nat.succ_pos previous, hcol⟩
    next => cases h

/-! ### The cells of a row -/

section Rows

variable (sharedStrings : List Bytes)

def cellValue (c : XmlNode) : Bytes := (cellTexts sharedStrings c).flatten

/-- The resolved cells of a row: their columns and values. -/
def resolvedCells (previous : Nat) : List XmlNode → List (Nat × Bytes)
  | [] => []
  | c :: cs =>
    if localName c.name ≠ utf8 "c" then resolvedCells previous cs
    else
      match columnOf previous c with
      | none => resolvedCells previous cs
      | some col => (col, cellValue sharedStrings c) :: resolvedCells col cs

def rowCells (row : XmlNode) : List (Nat × Bytes) := resolvedCells sharedStrings 0 row.children

/-- The rows of a worksheet. -/
def rowsOf (sheetData : List XmlNode) : List (List (Nat × Bytes)) :=
  (sheetData.filter fun row => localName row.name = utf8 "row").map (rowCells sharedStrings)

end Rows

/-- The largest column of a row. -/
def width (cells : List (Nat × Bytes)) : Nat := (cells.map Prod.fst).foldr max 0

/-- The value of the last cell of the row in the column. -/
def lastValue (cells : List (Nat × Bytes)) (col : Nat) : Bytes :=
  ((cells.reverse.find? fun w => w.1 = col).map Prod.snd).getD []

/-- The values of the columns from 1 to the largest one. -/
def columns (cells : List (Nat × Bytes)) : List Bytes :=
  (List.range (width cells)).map fun i => lastValue cells (i + 1)

/-- The line of a row in which some column has a text. -/
def rowLine (cells : List (Nat × Bytes)) : Option Bytes :=
  if (columns cells).all List.isEmpty then none else some (joinCells (columns cells))

/-- The lines of the rows, with line feeds between them. -/
def sheetBody (rows : List (List (Nat × Bytes))) : Bytes :=
  (utf8 "\n").intercalate (rows.filterMap rowLine)

/-! ### The dense vector -/

section Dense

variable {cells : List (Nat × Bytes)}

theorem lastValue_concat (cells : List (Nat × Bytes)) (w : Nat × Bytes) (col : Nat) :
    lastValue (cells ++ [w]) col = if w.1 = col then w.2 else lastValue cells col := by
  unfold lastValue
  rw [List.reverse_concat, List.find?_cons]
  by_cases h : w.1 = col
  · simp [h]
  · simp [h]

theorem denseRow_concat (m : Nat) (cells : List (Nat × Bytes)) (w : Nat × Bytes) :
    denseRow m (cells ++ [w]) =
      if 1 ≤ w.1 ∧ w.1 ≤ m then (denseRow m cells).set (w.1 - 1) w.2 else denseRow m cells := by
  unfold denseRow
  rw [List.foldl_concat]

theorem length_denseRow (m : Nat) (cells : List (Nat × Bytes)) : (denseRow m cells).length = m := by
  induction cells using List.reverseRecOn with
  | nil => exact List.length_replicate
  | append_singleton cells w ih =>
    rw [denseRow_concat]
    split
    next => rw [List.length_set, ih]
    next => exact ih

theorem getElem?_denseRow {m i : Nat} (hi : i < m) (hcells : ∀ w ∈ cells, 1 ≤ w.1) :
    (denseRow m cells)[i]? = some (lastValue cells (i + 1)) := by
  induction cells using List.reverseRecOn with
  | nil =>
    rw [denseRow, List.foldl_nil, List.getElem?_replicate, if_pos hi]
    rfl
  | append_singleton cells w ih =>
    have hrest := ih fun w hw => hcells w (List.mem_append_left _ hw)
    have hpos : 1 ≤ w.1 := hcells w (List.mem_append_right _ List.mem_cons_self)
    rw [denseRow_concat, lastValue_concat]
    by_cases hcol : w.1 = i + 1
    · have hset : w.1 - 1 = i := by omega
      rw [if_pos ⟨hpos, by omega⟩, if_pos hcol, hset,
        List.getElem?_set_self (by rw [length_denseRow]; exact hi)]
    · rw [if_neg hcol]
      split
      next =>
        rw [List.getElem?_set_ne (by omega), hrest]
      next => exact hrest

/-- The vector that the cells are written to holds the last value of each column. -/
theorem denseRow_eq (hcells : ∀ w ∈ cells, 1 ≤ w.1) :
    denseRow (width cells) cells = columns cells := by
  apply List.ext_getElem?
  intro i
  by_cases hi : i < width cells
  · rw [getElem?_denseRow hi hcells, columns, List.getElem?_map, List.getElem?_range hi]
    rfl
  · have hle := Nat.not_lt.mp hi
    have hlen : (columns cells).length = width cells := by
      rw [columns, List.length_map, List.length_range]
    rw [List.getElem?_eq_none (by rw [length_denseRow]; exact hle),
      List.getElem?_eq_none (by rw [hlen]; exact hle)]

theorem le_width {w : Nat × Bytes} (hw : w ∈ cells) : w.1 ≤ width cells := by
  unfold width
  induction cells with
  | nil => cases hw
  | cons v cells ih =>
    rw [List.map_cons, List.foldr_cons]
    rcases List.mem_cons.mp hw with rfl | hw
    · exact Nat.le_max_left _ _
    · exact Nat.le_trans (ih hw) (Nat.le_max_right _ _)

theorem width_eq_zero_iff (hcells : ∀ w ∈ cells, 1 ≤ w.1) : width cells = 0 ↔ cells = [] := by
  constructor
  · intro h
    apply List.eq_nil_iff_forall_not_mem.mpr
    intro w hw
    have hle := le_width hw
    have hpos := hcells w hw
    omega
  · rintro rfl
    rfl

theorem mem_resolvedCells {sharedStrings : List Bytes} {previous : Nat} {cs : List XmlNode}
    {w : Nat × Bytes} (h : w ∈ resolvedCells sharedStrings previous cs) :
    1 ≤ w.1 ∧ w.1 ≤ kXlsxMaxCol := by
  fun_induction resolvedCells sharedStrings previous cs with
  | case1 => cases h
  | case2 previous c cs hc ih => exact ih h
  | case3 previous c cs hc hcol ih => exact ih h
  | case4 previous c cs hc col hcol ih =>
    rcases List.mem_cons.mp h with rfl | h
    · exact columnOf_bounds hcol
    · exact ih h

end Dense

/-! ### What a row charges -/

/-- The bytes of the values of a row, overwritten ones among them. -/
def textBytes (cells : List (Nat × Bytes)) : Nat := (cells.flatMap Prod.snd).length

theorem textBytes_cons (w : Nat × Bytes) (cells : List (Nat × Bytes)) :
    textBytes (w :: cells) = w.2.length + textBytes cells := by
  rw [textBytes, List.flatMap_cons, List.length_append]
  rfl

section Charges

variable {ar : Arithmetic} {sharedStrings : List Bytes} {remaining : Nat}

theorem chargeTexts_eq (har : ar.Exact (2 ^ 64)) (ts : List Bytes) (remaining : Nat)
    (hr : remaining < 2 ^ 64) :
    chargeTexts ar ts remaining =
      if ts.flatten.length ≤ remaining then .ok (ts.flatten, remaining - ts.flatten.length)
      else .error .exceeded := by
  induction ts generalizing remaining with
  | nil => rfl
  | cons t ts ih =>
    rw [chargeTexts, List.flatten_cons, List.length_append]
    by_cases ht : t.length ≤ remaining
    · rw [bind_ok (charge_ok har hr ht)]
      have hrest := ih (remaining - t.length) (by omega)
      by_cases hts : ts.flatten.length ≤ remaining - t.length
      · rw [if_pos hts] at hrest
        rw [bind_ok hrest, if_pos (by omega), Nat.sub_sub]
        rfl
      · rw [if_neg hts] at hrest
        rw [bind_error hrest, if_neg (by omega)]
    · rw [bind_error (charge_full (Nat.not_le.mp ht)), if_neg (by omega)]

theorem parseCells_ok (har : ar.Exact (2 ^ 64)) (previous : Nat) (cs : List XmlNode) (s : RowState)
    (remaining : Nat) (hnext : s.nextCol = previous + 1)
    (hcount : s.cellsInRow + (resolvedCells sharedStrings previous cs).length ≤ kXlsxMaxCellsPerRow)
    (hr : remaining < 2 ^ 64)
    (hfits : textBytes (resolvedCells sharedStrings previous cs) ≤ remaining) :
    ∃ s', parseCells ar sharedStrings cs s remaining =
        .ok (s', remaining - textBytes (resolvedCells sharedStrings previous cs)) ∧
      s'.colVals = s.colVals ++ resolvedCells sharedStrings previous cs ∧
      s'.maxCol = max s.maxCol (width (resolvedCells sharedStrings previous cs)) := by
  fun_induction resolvedCells sharedStrings previous cs generalizing s remaining with
  | case1 => exact ⟨s, rfl, (List.append_nil _).symm, (Nat.max_zero _).symm⟩
  | case2 previous c cs hc ih =>
    rw [parseCells, if_pos hc]
    exact ih s remaining hnext hcount hr hfits
  | case3 previous c cs hc hcol ih =>
    rw [parseCells, if_neg hc, hnext, resolveColumn_eq, hcol]
    exact ih s remaining hnext hcount hr hfits
  | case4 previous c cs hc col hcol ih =>
    rw [List.length_cons] at hcount
    have hone : ¬kXlsxMaxCellsPerRow < s.cellsInRow + 1 := by omega
    have hbytes : textBytes ((col, cellValue sharedStrings c) :: resolvedCells sharedStrings col cs) =
        (cellTexts sharedStrings c).flatten.length +
          textBytes (resolvedCells sharedStrings col cs) := textBytes_cons _ _
    rw [hbytes] at hfits ⊢
    have hcharge := chargeTexts_eq har (cellTexts sharedStrings c) remaining hr
    rw [if_pos (by omega)] at hcharge
    obtain ⟨s', hs', hvals, hmax⟩ := ih ⟨s.colVals ++ [(col, cellValue sharedStrings c)],
      max s.maxCol col, col + 1, s.cellsInRow + 1⟩
      (remaining - (cellTexts sharedStrings c).flatten.length) rfl (by simp only; omega) (by omega)
      (by omega)
    refine ⟨s', ?_, ?_, ?_⟩
    · rw [parseCells, if_neg hc, hnext, resolveColumn_eq, hcol]
      dsimp only
      rw [if_neg hone, bind_ok hcharge, ← Nat.sub_sub]
      exact hs'
    · rw [hvals, List.append_assoc]
      rfl
    · rw [hmax, Nat.max_assoc]
      rfl

theorem parseCells_full (har : ar.Exact (2 ^ 64)) (previous : Nat) (cs : List XmlNode)
    (s : RowState) (remaining : Nat) (hnext : s.nextCol = previous + 1)
    (hcount : s.cellsInRow + (resolvedCells sharedStrings previous cs).length ≤ kXlsxMaxCellsPerRow)
    (hr : remaining < 2 ^ 64)
    (hfull : remaining < textBytes (resolvedCells sharedStrings previous cs)) :
    parseCells ar sharedStrings cs s remaining = .error .exceeded := by
  fun_induction resolvedCells sharedStrings previous cs generalizing s remaining with
  | case1 => exact absurd hfull (Nat.not_lt_zero remaining)
  | case2 previous c cs hc ih =>
    rw [parseCells, if_pos hc]
    exact ih s remaining hnext hcount hr hfull
  | case3 previous c cs hc hcol ih =>
    rw [parseCells, if_neg hc, hnext, resolveColumn_eq, hcol]
    exact ih s remaining hnext hcount hr hfull
  | case4 previous c cs hc col hcol ih =>
    rw [List.length_cons] at hcount
    have hone : ¬kXlsxMaxCellsPerRow < s.cellsInRow + 1 := by omega
    have hbytes : textBytes ((col, cellValue sharedStrings c) :: resolvedCells sharedStrings col cs) =
        (cellTexts sharedStrings c).flatten.length +
          textBytes (resolvedCells sharedStrings col cs) := textBytes_cons _ _
    rw [hbytes] at hfull
    have hcharge := chargeTexts_eq har (cellTexts sharedStrings c) remaining hr
    rw [parseCells, if_neg hc, hnext, resolveColumn_eq, hcol]
    dsimp only
    rw [if_neg hone]
    by_cases hfits : (cellTexts sharedStrings c).flatten.length ≤ remaining
    · rw [if_pos hfits] at hcharge
      rw [bind_ok hcharge]
      exact ih _ _ rfl (by simp only; omega) (by omega) (by omega)
    · rw [if_neg hfits] at hcharge
      exact bind_error hcharge

/-- What a row that is parsed charged, whatever it holds. -/
theorem parseCells_inv (har : ar.Exact (2 ^ 64)) (previous : Nat) (cs : List XmlNode)
    (s s' : RowState) (remaining r : Nat) (hnext : s.nextCol = previous + 1)
    (hcount : s.cellsInRow ≤ kXlsxMaxCellsPerRow) (hr : remaining < 2 ^ 64)
    (h : parseCells ar sharedStrings cs s remaining = .ok (s', r)) :
    s.cellsInRow + (resolvedCells sharedStrings previous cs).length ≤ kXlsxMaxCellsPerRow ∧
      textBytes (resolvedCells sharedStrings previous cs) ≤ remaining := by
  fun_induction resolvedCells sharedStrings previous cs generalizing s remaining with
  | case1 => exact ⟨hcount, Nat.zero_le remaining⟩
  | case2 previous c cs hc ih =>
    rw [parseCells, if_pos hc] at h
    exact ih s remaining hnext hcount hr h
  | case3 previous c cs hc hcol ih =>
    rw [parseCells, if_neg hc, hnext, resolveColumn_eq, hcol] at h
    exact ih s remaining hnext hcount hr h
  | case4 previous c cs hc col hcol ih =>
    rw [parseCells, if_neg hc, hnext, resolveColumn_eq, hcol] at h
    dsimp only at h
    have hbytes : textBytes ((col, cellValue sharedStrings c) :: resolvedCells sharedStrings col cs) =
        (cellTexts sharedStrings c).flatten.length +
          textBytes (resolvedCells sharedStrings col cs) := textBytes_cons _ _
    split at h
    next => cases h
    next hone =>
      have hcharge := chargeTexts_eq har (cellTexts sharedStrings c) remaining hr
      by_cases hfits : (cellTexts sharedStrings c).flatten.length ≤ remaining
      · rw [if_pos hfits] at hcharge
        rw [bind_ok hcharge] at h
        obtain ⟨hlen, htext⟩ := ih _ _ rfl (Nat.not_lt.mp hone) (by omega) h
        simp only at hlen
        rw [List.length_cons, hbytes]
        exact ⟨by omega, by omega⟩
      · rw [if_neg hfits] at hcharge
        rw [bind_error hcharge] at h
        cases h

theorem length_newline (out : Bytes) : (newline out).length = if out ≠ [] then 1 else 0 := by
  by_cases h : out = []
  · rw [newline, if_pos h, if_neg (not_not.mpr h)]
    rfl
  · rw [newline, if_neg h, if_pos h]
    rfl

/-- What was charged ahead is paid back by a row without text. -/
theorem keepOrRefund (har : ar.Exact (2 ^ 64)) {blank : Bool} {out line : Bytes} {n : Nat}
    (hn : n ≤ remaining) (hr : remaining < 2 ^ 64) :
    (if blank = true then do
        refund ar n
        pure out
      else pure line : Metered XlsxStop Bytes) (remaining - n) =
      if blank = true then .ok (out, remaining) else .ok (line, remaining - n) := by
  split
  next =>
    have hrefund : (refund ar n : Metered XlsxStop Unit) (remaining - n) = .ok ((), remaining) := by
      rw [refund_ok har (by omega), Nat.sub_add_cancel hn]
    rw [bind_ok hrefund]
    rfl
  next => rfl

theorem finishRow_eq (har : ar.Exact (2 ^ 64)) (s : RowState) (out : Bytes) (remaining : Nat)
    (hmax : s.maxCol ≠ 0) (hr : remaining < 2 ^ 64) :
    finishRow ar s out remaining =
      if (s.maxCol - 1) * 3 + (newline out).length ≤ remaining then
        if (denseRow s.maxCol s.colVals).all List.isEmpty then .ok (out, remaining)
        else .ok (out ++ newline out ++ joinCells (denseRow s.maxCol s.colVals),
          remaining - ((s.maxCol - 1) * 3 + (newline out).length))
      else .error .exceeded := by
  have hsep : (if 1 < s.maxCol then (s.maxCol - 1) * 3 else 0) = (s.maxCol - 1) * 3 := by
    split <;> omega
  unfold finishRow
  rw [if_neg hmax, hsep, length_newline]
  by_cases hsepFits : (s.maxCol - 1) * 3 ≤ remaining
  · rw [bind_ok (charge_ok har hr hsepFits)]
    by_cases hout : out = []
    · simp only [hout, ne_eq, not_true_eq_false, if_false, Nat.add_zero, if_pos hsepFits]
      exact keepOrRefund har hsepFits hr
    · simp only [hout, ne_eq, not_false_eq_true, if_true]
      by_cases hline : (s.maxCol - 1) * 3 + 1 ≤ remaining
      · have hone : charge ar XlsxStop.exceeded 1 (remaining - (s.maxCol - 1) * 3) =
            .ok ((), remaining - ((s.maxCol - 1) * 3 + 1)) := by
          rw [charge_ok har (by omega) (by omega), Nat.sub_sub]
        rw [bind_ok hone, if_pos hline]
        exact keepOrRefund har hline hr
      · rw [bind_error (charge_full (by omega)), if_neg hline]
  · rw [bind_error (charge_full (Nat.not_le.mp hsepFits)), if_neg (by omega)]

end Charges

/-! ### Lines -/

theorem length_joinCells (cells : List Bytes) :
    (joinCells cells).length = cells.flatten.length + (cells.length - 1) * 3 := by
  unfold joinCells
  induction cells with
  | nil => rfl
  | cons c cells ih =>
    cases cells with
    | nil =>
      rw [List.intercalate_singleton, List.flatten_cons, List.length_append]
      rfl
    | cons d cells =>
      have hsep : (utf8 " | ").length = 3 := rfl
      have hflat : (c :: d :: cells).flatten.length = c.length + (d :: cells).flatten.length := by
        rw [List.flatten_cons, List.length_append]
      have hlen : (c :: d :: cells).length = (d :: cells).length + 1 := rfl
      have hpos : 0 < (d :: cells).length := Nat.succ_pos _
      rw [List.intercalate_cons_cons, List.length_append, List.length_append, ih, hsep, hflat, hlen]
      omega

theorem rowLine_ne_nil {cells : List (Nat × Bytes)} {line : Bytes} (h : rowLine cells = some line) :
    line ≠ [] := by
  unfold rowLine at h
  split at h
  next => cases h
  next hall =>
    obtain rfl := Option.some.inj h
    intro hnil
    -- a cell with a text makes the line longer than nothing
    obtain ⟨cell, hmem, hcell⟩ := List.all_eq_false.mp (Bool.not_eq_true _ ▸ hall)
    have hlen := length_joinCells (columns cells)
    rw [hnil, List.length_nil] at hlen
    have hflat : (columns cells).flatten = [] := List.length_eq_zero_iff.mp (by omega)
    rw [List.flatten_eq_nil_iff.mp hflat cell hmem] at hcell
    exact hcell rfl

/-- The text after a row. -/
def appendLine (out : Bytes) (cells : List (Nat × Bytes)) : Bytes :=
  addText out ((rowLine cells).getD [])

theorem appendLine_of_none {out : Bytes} {cells : List (Nat × Bytes)} (h : rowLine cells = none) :
    appendLine out cells = out := by
  simp [appendLine, addText, h]

theorem appendLine_of_some {out line : Bytes} {cells : List (Nat × Bytes)}
    (h : rowLine cells = some line) : appendLine out cells = out ++ newline out ++ line := by
  have hne := rowLine_ne_nil h
  by_cases hout : out = []
  · simp [appendLine, addText, newline, h, hout]
  · simp [appendLine, addText, newline, h, hout, hne]

theorem foldl_appendLine (rows : List (List (Nat × Bytes))) :
    rows.foldl appendLine [] = sheetBody rows := by
  have hlines : (rows.map fun cells => (rowLine cells).getD []).filter (fun t => t ≠ []) =
      rows.filterMap rowLine := by
    induction rows with
    | nil => rfl
    | cons cells rows ih =>
      rw [List.map_cons, List.filterMap_cons]
      cases h : rowLine cells with
      | none => simpa using ih
      | some line =>
        have hne := rowLine_ne_nil h
        simpa [hne] using ih
  have hfold : rows.foldl appendLine [] =
      (rows.map fun cells => (rowLine cells).getD []).foldl addText [] := by
    rw [List.foldl_map]
    rfl
  rw [hfold, foldl_addText_nil, hlines]
  rfl

/-! ### Rows within the limits -/

/-- What the counter must have left for a row. -/
def rowNeed (out : Bytes) (cells : List (Nat × Bytes)) : Nat :=
  if cells = [] then 0
  else textBytes cells + ((width cells - 1) * 3 + (newline out).length)

/-- What a row takes from the counter; one without a line gets its separators back. -/
def rowCost (out : Bytes) (cells : List (Nat × Bytes)) : Nat :=
  if (columns cells).all List.isEmpty then textBytes cells else rowNeed out cells

/-- No row has too many cells, and the counter lasts. -/
def WithinLimits : List (List (Nat × Bytes)) → Bytes → Nat → Prop
  | [], _, _ => True
  | cells :: rows, out, remaining =>
    cells.length ≤ kXlsxMaxCellsPerRow ∧ rowNeed out cells ≤ remaining ∧
      WithinLimits rows (appendLine out cells) (remaining - rowCost out cells)

instance decidableWithinLimits :
    ∀ (rows : List (List (Nat × Bytes))) (out : Bytes) (remaining : Nat),
      Decidable (WithinLimits rows out remaining)
  | [], _, _ => .isTrue trivial
  | cells :: rows, out, remaining =>
    have := decidableWithinLimits rows (appendLine out cells) (remaining - rowCost out cells)
    inferInstanceAs (Decidable (_ ∧ _ ∧ _))

section Limits

variable {ar : Arithmetic} {sharedStrings : List Bytes} {s : RowState} {out : Bytes}
  {cells : List (Nat × Bytes)} {remaining : Nat}

theorem textBytes_le_rowNeed : textBytes cells ≤ rowNeed out cells := by
  unfold rowNeed
  split
  next h => rw [h]; exact Nat.le_refl 0
  next => exact Nat.le_add_right _ _

theorem finishRow_ok (har : ar.Exact (2 ^ 64)) (hvals : s.colVals = cells)
    (hmax : s.maxCol = width cells) (hcells : ∀ w ∈ cells, 1 ≤ w.1) (hr : remaining < 2 ^ 64)
    (hfits : rowNeed out cells ≤ remaining) :
    finishRow ar s out (remaining - textBytes cells) =
      .ok (appendLine out cells, remaining - rowCost out cells) := by
  by_cases hnil : cells = []
  · subst hnil
    have hzero : s.maxCol = 0 := hmax
    have hline : rowLine [] = none := rfl
    rw [finishRow, if_pos hzero, appendLine_of_none hline]
    rfl
  have hzero : s.maxCol ≠ 0 := fun h => hnil ((width_eq_zero_iff hcells).mp (hmax.symm.trans h))
  have hneed : rowNeed out cells =
      textBytes cells + ((width cells - 1) * 3 + (newline out).length) := if_neg hnil
  rw [finishRow_eq har s out _ hzero (by omega), hvals, hmax, denseRow_eq hcells,
    if_pos (by omega)]
  by_cases hblank : (columns cells).all List.isEmpty
  · have hline : rowLine cells = none := if_pos hblank
    rw [if_pos hblank, appendLine_of_none hline, rowCost, if_pos hblank]
  · have hline : rowLine cells = some (joinCells (columns cells)) := if_neg hblank
    rw [if_neg hblank, appendLine_of_some hline, rowCost, if_neg hblank, hneed, Nat.sub_sub]

theorem finishRow_full (har : ar.Exact (2 ^ 64)) (hmax : s.maxCol = width cells)
    (hcells : ∀ w ∈ cells, 1 ≤ w.1) (hr : remaining < 2 ^ 64)
    (htext : textBytes cells ≤ remaining) (hfull : remaining < rowNeed out cells) :
    finishRow ar s out (remaining - textBytes cells) = .error .exceeded := by
  have hnil : cells ≠ [] := by
    rintro rfl
    exact Nat.not_lt_zero remaining hfull
  have hzero : s.maxCol ≠ 0 := fun h => hnil ((width_eq_zero_iff hcells).mp (hmax.symm.trans h))
  have hneed : rowNeed out cells =
      textBytes cells + ((width cells - 1) * 3 + (newline out).length) := if_neg hnil
  rw [finishRow_eq har s out _ hzero (by omega), hmax, if_neg (by omega)]

theorem rowsOf_cons {row : XmlNode} (hrow : localName row.name = utf8 "row") (data : List XmlNode) :
    rowsOf sharedStrings (row :: data) =
      rowCells sharedStrings row :: rowsOf sharedStrings data := by
  rw [rowsOf, List.filter_cons_of_pos (by simpa using hrow), List.map_cons]
  rfl

theorem rowsOf_skip {row : XmlNode} (hrow : localName row.name ≠ utf8 "row") (data : List XmlNode) :
    rowsOf sharedStrings (row :: data) = rowsOf sharedStrings data := by
  rw [rowsOf, List.filter_cons_of_neg (by simpa using hrow)]
  rfl

theorem parseRows_cons (har : ar.Exact (2 ^ 64)) {row : XmlNode} (data : List XmlNode)
    (hrow : localName row.name = utf8 "row")
    (hcount : (rowCells sharedStrings row).length ≤ kXlsxMaxCellsPerRow) (hr : remaining < 2 ^ 64)
    (hneed : rowNeed out (rowCells sharedStrings row) ≤ remaining) :
    parseRows ar sharedStrings (row :: data) out remaining =
      parseRows ar sharedStrings data (appendLine out (rowCells sharedStrings row))
        (remaining - rowCost out (rowCells sharedStrings row)) := by
  have htext : textBytes (rowCells sharedStrings row) ≤ remaining :=
    Nat.le_trans textBytes_le_rowNeed hneed
  obtain ⟨s, hs, hvals, hmax⟩ := parseCells_ok har 0 row.children ⟨[], 0, 1, 0⟩ remaining rfl
    (by rw [Nat.zero_add]; exact hcount) hr htext
  rw [Nat.zero_max] at hmax
  have hfinish := finishRow_ok har (hvals.trans (List.nil_append _)) hmax
    (fun w hw => (mem_resolvedCells hw).1) hr hneed
  rw [parseRows, if_neg (not_not.mpr hrow), bind_ok hs]
  exact bind_ok hfinish

theorem parseRows_full (har : ar.Exact (2 ^ 64)) {row : XmlNode} (data : List XmlNode)
    (hrow : localName row.name = utf8 "row")
    (hcount : (rowCells sharedStrings row).length ≤ kXlsxMaxCellsPerRow) (hr : remaining < 2 ^ 64)
    (hneed : remaining < rowNeed out (rowCells sharedStrings row)) :
    parseRows ar sharedStrings (row :: data) out remaining = .error .exceeded := by
  rw [parseRows, if_neg (not_not.mpr hrow)]
  have hcount' : (⟨[], 0, 1, 0⟩ : RowState).cellsInRow +
      (resolvedCells sharedStrings 0 row.children).length ≤ kXlsxMaxCellsPerRow := by
    rw [Nat.zero_add]
    exact hcount
  by_cases htext : textBytes (rowCells sharedStrings row) ≤ remaining
  · obtain ⟨s, hs, -, hmax⟩ := parseCells_ok har 0 row.children ⟨[], 0, 1, 0⟩ remaining rfl
      hcount' hr htext
    rw [Nat.zero_max] at hmax
    rw [bind_ok hs]
    exact bind_error (finishRow_full har hmax (fun w hw => (mem_resolvedCells hw).1) hr htext hneed)
  · exact bind_error (parseCells_full har 0 row.children ⟨[], 0, 1, 0⟩ remaining rfl hcount' hr
      (Nat.not_le.mp htext))

theorem parseRows_ok (har : ar.Exact (2 ^ 64)) (data : List XmlNode) (hr : remaining < 2 ^ 64)
    (h : WithinLimits (rowsOf sharedStrings data) out remaining) :
    ∃ r, parseRows ar sharedStrings data out remaining =
      .ok ((rowsOf sharedStrings data).foldl appendLine out, r) := by
  induction data generalizing out remaining with
  | nil => exact ⟨remaining, rfl⟩
  | cons row data ih =>
    by_cases hrow : localName row.name = utf8 "row"
    · rw [rowsOf_cons hrow] at h ⊢
      obtain ⟨hcount, hneed, hrest⟩ := h
      rw [parseRows_cons har data hrow hcount hr hneed]
      exact ih (by omega) hrest
    · rw [rowsOf_skip hrow] at h ⊢
      rw [parseRows, if_pos hrow]
      exact ih hr h

end Limits

/-- The body of a worksheet within the limits is the lines of its rows, with every cell in the
column that its reference names or, without one, after the cell before it; and no column that is
computed on the way leaves the range of an `int`. -/
theorem parseWorksheet_body (env : XlsxEnv) (sharedStrings : List Bytes) (xml : Bytes)
    (remaining : Nat) {nodes : List XmlNode} {sheetData : XmlNode}
    (hload : env.loadBuffer xml = some nodes)
    (hfind : bfsFind "sheetData" kXlsxXmlMaxDepth [document nodes] = some sheetData)
    (hr : remaining < 2 ^ 64)
    (hlimits : WithinLimits (rowsOf sharedStrings sheetData.children) [] remaining) :
    (parseWorksheet sizeT sharedStrings env xml remaining).1 =
        ⟨sheetBody (rowsOf sharedStrings sheetData.children), .ok⟩ ∧
      ∀ r, ∀ n ∈ computedColumns 0 r, n < 2 ^ 31 := by
  constructor
  · obtain ⟨r, hrows⟩ := parseRows_ok (wrapping_exact (2 ^ 64)) sheetData.children hr hlimits
    rw [foldl_appendLine] at hrows
    have hparse : parseRows sizeT sharedStrings sheetData.children [] remaining =
        .ok (sheetBody (rowsOf sharedStrings sheetData.children), r) := hrows
    simp only [parseWorksheet, hload, hfind, hparse]
  · intro r n hn
    exact Nat.lt_of_le_of_lt (computedColumns_le 0 r n hn) (by decide)

/-! ### Two worksheets -/

/-- A cell with a text as its value. -/
def cellNode (r text : String) : XmlNode :=
  .element (utf8 "c") [(utf8 "r", utf8 r), (utf8 "t", utf8 "str")]
    [.element (utf8 "v") [] (if text = "" then [] else [.pcdata (utf8 text)])]

/-- The tree of a worksheet with these rows. -/
def sheetNodes (rows : List (List XmlNode)) : List XmlNode :=
  [.element (utf8 "worksheet") [] [.element (utf8 "sheetData") []
    (rows.map fun cells => .element (utf8 "row") [] cells)]]

/-- An environment for one worksheet. -/
def sheetEnv (rows : List (List XmlNode)) : XlsxEnv where
  unzOpen _ := none
  loadBuffer _ := some (sheetNodes rows)

/-- A row that skips a column. -/
def sparseXml : Bytes :=
  utf8 ("<worksheet><sheetData><row><c r='A1' t='str'><v>x</v></c>" ++
    "<c r='C1' t='str'><v>y</v></c></row></sheetData></worksheet>")

def sparseRows : List (List XmlNode) := [[cellNode "A1" "x", cellNode "C1" "y"]]

theorem sparseRows_body :
    (parseWorksheet sizeT [] (sheetEnv sparseRows) sparseXml 100).1 =
        ⟨sheetBody (rowsOf [] (sparseRows.map fun cells => .element (utf8 "row") [] cells)), .ok⟩ ∧
      ∀ r, ∀ n ∈ computedColumns 0 r, n < 2 ^ 31 :=
  @parseWorksheet_body (sheetEnv sparseRows) [] sparseXml 100 (sheetNodes sparseRows)
    (.element (utf8 "sheetData") [] (sparseRows.map fun cells => .element (utf8 "row") [] cells))
    rfl rfl (by decide) (by decide)

/-- A cell that a later one of its column overwrites with nothing, in a row before another one. -/
def overwrittenXml : Bytes :=
  utf8 ("<worksheet><sheetData><row><c r='A1' t='str'><v>x</v></c>" ++
    "<c r='A1' t='str'><v></v></c></row>" ++
    "<row><c r='A2' t='str'><v>y</v></c></row></sheetData></worksheet>")

def overwrittenRows : List (List XmlNode) :=
  [[cellNode "A1" "x", cellNode "A1" ""], [cellNode "A2" "y"]]

/-- Lines for all rows in which some cell has a text make another body than the parser's. -/
theorem overwrittenRows_body :
    (parseWorksheet sizeT [] (sheetEnv overwrittenRows) overwrittenXml 100).1.body = utf8 "y" ∧
      (utf8 "\n").intercalate (((rowsOf []
        (overwrittenRows.map fun cells => .element (utf8 "row") [] cells)).filter fun cells =>
          cells.any fun w => w.2 ≠ []).map fun cells => joinCells (columns cells)) =
        utf8 "\ny" := by
  decide

end Wikore.Parser.XlsxParser
