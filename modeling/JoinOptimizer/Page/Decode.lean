import JoinOptimizer.Page.Cells

/-! The decoder of pages in `src/build_table.cpp`: `Table::from_columnar`, and `Table::copy_scan`,
which runs the same page loop over the columns it is asked for. -/

namespace JoinOptimizer

open Lib

/-- One column of `results` while it is filled, and `row_idx`. -/
structure ColumnCursor where
  cells : List Data
  rowIdx : Nat

namespace ColumnCursor

/-- `results[row_idx++][column_idx].emplace(d)` behind its check. -/
def emplace (numRows : Nat) (c : ColumnCursor) (d : Data) : Result ColumnCursor :=
  if c.rowIdx ≥ numRows then
    .error (.runtimeError "row_idx")
  else
    .ok { cells := c.cells.set c.rowIdx d, rowIdx := c.rowIdx + 1 }

/-- `++row_idx`: the cell keeps its `std::monostate`. -/
def skip (c : ColumnCursor) : ColumnCursor := { c with rowIdx := c.rowIdx + 1 }

/-- The characters of a page marked 0xfffe, added to `results[row_idx - 1][column_idx]`. -/
def extendLast (c : ColumnCursor) (chars : Bytes) : Result ColumnCursor :=
  if c.rowIdx = 0 then
    .error .outOfRange
  else
    match c.cells[c.rowIdx - 1]? with
    | some (.string value) => .ok { c with cells := c.cells.set (c.rowIdx - 1) (.string (value ++ chars)) }
    | some _ => .error (.runtimeError "long string page 0xfffe must follows a string")
    | none => .error .outOfRange

end ColumnCursor

/-- One iteration over the rows of a page of a fixed-size type; the state is `data_idx` and the
cursor. -/
def decodeFixedRow {α : Type} (T : FixedType α) (numRows : Nat) (page : Page) (bitmap : Nat)
    (s : Nat × ColumnCursor) (i : Nat) : Result (Nat × ColumnCursor) :=
  if getBitmap page bitmap i then do
    let value := T.ofBytes (page.read (T.size + s.1 * T.size) T.size)
    let c ← s.2.emplace numRows (T.inject value)
    .ok (s.1 + 1, c)
  else
    .ok (s.1, s.2.skip)

def decodeFixedPage {α : Type} (T : FixedType α) (numRows : Nat) (c : ColumnCursor)
    (page : Page) : Result ColumnCursor := do
  let s ← (List.range page.numRows).foldlM
    (decodeFixedRow T numRows page (bitmapBegin page.numRows)) (0, c)
  .ok s.2

/-- One iteration over the rows of a page of strings; the state is `data_idx`, `string_begin` and
the cursor. -/
def decodeVarcharRow (numRows : Nat) (page : Page) (dataBegin bitmap : Nat)
    (s : Nat × Nat × ColumnCursor) (i : Nat) : Result (Nat × Nat × ColumnCursor) :=
  let (dataIdx, stringBegin, c) := s
  if getBitmap page bitmap i then do
    let offset := page.u16 (4 + dataIdx * 2)
    let value := page.read stringBegin (dataBegin + offset - stringBegin)
    let c ← c.emplace numRows (.string value)
    .ok (dataIdx + 1, dataBegin + offset, c)
  else
    .ok (dataIdx, stringBegin, c.skip)

def decodeVarcharPage (numRows : Nat) (c : ColumnCursor) (page : Page) : Result ColumnCursor :=
  if page.numRows = 0xffff then
    c.emplace numRows (.string page.longChars)
  else if page.numRows = 0xfffe then
    c.extendLast page.longChars
  else do
    let dataBegin := 4 + page.numNonNull * 2
    let s ← (List.range page.numRows).foldlM
      (decodeVarcharRow numRows page dataBegin (bitmapBegin page.numRows)) (0, dataBegin, c)
    .ok s.2.2

/-- The body of the loop over the pages of a column. -/
def decodePage (type : DataType) (numRows : Nat) (c : ColumnCursor) (page : Page) :
    Result ColumnCursor :=
  match type with
  | .INT32 => decodeFixedPage int32Type numRows c page
  | .INT64 => decodeFixedPage int64Type numRows c page
  | .FP64 => decodeFixedPage fp64Type numRows c page
  | .VARCHAR => decodeVarcharPage numRows c page

/-- What the decoder's task leaves in one column of `results`. -/
def decodeColumn (numRows : Nat) (column : Column) : Result (List Data) := do
  let c ← column.pages.foldlM (decodePage column.type numRows)
    ⟨List.replicate numRows .monostate, 0⟩
  .ok c.cells

/-- The records of columns of cells. -/
def recordsOf (numRows : Nat) (columns : List (List Data)) : List (List Data) :=
  (List.range numRows).map fun row => columns.map fun cells => cells.getD row .monostate

/-- `Table::from_columnar`. -/
def fromColumnar (table : ColumnarTable) : Result Table := do
  let columns ← table.columns.mapM (decodeColumn table.numRows)
  .ok { data := recordsOf table.numRows columns, types := table.columns.map Column.type }

/-- `Table::copy_scan`. -/
def copyScan (table : ColumnarTable) (outputAttrs : List (Nat × DataType)) :
    Result (List (List Data)) := do
  let columns ← outputAttrs.mapM fun attr => do
    decodeColumn table.numRows (← index table.columns attr.1)
  .ok (recordsOf table.numRows columns)

/-- The cursor behind the cells `done`. -/
def cursorAt (numRows : Nat) (done : List Data) : ColumnCursor :=
  ⟨done ++ List.replicate (numRows - done.length) .monostate, done.length⟩

section Cursor

variable {numRows : Nat} {done : List Data}

theorem replicate_pred (h : done.length < numRows) :
    List.replicate (numRows - done.length) Data.monostate =
      .monostate :: List.replicate (numRows - (done.length + 1)) .monostate := by
  rw [show numRows - done.length = numRows - (done.length + 1) + 1 by omega, List.replicate_succ]

theorem emplace_cursorAt (h : done.length < numRows) (d : Data) :
    (cursorAt numRows done).emplace numRows d = .ok (cursorAt numRows (done ++ [d])) := by
  simp only [ColumnCursor.emplace, cursorAt, ge_iff_le, Nat.not_le.mpr h, if_false]
  rw [replicate_pred h, List.set_append_right _ _ (Nat.le_refl _)]
  simp

theorem skip_cursorAt (h : done.length < numRows) :
    (cursorAt numRows done).skip = cursorAt numRows (done ++ [.monostate]) := by
  simp only [ColumnCursor.skip, cursorAt]
  rw [replicate_pred h]
  simp

theorem extendLast_cursorAt (s chars : Bytes) :
    (cursorAt numRows (done ++ [.string s])).extendLast chars =
      .ok (cursorAt numRows (done ++ [.string (s ++ chars)])) := by
  simp [ColumnCursor.extendLast, cursorAt]

end Cursor

theorem decodeFixedRow_eq {α : Type} {T : FixedType α} {p : Page} {cs : List (Option α)}
    (hp : FixedPage T p cs) {numRows : Nat} {done : List Data} {i : Nat} (hi : i < cs.length)
    (hroom : done.length < numRows) :
    decodeFixedRow T numRows p (bitmapBegin cs.length) (rank cs i, cursorAt numRows done) i =
      .ok (rank cs (i + 1), cursorAt numRows (done ++ [T.cell cs[i]])) := by
  rw [decodeFixedRow, hp.bits i hi]
  cases hc : cs[i] with
  | none =>
    rw [rank_succ_of_none hi hc]
    simp [FixedType.cell, skip_cursorAt hroom]
  | some v =>
    rw [rank_succ_of_some hi hc, hp.value (rank_lt hi hc), getElem_rank hi hc]
    simp [FixedType.cell, emplace_cursorAt hroom]

theorem decodeFixedPage_eq {α : Type} {T : FixedType α} {p : Page} {cs : List (Option α)}
    (hp : FixedPage T p cs) {numRows : Nat} {done : List Data}
    (hroom : done.length + cs.length ≤ numRows) :
    decodeFixedPage T numRows (cursorAt numRows done) p =
      .ok (cursorAt numRows (done ++ cs.map T.cell)) := by
  have hrun : (List.range cs.length).foldlM
      (decodeFixedRow T numRows p (bitmapBegin cs.length)) (0, cursorAt numRows done) =
      .ok (cs.reduceOption.length, cursorAt numRows (done ++ cs.map T.cell)) := by
    refine foldlM_range_trajectory
      (fun i => (rank cs i, cursorAt numRows (done ++ (cs.take i).map T.cell)))
      (by simp) (by simp) fun i hi => ?_
    have hlt : (done ++ (cs.take i).map T.cell).length < numRows := by simp; omega
    rw [decodeFixedRow_eq hp hi hlt]
    simp only [List.take_succ_eq_append_getElem hi, List.map_append, List.map_cons, List.map_nil,
      List.append_assoc]
  rw [decodeFixedPage, hp.rows, hrun]
  rfl

theorem decodeFixedPages_eq {α : Type} {T : FixedType α} {ps : List Page} {cs : List (Option α)}
    (h : FixedPages T ps cs) {numRows : Nat} {done : List Data}
    (hroom : done.length + cs.length ≤ numRows) :
    ps.foldlM (decodeFixedPage T numRows) (cursorAt numRows done) =
      .ok (cursorAt numRows (done ++ cs.map T.cell)) := by
  induction h generalizing done with
  | nil => simp
  | page hp _ ih =>
    rw [List.length_append] at hroom
    rw [List.foldlM_cons, decodeFixedPage_eq hp (by omega), ok_bind, ih (by simp; omega)]
    simp

theorem decodeVarcharRow_eq {p : Page} {cs : List (Option Bytes)} (hp : VarcharPage p cs)
    {numRows : Nat} {done : List Data} {i : Nat} (hi : i < cs.length)
    (hroom : done.length < numRows) :
    let dataBegin := 4 + cs.reduceOption.length * 2
    decodeVarcharRow numRows p dataBegin (bitmapBegin cs.length)
        (rank cs i, dataBegin + VarcharPage.start cs (rank cs i), cursorAt numRows done) i =
      .ok (rank cs (i + 1), dataBegin + VarcharPage.start cs (rank cs (i + 1)),
        cursorAt numRows (done ++ [varcharCell cs[i]])) := by
  intro dataBegin
  simp only [decodeVarcharRow, hp.bits i hi]
  cases hc : cs[i] with
  | none =>
    rw [rank_succ_of_none hi hc]
    simp [varcharCell, skip_cursorAt hroom]
  | some v =>
    have hr := rank_lt hi hc
    have hend := VarcharPage.start_succ hr
    have hstring := hp.string hr
    rw [getElem_rank hi hc] at hend hstring
    have hoffset : p.u16 (4 + rank cs i * 2) = VarcharPage.start cs (rank cs i) + v.length := by
      rw [hp.offsets _ hr, ← hend, VarcharPage.start]
    have hlen : dataBegin + (VarcharPage.start cs (rank cs i) + v.length) -
        (dataBegin + VarcharPage.start cs (rank cs i)) = v.length := by omega
    rw [rank_succ_of_some hi hc, hoffset, hlen, hstring, hend]
    simp [varcharCell, emplace_cursorAt hroom]

theorem decodeVarcharPage_eq {p : Page} {cs : List (Option Bytes)} (hp : VarcharPage p cs)
    {numRows : Nat} {done : List Data} (hroom : done.length + cs.length ≤ numRows) :
    decodeVarcharPage numRows (cursorAt numRows done) p =
      .ok (cursorAt numRows (done ++ cs.map varcharCell)) := by
  let dataBegin := 4 + cs.reduceOption.length * 2
  have hrun : (List.range cs.length).foldlM
      (decodeVarcharRow numRows p dataBegin (bitmapBegin cs.length))
      (0, dataBegin, cursorAt numRows done) =
      .ok (cs.reduceOption.length, dataBegin + VarcharPage.start cs cs.reduceOption.length,
        cursorAt numRows (done ++ cs.map varcharCell)) := by
    refine foldlM_range_trajectory
      (fun i => (rank cs i, dataBegin + VarcharPage.start cs (rank cs i),
        cursorAt numRows (done ++ (cs.take i).map varcharCell)))
      (by simp [VarcharPage.start]) (by simp) fun i hi => ?_
    have hlt : (done ++ (cs.take i).map varcharCell).length < numRows := by simp; omega
    rw [decodeVarcharRow_eq hp hi hlt]
    simp only [List.take_succ_eq_append_getElem hi, List.map_append, List.map_cons, List.map_nil,
      List.append_assoc, dataBegin]
  have hrows := hp.numRows_lt
  rw [decodeVarcharPage, if_neg (by omega), if_neg (by omega), hp.rows, hp.nonNull]
  simp only
  rw [hrun]
  rfl

/-- The pages of a long string make one cell. -/
theorem decodeLongString_eq {qs : List Page} {s : Bytes} (h : LongString qs s) {numRows : Nat}
    {done : List Data} (hroom : done.length < numRows) :
    qs.foldlM (decodeVarcharPage numRows) (cursorAt numRows done) =
      .ok (cursorAt numRows (done ++ [.string s])) := by
  obtain ⟨first, rest, -⟩ := h
  rename_i p ps
  rw [List.foldlM_cons, decodeVarcharPage, if_pos first, emplace_cursorAt hroom, ok_bind]
  refine foldlM_trajectory
    (fun i => cursorAt numRows
      (done ++ [.string (p.longChars ++ (ps.take i).flatMap Page.longChars)]))
    (by simp) (by simp) fun i hi => ?_
  have hmark := rest _ (List.getElem_mem hi)
  rw [decodeVarcharPage, if_neg (by omega), if_pos hmark, extendLast_cursorAt,
    List.take_succ_eq_append_getElem hi, List.flatMap_append]
  simp

theorem decodeVarcharPages_eq {ps : List Page} {cs : List (Option Bytes)} (h : VarcharPages ps cs)
    {numRows : Nat} {done : List Data} (hroom : done.length + cs.length ≤ numRows) :
    ps.foldlM (decodeVarcharPage numRows) (cursorAt numRows done) =
      .ok (cursorAt numRows (done ++ cs.map varcharCell)) := by
  induction h generalizing done with
  | nil => simp
  | page hp _ ih =>
    rw [List.length_append] at hroom
    rw [List.foldlM_cons, decodeVarcharPage_eq hp (by omega), ok_bind, ih (by simp; omega)]
    simp
  | long hs _ ih =>
    rw [List.length_cons] at hroom
    rw [List.foldlM_append, decodeLongString_eq hs (by omega), ok_bind, ih (by simp; omega)]
    simp [varcharCell]

/-- The decoder reads the cells that a column holds. -/
theorem decodeColumn_eq {c : Column} {cells : List Data} (h : c.Holds cells) :
    decodeColumn cells.length c = .ok cells := by
  have hstart (n : Nat) : (⟨List.replicate n .monostate, 0⟩ : ColumnCursor) = cursorAt n [] := by
    simp [cursorAt]
  have hend : (cursorAt cells.length cells).cells = cells := by simp [cursorAt]
  have hrun : c.pages.foldlM (decodePage c.type cells.length) (cursorAt cells.length []) =
      .ok (cursorAt cells.length cells) := by
    cases h with
    | int32 hps => exact decodeFixedPages_eq hps (by simp)
    | int64 hps => exact decodeFixedPages_eq hps (by simp)
    | fp64 hps => exact decodeFixedPages_eq hps (by simp)
    | varchar hps => exact decodeVarcharPages_eq hps (by simp)
  rw [decodeColumn, hstart, hrun, ok_bind, hend]

/-- A columnar table holds the records of a table: column by column, and in its row count. -/
structure ColumnarTable.Holds (ct : ColumnarTable) (t : Table) : Prop where
  numRows : ct.numRows = t.data.length
  width : ct.columns.length = t.types.length
  column : ∀ i (h : i < ct.columns.length),
    ct.columns[i].type = t.types[i] ∧
      ct.columns[i].Holds (t.data.map fun record => record.getD i .monostate)

/-- The cells of column `k`. -/
def Table.column (table : Table) (k : Nat) : List Data :=
  table.data.map fun record => record.getD k .monostate

theorem ColumnarTable.Holds.get {ct : ColumnarTable} {table : Table} (h : ct.Holds table) {k : Nat}
    {column : Column} (hcolumn : ct.columns[k]? = some column) :
    table.types[k]? = some column.type ∧ column.Holds (table.column k) := by
  obtain ⟨hk, rfl⟩ := List.getElem?_eq_some_iff.mp hcolumn
  have hk' : k < table.types.length := by rw [← h.width]; exact hk
  obtain ⟨htype, hholds⟩ := h.column k hk
  exact ⟨by rw [List.getElem?_eq_getElem hk', htype], hholds⟩

theorem ColumnarTable.Holds.length_column {ct : ColumnarTable} {table : Table} (h : ct.Holds table)
    (k : Nat) : (table.column k).length = ct.numRows := by
  rw [h.numRows]
  exact List.length_map _

theorem copyScan_column {ct : ColumnarTable} {table : Table} (h : ct.Holds table) {k : Nat}
    {column : Column} (hcolumn : ct.columns[k]? = some column) (type : DataType) :
    copyScan ct [(k, type)] = .ok (table.data.map fun record => [record.getD k .monostate]) := by
  have hcells := decodeColumn_eq (h.get hcolumn).2
  rw [h.length_column k] at hcells
  unfold copyScan
  rw [List.mapM_cons, List.mapM_nil, index_eq_ok.mpr hcolumn, ok_bind, hcells]
  refine congrArg Except.ok (List.ext_getElem ?_ fun i hi _ => ?_)
  · simp [recordsOf, h.numRows]
  · have hi' : i < table.data.length := by simpa [recordsOf, h.numRows] using hi
    simp [recordsOf, Table.column, hi']

/-- Cells spread over columns and gathered again are the records they came from. -/
theorem recordsOf_columns {data : List (List Data)} {width : Nat}
    (hwidth : ∀ record ∈ data, record.length = width) :
    recordsOf data.length ((List.range width).map fun i =>
      data.map fun record => record.getD i .monostate) = data := by
  refine List.ext_getElem (by simp [recordsOf]) fun row hrow hrow' => ?_
  have hlen := hwidth _ (List.getElem_mem hrow')
  refine List.ext_getElem (by simp [recordsOf, hlen]) fun i hi hi' => ?_
  simp [recordsOf, hrow', hi']

theorem fromColumnar_eq {ct : ColumnarTable} {t : Table} (h : ct.Holds t)
    (hwidth : ∀ record ∈ t.data, record.length = t.types.length) : fromColumnar ct = .ok t := by
  have hcolumns : ct.columns.mapM (decodeColumn ct.numRows) =
      .ok ((List.range t.types.length).map fun i =>
        t.data.map fun record => record.getD i .monostate) := by
    rw [mapM_eq_ok_iff, List.forall₂_iff_get]
    refine ⟨by simp [h.width], fun i hi _ => ?_⟩
    have hdecode := decodeColumn_eq (h.column i hi).2
    rw [List.length_map] at hdecode
    simpa [h.numRows] using hdecode
  have htypes : ct.columns.map Column.type = t.types :=
    List.ext_getElem (by simp [h.width]) fun i hi _ => by
      simpa using (h.column i (by simpa using hi)).1
  rw [fromColumnar, hcolumns, ok_bind, h.numRows, recordsOf_columns hwidth, htypes]

end JoinOptimizer
