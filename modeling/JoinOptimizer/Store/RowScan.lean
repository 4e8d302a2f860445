import JoinOptimizer.Store.Materialize
import JoinOptimizer.Store.Scanned

/-! The row store of `src/late.cpp`: `my_copy_scan`, which scans columns of a base table into rows of
values, and `to_columnar_from_value`, which inserts rows of values into pages. -/

namespace JoinOptimizer

open Lib ValueT

/-- One column of `results` while it is filled, and `row_idx`. -/
structure RowCursor where
  cells : List ValueT
  rowIdx : Nat

namespace RowCursor

/-- `results[row_idx++][column_idx] = v`. -/
def put (c : RowCursor) (v : ValueT) : Result RowCursor :=
  if c.rowIdx < c.cells.length then .ok ⟨c.cells.set c.rowIdx v, c.rowIdx + 1⟩
  else .error .outOfRange

/-- `++row_idx`. -/
def skip (c : RowCursor) : RowCursor := ⟨c.cells, c.rowIdx + 1⟩

/-- The check before a row that is not NULL. -/
def check (numRows : Nat) (c : RowCursor) : Result Unit :=
  if c.rowIdx ≥ numRows then .error (.runtimeError "row_idx") else .ok ()

end RowCursor

/-- One iteration over the rows of an INT32 page; the state is `data_idx` and the cursor. -/
def copyInt32Row (numRows : Nat) (page : Page) (bitmap : Nat) (s : Nat × RowCursor) (i : Nat) :
    Result (Nat × RowCursor) := do
  if getBitmap page bitmap i then
    let value := int32Type.ofBytes (page.read (4 + s.1 * 4) 4)
    s.2.check numRows
    let c ← s.2.put (putInt32 value)
    .ok (s.1 + 1, c)
  else
    .ok (s.1, s.2.skip)

def copyInt32Page (numRows : Nat) (page : Page) (c : RowCursor) : Result RowCursor := do
  let s ← (List.range page.numRows).foldlM
    (copyInt32Row numRows page (bitmapBegin page.numRows)) (0, c)
  .ok s.2

/-- One iteration over the rows of a page of strings; the state is `data_idx`, `prev_offset` and the
cursor. -/
def copyVarcharRow (tableId inColIdx pageIdx numRows : Nat) (page : Page) (bitmap : Nat)
    (s : Nat × Nat × RowCursor) (i : Nat) : Result (Nat × Nat × RowCursor) := do
  let (dataIdx, prevOffset, c) := s
  if getBitmap page bitmap i then
    let offset := page.u16 (4 + dataIdx * 2)
    c.check numRows
    let v ← putVarchar (.ofNat tableId) (.ofNat inColIdx) (.ofNat pageIdx) (.ofNat prevOffset)
    let c ← c.put v
    .ok (dataIdx + 1, offset, c)
  else
    .ok (dataIdx, prevOffset, c.skip)

/-- The loop behind a page marked 0xffff is that of `column_t_copy_scan`. -/
def copyVarcharPage (tableId inColIdx numRows : Nat) (pages : List Page) (page : Page)
    (pageIdx : Nat) (c : RowCursor) : Result RowCursor := do
  if page.numRows = 0xffff then
    let nextPage ← index pages (pageIdx + 1)
    let pos ← longStringPos pages 0 nextPage
    let v ← putVarchar (.ofNat tableId) (.ofNat inColIdx) (.ofNat pageIdx) (.ofNat pos)
    c.put v
  else if page.numRows = 0xfffe then
    .ok c
  else
    let s ← (List.range page.numRows).foldlM
      (copyVarcharRow tableId inColIdx pageIdx numRows page (bitmapBegin page.numRows)) (0, 0, c)
    .ok s.2.2

/-- The body of the loop over the pages of a column; the `switch` has no case for other types. -/
def copyPage (tableId inColIdx numRows : Nat) (column : Column) (c : RowCursor)
    (p : Page × Nat) : Result RowCursor :=
  match column.type with
  | .INT32 => copyInt32Page numRows p.1 c
  | .VARCHAR => copyVarcharPage tableId inColIdx numRows column.pages p.1 p.2 c
  | _ => .ok c

/-- What the task of `my_copy_scan` leaves in one column of `results`. -/
def copyColumn (tableId : Nat) (table : ColumnarTable) (inColIdx : Nat) : Result (List ValueT) := do
  let column ← index table.columns inColIdx
  let c ← column.pages.zipIdx.foldlM (copyPage tableId inColIdx table.numRows column)
    ⟨List.replicate table.numRows makeNull, 0⟩
  .ok c.cells

/-- `my_copy_scan`. -/
def myCopyScan (tableId : Nat) (table : ColumnarTable) (outputAttrs : List (Nat × DataType)) :
    Result (List (List ValueT)) := do
  let columns ← outputAttrs.mapM fun attr => copyColumn tableId table attr.1
  .ok ((List.range table.numRows).map fun row => columns.map fun cells => cells.getD row makeNull)

/-- The row of a result column of integers; a value of another kind adds none. -/
def insertInt32Value (fresh : Nat → Page) (w : ColumnInserter) (v : ValueT) : ColumnInserter :=
  if v.isNull then w.insertNull int32Type fresh
  else if v.isInt32 then w.insert int32Type fresh v.getInt32
  else w

/-- The row of a result column of strings. -/
def insertVarcharValue (fresh : Nat → Page) (inputs : List ColumnarTable) (w : StringInserter)
    (v : ValueT) : Result StringInserter := do
  if v.isNull then
    .ok (w.insertNull fresh)
  else if v.isVarchar then
    let s ← printVarchar inputs v
    .ok (w.insert fresh s)
  else
    .ok w

/-- The body of the loop of `to_columnar_from_value`. -/
def columnFromValue (fresh : Nat → Page) (inputs : List ColumnarTable)
    (dataVec : List (List ValueT)) (colIdx : Nat) (type : DataType) : Result Column := do
  match type with
  | .INT32 =>
    let w ← dataVec.foldlM (fun w row => do
      let v ← index row colIdx
      .ok (insertInt32Value fresh w v)) (ColumnInserter.init int32Type)
    .ok ⟨.INT32, (w.finalize int32Type fresh).column.pages⟩
  | .VARCHAR =>
    let w ← dataVec.foldlM (fun w row => do
      let v ← index row colIdx
      insertVarcharValue fresh inputs w v) StringInserter.init
    .ok ⟨.VARCHAR, (w.finalize fresh).column.pages⟩
  | _ => .error (.runtimeError "OTHER TYPE FOUND!!")

/-- `to_columnar_from_value`. -/
def toColumnarFromValue (fresh : Nat → Nat → Page) (inputs : List ColumnarTable)
    (dataVec : List (List ValueT)) (dataTypes : List DataType) : Result ColumnarTable := do
  let columns ← dataTypes.zipIdx.mapM fun (type, colIdx) =>
    columnFromValue (fresh colIdx) inputs dataVec colIdx type
  .ok ⟨dataVec.length, columns⟩

end JoinOptimizer
