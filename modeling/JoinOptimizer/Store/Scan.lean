import JoinOptimizer.Page.Cells
import JoinOptimizer.Store.Column

/-! `column_t_copy_scan` of `src/column_store.cpp`: the scan of a base table into columns of values.
An INT32 column without NULL becomes references to its pages; other INT32 columns are copied; strings
become references to where they start. -/

namespace JoinOptimizer

open Lib ValueT

/-- The check for `no_nulls`. -/
def noNulls (pages : List Page) : Bool := pages.all fun page => page.numRows == page.numNonNull

/-- `total_rows`. -/
def totalRows (pages : List Page) : Nat := (pages.map Page.numRows).sum

/-- The pages that `create_pages` makes for a number of rows. -/
def neededPages (rows : Nat) : Nat := (rows + bufSize - 1) / bufSize

/-- The locals of the loop over a column without NULL: the pages whose `count` is set, and the slots
written on `current_page`. -/
structure NoNullCursor where
  done : List ColumnPage
  current : ColumnPage

def noNullRow (tableId inColIdx needed pageIdx : Nat) (c : NoNullCursor) (i : Nat) :
    Result NoNullCursor := do
  if h : c.current.values.length = bufSize then
    if c.done.length + 1 < needed then
      let v ← putInt32NoNull (.ofNat tableId) (.ofNat inColIdx) (.ofNat pageIdx) (.ofNat i)
      .ok ⟨c.done ++ [c.current], .single v⟩
    else
      .error .outOfRange
  else
    let v ← putInt32NoNull (.ofNat tableId) (.ofNat inColIdx) (.ofNat pageIdx) (.ofNat i)
    .ok ⟨c.done, c.current.push h v⟩

def noNullPage (tableId inColIdx needed : Nat) (c : NoNullCursor) (p : Page × Nat) :
    Result NoNullCursor :=
  (List.range p.1.numRows).foldlM (noNullRow tableId inColIdx needed p.2) c

def scanNoNull (tableId inColIdx : Nat) (pages : List Page) : Result ColumnT := do
  if totalRows pages = 0 then
    .ok ⟨.INT32, [], true, pages⟩
  else
    let needed := neededPages (totalRows pages)
    let c ← pages.zipIdx.foldlM (noNullPage tableId inColIdx needed) ⟨[], .empty⟩
    .ok ⟨.INT32, c.done ++ [c.current] ++ List.replicate (needed - c.done.length - 1) .empty, true,
      pages⟩

/-- `results[column_idx]` while it is filled, and `row_idx`. -/
structure ScanCursor where
  column : ColumnT
  rowIdx : Nat

namespace ScanCursor

/-- `append(v)` and `++row_idx`. -/
def append (c : ScanCursor) (v : ValueT) : ScanCursor := ⟨c.column.append v, c.rowIdx + 1⟩

/-- `results[column_idx].type = type`. -/
def setType (c : ScanCursor) (type : DataType) : ScanCursor :=
  { c with column := { c.column with type := type } }

/-- The check before a row that is not NULL. -/
def check (numRows : Nat) (c : ScanCursor) : Result Unit :=
  if c.rowIdx ≥ numRows then .error (.runtimeError "row_idx") else .ok ()

end ScanCursor

/-- One iteration over the rows of an INT32 page; the state is `data_idx` and the cursor. -/
def scanInt32Row (numRows : Nat) (page : Page) (bitmap : Nat) (s : Nat × ScanCursor) (i : Nat) :
    Result (Nat × ScanCursor) := do
  if getBitmap page bitmap i then
    let value := int32Type.ofBytes (page.read (4 + s.1 * 4) 4)
    s.2.check numRows
    .ok (s.1 + 1, s.2.append (putInt32 value))
  else
    .ok (s.1, s.2.append makeNull)

def scanInt32Page (numRows : Nat) (page : Page) (c : ScanCursor) : Result ScanCursor := do
  let s ← (List.range page.numRows).foldlM
    (scanInt32Row numRows page (bitmapBegin page.numRows))
    (0, c.setType .INT32)
  .ok s.2

/-- The loop behind a page marked 0xffff: `pos` counts the pages marked 0xfffe, looked up at
`pages[pos + 1]` once `pos` has grown. -/
def longStringPos (pages : List Page) (pos : Nat) (nextPage : Page) : Result Nat :=
  if nextPage.numRows = 0xfffe then
    match _h : pages[pos + 2]? with
    | some page => longStringPos pages (pos + 1) page
    | none => .error .outOfRange
  else
    .ok pos
  termination_by pages.length - pos
  decreasing_by
    have := (List.getElem?_eq_some_iff.mp _h).1
    omega

/-- One iteration over the rows of a page of strings; the state is `data_idx`, `prev_offset` and the
cursor. -/
def scanVarcharRow (tableId inColIdx pageIdx numRows : Nat) (page : Page) (bitmap : Nat)
    (s : Nat × Nat × ScanCursor) (i : Nat) : Result (Nat × Nat × ScanCursor) := do
  let (dataIdx, prevOffset, c) := s
  if getBitmap page bitmap i then
    let offset := page.u16 (4 + dataIdx * 2)
    c.check numRows
    let v ← putVarchar (.ofNat tableId) (.ofNat inColIdx) (.ofNat pageIdx) (.ofNat prevOffset)
    .ok (dataIdx + 1, offset, c.append v)
  else
    .ok (dataIdx, prevOffset, c.append makeNull)

def scanVarcharPage (tableId inColIdx numRows : Nat) (pages : List Page) (page : Page)
    (pageIdx : Nat) (c : ScanCursor) : Result ScanCursor := do
  let c := c.setType .VARCHAR
  if page.numRows = 0xffff then
    let nextPage ← index pages (pageIdx + 1)
    let pos ← longStringPos pages 0 nextPage
    let v ← putVarchar (.ofNat tableId) (.ofNat inColIdx) (.ofNat pageIdx) (.ofNat pos)
    .ok (c.append v)
  else if page.numRows = 0xfffe then
    .ok c
  else
    let s ← (List.range page.numRows).foldlM
      (scanVarcharRow tableId inColIdx pageIdx numRows page (bitmapBegin page.numRows)) (0, 0, c)
    .ok s.2.2

/-- The body of the loop over the pages of a column; the `switch` has no case for other types. -/
def scanPage (tableId inColIdx numRows : Nat) (column : Column) (c : ScanCursor)
    (p : Page × Nat) : Result ScanCursor :=
  match column.type with
  | .INT32 => scanInt32Page numRows p.1 c
  | .VARCHAR => scanVarcharPage tableId inColIdx numRows column.pages p.1 p.2 c
  | _ => .ok c

/-- What the scan's task makes of one output column. -/
def scanColumn (tableId : Nat) (table : ColumnarTable) (inColIdx : Nat) : Result ColumnT := do
  let column ← index table.columns inColIdx
  if column.type = .INT32 && noNulls column.pages then
    scanNoNull tableId inColIdx column.pages
  else
    let c ← column.pages.zipIdx.foldlM (scanPage tableId inColIdx table.numRows column)
      ⟨.empty, 0⟩
    .ok c.column

/-- `column_t_copy_scan`. -/
def columnTCopyScan (tableId : Nat) (table : ColumnarTable)
    (outputAttrs : List (Nat × DataType)) : Result (List ColumnT) :=
  outputAttrs.mapM fun attr => scanColumn tableId table attr.1

end JoinOptimizer
