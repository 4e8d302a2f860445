import JoinOptimizer.Data
import JoinOptimizer.Lib.Buckets
import JoinOptimizer.Lib.Sparse

/-! The cache file of a table (`DumpTable` of `include/table.h`, `Table::from_cache` of
`src/build_table.cpp`): a struct padded to one page, then the pages of all columns one behind the
other. -/

namespace JoinOptimizer

open Lib

/-- The number of entries in each array of `TableMeta`. -/
def metaCapacity : Nat := 16

/-- `struct TableMeta`. -/
structure TableMeta where
  numRows : Nat
  numCols : Nat
  types : List DataType
  numPages : List Nat

/-- The value of an enumerator of `DataType`. -/
def DataType.toWord : DataType → Nat
  | .INT32 => 0
  | .INT64 => 1
  | .FP64 => 2
  | .VARCHAR => 3

/-- The enumerator of a value; the engine never writes another value. -/
def DataType.ofWord : Nat → Result DataType
  | 0 => .ok .INT32
  | 1 => .ok .INT64
  | 2 => .ok .FP64
  | 3 => .ok .VARCHAR
  | _ => .error .outOfRange

theorem DataType.ofWord_toWord (t : DataType) : DataType.ofWord t.toWord = .ok t := by
  cases t <;> rfl

namespace TableMeta

/-- `TableMeta tablemeta = {0}`. -/
def zero : TableMeta where
  numRows := 0
  numCols := 0
  types := List.replicate metaCapacity .INT32
  numPages := List.replicate metaCapacity 0

/-- The bytes of the struct. -/
def bytes (m : TableMeta) : Bytes :=
  leBytes 8 m.numRows ++ leBytes 8 m.numCols ++ m.types.flatMap (fun t => leBytes 4 t.toWord) ++
    m.numPages.flatMap (leBytes 8)

/-- `sizeof(struct TableMeta)`. -/
def size : Nat := 8 + 8 + 4 * metaCapacity + 8 * metaCapacity

/-- The offset of `types[i]`. -/
def typeOffset (i : Nat) : Nat := 16 + i * 4

/-- The offset of `num_pages[i]`. -/
def pagesOffset (i : Nat) : Nat := 16 + 4 * metaCapacity + i * 8

/-- `tablemeta.types[i] = type; tablemeta.num_pages[i] = pages`. -/
def setColumn (m : TableMeta) (i : Nat) (type : DataType) (pages : Nat) : Result TableMeta :=
  if i < metaCapacity then
    .ok { m with types := m.types.set i type, numPages := m.numPages.set i pages }
  else .error .outOfRange

end TableMeta

/-- `FILLER_SIZE`. -/
def fillerSize : Nat := pageSize - TableMeta.size

/-- `class DumpTable`. -/
structure DumpTable where
  tablemeta : TableMeta
  table : ColumnarTable

namespace DumpTable

/-- The constructor. -/
def new (table : ColumnarTable) : Result DumpTable := do
  let tablemeta :=
    { TableMeta.zero with numRows := table.numRows, numCols := table.columns.length }
  let tablemeta ← (List.range tablemeta.numCols).foldlM (fun m i => do
    let column ← index table.columns i
    m.setColumn i column.type column.pages.length) tablemeta
  .ok ⟨tablemeta, table⟩

/-- The bytes of a page. -/
def pageBytes (page : Page) : Bytes := page.read 0 pageSize

def dump (d : DumpTable) : Result Bytes :=
  (List.range d.tablemeta.numCols).foldlM (fun out i => do
    let column ← index d.table.columns i
    .ok (column.pages.foldl (fun out page => out ++ pageBytes page) out))
    (d.tablemeta.bytes ++ List.replicate fillerSize 0)

end DumpTable

/-- What the system makes of a path: one of the calls fails, or the bytes of the file.  A file with no
bytes is not mapped. -/
inductive Mapping
  | openFailed
  | statFailed
  | mmapFailed
  | mapped (file : Bytes)

/-- A column that lies in a mapping: its pages are offsets into it. -/
structure MappedColumn where
  type : DataType
  pages : List Nat

/-- The table that `from_cache` returns. -/
structure MappedTable where
  numRows : Nat
  columns : List MappedColumn

/-- The word of `w` bytes at an offset of the mapping. -/
def wordAt (file : Bytes) (off w : Nat) : Result Nat :=
  if off + w ≤ file.length then .ok (leWord ((file.drop off).take w)) else .error .outOfRange

/-- `meta->types[i]`. -/
def typeAt (file : Bytes) (i : Nat) : Result DataType := do
  if i < metaCapacity then DataType.ofWord (← wordAt file (TableMeta.typeOffset i) 4)
  else .error .outOfRange

/-- `meta->num_pages[i]`. -/
def numPagesAt (file : Bytes) (i : Nat) : Result Nat :=
  if i < metaCapacity then wordAt file (TableMeta.pagesOffset i) 8 else .error .outOfRange

/-- The inner loop of `from_cache`: the pages of one column and the pointer behind them. -/
def takePages (data numPages : Nat) : List Nat × Nat :=
  (List.range numPages).foldl (fun (pages, data) _ => (pages ++ [data], data + pageSize)) ([], data)

/-- `Table::from_cache`. -/
def fromCache (path : String) : Mapping → Result MappedTable
  | .openFailed => .error (.runtimeError ("Failed to open file: " ++ path))
  | .statFailed => .error (.runtimeError ("Failed to stat file: " ++ path))
  | .mmapFailed => .error (.runtimeError ("Failed to mmap file: " ++ path))
  | .mapped file => do
    if file.length = 0 then
      .error (.runtimeError ("File is empty: " ++ path))
    else
      let numCols ← wordAt file 8 8
      let (columns, _) ← (List.range numCols).foldlM (fun (columns, data) i => do
        let type ← typeAt file i
        let numPages ← numPagesAt file i
        let (pages, data) := takePages data numPages
        .ok (columns ++ [⟨type, pages⟩], data)) (([] : List MappedColumn), pageSize)
      let numRows ← wordAt file 0 8
      .ok ⟨numRows, columns⟩

/-- `*reinterpret_cast<Page*>(file_in_memory + off)`. -/
def pageAt (file : Bytes) (off : Nat) : Page where
  data i := file.getD (off + i.val) 0

/-- The table with the pages that its pointers point to. -/
def MappedTable.table (m : MappedTable) (file : Bytes) : ColumnarTable where
  numRows := m.numRows
  columns := m.columns.map fun c => ⟨c.type, c.pages.map (pageAt file)⟩

/-- Every page lies inside the file. -/
def MappedTable.Inside (m : MappedTable) (file : Bytes) : Prop :=
  ∀ c ∈ m.columns, ∀ off ∈ c.pages, off + pageSize ≤ file.length

/-! ### What the constructor records and what the dump writes -/

/-- The struct of a table: its own columns, then zeros. -/
def metaOf (t : ColumnarTable) (k : Nat) : TableMeta where
  numRows := t.numRows
  numCols := t.columns.length
  types := tab metaCapacity fun i => if i < k then ((t.columns[i]?).map (·.type)).getD .INT32 else .INT32
  numPages := tab metaCapacity fun i => if i < k then ((t.columns[i]?).map (·.pages.length)).getD 0 else 0

theorem TableMeta.length_bytes {m : TableMeta} (htypes : m.types.length = metaCapacity)
    (hpages : m.numPages.length = metaCapacity) : m.bytes.length = TableMeta.size := by
  have htype := length_flatMap_uniform (fun t : DataType => length_leBytes 4 t.toWord) m.types
  have hcount := length_flatMap_uniform (fun n => length_leBytes 8 n) m.numPages
  simp only [TableMeta.bytes, List.length_append, length_leBytes, htype, hcount, htypes, hpages,
    TableMeta.size]
  omega

theorem metaOf_step (t : ColumnarTable) {k : Nat} (hk : k < t.columns.length)
    (hcap : k < metaCapacity) :
    (metaOf t k).setColumn k t.columns[k].type t.columns[k].pages.length = .ok (metaOf t (k + 1)) := by
  rw [TableMeta.setColumn, if_pos hcap]
  apply congrArg Except.ok
  simp only [metaOf, set_tab, TableMeta.mk.injEq, true_and]
  constructor
  all_goals
    refine tab_congr fun i _ => ?_
    by_cases hi : i = k
    · subst hi
      simp [hk]
    · have hiff : i < k + 1 ↔ i < k := by omega
      simp [Function.update_of_ne hi, hiff]

theorem DumpTable.new_eq {t : ColumnarTable} (h : t.columns.length ≤ metaCapacity) :
    DumpTable.new t = .ok ⟨metaOf t t.columns.length, t⟩ := by
  have hrun : (List.range t.columns.length).foldlM (fun (m : TableMeta) i => do
      let column ← index t.columns i
      m.setColumn i column.type column.pages.length) (metaOf t 0) =
      .ok (metaOf t t.columns.length) := by
    refine foldlM_range_trajectory (metaOf t) rfl rfl fun i hi => ?_
    rw [index_of_lt hi, ok_bind, metaOf_step t hi (by omega)]
  have hzero : { TableMeta.zero with numRows := t.numRows, numCols := t.columns.length } =
      metaOf t 0 := by
    simp [TableMeta.zero, metaOf, replicate_eq_tab]
  simp only [DumpTable.new]
  rw [hzero]
  show (do
    let tablemeta ← (List.range t.columns.length).foldlM _ (metaOf t 0)
    Except.ok (DumpTable.mk tablemeta t)) = _
  rw [hrun, ok_bind]

/-- The bytes of a column: its pages one behind the other. -/
def columnBytes (c : Column) : Bytes := c.pages.flatMap DumpTable.pageBytes

@[simp] theorem DumpTable.length_pageBytes (p : Page) : (DumpTable.pageBytes p).length = pageSize := by
  simp [DumpTable.pageBytes]

theorem length_columnBytes (c : Column) : (columnBytes c).length = c.pages.length * pageSize :=
  length_flatMap_uniform DumpTable.length_pageBytes c.pages

/-- The page that holds the struct. -/
def headerBytes (t : ColumnarTable) : Bytes :=
  (metaOf t t.columns.length).bytes ++ List.replicate fillerSize 0

theorem length_headerBytes (t : ColumnarTable) : (headerBytes t).length = pageSize := by
  have hbytes : (metaOf t t.columns.length).bytes.length = TableMeta.size :=
    TableMeta.length_bytes (length_tab _ _) (length_tab _ _)
  rw [headerBytes, List.length_append, hbytes, List.length_replicate]
  rfl

theorem DumpTable.dump_eq (t : ColumnarTable) :
    DumpTable.dump ⟨metaOf t t.columns.length, t⟩ =
      .ok (headerBytes t ++ (t.columns.map columnBytes).flatten) := by
  refine foldlM_range_trajectory
    (fun i => headerBytes t ++ ((t.columns.map columnBytes).take i).flatten) (by simp [headerBytes])
    ?_ fun i hi => ?_
  · rw [List.take_of_length_le (by simp [metaOf])]
  · have hi : i < t.columns.length := hi
    have hnext : ((t.columns.map columnBytes).take (i + 1)).flatten =
        ((t.columns.map columnBytes).take i).flatten ++ columnBytes t.columns[i] := by
      rw [List.take_succ_eq_append_getElem (by simpa using hi)]
      simp
    rw [index_of_lt hi, ok_bind, hnext, ← List.append_assoc, List.foldl_append_eq_append, columnBytes,
      List.flatMap_def]

/-! ### What the reader finds -/

/-- Words of one width that lie one behind the other. -/
theorem wordAt_field (pre : Bytes) (ns : List Nat) (i : Nat) {file : Bytes} {off n w : Nat}
    (hfile : ∃ post, file = pre ++ (ns.flatMap (leBytes w) ++ post)) (hoff : off = pre.length + i * w)
    (hn : ns[i]? = some n) (hlt : n < 256 ^ w) : wordAt file off w = .ok n := by
  obtain ⟨post, rfl⟩ := hfile
  obtain ⟨hi, rfl⟩ := List.getElem?_eq_some_iff.mp hn
  have hlen := length_flatMap_uniform (fun n => length_leBytes w n) ns
  have hmul : (i + 1) * w ≤ ns.length * w := Nat.mul_le_mul_right w hi
  have hfit : i * w + w ≤ (ns.flatMap (leBytes w)).length := by
    rw [hlen, ← Nat.succ_mul]
    exact hmul
  subst hoff
  rw [wordAt, if_pos (by simp only [List.length_append]; omega), ← List.drop_drop, List.drop_left,
    List.drop_append_of_le_length (by omega), List.take_append_of_le_length (by simp; omega),
    slice_flatMap_uniform (fun n => length_leBytes w n) ns hi, leWord_leBytes, Nat.mod_eq_of_lt hlt]

/-- The file that `dump` writes. -/
def dumpBytes (t : ColumnarTable) : Bytes := headerBytes t ++ (t.columns.map columnBytes).flatten

section Header

variable {t : ColumnarTable}

/-- The fields of the struct, one array behind the other. -/
theorem headerBytes_eq (t : ColumnarTable) :
    headerBytes t = [t.numRows, t.columns.length].flatMap (leBytes 8) ++
      (((metaOf t t.columns.length).types.map DataType.toWord).flatMap (leBytes 4) ++
        ((metaOf t t.columns.length).numPages.flatMap (leBytes 8) ++ List.replicate fillerSize 0)) := by
  simp [headerBytes, TableMeta.bytes, List.flatMap_map, metaOf]

theorem wordAt_numRows (hrows : t.numRows < 2 ^ 64) : wordAt (dumpBytes t) 0 8 = .ok t.numRows := by
  refine wordAt_field [] [t.numRows, t.columns.length] 0 ?_ rfl rfl hrows
  rw [dumpBytes, headerBytes_eq, List.append_assoc]
  exact ⟨_, rfl⟩

theorem wordAt_numCols (hcap : t.columns.length ≤ metaCapacity) :
    wordAt (dumpBytes t) 8 8 = .ok t.columns.length := by
  refine wordAt_field [] [t.numRows, t.columns.length] 1 ?_ rfl rfl
    (Nat.lt_of_le_of_lt hcap (by decide))
  rw [dumpBytes, headerBytes_eq, List.append_assoc]
  exact ⟨_, rfl⟩

theorem typeAt_column (hcap : t.columns.length ≤ metaCapacity) {i : Nat} (hi : i < t.columns.length) :
    typeAt (dumpBytes t) i = .ok t.columns[i].type := by
  have hword : wordAt (dumpBytes t) (TableMeta.typeOffset i) 4 = .ok t.columns[i].type.toWord := by
    refine wordAt_field ([t.numRows, t.columns.length].flatMap (leBytes 8))
      ((metaOf t t.columns.length).types.map DataType.toWord) i ?_ ?_ ?_ ?_
    · rw [dumpBytes, headerBytes_eq]
      simp only [List.append_assoc]
      exact ⟨_, rfl⟩
    · simp [TableMeta.typeOffset]
    · have hlt : i < metaCapacity := by omega
      simp [metaOf, getElem?_tab hlt, hi]
    · cases t.columns[i].type <;> decide
  rw [typeAt, if_pos (by omega), hword, ok_bind, DataType.ofWord_toWord]

theorem numPagesAt_column (hcap : t.columns.length ≤ metaCapacity) {i : Nat}
    (hi : i < t.columns.length) (hpages : t.columns[i].pages.length < 2 ^ 64) :
    numPagesAt (dumpBytes t) i = .ok t.columns[i].pages.length := by
  rw [numPagesAt, if_pos (by omega)]
  refine wordAt_field ([t.numRows, t.columns.length].flatMap (leBytes 8) ++
    ((metaOf t t.columns.length).types.map DataType.toWord).flatMap (leBytes 4))
    (metaOf t t.columns.length).numPages i ?_ ?_ ?_ hpages
  · rw [dumpBytes, headerBytes_eq]
    simp only [List.append_assoc]
    exact ⟨_, rfl⟩
  · have htypes := length_flatMap_uniform (fun n => length_leBytes 4 n)
      ((metaOf t t.columns.length).types.map DataType.toWord)
    have hlen : (metaOf t t.columns.length).types.length = metaCapacity := length_tab _ _
    rw [List.length_append, htypes, List.length_map, hlen, TableMeta.pagesOffset]
    simp [Nat.mul_comm]
  · have hlt : i < metaCapacity := by omega
    simp [metaOf, getElem?_tab hlt, hi]

end Header

/-! ### The pages behind the header -/

theorem takePages_eq (data n : Nat) :
    takePages data n = ((List.range n).map fun j => data + j * pageSize, data + n * pageSize) := by
  induction n with
  | zero => simp [takePages]
  | succ n ih =>
    rw [takePages] at ih ⊢
    rw [List.range_succ, List.foldl_append, ih]
    simp [Nat.succ_mul, Nat.add_assoc]

/-- A page's bytes, found in the file, are the page. -/
theorem pageAt_eq {file : Bytes} {off : Nat} {p : Page}
    (h : (file.drop off).take pageSize = DumpTable.pageBytes p) : pageAt file off = p := by
  cases p with
  | mk data =>
    simp only [pageAt, Block.mk.injEq]
    funext i
    have hget := congrArg (fun bs => bs[i.val]?) h
    simp [DumpTable.pageBytes, Block.read, Block.byte] at hget
    simp [hget]

/-- Where the pages of column `i` start. -/
def columnStart (t : ColumnarTable) (i : Nat) : Nat :=
  pageSize + ((t.columns.map columnBytes).take i).flatten.length

theorem columnStart_succ {t : ColumnarTable} {i : Nat} (hi : i < t.columns.length) :
    columnStart t (i + 1) = columnStart t i + t.columns[i].pages.length * pageSize := by
  rw [columnStart, List.take_succ_eq_append_getElem (by simpa using hi)]
  simp [columnStart, length_columnBytes, Nat.add_assoc]

/-- The file up to a column, the column, and what is behind it. -/
theorem dumpBytes_split {t : ColumnarTable} {i : Nat} (hi : i < t.columns.length) :
    ∃ pre post, dumpBytes t = pre ++ (columnBytes t.columns[i] ++ post) ∧
      pre.length = columnStart t i := by
  refine ⟨headerBytes t ++ ((t.columns.map columnBytes).take i).flatten,
    ((t.columns.map columnBytes).drop (i + 1)).flatten, ?_, ?_⟩
  · have hcols := flatten_split (t.columns.map columnBytes) (j := i) (by simpa using hi)
    rw [List.getElem_map] at hcols
    rw [dumpBytes, List.append_assoc, ← hcols]
  · rw [List.length_append, length_headerBytes, columnStart]

/-- Page `j` of a column lies inside the file, where the reader points to. -/
theorem pageAt_column {t : ColumnarTable} {i j : Nat} (hi : i < t.columns.length)
    (hj : j < t.columns[i].pages.length) :
    columnStart t i + j * pageSize + pageSize ≤ (dumpBytes t).length ∧
      pageAt (dumpBytes t) (columnStart t i + j * pageSize) = t.columns[i].pages[j] := by
  obtain ⟨pre, post, hsplit, hpre⟩ := dumpBytes_split hi
  have hlen := length_columnBytes t.columns[i]
  have hfit : j * pageSize + pageSize ≤ (columnBytes t.columns[i]).length := by
    rw [hlen, ← Nat.succ_mul]
    exact Nat.mul_le_mul_right pageSize hj
  have hslice : ((columnBytes t.columns[i]).drop (j * pageSize)).take pageSize =
      DumpTable.pageBytes t.columns[i].pages[j] :=
    slice_flatMap_uniform DumpTable.length_pageBytes t.columns[i].pages hj
  rw [hsplit, ← hpre]
  refine ⟨?_, pageAt_eq ?_⟩
  · simp only [List.length_append]
    omega
  · rw [← List.drop_drop, List.drop_left, List.drop_append_of_le_length (by omega),
      List.take_append_of_le_length (by rw [List.length_drop]; omega), hslice]

/-- The column that the reader makes of column `i`. -/
def mappedColumn (t : ColumnarTable) (i : Nat) (c : Column) : MappedColumn :=
  ⟨c.type, (List.range c.pages.length).map fun j => columnStart t i + j * pageSize⟩

theorem mappedColumn_pages {t : ColumnarTable} {i : Nat} (hi : i < t.columns.length) :
    (mappedColumn t i t.columns[i]).pages.map (pageAt (dumpBytes t)) = t.columns[i].pages := by
  refine List.ext_getElem (by simp [mappedColumn]) fun j hj hj' => ?_
  simpa [mappedColumn] using (pageAt_column hi hj').2

/-- Every count of the table is a `size_t`. -/
def ColumnarTable.Sized (t : ColumnarTable) : Prop :=
  t.numRows < 2 ^ 64 ∧ ∀ c ∈ t.columns, c.pages.length < 2 ^ 64

/-- What `from_cache` makes of the file. -/
def mappedTable (t : ColumnarTable) : MappedTable :=
  ⟨t.numRows, t.columns.mapIdx (mappedColumn t)⟩

theorem fromCache_dumpBytes {t : ColumnarTable} (hcap : t.columns.length ≤ metaCapacity)
    (hsized : t.Sized) (path : String) : fromCache path (.mapped (dumpBytes t)) = .ok (mappedTable t) := by
  have hpos : (dumpBytes t).length ≠ 0 := by
    rw [dumpBytes, List.length_append, length_headerBytes]
    simp [pageSize]
  have hrun : (List.range t.columns.length).foldlM
      (fun (s : List MappedColumn × Nat) i => do
        let type ← typeAt (dumpBytes t) i
        let numPages ← numPagesAt (dumpBytes t) i
        let (pages, data) := takePages s.2 numPages
        Except.ok (s.1 ++ [MappedColumn.mk type pages], data)) (([] : List MappedColumn), pageSize) =
      .ok (t.columns.mapIdx (mappedColumn t), columnStart t t.columns.length) := by
    refine foldlM_range_trajectory
      (fun i => ((t.columns.mapIdx (mappedColumn t)).take i, columnStart t i)) (by simp [columnStart])
      (by simp) fun i hi => ?_
    rw [typeAt_column hcap hi, ok_bind,
      numPagesAt_column hcap hi (hsized.2 _ (List.getElem_mem hi)), ok_bind]
    simp only [takePages_eq]
    rw [columnStart_succ hi, List.take_succ_eq_append_getElem (by simpa using hi)]
    simp [mappedColumn]
  simp only [fromCache, if_neg hpos, wordAt_numCols hcap, ok_bind]
  rw [hrun, ok_bind, wordAt_numRows hsized.1, ok_bind]
  rfl

theorem mappedTable_inside (t : ColumnarTable) : (mappedTable t).Inside (dumpBytes t) := by
  intro c hc off hoff
  obtain ⟨i, hi, rfl⟩ := List.mem_mapIdx.mp hc
  simp only [mappedColumn, List.mem_map, List.mem_range] at hoff
  obtain ⟨j, hj, rfl⟩ := hoff
  exact (pageAt_column hi hj).1

theorem mappedTable_table (t : ColumnarTable) : (mappedTable t).table (dumpBytes t) = t := by
  cases t with
  | mk numRows columns =>
    simp only [MappedTable.table, mappedTable, ColumnarTable.mk.injEq, true_and]
    refine List.ext_getElem (by simp) fun i hi hi' => ?_
    have hpages := mappedColumn_pages (t := ⟨numRows, columns⟩) hi'
    simp only [List.getElem_map, List.getElem_mapIdx]
    rw [hpages]
    rfl

/-- A table of at most 16 columns, dumped to a file and read back, is the same table, and every page
read lies inside the file. -/
theorem fromCache_dump (t : ColumnarTable) (hcap : t.columns.length ≤ metaCapacity)
    (hsized : t.Sized) (path : String) :
    ∃ d file m, DumpTable.new t = .ok d ∧ d.dump = .ok file ∧
      fromCache path (.mapped file) = .ok m ∧ m.table file = t ∧ m.Inside file :=
  ⟨_, _, _, DumpTable.new_eq hcap, DumpTable.dump_eq t, fromCache_dumpBytes hcap hsized path,
    mappedTable_table t, mappedTable_inside t⟩

theorem fromCache_dump_two : ∃ d file m,
    DumpTable.new ⟨3, [⟨.INT32, [⟨fun _ => 1⟩, ⟨fun _ => 2⟩]⟩, ⟨.VARCHAR, []⟩]⟩ = .ok d ∧
      d.dump = .ok file ∧ fromCache "t.tbl" (.mapped file) = .ok m ∧
      m.table file = ⟨3, [⟨.INT32, [⟨fun _ => 1⟩, ⟨fun _ => 2⟩]⟩, ⟨.VARCHAR, []⟩]⟩ ∧ m.Inside file :=
  fromCache_dump _ (by decide) ⟨by decide, by simp⟩ "t.tbl"

end JoinOptimizer
