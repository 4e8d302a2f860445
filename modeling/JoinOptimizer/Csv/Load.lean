import JoinOptimizer.Csv.Records
import JoinOptimizer.Filter.Compact

/-! Loading of a CSV file: `TableParser` and `Table::from_csv` of `src/build_table.cpp`. -/

namespace JoinOptimizer

open Lib CSVParser

/-- `std::strtoll` of base 10: spaces, a sign and as many digits as there are. -/
def strtoll (text : Bytes) : Option Int :=
  let text : Bytes := text.dropWhile fun c => c = 32 || (9 ≤ c && c ≤ 13)
  let unsigned : Bytes := match text with
    | 43 :: rest | 45 :: rest => rest
    | _ => text
  let digits : Bytes := unsigned.takeWhile fun c => 48 ≤ c && c ≤ 57
  let value : Int := digits.foldl (fun value c => value * 10 + (c.toNat - 48)) 0
  if digits = [] then none else some (if text.head? = some 45 then -value else value)

/-- `std::stoi`. -/
def stoi (text : Bytes) : Option Int32 := do
  let value ← strtoll text
  if -2 ^ 31 ≤ value ∧ value < 2 ^ 31 then some (Int32.ofInt value) else none

/-- `std::stoll`. -/
def stoll (text : Bytes) : Option Int64 := do
  let value ← strtoll text
  if -2 ^ 63 ≤ value ∧ value < 2 ^ 63 then some (Int64.ofInt value) else none

/-- What `from_csv` takes from elsewhere: the regular expressions, `std::stod`, the bytes of new pages,
the order in which the tasks of the columns finish and what `ret_rows` holds before they do. -/
structure Outside where
  re2 : RE2
  stod : Bytes → Option UInt64
  fresh : Nat → Nat → Page
  order : List Nat
  retRows : Nat

/-- The `switch` of `on_field` over the type of the attribute. -/
def parseField (out : Outside) (type : DataType) (text : Bytes) : Result Data :=
  match type with
  | .INT32 =>
    match stoi text with
    | some value => .ok (.int32 value)
    | none => .error (.runtimeError "parse integer error")
  | .INT64 =>
    match stoll text with
    | some value => .ok (.int64 value)
    | none => .error (.runtimeError "parse integer error")
  | .FP64 =>
    match out.stod text with
    | some bits => .ok (.fp64 bits)
    | none => .error (.runtimeError "parse float error")
  | .VARCHAR => .ok (.string text)

/-- `class TableParser`, and the table that `add_record` fills. -/
structure TableParser where
  lastRecord : List Data
  table : InnerTable

/-- `row_off_`: a file has fewer than 2^64 rows, so that the sum with a row number never wraps. -/
def rowOff (header : Bool) : Int := if header then -1 else 0

/-- `TableParser::on_field`. -/
def TableParser.onField (out : Outside) (types : List DataType) (header : Bool) (s : TableParser)
    (call : OnField) : Result TableParser :=
  if call.rowIdx + rowOff header = -1 then .ok s
  else do
    let data ←
      if call.field.length = 0 then .ok .monostate
      else do parseField out (← index types call.colIdx) call.field
    let lastRecord := s.lastRecord ++ [data]
    if call.colIdx + 1 = types.length then
      .ok ⟨[], ← s.table.addRecord types lastRecord⟩
    else .ok { s with lastRecord }

/-- The size of `buffer`. -/
def bufferSize : Nat := 1024 * 1024

/-- What the calls of `fread` read, up to the one that reads nothing. -/
def readBuffers (content : Bytes) : List Bytes :=
  if _h : content = [] then []
  else content.take bufferSize :: readBuffers (content.drop bufferSize)
  termination_by content.length
  decreasing_by
    have := List.length_pos_of_ne_nil _h
    simp only [List.length_drop, bufferSize]
    omega

/-- The table of a file.  The calls of `on_field` come before the error that the parser returns. -/
def loadTable (out : Outside) (types : List DataType) (header : Bool) (content : Bytes) :
    Result InnerTable := do
  let outcome := (new backslash separator false).parse (readBuffers content)
  let s ← outcome.calls.foldlM (TableParser.onField out types header) ⟨[], .empty types⟩
  match outcome with
  | .ok _ => .ok s.table
  | .error _ => .error (.runtimeError "CSV parse error")

/-- `table_cache` and `result_cache`. -/
structure Caches where
  tables : List (String × InnerTable)
  results : List (String × ColumnarTable)

/-- `copy`. -/
def copy (value : ColumnarTable) : ColumnarTable where
  numRows := value.numRows
  columns := value.columns.map fun column => ⟨column.type, column.pages⟩

/-- `Table::from_csv`; `file` is what the path leads to, if it can be opened. -/
def fromCsv (out : Outside) (caches : Caches) (types : List DataType) (path : String)
    (file : Option Bytes) (filter : Option Statement) (header : Bool) :
    Result (ColumnarTable × Caches) :=
  match filter, caches.results.lookup path with
  | none, some result => .ok (copy result, caches)
  | _, _ => do
    let (table, caches) ← match caches.tables.lookup path, file with
      | some table, _ => .ok (table, caches)
      | none, none => .error (.runtimeError ("Failed to open file: " ++ path))
      | none, some content => do
        let table ← loadTable out types header content
        .ok (table, { caches with tables := (path, table) :: caches.tables })
    let results ← match filter with
      | some filter => filter.evalTable out.re2 table.columns
      | none => .ok (List.replicate ((table.rows + 7) / 8) 0xff)
    let ret ← compact out.fresh table results out.order out.retRows
    if filter.isNone then .ok (ret, { caches with results := (path, copy ret) :: caches.results })
    else .ok (ret, caches)

/-! ### What the table should hold -/

/-- The cell of a field. -/
def cellOf (field : Bytes) : Data := if field = [] then .monostate else .string field

/-- The cells of the first `width` fields of a record. -/
def rowOf (width : Nat) (record : List Bytes) : List Data := (record.take width).map cellOf

theorem length_rowOf {width : Nat} {record : List Bytes} (h : width ≤ record.length) :
    (rowOf width record).length = width := by
  simp [rowOf, h]

/-- The records behind the header. -/
def behindHeader (header : Bool) (rows : List (List Bytes)) : List (List Bytes) :=
  if header then rows.drop 1 else rows

/-- All or error: the file is refused, or the table has one row for each of its records, and in each column
the field of that place. -/
def Loads (types : List DataType) (header : Bool) (content : Bytes)
    (result : Result (ColumnarTable × Caches)) : Prop :=
  (∃ what, result = .error (.runtimeError what)) ∨
    ∃ table caches, result = .ok (table, caches) ∧
      (∀ record ∈ behindHeader header (records content), types.length ≤ record.length) ∧
      table.Holds ⟨(behindHeader header (records content)).map (rowOf types.length), types⟩ ∧
      fromColumnar table = .ok ⟨(behindHeader header (records content)).map (rowOf types.length), types⟩

/-- Rows whose fields reach columns of the schema only: behind column `width` there are only empty fields,
and where a row reaches the last column, those before it ended there. -/
structure Inside (width : Nat) (rows : List (List Bytes)) : Prop where
  aligned : rows.Pairwise fun r r' => r ≠ [] → width ≤ r'.length → r.length = width
  extra : ∀ r ∈ rows, ∀ field ∈ r.drop width, field = []

instance (width : Nat) (rows : List (List Bytes)) : Decidable (Inside width rows) :=
  decidable_of_iff ((rows.Pairwise fun r r' => r ≠ [] → width ≤ r'.length → r.length = width) ∧
    ∀ r ∈ rows, ∀ field ∈ r.drop width, field = []) ⟨fun h => ⟨h.1, h.2⟩, fun h => ⟨h.1, h.2⟩⟩

/-- A file that fits a schema of `width` columns: the rows that the parser gets to lie inside of it, and if
the parser accepts the file, no record is too short; one column takes an empty file for a record. -/
structure Fits (width : Nat) (header : Bool) (content : Bytes) : Prop where
  inside : Inside width (behindHeader header (emitted (closed content) none (records content)))
  filled : accepts (closed content) none (records content) = true →
    ∀ r ∈ behindHeader header (records content), width ≤ r.length
  empty : content = [] → header = false → width ≠ 1

/-! ### The calls of one row -/

theorem readBuffers_spec (content : Bytes) :
    (readBuffers content).flatten = content ∧ ∀ buffer ∈ readBuffers content, buffer ≠ [] := by
  fun_induction readBuffers content with
  | case1 => simp
  | case2 content h ih =>
    refine ⟨by rw [List.flatten_cons, ih.1, List.take_append_drop], fun buffer hmem => ?_⟩
    rcases List.mem_cons.mp hmem with rfl | hmem
    · simp [bufferSize, h]
    · exact ih.2 buffer hmem

/-- A record with more fields than there are attributes makes `add_record` read past them. -/
theorem InnerTable.addRecord_long {types : List DataType} {t : InnerTable} {record : List Data}
    (hrecord : types.length < record.length) (hcolumns : t.columns.length = types.length) :
    t.addRecord types record = .error .outOfRange := by
  obtain ⟨d, rest, hdrop⟩ : ∃ d rest, record.drop types.length = d :: rest :=
    ⟨_, _, List.drop_eq_getElem_cons hrecord⟩
  have hsplit : record = record.take types.length ++ d :: rest := by
    rw [← hdrop, List.take_append_drop]
  have hlen : (record.take types.length).length = types.length := by simp; omega
  have hprefix := addRecord_eq hlen hcolumns
  rw [addRecord] at hprefix ⊢
  obtain ⟨columns, hrun, -⟩ := bind_eq_ok.mp hprefix
  rw [hsplit, List.zipIdx_append, List.foldlM_append, hrun, ok_bind, List.zipIdx_cons,
    List.foldlM_cons]
  have hindex : index types (0 + (record.take types.length).length) = .error .outOfRange := by
    rw [hlen, index, List.getElem?_eq_none (by omega)]
  simp only [hindex]
  rfl

section Row

variable {out : Outside} {types : List DataType} (htypes : ∀ type ∈ types, type = .VARCHAR)
  {header : Bool} {i : Nat} (hi : (i : Int) + rowOff header ≠ -1) {table : InnerTable}

/-- The calls for fields from column `col` on. -/
def fieldCalls (i col : Nat) (fields : List Bytes) : List OnField :=
  (fields.zipIdx col).map fun f => ⟨f.2, i, f.1⟩

theorem fieldCalls_cons (i col : Nat) (field : Bytes) (fields : List Bytes) :
    fieldCalls i col (field :: fields) = ⟨col, i, field⟩ :: fieldCalls i (col + 1) fields := rfl

theorem fieldCalls_append (i col : Nat) (fields fields' : List Bytes) :
    fieldCalls i col (fields ++ fields') =
      fieldCalls i col fields ++ fieldCalls i (col + fields.length) fields' := by
  simp [fieldCalls, List.zipIdx_append]

include htypes hi

/-- A field of a column of the schema, or an empty field. -/
theorem onField_inside {col : Nat} {field : Bytes} (hcol : col < types.length ∨ field = [])
    (lastRecord : List Data) :
    TableParser.onField out types header ⟨lastRecord, table⟩ ⟨col, i, field⟩ =
      if col + 1 = types.length then do
        .ok ⟨[], ← table.addRecord types (lastRecord ++ [cellOf field])⟩
      else .ok ⟨lastRecord ++ [cellOf field], table⟩ := by
  rw [TableParser.onField, if_neg hi]
  by_cases hfield : field = []
  · simp [hfield, cellOf]
  · have hlt : col < types.length := hcol.resolve_right hfield
    have htype : types[col] = .VARCHAR := htypes _ (List.getElem_mem hlt)
    simp [hfield, cellOf, index_of_lt hlt, htype, parseField]

omit htypes in
theorem onField_outside {col : Nat} {field : Bytes} (hcol : types.length ≤ col) (hfield : field ≠ [])
    (lastRecord : List Data) :
    TableParser.onField out types header ⟨lastRecord, table⟩ ⟨col, i, field⟩ =
      .error .outOfRange := by
  rw [TableParser.onField, if_neg hi]
  have hindex : index types col = .error .outOfRange := by
    rw [index, List.getElem?_eq_none hcol]
  simp [hfield, hindex]

/-- Fields that do not reach the last column wait for it. -/
theorem foldlM_before (fields : List Bytes) {col : Nat} (hcol : col + fields.length < types.length)
    (lastRecord : List Data) :
    (fieldCalls i col fields).foldlM (TableParser.onField out types header) ⟨lastRecord, table⟩ =
      .ok ⟨lastRecord ++ fields.map cellOf, table⟩ := by
  induction fields generalizing col lastRecord with
  | nil => simp [fieldCalls]
  | cons field fields ih =>
    rw [List.length_cons] at hcol
    rw [fieldCalls_cons, List.foldlM_cons, onField_inside htypes hi (.inl (by omega)),
      if_neg (by omega), ok_bind, ih (by omega)]
    simp

/-- Fields behind the last column wait for the next record, if they are empty. -/
theorem foldlM_behind (fields : List Bytes) {col : Nat} (hcol : types.length ≤ col)
    (lastRecord : List Data) :
    (fieldCalls i col fields).foldlM (TableParser.onField out types header) ⟨lastRecord, table⟩ =
      if ∀ field ∈ fields, field = [] then .ok ⟨lastRecord ++ fields.map cellOf, table⟩
      else .error .outOfRange := by
  induction fields generalizing col lastRecord with
  | nil => simp [fieldCalls]
  | cons field fields ih =>
    rw [fieldCalls_cons, List.foldlM_cons]
    by_cases hfield : field = []
    · rw [onField_inside htypes hi (.inr hfield), if_neg (by omega), ok_bind, ih (by omega)]
      simp [hfield]
    · rw [onField_outside hi hcol hfield, error_bind, if_neg]
      exact fun hall => hfield (hall field (by simp))

/-- The calls of a row that does not reach the last column. -/
theorem foldlM_short {row : List Bytes} (hrow : row.length < types.length) (lastRecord : List Data) :
    (rowCalls i row).foldlM (TableParser.onField out types header) ⟨lastRecord, table⟩ =
      .ok ⟨lastRecord ++ row.map cellOf, table⟩ :=
  foldlM_before htypes hi row (by omega) lastRecord

/-- The calls of a row that reaches it: the record is added if nothing waits from the rows before. -/
theorem foldlM_full {row : List Bytes} (hne : types ≠ []) (hrow : types.length ≤ row.length)
    (hcolumns : table.columns.length = types.length) (lastRecord : List Data) :
    (rowCalls i row).foldlM (TableParser.onField out types header) ⟨lastRecord, table⟩ =
      if lastRecord = [] ∧ ∀ field ∈ row.drop types.length, field = [] then do
        .ok ⟨(row.drop types.length).map cellOf,
          ← table.addRecord types (rowOf types.length row)⟩
      else .error .outOfRange := by
  have hpos : 0 < types.length := List.length_pos_of_ne_nil hne
  have hlast : types.length - 1 < row.length := by omega
  have htake : row.take types.length = row.take (types.length - 1) ++ [row[types.length - 1]] := by
    rw [← List.take_succ_eq_append_getElem hlast]
    congr 1
    omega
  have hsplit : row = row.take (types.length - 1) ++ row[types.length - 1] :: row.drop types.length := by
    conv_lhs => rw [← List.take_append_drop types.length row, htake, List.append_assoc]
    rfl
  have hlen : (row.take (types.length - 1)).length = types.length - 1 := by simp; omega
  have hcalls : rowCalls i row = fieldCalls i 0 (row.take (types.length - 1)) ++
      ⟨types.length - 1, i, row[types.length - 1]⟩ :: fieldCalls i types.length (row.drop types.length) := by
    show fieldCalls i 0 row = _
    conv_lhs => rw [hsplit]
    rw [fieldCalls_append, hlen, fieldCalls_cons, Nat.zero_add, Nat.sub_add_cancel hpos]
  rw [hcalls, List.foldlM_append, foldlM_before htypes hi _ (by omega), ok_bind, List.foldlM_cons,
    onField_inside htypes hi (.inl (by omega)), if_pos (by omega), List.append_assoc]
  have hmap : (row.take (types.length - 1)).map cellOf ++ [cellOf row[types.length - 1]] =
      rowOf types.length row := by
    rw [rowOf, htake, List.map_append]
    rfl
  rw [hmap]
  cases lastRecord with
  | nil =>
    have hadd := InnerTable.addRecord_eq (length_rowOf hrow) hcolumns
    rw [List.nil_append, hadd, ok_bind, ok_bind, foldlM_behind htypes hi _ (Nat.le_refl _)]
    simp
  | cons d lastRecord =>
    have hlong : types.length < (d :: lastRecord ++ rowOf types.length row).length := by
      rw [List.length_append, length_rowOf hrow, List.length_cons]
      omega
    rw [InnerTable.addRecord_long hlong hcolumns]
    simp

end Row

/-! ### The calls of all rows -/

/-- The records that rows add: those that reach the last column, cut there. -/
def fullRows (width : Nat) (rows : List (List Bytes)) : List (List Data) :=
  (rows.filter (width ≤ ·.length)).map (rowOf width)

/-- Rows that lie inside the schema, behind a record of which `waiting` is left. -/
def InsideBehind (width : Nat) (waiting : List Data) (rows : List (List Bytes)) : Prop :=
  (waiting ≠ [] → ∀ row ∈ rows, row.length < width) ∧ Inside width rows

theorem insideBehind_cons_short {width : Nat} {waiting : List Data} {row : List Bytes}
    {rows : List (List Bytes)} (hrow : row.length < width) :
    InsideBehind width waiting (row :: rows) ↔
      InsideBehind width (waiting ++ row.map cellOf) rows := by
  have hdrop : row.drop width = [] := List.drop_of_length_le (by omega)
  constructor
  · rintro ⟨hwait, haligned, hextra⟩
    obtain ⟨hfirst, hrest⟩ := List.pairwise_cons.mp haligned
    refine ⟨fun hsome r hr => ?_, hrest, fun r hr => hextra r (by simp [hr])⟩
    by_contra hlong
    by_cases hw : waiting = []
    · have hne : row ≠ [] := by
        rintro rfl
        simp [hw] at hsome
      have := hfirst r hr hne (by omega)
      omega
    · exact hlong (hwait hw r (by simp [hr]))
  · rintro ⟨hwait, haligned, hextra⟩
    refine ⟨fun hsome r hr => ?_, List.pairwise_cons.mpr ⟨fun r hr hne hlong => ?_, haligned⟩, ?_⟩
    · rcases List.mem_cons.mp hr with rfl | hr
      · exact hrow
      · exact hwait (by simp [hsome]) r hr
    · have := hwait (by simp [hne]) r hr
      omega
    · intro r hr
      rcases List.mem_cons.mp hr with rfl | hr
      · simp [hdrop]
      · exact hextra r hr

theorem insideBehind_cons_full {width : Nat} {waiting : List Data} {row : List Bytes}
    {rows : List (List Bytes)} (hpos : 0 < width) (hrow : width ≤ row.length) :
    InsideBehind width waiting (row :: rows) ↔
      (waiting = [] ∧ ∀ field ∈ row.drop width, field = []) ∧
        InsideBehind width ((row.drop width).map cellOf) rows := by
  have hne : row ≠ [] := by
    rintro rfl
    simp at hrow
    omega
  have hwaits : (row.drop width).map cellOf ≠ [] ↔ row.length ≠ width := by
    rw [Ne, List.map_eq_nil_iff, List.drop_eq_nil_iff]
    omega
  constructor
  · rintro ⟨hwait, haligned, hextra⟩
    obtain ⟨hfirst, hrest⟩ := List.pairwise_cons.mp haligned
    refine ⟨⟨?_, hextra row (by simp)⟩, fun hsome r hr => ?_, hrest, fun r hr => hextra r (by simp [hr])⟩
    · by_contra hw
      have := hwait hw row (by simp)
      omega
    · by_contra hlong
      exact hwaits.mp hsome (hfirst r hr hne (by omega))
  · rintro ⟨⟨rfl, hempty⟩, hwait, haligned, hextra⟩
    refine ⟨fun hsome => absurd rfl hsome, List.pairwise_cons.mpr ⟨fun r hr _ hlong => ?_, haligned⟩, ?_⟩
    · by_contra hlen
      have := hwait (hwaits.mpr hlen) r hr
      omega
    · intro r hr
      rcases List.mem_cons.mp hr with rfl | hr
      · exact hempty
      · exact hextra r hr

section Rows

variable {types : List DataType} (htypes : ∀ type ∈ types, type = .VARCHAR) (hne : types ≠ [])
include htypes hne

/-- The calls of rows inside the schema add the records of those that reach the last column; those of
other rows read past the attributes. -/
theorem foldlM_rows (out : Outside) {header : Bool} (rows : List (List Bytes)) {i : Nat}
    (hi : header = true → 1 ≤ i)
    {table : InnerTable} (hcolumns : table.columns.length = types.length) (waiting : List Data) :
    (InsideBehind types.length waiting rows → ∃ left table',
        (rowsCalls i rows).foldlM (TableParser.onField out types header) ⟨waiting, table⟩ =
          .ok ⟨left, table'⟩ ∧
        (fullRows types.length rows).foldlM (InnerTable.addRecord types) table = .ok table') ∧
      (¬ InsideBehind types.length waiting rows →
        (rowsCalls i rows).foldlM (TableParser.onField out types header) ⟨waiting, table⟩ =
          .error .outOfRange) := by
  have hrow (i : Nat) (hi : header = true → 1 ≤ i) : (i : Int) + rowOff header ≠ -1 := by
    cases header with
    | false => simp [rowOff]
    | true =>
      have := hi rfl
      simp [rowOff]
      omega
  induction rows generalizing i table waiting with
  | nil =>
    refine ⟨fun _ => ⟨waiting, table, rfl, rfl⟩, fun hnot => absurd ⟨by simp, .nil, by simp⟩ hnot⟩
  | cons row rows ih =>
    have hnext : header = true → 1 ≤ i + 1 := fun _ => Nat.le_add_left 1 i
    rw [rowsCalls, List.foldlM_append]
    by_cases hlong : types.length ≤ row.length
    · have hpos : 0 < types.length := List.length_pos_of_ne_nil hne
      rw [foldlM_full htypes (hrow i hi) hne hlong hcolumns, insideBehind_cons_full hpos hlong]
      have hfull : fullRows types.length (row :: rows) =
          rowOf types.length row :: fullRows types.length rows := by
        rw [fullRows, List.filter_cons_of_pos (by simpa using hlong)]
        rfl
      by_cases hfits : waiting = [] ∧ ∀ field ∈ row.drop types.length, field = []
      · have hadd := InnerTable.addRecord_eq (length_rowOf hlong) hcolumns
        have hlen : (InnerTable.mk (table.rows + 1) (List.zipWith InnerColumnBase.push table.columns
            (rowOf types.length row))).columns.length = types.length := by
          simp [hcolumns, length_rowOf hlong]
        rw [if_pos hfits, hadd, hfull, List.foldlM_cons, hadd, and_iff_right hfits, ok_bind, ok_bind,
          ok_bind]
        exact ih hnext hlen _
      · rw [if_neg hfits]
        exact ⟨fun h => absurd h.1 hfits, fun _ => rfl⟩
    · have hfull : fullRows types.length (row :: rows) = fullRows types.length rows := by
        rw [fullRows, List.filter_cons_of_neg (by simpa using hlong)]
        rfl
      rw [foldlM_short htypes (hrow i hi) (by omega), ok_bind,
        insideBehind_cons_short (by omega), hfull]
      exact ih hnext hcolumns _

/-- The calls of a whole file: those of the header are passed over. -/
theorem foldlM_file (out : Outside) (header : Bool) (rows : List (List Bytes)) :
    (Inside types.length (behindHeader header rows) → ∃ left,
        (rowsCalls 0 rows).foldlM (TableParser.onField out types header) ⟨[], .empty types⟩ =
          .ok ⟨left, ⟨(fullRows types.length (behindHeader header rows)).length,
            columnsOf types (fullRows types.length (behindHeader header rows))⟩⟩) ∧
      (¬ Inside types.length (behindHeader header rows) →
        (rowsCalls 0 rows).foldlM (TableParser.onField out types header) ⟨[], .empty types⟩ =
          .error .outOfRange) := by
  have hempty : (InnerTable.empty types).columns.length = types.length := by simp [InnerTable.empty]
  have hwaiting (rows : List (List Bytes)) :
      InsideBehind types.length [] rows ↔ Inside types.length rows :=
    and_iff_right fun h => absurd rfl h
  have hfull : ∀ record ∈ fullRows types.length (behindHeader header rows),
      record.length = types.length := by
    intro record hrecord
    obtain ⟨row, hrow, rfl⟩ := List.mem_map.mp hrecord
    have hlong := (List.mem_filter.mp hrow).2
    simp only [decide_eq_true_eq] at hlong
    exact length_rowOf hlong
  obtain ⟨i, hi, hcalls⟩ : ∃ i, (header = true → 1 ≤ i) ∧
      (rowsCalls 0 rows).foldlM (TableParser.onField out types header) ⟨[], .empty types⟩ =
        (rowsCalls i (behindHeader header rows)).foldlM (TableParser.onField out types header)
          ⟨[], .empty types⟩ := by
    cases hheader : header with
    | false => exact ⟨0, by simp, rfl⟩
    | true =>
      refine ⟨1, by simp, ?_⟩
      cases rows with
      | nil => rfl
      | cons row rows =>
        have hskip : (rowCalls 0 row).foldlM (TableParser.onField out types true)
            ⟨[], InnerTable.empty types⟩ = .ok ⟨[], .empty types⟩ := by
          refine foldlM_trajectory (fun _ => ⟨[], .empty types⟩) rfl rfl fun k hk => ?_
          simp [rowCalls, TableParser.onField, rowOff]
        rw [rowsCalls, List.foldlM_append, hskip, ok_bind]
        rfl
  obtain ⟨hinside, houtside⟩ :=
    foldlM_rows htypes hne out (behindHeader header rows) hi hempty []
  rw [hwaiting] at hinside houtside
  rw [hcalls]
  refine ⟨fun h => ?_, houtside⟩
  obtain ⟨left, table, hrun, hadd⟩ := hinside h
  rw [InnerTable.addRecords_eq hfull] at hadd
  cases hadd
  exact ⟨left, hrun⟩

end Rows

theorem emitted_of_accepts {closed : Bool} {width : Option Nat} {rows : List (List Bytes)}
    (h : accepts closed width rows = true) : emitted closed width rows = rows := by
  induction rows generalizing width with
  | nil => rfl
  | cons row rows ih =>
    rw [accepts, Bool.and_eq_true] at h
    obtain ⟨hwidth, hrest⟩ := h
    have hclosed : ¬(rows = [] ∧ closed = false) := by
      rintro ⟨rfl, rfl⟩
      cases hrest
    have hgo : ¬(rows = [] ∧ closed = false ∨ ¬ width.all (· = row.length) = true) := by
      rintro (hend | hend)
      · exact hclosed hend
      · exact hend hwidth
    rw [emitted, if_neg hgo, ih hrest]

/-! ### The whole file -/

section File

variable {types : List DataType} (htypes : ∀ type ∈ types, type = .VARCHAR) (hne : types ≠ [])
include htypes hne

/-- The rows of the parser decide how the loading of a file ends. -/
theorem loadTable_eq (out : Outside) (header : Bool) (content : Bytes) :
    loadTable out types header content =
      if ¬ Inside types.length (behindHeader header (emitted (closed content) none (parsed content))) then
        .error .outOfRange
      else if accepts (closed content) none (parsed content) = true then
        .ok ⟨(fullRows types.length (behindHeader header (parsed content))).length,
          columnsOf types (fullRows types.length (behindHeader header (parsed content)))⟩
      else .error (.runtimeError "CSV parse error") := by
  obtain ⟨hflatten, hbuffers⟩ := readBuffers_spec content
  have hseen := parse_seen hbuffers
  rw [hflatten, Outcome.seen] at hseen
  obtain ⟨hok, hcalls⟩ := Prod.mk.inj hseen
  obtain ⟨hinside, houtside⟩ := foldlM_file htypes hne out header
    (emitted (closed content) none (parsed content))
  rw [loadTable, hcalls]
  by_cases h : Inside types.length (behindHeader header (emitted (closed content) none (parsed content)))
  · obtain ⟨left, hrun⟩ := hinside h
    rw [if_neg (not_not.mpr h), hrun, ok_bind]
    cases houtcome : (new backslash separator false).parse (readBuffers content) with
    | ok s =>
      rw [houtcome] at hok
      have haccepts : accepts (closed content) none (parsed content) = true := hok.symm
      rw [if_pos haccepts, emitted_of_accepts haccepts]
    | error e =>
      rw [houtcome] at hok
      have haccepts : accepts (closed content) none (parsed content) = false := hok.symm
      rw [if_neg (by simp [haccepts])]
  · rw [if_pos h, houtside h, error_bind]

omit hne in
theorem wellTyped_fullRows (rows : List (List Bytes)) :
    (Table.mk (fullRows types.length rows) types).WellTyped := by
  intro record hrecord
  obtain ⟨row, hrow, rfl⟩ := List.mem_map.mp hrecord
  have hlong := (List.mem_filter.mp hrow).2
  simp only [decide_eq_true_eq] at hlong
  refine List.forall₂_iff_get.mpr ⟨length_rowOf hlong, fun i hi hi' => ?_⟩
  have htype : types[i] = .VARCHAR := htypes _ (List.getElem_mem hi')
  simp only [rowOf, List.get_eq_getElem, List.getElem_map, htype, cellOf]
  split <;> trivial

omit htypes hne in
/-- Without a filter all bits are set. -/
theorem selectedRecords_all (records : List (List Data)) :
    selectedRecords (List.replicate ((records.length + 7) / 8) 0xff) records = records := by
  have hrows : selectedRows (List.replicate ((records.length + 7) / 8) 0xff) records.length =
      List.range records.length := by
    refine List.filter_eq_self.mpr fun i hi => ?_
    have hlt : i < records.length := List.mem_range.mp hi
    have hbit : i % 8 < 8 := Nat.mod_lt _ (by decide)
    rw [flag, List.getD_eq_getElem _ _ (by simp; omega), List.getElem_replicate]
    generalize i % 8 = k at hbit
    revert k
    decide
  rw [selectedRecords, hrows]
  refine List.ext_getElem (by simp) fun i hi hi' => ?_
  simp [hi']

/-- How `from_csv` ends on a path that neither cache has, without a filter. -/
theorem fromCsv_eq (out : Outside) (horder : out.order.Perm (List.range types.length)) {caches : Caches}
    {path : String} (htable : caches.tables.lookup path = none)
    (hresult : caches.results.lookup path = none) (header : Bool) (content : Bytes) :
    (¬ Inside types.length (behindHeader header (emitted (closed content) none (parsed content))) →
      fromCsv out caches types path (some content) none header = .error .outOfRange) ∧
    (Inside types.length (behindHeader header (emitted (closed content) none (parsed content))) →
      (accepts (closed content) none (parsed content) = false →
        fromCsv out caches types path (some content) none header =
          .error (.runtimeError "CSV parse error")) ∧
      (accepts (closed content) none (parsed content) = true → ∃ table caches',
        fromCsv out caches types path (some content) none header = .ok (table, caches') ∧
          table.Holds ⟨fullRows types.length (behindHeader header (parsed content)), types⟩)) := by
  have hload := loadTable_eq htypes hne out header content
  simp only [fromCsv, htable, hresult]
  refine ⟨fun h => ?_, fun h => ⟨fun hrefused => ?_, fun haccepts => ?_⟩⟩
  · rw [hload, if_pos h]
    rfl
  · rw [hload, if_neg (not_not.mpr h), if_neg (by simp [hrefused])]
    rfl
  · rw [if_neg (not_not.mpr h), if_pos haccepts] at hload
    generalize hrows : fullRows types.length (behindHeader header (parsed content)) = rows at hload ⊢
    have hlen : (List.replicate ((rows.length + 7) / 8) (0xff : UInt8)).length =
        (rows.length + 7) / 8 := by simp
    have htyped : (Table.mk rows types).WellTyped := hrows ▸ wellTyped_fullRows htypes _
    obtain ⟨table, hcompact, hholds⟩ := compact_holds (fun type hmem => .inr (htypes type hmem)) hne
      htyped hlen out.fresh horder out.retRows
    rw [selectedRecords_all] at hholds
    refine ⟨table, ⟨(path, ⟨rows.length, columnsOf types rows⟩) :: caches.tables,
      (path, copy table) :: caches.results⟩, ?_, hholds⟩
    rw [hload]
    simp only [ok_bind]
    rw [hcompact]
    rfl

end File

theorem fullRows_eq {width : Nat} {rows : List (List Bytes)} (h : ∀ r ∈ rows, width ≤ r.length) :
    fullRows width rows = rows.map (rowOf width) := by
  rw [fullRows, List.filter_eq_self.mpr fun r hr => by simpa using h r hr]

/-- A table that was returned is what it should be when it holds the records of the file. -/
theorem loads_ok_iff {types : List DataType} {header : Bool} {content : Bytes} {table : ColumnarTable}
    {rows : List (List Data)} (hholds : table.Holds ⟨rows, types⟩)
    (hrows : ∀ row ∈ rows, row.length = types.length) (caches : Caches) :
    Loads types header content (.ok (table, caches)) ↔
      (∀ record ∈ behindHeader header (records content), types.length ≤ record.length) ∧
        rows = (behindHeader header (records content)).map (rowOf types.length) := by
  have hdecode := fromColumnar_eq hholds hrows
  constructor
  · rintro (⟨what, herror⟩ | ⟨table', caches', hok, hlong, -, hdecode'⟩)
    · cases herror
    · cases hok
      rw [hdecode] at hdecode'
      exact ⟨hlong, congrArg Table.data (Except.ok.inj hdecode')⟩
  · rintro ⟨hlong, rfl⟩
    exact .inr ⟨table, caches, rfl, hlong, hholds, hdecode⟩

/-- Loading is all or error exactly for the files that fit the schema. -/
theorem fromCsv_loads_iff {types : List DataType} (htypes : ∀ type ∈ types, type = .VARCHAR)
    (hne : types ≠ []) (out : Outside) (horder : out.order.Perm (List.range types.length))
    {caches : Caches} {path : String} (htable : caches.tables.lookup path = none)
    (hresult : caches.results.lookup path = none) (header : Bool) (content : Bytes) :
    Loads types header content (fromCsv out caches types path (some content) none header) ↔
      Fits types.length header content := by
  obtain ⟨houtside, hinside⟩ := fromCsv_eq htypes hne out horder htable hresult header content
  have hpos : 0 < types.length := List.length_pos_of_ne_nil hne
  have hwidth (rows : List (List Bytes)) : ∀ row ∈ fullRows types.length rows,
      row.length = types.length := fun row hrow => (wellTyped_fullRows htypes rows row hrow).length_eq
  by_cases hcontent : content = []
  · -- the parser makes one record of an empty file
    subst hcontent
    have hin : Inside types.length (behindHeader header [[[]]]) := by
      cases header with
      | true => exact ⟨.nil, by simp [behindHeader]⟩
      | false =>
        refine ⟨List.pairwise_singleton _ _, fun r hr field hfield => ?_⟩
        obtain rfl : r = [[]] := List.mem_singleton.mp hr
        exact List.mem_singleton.mp (List.mem_of_mem_drop hfield)
    obtain ⟨table, caches', hok, hholds⟩ := (hinside hin).2 rfl
    have hnone : behindHeader header (records []) = [] := by cases header <;> rfl
    have hemitted : behindHeader header (emitted (closed []) none (records [])) = [] := by
      cases header <;> rfl
    have hfits : Fits types.length header [] ↔ (header = false → types.length ≠ 1) := by
      refine ⟨fun h => h.empty rfl, fun h => ⟨?_, fun _ => ?_, fun _ => h⟩⟩
      · rw [hemitted]
        exact ⟨.nil, by simp⟩
      · rw [hnone]
        simp
    rw [hok, loads_ok_iff hholds (hwidth _), hfits, hnone]
    cases header with
    | true => exact iff_of_true ⟨by simp, rfl⟩ (by simp)
    | false =>
      have hparsed : behindHeader false (parsed []) = [[[]]] := rfl
      have hone : types.length ≠ 1 ↔ ¬ types.length ≤ 1 := by omega
      rw [hparsed, fullRows]
      by_cases hle : types.length ≤ 1
      · simp [hle, hone]
      · simp [hle, hone]
  · rw [parsed_of_ne hcontent] at houtside hinside
    by_cases hin : Inside types.length
        (behindHeader header (emitted (closed content) none (records content)))
    · obtain ⟨hrefused, hloaded⟩ := hinside hin
      cases haccepts : accepts (closed content) none (records content) with
      | false =>
        rw [hrefused haccepts]
        refine iff_of_true (.inl ⟨_, rfl⟩) ⟨hin, fun h => ?_, fun h => absurd h hcontent⟩
        rw [haccepts] at h
        cases h
      | true =>
        obtain ⟨table, caches', hok, hholds⟩ := hloaded haccepts
        rw [hok, loads_ok_iff hholds (hwidth _)]
        constructor
        · rintro ⟨hlong, -⟩
          exact ⟨hin, fun _ => hlong, fun h => absurd h hcontent⟩
        · intro h
          exact ⟨h.filled haccepts, fullRows_eq (h.filled haccepts)⟩
    · rw [houtside hin]
      refine iff_of_false ?_ fun h => hin h.inside
      rintro (⟨what, herror⟩ | ⟨table, caches', hok, -⟩)
      · cases herror
      · cases hok

/-- Two columns whose tasks finish in their order, on pages of zeros. -/
def twoColumns : Outside where
  re2 := fun _ => none
  stod := fun _ => none
  fresh := fun _ _ => ⟨fun _ => 0⟩
  order := [0, 1]
  retRows := 0

/-- The file `a,"b"` under a schema of two columns. -/
theorem fromCsv_loads_iff_two : Loads [.VARCHAR, .VARCHAR] false [97, 44, 34, 98, 34, 10]
    (fromCsv twoColumns ⟨[], []⟩ [.VARCHAR, .VARCHAR] "t.csv" (some [97, 44, 34, 98, 34, 10]) none
      false) :=
  (fromCsv_loads_iff (by decide) (by simp) twoColumns (List.Perm.refl _) rfl rfl false _).mpr
    ⟨by decide, by decide, by simp⟩

/-- Two records of one field under a schema of two columns: both are dropped, and nothing is thrown. -/
theorem fromCsv_drops_records : ∃ table caches,
    fromCsv twoColumns ⟨[], []⟩ [.VARCHAR, .VARCHAR] "t.csv" (some [97, 10, 98, 10]) none false =
        .ok (table, caches) ∧
      table.numRows = 0 ∧ records [97, 10, 98, 10] = [[[97]], [[98]]] ∧
      ¬ Loads [.VARCHAR, .VARCHAR] false [97, 10, 98, 10]
        (fromCsv twoColumns ⟨[], []⟩ [.VARCHAR, .VARCHAR] "t.csv" (some [97, 10, 98, 10]) none false) := by
  have htypes : ∀ type ∈ ([.VARCHAR, .VARCHAR] : List DataType), type = .VARCHAR := by decide
  have hend := (fromCsv_eq htypes (by simp) twoColumns (List.Perm.refl _)
    (show (Caches.mk [] []).tables.lookup "t.csv" = none from rfl) rfl false [97, 10, 98, 10]).2
    (by decide)
  obtain ⟨table, caches, hok, hholds⟩ := hend.2 (by decide)
  have hrows : fullRows 2 (behindHeader false (parsed [97, 10, 98, 10])) = [] := by decide
  rw [List.length_cons, List.length_singleton, hrows] at hholds
  refine ⟨table, caches, hok, hholds.numRows, by decide, ?_⟩
  rw [hok, loads_ok_iff hholds (by simp)]
  rintro ⟨hlong, -⟩
  exact absurd (hlong [[97]] (by decide)) (by decide)

end JoinOptimizer
