import JoinOptimizer.Filter.Agree
import JoinOptimizer.Page.Encode
import JoinOptimizer.Page.Inserter

/-! The columns that `Table::from_csv` fills record by record, and the result columns that it makes of
the rows a filter selects (`src/build_table.cpp`). -/

namespace JoinOptimizer

open Lib

namespace InnerColumnBase

/-- A new column of a type. -/
def ofType : DataType → InnerColumnBase
  | .INT32 => .int32 .empty
  | .INT64 => .int64 .empty
  | .FP64 => .fp64 .empty
  | .VARCHAR => .varchar .empty

/-- One field of a record on its column: a value of the column's type, or NULL. -/
def push : InnerColumnBase → Data → InnerColumnBase
  | int32 column, field =>
    match field with
    | .int32 data => int32 (column.pushBack data)
    | _ => int32 column.pushBackNull
  | int64 column, field =>
    match field with
    | .int64 data => int64 (column.pushBack data)
    | _ => int64 column.pushBackNull
  | fp64 column, field =>
    match field with
    | .fp64 data => fp64 (column.pushBack data)
    | _ => fp64 column.pushBackNull
  | varchar column, field =>
    match field with
    | .string data => varchar (column.pushBack data)
    | _ => varchar column.pushBackNull

def type : InnerColumnBase → DataType
  | int32 _ => .INT32
  | int64 _ => .INT64
  | fp64 _ => .FP64
  | varchar _ => .VARCHAR

end InnerColumnBase

/-- `struct InnerTable`. -/
structure InnerTable where
  rows : Nat
  columns : List InnerColumnBase

namespace InnerTable

/-- The table before the first record. -/
def empty (types : List DataType) : InnerTable := ⟨0, types.map InnerColumnBase.ofType⟩

/-- `add_record`: the type of each field is that of its attribute, and the column that of the field. -/
def addRecord (types : List DataType) (t : InnerTable) (record : List Data) : Result InnerTable := do
  let columns ← record.zipIdx.foldlM (fun columns (field, idx) => do
    let _ ← index types idx
    let column ← index columns idx
    .ok (columns.set idx (column.push field))) t.columns
  .ok ⟨t.rows + 1, columns⟩

end InnerTable

/-- The bit of row `i` in the results of a filter. -/
def evalResult (results : List UInt8) (i : Nat) : Result Bool := do
  let byte ← index results (i / 8)
  .ok (byte &&& bitMask (i % 8) != 0)

/-- `from_inner_to_column<T>` for a type of numbers: the pages written and the number of rows. -/
def InnerColumn.toColumn {α : Type} (T : FixedType α) (fresh : Nat → Page) (c : InnerColumn α)
    (results : List UInt8) (rows : Nat) : Result (List Page × Nat) := do
  let (inserter, ret) ← (List.range rows).foldlM (fun (inserter, ret) i => do
    if ← evalResult results i then
      if c.isNotNull i then
        let value ← index c.data i
        .ok (ColumnInserter.insert T fresh inserter value, ret + 1)
      else .ok (ColumnInserter.insertNull T fresh inserter, ret + 1)
    else .ok (inserter, ret)) (ColumnInserter.init T, 0)
  .ok ((inserter.finalize T fresh).column.pages, ret)

/-- `from_inner_to_column<std::string>`. -/
def InnerStrings.toColumn (fresh : Nat → Page) (c : InnerStrings) (results : List UInt8) (rows : Nat) :
    Result (List Page × Nat) := do
  let (inserter, ret) ← (List.range rows).foldlM (fun (inserter, ret) i => do
    if ← evalResult results i then
      if c.isNotNull i then .ok (StringInserter.insert fresh inserter (c.value i), ret + 1)
      else .ok (StringInserter.insertNull fresh inserter, ret + 1)
    else .ok (inserter, ret)) (StringInserter.init, 0)
  .ok ((inserter.finalize fresh).column.pages, ret)

/-- The `switch` of the task over the type of a column. -/
def InnerColumnBase.toColumn (fresh : Nat → Page) (results : List UInt8) (rows : Nat) :
    InnerColumnBase → Result (List Page × Nat)
  | int32 column => column.toColumn int32Type fresh results rows
  | int64 column => column.toColumn int64Type fresh results rows
  | fp64 column => column.toColumn fp64Type fresh results rows
  | varchar column => column.toColumn fresh results rows

/-- The tasks of `from_csv` on the result columns, `order` being the order in which they finish.  They
share only `ret_rows`, which each sets at its end and which holds `retRows` before. -/
def compact (fresh : Nat → Nat → Page) (table : InnerTable) (results : List UInt8) (order : List Nat)
    (retRows : Nat) : Result ColumnarTable := do
  let (columns, retRows) ← order.foldlM (fun (columns, _) columnIdx => do
    let column ← index table.columns columnIdx
    let target ← index columns columnIdx
    let (pages, filteredRows) ← column.toColumn (fresh columnIdx) results table.rows
    .ok (columns.set columnIdx { target with pages }, filteredRows))
    (table.columns.map fun column => ⟨column.type, []⟩, retRows)
  .ok ⟨retRows, columns⟩

namespace InnerColumnBase

/-- The column that the cells of a column build. -/
def ofCells (type : DataType) (cells : List Data) : InnerColumnBase := cells.foldl push (ofType type)

theorem foldl_push_int32 (cells : List Data) (c : InnerColumn Int32) :
    cells.foldl push (int32 c) = int32 ((cells.map int32Type.project).foldl
      (fun c cell => cell.elim c.pushBackNull c.pushBack) c) := by
  induction cells generalizing c with
  | nil => rfl
  | cons d cells ih => cases d <;> exact ih _

theorem foldl_push_varchar (cells : List Data) (c : InnerStrings) :
    cells.foldl push (varchar c) = varchar ((cells.map VarcharWriter.project).foldl
      (fun c cell => cell.elim c.pushBackNull c.pushBack) c) := by
  induction cells generalizing c with
  | nil => rfl
  | cons d cells ih => cases d <;> exact ih _

@[simp] theorem type_push (column : InnerColumnBase) (field : Data) :
    (column.push field).type = column.type := by
  cases column <;> cases field <;> rfl

@[simp] theorem type_ofCells (type : DataType) (cells : List Data) : (ofCells type cells).type = type := by
  induction cells using List.reverseRecOn with
  | nil => cases type <;> rfl
  | append_singleton cells d ih =>
    rw [ofCells, List.foldl_append]
    exact (type_push _ d).trans ih

end InnerColumnBase

/-! ### The rows that the results select -/

/-- The rows whose bit is set. -/
def selectedRows (results : List UInt8) (rows : Nat) : List Nat :=
  (List.range rows).filter (flag results)

theorem selectedRows_succ (results : List UInt8) (rows : Nat) :
    selectedRows results (rows + 1) =
      selectedRows results rows ++ if flag results rows then [rows] else [] := by
  rw [selectedRows, List.range_succ, List.filter_append]
  cases h : flag results rows <;> simp [h, selectedRows]

theorem evalResult_eq {results : List UInt8} {rows i : Nat} (hlen : results.length = (rows + 7) / 8)
    (hi : i < rows) : evalResult results i = .ok (flag results i) := by
  have hbyte : i / 8 < results.length := by omega
  rw [evalResult, index_of_lt hbyte, ok_bind, flag, List.getD_eq_getElem _ _ hbyte]
  rfl

section ToColumn

variable {results : List UInt8} {n : Nat} (hlen : results.length = (n + 7) / 8) (fresh : Nat → Page)
include hlen

/-- The inserter of a column of numbers gets the rows selected, one call for each. -/
theorem InnerColumn.toColumn_eq {α : Type} (T : FixedType α) {c : InnerColumn α} (hc : c.Sized n) :
    c.toColumn T fresh results n =
      .ok (ColumnInserter.run T fresh ((selectedRows results n).map c.row?),
        (selectedRows results n).length) := by
  have hrun : (List.range n).foldlM (fun (s : ColumnInserter × Nat) i => do
      if ← evalResult results i then
        if c.isNotNull i then
          let value ← index c.data i
          Except.ok (ColumnInserter.insert T fresh s.1 value, s.2 + 1)
        else .ok (ColumnInserter.insertNull T fresh s.1, s.2 + 1)
      else .ok (s.1, s.2)) (ColumnInserter.init T, 0) =
      .ok (((selectedRows results n).map c.row?).foldl (ColumnInserter.call T fresh)
        (ColumnInserter.init T), (selectedRows results n).length) := by
    refine foldlM_range_trajectory (fun k => (((selectedRows results k).map c.row?).foldl
      (ColumnInserter.call T fresh) (ColumnInserter.init T), (selectedRows results k).length))
      rfl rfl fun i hi => ?_
    have hdata : i < c.data.length := by rw [hc.data]; exact hi
    rw [evalResult_eq hlen hi, selectedRows_succ]
    cases flag results i with
    | false => simp
    | true =>
      cases hnull : c.isNotNull i with
      | false => simp [InnerColumn.row?, hnull, ColumnInserter.call]
      | true => simp [InnerColumn.row?, hnull, index_of_lt hdata, hdata, ColumnInserter.call]
  rw [InnerColumn.toColumn]
  exact bind_eq_ok.mpr ⟨_, hrun, rfl⟩

theorem InnerStrings.toColumn_eq (c : InnerStrings) :
    c.toColumn fresh results n =
      .ok (StringInserter.run fresh ((selectedRows results n).map c.row?),
        (selectedRows results n).length) := by
  have hrun : (List.range n).foldlM (fun (s : StringInserter × Nat) i => do
      if ← evalResult results i then
        if c.isNotNull i then
          Except.ok (StringInserter.insert fresh s.1 (c.value i), s.2 + 1)
        else .ok (StringInserter.insertNull fresh s.1, s.2 + 1)
      else .ok (s.1, s.2)) (StringInserter.init, 0) =
      .ok (((selectedRows results n).map c.row?).foldl (StringInserter.call fresh)
        StringInserter.init, (selectedRows results n).length) := by
    refine foldlM_range_trajectory (fun k => (((selectedRows results k).map c.row?).foldl
      (StringInserter.call fresh) StringInserter.init, (selectedRows results k).length))
      rfl rfl fun i hi => ?_
    rw [evalResult_eq hlen hi, selectedRows_succ]
    cases flag results i with
    | false => simp
    | true =>
      cases hnull : c.isNotNull i with
      | false => simp [InnerStrings.row?, hnull, StringInserter.call]
      | true => simp [InnerStrings.row?, hnull, StringInserter.call]
  rw [InnerStrings.toColumn]
  exact bind_eq_ok.mpr ⟨_, hrun, rfl⟩

/-- The pages made of a column that `push` filled hold the cells of the rows selected. -/
theorem InnerColumnBase.toColumn_holds {type : DataType} (htype : type = .INT32 ∨ type = .VARCHAR)
    {cells : List Data} (hcells : ∀ d ∈ cells, d.HasType type) (hn : cells.length = n) :
    ∃ pages, (ofCells type cells).toColumn fresh results n =
        .ok (pages, (selectedRows results n).length) ∧
      Column.Holds ⟨type, pages⟩ ((selectedRows results n).map fun i => cells.getD i .monostate) := by
  subst hn
  have hrow : ∀ i ∈ selectedRows results cells.length, i < cells.length := fun i hi =>
    List.mem_range.mp (List.mem_of_mem_filter hi)
  rcases htype with rfl | rfl
  · obtain ⟨hsized, hrows⟩ := InnerColumn.ofCells_spec (cells.map int32Type.project)
    rw [List.length_map] at hsized
    have hcol : ofCells .INT32 cells = int32 (InnerColumn.ofCells (cells.map int32Type.project)) :=
      foldl_push_int32 cells .empty
    have hmap : ((selectedRows results cells.length).map
        (InnerColumn.ofCells (cells.map int32Type.project)).row?).map int32Type.cell =
        (selectedRows results cells.length).map fun i => cells.getD i .monostate := by
      rw [List.map_map]
      refine List.map_congr_left fun i hi => ?_
      have hlt := hrow i hi
      rw [Function.comp_apply, hrows i (by simpa using hlt), List.getElem_map,
        int32Type.cell_project (hcells _ (List.getElem_mem hlt)), List.getD_eq_getElem _ _ hlt]
    refine ⟨_, by rw [hcol]; exact InnerColumn.toColumn_eq hlen fresh int32Type hsized, ?_⟩
    rw [← hmap]
    exact .int32 (ColumnInserter.run_holds (Nat.le_refl 4) fresh _)
  · obtain ⟨-, -, hrows⟩ := InnerStrings.ofCells_spec (cells.map VarcharWriter.project)
    have hcol : ofCells .VARCHAR cells =
        varchar (InnerStrings.ofCells (cells.map VarcharWriter.project)) :=
      foldl_push_varchar cells .empty
    have hmap : ((selectedRows results cells.length).map
        (InnerStrings.ofCells (cells.map VarcharWriter.project)).row?).map varcharCell =
        (selectedRows results cells.length).map fun i => cells.getD i .monostate := by
      rw [List.map_map]
      refine List.map_congr_left fun i hi => ?_
      have hlt := hrow i hi
      have hd := hcells _ (List.getElem_mem hlt)
      rw [Function.comp_apply, hrows i (by simpa using hlt), List.getElem_map,
        List.getD_eq_getElem _ _ hlt]
      cases hcell : cells[i] <;> simp_all [Data.HasType, VarcharWriter.project, varcharCell]
    refine ⟨_, by rw [hcol]; exact InnerStrings.toColumn_eq hlen fresh _, ?_⟩
    rw [← hmap]
    exact .varchar (StringInserter.run_holds fresh _)

end ToColumn

/-! ### The columns that the records fill -/

/-- The columns that a list of records fills. -/
def columnsOf (types : List DataType) (records : List (List Data)) : List InnerColumnBase :=
  types.zipIdx.map fun (type, j) =>
    InnerColumnBase.ofCells type (records.map fun record => record.getD j .monostate)

@[simp] theorem length_columnsOf (types : List DataType) (records : List (List Data)) :
    (columnsOf types records).length = types.length := by simp [columnsOf]

theorem getElem_columnsOf {types : List DataType} {records : List (List Data)} {j : Nat}
    (hj : j < (columnsOf types records).length) (hj' : j < types.length) :
    (columnsOf types records)[j] =
      InnerColumnBase.ofCells types[j] (records.map fun record => record.getD j .monostate) := by
  simp [columnsOf]

namespace InnerTable

/-- Each field goes to the column of its place. -/
theorem addRecord_eq {types : List DataType} {t : InnerTable} {record : List Data}
    (hrecord : record.length = types.length) (hcolumns : t.columns.length = types.length) :
    t.addRecord types record =
      .ok ⟨t.rows + 1, List.zipWith InnerColumnBase.push t.columns record⟩ := by
  have hrun : record.zipIdx.foldlM (fun (columns : List InnerColumnBase) (p : Data × Nat) => do
      let _ ← index types p.2
      let column ← index columns p.2
      Except.ok (columns.set p.2 (column.push p.1))) t.columns =
      .ok (List.zipWith InnerColumnBase.push t.columns record) := by
    refine foldlM_trajectory (fun i =>
      List.zipWith InnerColumnBase.push (t.columns.take i) (record.take i) ++ t.columns.drop i)
      (by simp) ?_ fun i hi => ?_
    · rw [List.take_of_length_le (by simp; omega), List.take_of_length_le (by simp),
        List.drop_of_length_le (by simp; omega), List.append_nil]
    · have hrec : i < record.length := by simpa using hi
      have htype : i < types.length := by omega
      have hcol : i < t.columns.length := by omega
      have hzip : (List.zipWith InnerColumnBase.push (t.columns.take i) (record.take i)).length = i := by
        simp
        omega
      have hget : (List.zipWith InnerColumnBase.push (t.columns.take i) (record.take i) ++
          t.columns.drop i)[i]? = some t.columns[i] := by
        rw [List.getElem?_append_right (by omega), hzip, Nat.sub_self, List.getElem?_drop]
        simp [hcol]
      simp only [List.getElem_zipIdx, Nat.zero_add]
      rw [index_of_lt htype, ok_bind, index_eq_ok.mpr hget, ok_bind,
        List.set_append_right _ _ (by omega), hzip, Nat.sub_self,
        List.take_succ_eq_append_getElem hcol, List.take_succ_eq_append_getElem hrec,
        List.zipWith_append (by simp; omega), List.drop_eq_getElem_cons hcol, List.set_cons_zero]
      simp
  rw [addRecord]
  exact bind_eq_ok.mpr ⟨_, hrun, rfl⟩

theorem push_columnsOf {types : List DataType} (records : List (List Data)) {record : List Data}
    (hrecord : record.length = types.length) :
    List.zipWith InnerColumnBase.push (columnsOf types records) record =
      columnsOf types (records ++ [record]) := by
  refine List.ext_getElem (by simp [hrecord]) fun j hj hj' => ?_
  have hlt : j < types.length := by simpa using hj'
  rw [List.getElem_zipWith, getElem_columnsOf _ hlt, getElem_columnsOf _ hlt, List.map_append,
    InnerColumnBase.ofCells, InnerColumnBase.ofCells, List.foldl_append]
  simp [hrecord, hlt]

/-- Records of one field for each column fill the columns. -/
theorem addRecords_eq {types : List DataType} {records : List (List Data)}
    (h : ∀ record ∈ records, record.length = types.length) :
    records.foldlM (addRecord types) (empty types) = .ok ⟨records.length, columnsOf types records⟩ := by
  refine foldlM_trajectory (fun i => ⟨i, columnsOf types (records.take i)⟩) ?_ (by simp) fun i hi => ?_
  · have hmap : (types.zipIdx.map fun p => InnerColumnBase.ofType p.1) =
        types.map InnerColumnBase.ofType := by
      conv_rhs => rw [← List.zipIdx_map_fst 0 types, List.map_map]
      rfl
    rw [empty, ← hmap]
    rfl
  · have hrecord := h _ (List.getElem_mem hi)
    rw [addRecord_eq hrecord (by simp), push_columnsOf _ hrecord, List.take_succ_eq_append_getElem hi]

end InnerTable

/-! ### The result columns -/

/-- The records whose bit is set, in their order. -/
def selectedRecords (results : List UInt8) (records : List (List Data)) : List (List Data) :=
  (selectedRows results records.length).map fun i => records.getD i []

section Compact

variable {types : List DataType} {records : List (List Data)} {results : List UInt8}

theorem selectedRecords_column (j : Nat) :
    (selectedRecords results records).map (fun record => record.getD j .monostate) =
      (selectedRows results records.length).map fun i =>
        (records.map fun record => record.getD j .monostate).getD i .monostate := by
  rw [selectedRecords, List.map_map]
  refine List.map_congr_left fun i hi => ?_
  have hlt : i < records.length := List.mem_range.mp (List.mem_of_mem_filter hi)
  simp [hlt]

theorem length_of_mem_selectedRecords (h : ∀ record ∈ records, record.length = types.length) :
    ∀ record ∈ selectedRecords results records, record.length = types.length := by
  intro record hmem
  obtain ⟨i, hi, rfl⟩ := List.mem_map.mp hmem
  have hlt : i < records.length := List.mem_range.mp (List.mem_of_mem_filter hi)
  rw [List.getD_eq_getElem _ _ hlt]
  exact h _ (List.getElem_mem hlt)

/-- Each task writes the column of its place; each sets the same number of rows. -/
theorem compact_holds (htypes : ∀ type ∈ types, type = .INT32 ∨ type = .VARCHAR) (hne : types ≠ [])
    (hrecords : (Table.mk records types).WellTyped) (hlen : results.length = (records.length + 7) / 8)
    (fresh : Nat → Nat → Page) {order : List Nat} (horder : order.Perm (List.range types.length))
    (retRows : Nat) :
    ∃ ct, compact fresh ⟨records.length, columnsOf types records⟩ results order retRows = .ok ct ∧
      ct.Holds ⟨selectedRecords results records, types⟩ := by
  have hcolumn (j : Nat) (hj : j < types.length) :
      ∃ pages, (InnerColumnBase.ofCells types[j]
          (records.map fun record => record.getD j .monostate)).toColumn (fresh j) results
            records.length = .ok (pages, (selectedRows results records.length).length) ∧
        Column.Holds ⟨types[j], pages⟩
          ((selectedRecords results records).map fun record => record.getD j .monostate) := by
    rw [selectedRecords_column]
    refine InnerColumnBase.toColumn_holds hlen (fresh j) (htypes _ (List.getElem_mem hj)) ?_ (by simp)
    intro d hd
    obtain ⟨record, hrecord, rfl⟩ := List.mem_map.mp hd
    have hrec := hrecords record hrecord
    have hlt : j < record.length := by rw [hrec.length_eq]; exact hj
    rw [List.getD_eq_getElem _ _ hlt]
    exact hrec.get hlt hj
  have hmem : ∀ j ∈ order, j < types.length := fun j hj => List.mem_range.mp (horder.subset hj)
  -- of the tasks done, each has its column; of all, each column has its type
  obtain ⟨⟨columns, rows⟩, hrun, hlength, hdone, hrows⟩ := foldlM_total
    (f := fun (s : List Column × Nat) columnIdx => do
      let column ← index (columnsOf types records) columnIdx
      let target ← index s.1 columnIdx
      let (pages, filteredRows) ← column.toColumn (fresh columnIdx) results records.length
      Except.ok (s.1.set columnIdx { target with pages }, filteredRows))
    (P := fun done s => s.1.length = types.length ∧
      (∀ j (hj : j < types.length), ∃ pages, s.1[j]? = some ⟨types[j], pages⟩ ∧
        (j ∈ done → Column.Holds ⟨types[j], pages⟩
          ((selectedRecords results records).map fun record => record.getD j .monostate))) ∧
      (done ≠ [] → s.2 = (selectedRows results records.length).length))
    order ((columnsOf types records).map fun column => ⟨column.type, []⟩, retRows)
    ⟨by simp, fun j hj => ⟨[], by simp [getElem_columnsOf, hj], by simp⟩, by simp⟩
    fun done j s hj ⟨hlength, hdone, _⟩ => by
      have hlt := hmem j hj
      obtain ⟨pages, hpages, hholds⟩ := hcolumn j hlt
      obtain ⟨old, hold, -⟩ := hdone j hlt
      have hcol : j < (columnsOf types records).length := by simpa using hlt
      refine ⟨(s.1.set j ⟨types[j], pages⟩, _), ?_, by simpa using hlength, fun k hk => ?_, fun _ => rfl⟩
      · rw [index_of_lt hcol, ok_bind, index_eq_ok.mpr hold, ok_bind, getElem_columnsOf hcol hlt, hpages]
        rfl
      · by_cases hjk : j = k
        · subst hjk
          exact ⟨pages, by simp [hlength, hlt], fun _ => hholds⟩
        · obtain ⟨old, hold, hkeep⟩ := hdone k hk
          refine ⟨old, by simpa [hjk] using hold, fun hmem => hkeep ?_⟩
          simpa [Ne.symm hjk] using hmem
  have hsome : order ≠ [] := by
    rintro rfl
    exact hne (List.eq_nil_of_length_eq_zero (by simpa using horder.length_eq.symm))
  refine ⟨⟨rows, columns⟩, bind_eq_ok.mpr ⟨_, hrun, rfl⟩, ?_, hlength, fun j hj => ?_⟩
  · simpa [selectedRecords] using hrows hsome
  · have hlt : j < types.length := by rw [← hlength]; exact hj
    obtain ⟨pages, hpages, hholds⟩ := hdone j hlt
    have hget : columns[j] = ⟨types[j], pages⟩ := by
      rw [List.getElem?_eq_getElem hj] at hpages
      exact Option.some.inj hpages
    rw [hget]
    exact ⟨rfl, hholds (horder.symm.subset (List.mem_range.mpr hlt))⟩

end Compact

/-- For every sequence of records pushed into columns of integers and strings, every bitmap of results and
every order in which the tasks of the columns finish: the table made decodes to the records whose bit is
set, in their order, and its row count is the number of bits set among those of the rows.  The tables of
the schema have columns: without any, nothing would set `ret_rows`. -/
theorem fromColumnar_compact {types : List DataType} (hne : types ≠ [])
    (htypes : ∀ type ∈ types, type = .INT32 ∨ type = .VARCHAR) {records : List (List Data)}
    (hrecords : (Table.mk records types).WellTyped) {results : List UInt8}
    (hlen : results.length = (records.length + 7) / 8) (fresh : Nat → Nat → Page) {order : List Nat}
    (horder : order.Perm (List.range types.length)) (retRows : Nat) :
    ∃ table ct, records.foldlM (InnerTable.addRecord types) (InnerTable.empty types) = .ok table ∧
      compact fresh table results order retRows = .ok ct ∧
      fromColumnar ct = .ok ⟨selectedRecords results records, types⟩ ∧
      ct.numRows = (List.range records.length).countP (flag results) := by
  have hwidth : ∀ record ∈ records, record.length = types.length := fun record hrecord =>
    (hrecords record hrecord).length_eq
  obtain ⟨ct, hcompact, hholds⟩ := compact_holds htypes hne hrecords hlen fresh horder retRows
  refine ⟨_, ct, InnerTable.addRecords_eq hwidth, hcompact,
    fromColumnar_eq hholds (length_of_mem_selectedRecords hwidth), ?_⟩
  rw [hholds.numRows, List.countP_eq_length_filter]
  simp [selectedRecords, selectedRows]

/-- Two rows of an integer and a string, the second of them selected; the six bits behind are set. -/
theorem fromColumnar_compact_two : ∃ table ct,
    [[.int32 1, .string [97]], [.monostate, .string []]].foldlM
      (InnerTable.addRecord [.INT32, .VARCHAR]) (InnerTable.empty [.INT32, .VARCHAR]) = .ok table ∧
    compact (fun _ _ => ⟨fun _ => 0⟩) table [0xfe] [1, 0] 7 = .ok ct ∧
    fromColumnar ct = .ok ⟨selectedRecords [0xfe] [[.int32 1, .string [97]], [.monostate, .string []]],
      [.INT32, .VARCHAR]⟩ ∧
    ct.numRows = (List.range 2).countP (flag [0xfe]) :=
  fromColumnar_compact (by simp) (by simp) (by simp [Table.WellTyped, Data.HasType]) rfl _
    (List.Perm.swap 0 1 []) 7

end JoinOptimizer
