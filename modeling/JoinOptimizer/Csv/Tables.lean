import JoinOptimizer.Csv.Load

/-! The table that the records of a file make, whatever the types of its columns: each record that
`add_record` gets has one cell for each column, and the columns hold the cells of the records. -/

namespace JoinOptimizer

open Lib CSVParser

/-! ### The columns that records fill -/

/-- A column that cells of its type fill has them in its rows. -/
theorem InnerColumnBase.ofCells_spec {type : DataType} (htype : type = .INT32 ∨ type = .VARCHAR)
    {cells : List Data} (hcells : ∀ d ∈ cells, d.HasType type) :
    (ofCells type cells).Sized cells.length ∧
      ∀ i (h : i < cells.length), (ofCells type cells).cell i = cells[i] := by
  rcases htype with rfl | rfl
  · obtain ⟨hsized, hrows⟩ := InnerColumn.ofCells_spec (cells.map int32Type.project)
    rw [List.length_map] at hsized
    have hcol : ofCells .INT32 cells = int32 (InnerColumn.ofCells (cells.map int32Type.project)) :=
      foldl_push_int32 cells .empty
    rw [hcol]
    refine ⟨hsized, fun i hi => ?_⟩
    have hd := hcells _ (List.getElem_mem hi)
    rw [cell, hrows i (by simpa using hi), List.getElem_map]
    cases hcell : cells[i] <;> simp_all [Data.HasType, int32Type]
  · obtain ⟨hsized, -, hrows⟩ := InnerStrings.ofCells_spec (cells.map VarcharWriter.project)
    rw [List.length_map] at hsized
    have hcol : ofCells .VARCHAR cells =
        varchar (InnerStrings.ofCells (cells.map VarcharWriter.project)) :=
      foldl_push_varchar cells .empty
    rw [hcol]
    refine ⟨hsized, fun i hi => ?_⟩
    have hd := hcells _ (List.getElem_mem hi)
    rw [cell, hrows i (by simpa using hi), List.getElem_map]
    cases hcell : cells[i] <;> simp_all [Data.HasType, VarcharWriter.project]

section Columns

variable {types : List DataType} (htypes : ∀ type ∈ types, type = .INT32 ∨ type = .VARCHAR)
  {records : List (List Data)} (hrecords : (Table.mk records types).WellTyped)
include hrecords

theorem column_hasType {j : Nat} (hj : j < types.length) :
    ∀ d ∈ records.map (fun record => record.getD j .monostate), d.HasType types[j] := by
  intro d hd
  obtain ⟨record, hrecord, rfl⟩ := List.mem_map.mp hd
  have hrec := hrecords record hrecord
  have hlt : j < record.length := by
    rw [hrec.length_eq]
    exact hj
  rw [List.getD_eq_getElem _ _ hlt]
  exact hrec.get hlt hj

include htypes

theorem sized_columnsOf : ∀ base ∈ columnsOf types records, base.Sized records.length := by
  intro base hbase
  obtain ⟨j, hj, rfl⟩ := List.getElem_of_mem hbase
  have hlt : j < types.length := by simpa using hj
  have hspec := InnerColumnBase.ofCells_spec (htypes _ (List.getElem_mem hlt))
    (column_hasType hrecords hlt)
  rw [getElem_columnsOf hj hlt]
  simpa using hspec.1

/-- The record of a row is the one that was added for it. -/
theorem recordAt_columnsOf {i : Nat} (hi : i < records.length) :
    recordAt (columnsOf types records) i = records[i] := by
  have hrec := hrecords _ (List.getElem_mem hi)
  refine List.ext_getElem (by simp [recordAt, hrec.length_eq]) fun j hj hj' => ?_
  have hlt : j < types.length := by simpa [recordAt] using hj
  have hspec := InnerColumnBase.ofCells_spec (htypes _ (List.getElem_mem hlt))
    (column_hasType hrecords hlt)
  have hcell := hspec.2 i (by simpa using hi)
  simp only [recordAt, List.getElem_map]
  rw [getElem_columnsOf (by simpa using hlt) hlt, hcell, List.getElem_map,
    List.getD_eq_getElem _ _ hj']

end Columns

/-! ### The records that a file makes -/

section Records

variable {out : Outside} {types : List DataType} {header : Bool}

/-- A cell as a field makes it: of the type of its column, and no empty string. -/
def Data.Read (d : Data) (type : DataType) : Prop := d.HasType type ∧ d ≠ .string []

/-- The table of the parser holds records of one cell for each column. -/
def TableParser.Built (types : List DataType) (s : TableParser) : Prop :=
  ∃ records, (∀ record ∈ records, List.Forall₂ Data.Read record types) ∧
    s.table = ⟨records.length, columnsOf types records⟩

/-- What waits before the field of column `col`: the cells of the columns before it, or more than those. -/
def TableParser.Waits (types : List DataType) (col : Nat) (s : TableParser) : Prop :=
  col < types.length → List.Forall₂ Data.Read s.lastRecord (types.take col) ∨ col < s.lastRecord.length

theorem TableParser.waits_zero (s : TableParser) : s.Waits types 0 := by
  intro _
  cases hlast : s.lastRecord with
  | nil => exact .inl .nil
  | cons d rest => exact .inr (Nat.succ_pos _)

theorem parseField_read {type : DataType} {text : Bytes} (htext : text ≠ []) {d : Data}
    (h : parseField out type text = .ok d) : d.Read type := by
  cases type with
  | VARCHAR =>
    cases h
    exact ⟨trivial, fun hempty => htext (Data.string.inj hempty)⟩
  | INT32 | INT64 | FP64 =>
    unfold parseField at h
    dsimp only at h
    split at h
    · cases h
      exact ⟨trivial, by simp⟩
    · cases h

/-- The cell of a field, and what becomes of it. -/
theorem TableParser.onField_data {i col : Nat} (hi : (i : Int) + rowOff header ≠ -1) {field : Bytes}
    {s s' : TableParser} (h : onField out types header s ⟨col, i, field⟩ = .ok s') :
    ∃ data : Data, (∀ hcol : col < types.length, data.Read types[col]) ∧
      (if col + 1 = types.length then do
        .ok ⟨[], ← s.table.addRecord types (s.lastRecord ++ [data])⟩
      else .ok ⟨s.lastRecord ++ [data], s.table⟩) = (Except.ok s' : Result TableParser) := by
  rw [onField, if_neg hi] at h
  dsimp only at h
  split at h
  · exact ⟨.monostate, fun _ => ⟨trivial, by simp⟩, h⟩
  · next hfield =>
    obtain ⟨type, htype, h⟩ := bind_eq_ok.mp h
    obtain ⟨data, hdata, h⟩ := bind_eq_ok.mp h
    refine ⟨data, fun hcol => ?_, h⟩
    rw [index_of_lt hcol] at htype
    exact Except.ok.inj htype ▸ parseField_read (mt List.length_eq_zero_iff.mpr hfield) hdata

/-- One field of a row that is not the header. -/
theorem TableParser.onField_built {i col : Nat} (hi : (i : Int) + rowOff header ≠ -1) {field : Bytes}
    {s s' : TableParser} (hbuilt : s.Built types) (hwaits : s.Waits types col)
    (h : onField out types header s ⟨col, i, field⟩ = .ok s') :
    s'.Built types ∧ s'.Waits types (col + 1) := by
  obtain ⟨data, htyped, h⟩ := onField_data hi h
  have hnext : ∀ hcol : col < types.length,
      List.Forall₂ Data.Read (s.lastRecord ++ [data]) (types.take (col + 1)) ∨
        col + 1 < (s.lastRecord ++ [data]).length := by
    intro hcol
    refine (hwaits hcol).imp (fun hcells => ?_) fun hlong => ?_
    · rw [List.take_succ_eq_append_getElem hcol]
      exact List.rel_append hcells (.cons (htyped hcol) .nil)
    · rw [List.length_append]
      exact Nat.succ_lt_succ hlong
  split at h
  · next hlast =>
    obtain ⟨table, htable, h⟩ := bind_eq_ok.mp h
    cases h
    obtain ⟨records, hrecords, hcolumns⟩ := hbuilt
    have hlength : s.table.columns.length = types.length := by
      rw [hcolumns]
      exact length_columnsOf types records
    rcases hnext (by omega) with hcells | hlong
    · rw [hlast, List.take_length] at hcells
      have hrecord := hcells.length_eq
      rw [InnerTable.addRecord_eq hrecord hlength, hcolumns] at htable
      refine ⟨⟨records ++ [s.lastRecord ++ [data]], ?_, ?_⟩, fun hcol => absurd hcol (by omega)⟩
      · intro record hmem
        rcases List.mem_append.mp hmem with hmem | hmem
        · exact hrecords record hmem
        · rw [List.mem_singleton.mp hmem]
          exact hcells
      · rw [← Except.ok.inj htable, InnerTable.push_columnsOf records hrecord, List.length_append]
        rfl
    · rw [hlast] at hlong
      rw [InnerTable.addRecord_long hlong hlength] at htable
      cases htable
  · next hlast =>
    cases h
    exact ⟨hbuilt, fun hcol => hnext (Nat.lt_of_succ_lt hcol)⟩

/-- All fields of a row that is not the header. -/
theorem TableParser.fields_built {i : Nat} (hi : (i : Int) + rowOff header ≠ -1) (fields : List Bytes)
    {col : Nat} {s s' : TableParser} (hbuilt : s.Built types) (hwaits : s.Waits types col)
    (h : (fieldCalls i col fields).foldlM (onField out types header) s = .ok s') : s'.Built types := by
  induction fields generalizing col s with
  | nil =>
    cases h
    exact hbuilt
  | cons field fields ih =>
    rw [fieldCalls_cons, foldlM_cons_eq_ok] at h
    obtain ⟨t, ht, h⟩ := h
    obtain ⟨hbuilt', hwaits'⟩ := onField_built hi hbuilt hwaits ht
    exact ih hbuilt' hwaits' h

/-- The fields of the header are passed over. -/
theorem TableParser.header_kept {i : Nat} (hi : (i : Int) + rowOff header = -1) (calls : List OnField)
    (hcalls : ∀ call ∈ calls, call.rowIdx = i) (s : TableParser) :
    calls.foldlM (onField out types header) s = .ok s := by
  induction calls with
  | nil => rfl
  | cons call calls ih =>
    have hrow : call.rowIdx = i := hcalls call List.mem_cons_self
    rw [List.foldlM_cons, onField, if_pos (by rw [hrow]; exact hi), ok_bind]
    exact ih fun call hcall => hcalls call (List.mem_cons_of_mem _ hcall)

theorem TableParser.rows_built (rows : List (List Bytes)) {i : Nat} {s s' : TableParser}
    (hbuilt : s.Built types) (h : (rowsCalls i rows).foldlM (onField out types header) s = .ok s') :
    s'.Built types := by
  induction rows generalizing i s with
  | nil =>
    cases h
    exact hbuilt
  | cons row rows ih =>
    rw [rowsCalls, foldlM_append_eq_ok] at h
    obtain ⟨t, ht, h⟩ := h
    refine ih ?_ h
    by_cases hi : (i : Int) + rowOff header = -1
    · have hrow : ∀ call ∈ rowCalls i row, call.rowIdx = i := by
        intro call hcall
        obtain ⟨f, -, rfl⟩ := List.mem_map.mp hcall
        rfl
      rw [header_kept hi _ hrow] at ht
      cases ht
      exact hbuilt
    · exact fields_built hi row hbuilt s.waits_zero ht

/-- A file that loads makes a table of records, each with one cell for each column. -/
theorem loadTable_read {content : Bytes} {table : InnerTable}
    (h : loadTable out types header content = .ok table) :
    ∃ records, (∀ record ∈ records, List.Forall₂ Data.Read record types) ∧
      table = ⟨records.length, columnsOf types records⟩ := by
  unfold loadTable at h
  obtain ⟨s, hrun, h⟩ := bind_eq_ok.mp h
  have hcalls := congrArg Prod.snd (parse_seen (readBuffers_spec content).2)
  have hcalls : ((new backslash separator false).parse (readBuffers content)).calls = _ := hcalls
  rw [hcalls] at hrun
  have hempty : TableParser.Built types ⟨[], .empty types⟩ := by
    have hcolumns := InnerTable.addRecords_eq
      (show ∀ record ∈ ([] : List (List Data)), record.length = types.length by simp)
    exact ⟨[], (fun record hrecord => by cases hrecord), Except.ok.inj hcolumns⟩
  obtain ⟨records, hrecords, htable⟩ := TableParser.rows_built _ hempty hrun
  split at h
  · cases h
    exact ⟨records, hrecords, htable⟩
  · cases h

theorem loadTable_records {content : Bytes} {table : InnerTable}
    (h : loadTable out types header content = .ok table) :
    ∃ records, (Table.mk records types).WellTyped ∧ table = ⟨records.length, columnsOf types records⟩ := by
  obtain ⟨records, hrecords, htable⟩ := loadTable_read h
  exact ⟨records, fun record hrecord => (hrecords record hrecord).imp fun _ _ hd => hd.1, htable⟩

/-- Without numbers of type FP64 nothing from elsewhere is asked. -/
theorem loadTable_congr (htypes : ∀ type ∈ types, type = .INT32 ∨ type = .VARCHAR) (out' : Outside)
    (content : Bytes) : loadTable out types header content = loadTable out' types header content := by
  have hfield : ∀ type ∈ types, ∀ text, parseField out type text = parseField out' type text := by
    intro type htype text
    rcases htypes type htype with rfl | rfl <;> rfl
  have honField : TableParser.onField out types header = TableParser.onField out' types header := by
    funext s call
    unfold TableParser.onField
    cases hindex : index types call.colIdx with
    | error e => rfl
    | ok type =>
      simp only [ok_bind, hfield type (List.mem_of_getElem? (index_eq_ok.mp hindex))]
  unfold loadTable
  rw [honField]

end Records

/-- The rows that a file makes under a schema. -/
def csvTable (out : Outside) (types : List DataType) (header : Bool) (content : Bytes) : Result Table := do
  let table ← loadTable out types header content
  .ok ⟨(List.range table.rows).map (recordAt table.columns), types⟩

/-- The table of a file and its rows. -/
theorem loadTable_eq_ok_iff {out : Outside} {types : List DataType}
    (htypes : ∀ type ∈ types, type = .INT32 ∨ type = .VARCHAR) {header : Bool} {content : Bytes}
    {table : InnerTable} : loadTable out types header content = .ok table ↔
      ∃ t, csvTable out types header content = .ok t ∧ t.types = types ∧ t.WellTyped ∧
        table = ⟨t.data.length, columnsOf types t.data⟩ := by
  have hcsv : ∀ {table}, loadTable out types header content = .ok table →
      ∃ t, csvTable out types header content = .ok t ∧ t.types = types ∧ t.WellTyped ∧
        table = ⟨t.data.length, columnsOf types t.data⟩ := by
    intro table h
    obtain ⟨records, hrecords, rfl⟩ := loadTable_records h
    have hrows : (List.range records.length).map (recordAt (columnsOf types records)) = records := by
      refine List.ext_getElem (by simp) fun i hi hi' => ?_
      rw [List.getElem_map, List.getElem_range, recordAt_columnsOf htypes hrecords hi']
    refine ⟨⟨records, types⟩, ?_, rfl, hrecords, rfl⟩
    rw [csvTable, h, ok_bind, hrows]
  refine ⟨hcsv, fun ⟨t, ht, htyp, hwell, htable⟩ => ?_⟩
  cases hload : loadTable out types header content with
  | error e =>
    rw [csvTable, hload] at ht
    cases ht
  | ok table' =>
    obtain ⟨t', ht', -, -, rfl⟩ := hcsv hload
    obtain rfl : t = t' := Except.ok.inj (ht.symm.trans ht')
    rw [htable]

theorem csvTable_spec {out : Outside} {types : List DataType}
    (htypes : ∀ type ∈ types, type = .INT32 ∨ type = .VARCHAR) {header : Bool} {content : Bytes} {t : Table}
    (h : csvTable out types header content = .ok t) : t.types = types ∧ t.WellTyped := by
  obtain ⟨table, hload, -⟩ := bind_eq_ok.mp h
  obtain ⟨t', ht', htypes', hwell, -⟩ := (loadTable_eq_ok_iff htypes).mp hload
  obtain rfl : t = t' := Except.ok.inj (h.symm.trans ht')
  exact ⟨htypes', hwell⟩

theorem csvTable_congr {out : Outside} {types : List DataType}
    (htypes : ∀ type ∈ types, type = .INT32 ∨ type = .VARCHAR) {header : Bool} (out' : Outside)
    (content : Bytes) : csvTable out types header content = csvTable out' types header content := by
  unfold csvTable
  rw [loadTable_congr htypes out' content]

end JoinOptimizer
