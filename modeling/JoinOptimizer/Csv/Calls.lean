import JoinOptimizer.Csv.Tables
import JoinOptimizer.Lib.Memo

/-! `from_csv` over the calls of a process, in which each call finds in `table_cache` and `result_cache`
what the calls before it have read. -/

namespace JoinOptimizer

open Lib CSVParser

/-! ### Rows that a filter selects -/

namespace Comparison

theorem fits_congr {c : Comparison} {base base' : InnerColumnBase} (h : base.type = base'.type) :
    c.Fits base ↔ c.Fits base' := by
  cases base <;> cases base' <;> first | exact Iff.rfl | cases h

end Comparison

namespace Statement

/-- Whether a filter fits columns is a matter of their types. -/
theorem fits_congr {table table' : List InnerColumnBase}
    (h : table.map InnerColumnBase.type = table'.map InnerColumnBase.type) (s : Statement) :
    s.Fits table ↔ s.Fits table' := by
  have hone : ∀ {table table' : List InnerColumnBase} (c : Comparison),
      table.map InnerColumnBase.type = table'.map InnerColumnBase.type →
      (comparison c).Fits table → (comparison c).Fits table' := by
    rintro table table' c h ⟨base, hbase, hfits⟩
    have hget : (table'.map InnerColumnBase.type)[c.column]? = some base.type := by
      rw [← h, List.getElem?_map, hbase]
      rfl
    rw [List.getElem?_map, Option.map_eq_some_iff] at hget
    obtain ⟨base', hbase', htype⟩ := hget
    exact ⟨base', hbase', (Comparison.fits_congr htype.symm).mp hfits⟩
  induction s with
  | comparison c => exact ⟨hone c h, hone c h.symm⟩
  | makeAnd l r ihl ihr | makeOr l r ihl ihr => exact and_congr ihl ihr
  | makeNot child ih => exact ih

end Statement

/-- The rows that a filter selects, all where there is none. -/
def Table.selectedBy (re2 : RE2) (filter : Option Statement) (t : Table) : Table where
  data := match filter with
    | some filter => t.data.filter (filter.selects re2)
    | none => t.data
  types := t.types

theorem Table.WellTyped.selectedBy {t : Table} (h : t.WellTyped) (re2 : RE2) (filter : Option Statement) :
    (t.selectedBy re2 filter).WellTyped := by
  cases filter with
  | none => exact h
  | some filter => exact fun record hrecord => h record (List.mem_of_mem_filter hrecord)

/-- A bitmap that answers for each record by itself selects as a filter of the list. -/
theorem selectedRecords_eq_filter {results : List UInt8} {records : List (List Data)}
    {p : List Data → Bool} (h : ∀ i (hi : i < records.length), flag results i = p records[i]) :
    selectedRecords results records = records.filter p := by
  have hrecords : (List.range records.length).map (fun i => records.getD i []) = records := by
    refine List.ext_getElem (by simp) fun i hi hi' => ?_
    rw [List.getElem_map, List.getElem_range, List.getD_eq_getElem _ _ hi']
  conv_rhs => rw [← hrecords, List.filter_map]
  unfold selectedRecords selectedRows
  congr 1
  refine List.filter_congr fun i hi => ?_
  have hlt := List.mem_range.mp hi
  rw [Function.comp_apply, List.getD_eq_getElem _ _ hlt]
  exact h i hlt

section Filter

variable {t : Table} (htypes : ∀ type ∈ t.types, type = .INT32 ∨ type = .VARCHAR) (hwell : t.WellTyped)
include htypes hwell

/-- The columns of a table under a filter that fits them. -/
theorem compact_selectedBy (hne : t.types ≠ []) (out : Outside)
    (horder : out.order.Perm (List.range t.types.length)) {filter : Option Statement}
    (hfits : ∀ s, filter = some s → s.Fits (t.types.map InnerColumnBase.ofType)) :
    ∃ results ct,
      (match filter with
        | some filter => filter.evalTable out.re2 (columnsOf t.types t.data)
        | none => .ok (List.replicate ((t.data.length + 7) / 8) 0xff)) = .ok results ∧
      compact out.fresh ⟨t.data.length, columnsOf t.types t.data⟩ results out.order out.retRows = .ok ct ∧
      ct.Holds (t.selectedBy out.re2 filter) := by
  cases hfilter : filter with
  | none =>
    obtain ⟨ct, hcompact, hholds⟩ := compact_holds htypes hne hwell
      (List.length_replicate (n := (t.data.length + 7) / 8) (a := (0xff : UInt8))) out.fresh horder out.retRows
    rw [selectedRecords_all] at hholds
    exact ⟨_, ct, rfl, hcompact, hholds⟩
  | some s =>
    have hcolumns : (t.types.map InnerColumnBase.ofType).map InnerColumnBase.type =
        (columnsOf t.types t.data).map InnerColumnBase.type := by
      refine List.ext_getElem (by simp) fun j hj hj' => ?_
      have hlt : j < t.types.length := by simpa using hj
      rw [List.getElem_map, List.getElem_map, List.getElem_map,
        getElem_columnsOf (by simpa using hlt) hlt, InnerColumnBase.type_ofCells]
      exact InnerColumnBase.type_ofCells _ []
    obtain ⟨bits, heval, hlen, hbits⟩ := Statement.evalTable_selects out.re2 (sized_columnsOf htypes hwell)
      ((Statement.fits_congr hcolumns s).mp (hfits s hfilter))
    obtain ⟨ct, hcompact, hholds⟩ := compact_holds htypes hne hwell hlen out.fresh horder out.retRows
    refine ⟨bits, ct, heval, hcompact, ?_⟩
    rw [selectedRecords_eq_filter fun i hi => ?_] at hholds
    · exact hholds
    · rw [hbits i hi, recordAt_columnsOf htypes hwell hi]

end Filter

/-! ### The ways through `from_csv` -/

/-- The table of a path, from the cache or from the file. -/
def readTable (out : Outside) (caches : Caches) (types : List DataType) (path : String)
    (file : Option Bytes) (header : Bool) : Result (InnerTable × Caches) :=
  match caches.tables.lookup path, file with
  | some table, _ => .ok (table, caches)
  | none, none => .error (.runtimeError ("Failed to open file: " ++ path))
  | none, some content => do
    let table ← loadTable out types header content
    .ok (table, { caches with tables := (path, table) :: caches.tables })

/-- The rows of a table that is there. -/
def selectRows (out : Outside) (path : String) (filter : Option Statement) (table : InnerTable)
    (caches : Caches) : Result (ColumnarTable × Caches) := do
  let results ← match filter with
    | some filter => filter.evalTable out.re2 table.columns
    | none => .ok (List.replicate ((table.rows + 7) / 8) 0xff)
  let ret ← compact out.fresh table results out.order out.retRows
  if filter.isNone then .ok (ret, { caches with results := (path, copy ret) :: caches.results })
  else .ok (ret, caches)

section Ways

variable {out : Outside} {caches : Caches} {types : List DataType} {path : String} {file : Option Bytes}
  {filter : Option Statement} {header : Bool}

theorem copy_eq (ct : ColumnarTable) : copy ct = ct := by
  cases ct
  simp [copy]

theorem fromCsv_hit {result : ColumnarTable} (hfilter : filter = none)
    (hresult : caches.results.lookup path = some result) :
    fromCsv out caches types path file filter header = .ok (result, caches) := by
  subst hfilter
  unfold fromCsv
  rw [hresult]
  exact congrArg (fun ct => Except.ok (ct, caches)) (copy_eq result)

theorem fromCsv_miss (hmiss : filter = none → caches.results.lookup path = none) :
    fromCsv out caches types path file filter header =
      readTable out caches types path file header >>= fun r => selectRows out path filter r.1 r.2 := by
  unfold fromCsv readTable
  rcases filter with _ | s
  · rw [hmiss rfl]
    cases caches.tables.lookup path with
    | some table => rfl
    | none =>
      cases file with
      | none => rfl
      | some content => cases hload : loadTable out types header content <;> simp only [hload] <;> rfl
  · cases caches.tables.lookup path with
    | some table => rfl
    | none =>
      cases file with
      | none => rfl
      | some content => cases hload : loadTable out types header content <;> simp only [hload] <;> rfl

/-- The rows of a table that the caches or the file have. -/
theorem selectRows_eq {t : Table} (htypes : ∀ type ∈ t.types, type = .INT32 ∨ type = .VARCHAR)
    (hwell : t.WellTyped) (hne : t.types ≠ []) (horder : out.order.Perm (List.range t.types.length))
    (hfits : ∀ s, filter = some s → s.Fits (t.types.map InnerColumnBase.ofType)) (path : String)
    (caches : Caches) :
    ∃ ct, ct.Holds (t.selectedBy out.re2 filter) ∧
      selectRows out path filter ⟨t.data.length, columnsOf t.types t.data⟩ caches =
        .ok (ct, if filter.isNone then { caches with results := (path, ct) :: caches.results } else caches) := by
  obtain ⟨results, ct, heval, hcompact, hholds⟩ := compact_selectedBy htypes hwell hne out horder hfits
  refine ⟨ct, hholds, ?_⟩
  unfold selectRows
  cases filter with
  | none =>
    cases heval
    simp only [ok_bind, hcompact, Option.isNone_none, if_true, copy_eq]
  | some s =>
    dsimp only at heval ⊢
    rw [heval, ok_bind, hcompact, ok_bind]
    rfl

/-- A call on a path that no call has read. -/
theorem fromCsv_fresh {t : Table} (htypes : ∀ type ∈ t.types, type = .INT32 ∨ type = .VARCHAR)
    (hwell : t.WellTyped) (hne : t.types ≠ []) (horder : out.order.Perm (List.range t.types.length))
    (hfits : ∀ s, filter = some s → s.Fits (t.types.map InnerColumnBase.ofType))
    (htable : caches.tables.lookup path = none) (hresult : filter = none → caches.results.lookup path = none)
    {content : Bytes}
    (hload : loadTable out t.types header content = .ok ⟨t.data.length, columnsOf t.types t.data⟩) :
    ∃ ct caches', fromCsv out caches t.types path (some content) filter header = .ok (ct, caches') ∧
      fromColumnar ct = .ok (t.selectedBy out.re2 filter) := by
  obtain ⟨ct, hholds, hselect⟩ := selectRows_eq htypes hwell hne horder hfits path
    { caches with tables := (path, ⟨t.data.length, columnsOf t.types t.data⟩) :: caches.tables }
  have hdecode := fromColumnar_eq hholds fun record hrecord =>
    (hwell.selectedBy out.re2 filter record hrecord).length_eq
  have hread : readTable out caches t.types path (some content) header =
      .ok (⟨t.data.length, columnsOf t.types t.data⟩,
        { caches with tables := (path, ⟨t.data.length, columnsOf t.types t.data⟩) :: caches.tables }) := by
    unfold readTable
    rw [htable]
    simp only [hload, ok_bind]
  exact ⟨ct, _, by rw [fromCsv_miss hresult, hread, ok_bind, hselect], hdecode⟩

end Ways

/-! ### The calls -/

/-- What the paths lead to, and the types of the columns and the header with which each path is read. -/
structure CsvFiles where
  content : String → Option Bytes
  types : String → List DataType
  header : String → Bool

/-- A call of `from_csv`, with the types of its attributes. -/
structure CsvCall where
  out : Outside
  types : List DataType
  path : String
  filter : Option Statement
  header : Bool

namespace CsvFiles

variable (files : CsvFiles)

/-- A call, behind calls that have left the caches. -/
def call (caches : Caches) (c : CsvCall) : Result (ColumnarTable × Caches) :=
  fromCsv c.out caches c.types c.path (files.content c.path) c.filter c.header

/-- The rows of the file that the filter of a call selects. -/
def rows (c : CsvCall) : Result Table :=
  match files.content c.path with
  | none => .error (.runtimeError ("Failed to open file: " ++ c.path))
  | some content => do
    let table ← csvTable c.out c.types c.header content
    .ok (table.selectedBy c.out.re2 c.filter)

/-- What a call may ask: columns of type INT32 or VARCHAR and a filter that fits them, whose tasks all
finish.  The caches know a table by its path alone, so that a path is always read in one way. -/
structure Allows (c : CsvCall) : Prop where
  types : ∀ type ∈ c.types, type = .INT32 ∨ type = .VARCHAR
  columns : c.types ≠ []
  order : c.out.order.Perm (List.range c.types.length)
  fits : ∀ s, c.filter = some s → s.Fits (c.types.map InnerColumnBase.ofType)
  sameTypes : c.types = files.types c.path
  sameHeader : c.header = files.header c.path

/-- The rows that a path leads to. -/
def Has (path : String) (t : Table) : Prop :=
  ∃ content, files.content path = some content ∧
    ∀ out, csvTable out (files.types path) (files.header path) content = .ok t

/-- The caches hold what the paths lead to. -/
structure Valid (caches : Caches) : Prop where
  tables : Kept (fun path table => ∃ t, files.Has path t ∧ t.types = files.types path ∧ t.WellTyped ∧
    table = ⟨t.data.length, columnsOf t.types t.data⟩) caches.tables
  results : Kept (fun path ct => ∃ t, files.Has path t ∧ t.WellTyped ∧ ct.Holds t) caches.results

variable {files} {caches : Caches} {c : CsvCall}

theorem valid_empty : files.Valid ⟨[], []⟩ := ⟨.nil, .nil⟩

theorem Has.rows (hallows : files.Allows c) {t : Table} (h : files.Has c.path t) :
    files.rows c = .ok (t.selectedBy c.out.re2 c.filter) := by
  obtain ⟨content, hcontent, htable⟩ := h
  unfold CsvFiles.rows
  rw [hcontent, hallows.sameTypes, hallows.sameHeader]
  simp only [htable, ok_bind]

/-- The tasks over a table that is there, and what is kept of their result. -/
theorem Valid.selectRows (hvalid : files.Valid caches) (hallows : files.Allows c) {t : Table}
    (hhas : files.Has c.path t) (htypes : t.types = c.types) (hwell : t.WellTyped) :
    ∃ ct caches', selectRows c.out c.path c.filter ⟨t.data.length, columnsOf t.types t.data⟩ caches =
        .ok (ct, caches') ∧ files.Valid caches' ∧ ct.Holds (t.selectedBy c.out.re2 c.filter) := by
  obtain ⟨ct, hholds, hselect⟩ := selectRows_eq (htypes ▸ hallows.types) hwell
    (htypes ▸ hallows.columns) (htypes ▸ hallows.order) (htypes ▸ hallows.fits) c.path caches
  refine ⟨ct, _, hselect, ?_, hholds⟩
  cases hfilter : c.filter with
  | none =>
    rw [hfilter] at hholds
    exact ⟨hvalid.tables, hvalid.results.cons ⟨t, hhas, hwell, hholds⟩⟩
  | some s => exact hvalid

/-- The table of a path, as the file has it. -/
theorem Valid.readTable (hvalid : files.Valid caches) (hallows : files.Allows c) :
    (∃ e, readTable c.out caches c.types c.path (files.content c.path) c.header = .error e ∧
        files.rows c = .error e) ∨
      ∃ t caches', readTable c.out caches c.types c.path (files.content c.path) c.header =
          .ok (⟨t.data.length, columnsOf t.types t.data⟩, caches') ∧
        files.Valid caches' ∧ files.Has c.path t ∧ t.types = c.types ∧ t.WellTyped := by
  unfold JoinOptimizer.readTable CsvFiles.rows
  cases hkept : caches.tables.lookup c.path with
  | some table =>
    obtain ⟨t, hhas, htypes, hwell, rfl⟩ := hvalid.tables _ _ hkept
    exact .inr ⟨t, caches, rfl, hvalid, hhas, htypes.trans hallows.sameTypes.symm, hwell⟩
  | none =>
    cases hcontent : files.content c.path with
    | none => exact .inl ⟨_, rfl, rfl⟩
    | some content =>
      unfold csvTable
      cases hload : loadTable c.out c.types c.header content with
      | error e =>
        refine .inl ⟨e, ?_, ?_⟩
        · simp only [hload, error_bind]
        · simp only [hload, error_bind]
      | ok table =>
        obtain ⟨t, htable, htypes, hwell, rfl⟩ := (loadTable_eq_ok_iff hallows.types).mp hload
        have hhas : files.Has c.path t := by
          refine ⟨content, hcontent, fun out => ?_⟩
          rw [← hallows.sameTypes, ← hallows.sameHeader, csvTable_congr hallows.types c.out, htable]
        refine .inr ⟨t, { caches with tables := (c.path, _) :: caches.tables }, ?_,
          ⟨hvalid.tables.cons ⟨t, hhas, htypes.trans hallows.sameTypes, hwell, rfl⟩, hvalid.results⟩,
          hhas, htypes, hwell⟩
        simp only [hload, ok_bind, htypes]

/-- A call behind others fails as the reading of its rows does, or makes a table that holds them. -/
theorem Valid.call (hvalid : files.Valid caches) (hallows : files.Allows c) :
    (∃ e, files.call caches c = .error e ∧ files.rows c = .error e) ∨
      ∃ ct caches' t, files.call caches c = .ok (ct, caches') ∧ files.Valid caches' ∧ t.WellTyped ∧
        ct.Holds t ∧ files.rows c = .ok t := by
  unfold CsvFiles.call
  by_cases hhit : c.filter = none ∧ ∃ result, caches.results.lookup c.path = some result
  · obtain ⟨hfilter, result, hresult⟩ := hhit
    obtain ⟨t, hhas, hwell, hholds⟩ := hvalid.results _ _ hresult
    refine .inr ⟨result, caches, t, fromCsv_hit hfilter hresult, hvalid, hwell, hholds, ?_⟩
    rw [hhas.rows hallows, hfilter]
    rfl
  · have hmiss : c.filter = none → caches.results.lookup c.path = none := fun hfilter =>
      Option.eq_none_iff_forall_ne_some.mpr fun result hresult => hhit ⟨hfilter, result, hresult⟩
    rw [fromCsv_miss hmiss]
    rcases hvalid.readTable hallows with ⟨e, hread, hrows⟩ | ⟨t, caches', hread, hvalid', hhas, htypes, hwell⟩
    · refine .inl ⟨e, ?_, hrows⟩
      rw [hread, error_bind]
    · obtain ⟨ct, caches'', hselect, hvalid'', hholds⟩ := hvalid'.selectRows hallows hhas htypes hwell
      refine .inr ⟨ct, caches'', _, ?_, hvalid'', hwell.selectedBy _ _, hholds, hhas.rows hallows⟩
      rw [hread, ok_bind, hselect]

end CsvFiles

/-- The calls of a process are answered with the rows of their files that their filters select, as each of
them is in a process of its own. -/
theorem fromCsv_calls (files : CsvFiles) (calls : List CsvCall) (hallows : ∀ c ∈ calls, files.Allows c) :
    (answers files.call ⟨[], []⟩ calls >>= fun r => r.1.mapM fromColumnar) = calls.mapM files.rows ∧
      ∀ c ∈ calls, (files.call ⟨[], []⟩ c >>= fun r => fromColumnar r.1) = files.rows c := by
  have hdecode : ∀ {ct : ColumnarTable} {t : Table}, t.WellTyped → ct.Holds t → fromColumnar ct = .ok t :=
    fun hwell hholds => fromColumnar_eq hholds fun record hrecord => (hwell record hrecord).length_eq
  constructor
  · refine answers_view (fun caches c hc (hvalid : files.Valid caches) => ?_) CsvFiles.valid_empty
    refine (hvalid.call (hallows c hc)).imp_right ?_
    rintro ⟨ct, caches', t, hcall, hvalid', hwell, hholds, hrows⟩
    exact ⟨ct, caches', t, hcall, hvalid', hdecode hwell hholds, hrows⟩
  · intro c hc
    rcases CsvFiles.valid_empty.call (hallows c hc) with ⟨e, hcall, hrows⟩ |
      ⟨ct, caches', t, hcall, -, hwell, hholds, hrows⟩
    · rw [hcall, hrows, error_bind]
    · rw [hcall, hrows, ok_bind]
      exact hdecode hwell hholds

/-- A file of two rows of one column, and the same bytes behind another path, where they have a header. -/
def twoRows : CsvFiles where
  content path := if path = "t.csv" ∨ path = "u.csv" then some [49, 10, 50, 10] else none
  types _ := [.INT32]
  header path := path = "u.csv"

/-- A call for the rows of more than one, two for all, and one for those of the other path. -/
def twoRowsCalls : List CsvCall :=
  let out : Outside := ⟨fun _ => none, fun _ => none, fun _ _ => ⟨fun _ => 0⟩, [0], 0⟩
  [⟨out, [.INT32], "t.csv", some (.comparison ⟨0, .GT, .int64 1⟩), false⟩,
    ⟨out, [.INT32], "t.csv", none, false⟩, ⟨out, [.INT32], "t.csv", none, false⟩,
    ⟨out, [.INT32], "u.csv", none, true⟩]

/-- Where the columns of the second call come from the first, and the third takes them over. -/
theorem fromCsv_calls_twoRows :
    (answers twoRows.call ⟨[], []⟩ twoRowsCalls >>= fun r => r.1.mapM fromColumnar) =
      .ok [⟨[[.int32 2]], [.INT32]⟩, ⟨[[.int32 1], [.int32 2]], [.INT32]⟩,
        ⟨[[.int32 1], [.int32 2]], [.INT32]⟩, ⟨[[.int32 2]], [.INT32]⟩] := by
  have hallows : ∀ c ∈ twoRowsCalls, twoRows.Allows c := by
    intro c hc
    simp only [twoRowsCalls, List.mem_cons, List.not_mem_nil, or_false] at hc
    rcases hc with rfl | rfl | rfl | rfl
    · refine ⟨by simp, by simp, .refl _, fun s hs => ?_, rfl, rfl⟩
      obtain rfl := Option.some.inj hs
      exact ⟨_, rfl, .inr (.inr ⟨by decide, by decide, 1, rfl⟩)⟩
    · exact ⟨by simp, by simp, .refl _, by simp, rfl, rfl⟩
    · exact ⟨by simp, by simp, .refl _, by simp, rfl, rfl⟩
    · exact ⟨by simp, by simp, .refl _, by simp, rfl, rfl⟩
  rw [(fromCsv_calls twoRows twoRowsCalls hallows).1]
  have hread : readBuffers [49, 10, 50, 10] = [[49, 10, 50, 10]] := by
    simp [readBuffers, bufferSize]
  have htable : ∀ out, csvTable out [.INT32] false [49, 10, 50, 10] =
      .ok ⟨[[.int32 1], [.int32 2]], [.INT32]⟩ := by
    intro out
    unfold csvTable loadTable
    rw [hread]
    rfl
  have hheader : ∀ out, csvTable out [.INT32] true [49, 10, 50, 10] = .ok ⟨[[.int32 2]], [.INT32]⟩ := by
    intro out
    unfold csvTable loadTable
    rw [hread]
    rfl
  simp only [twoRowsCalls, twoRows, CsvFiles.rows, List.mapM_cons, List.mapM_nil, true_or, or_true, if_true,
    htable, hheader, ok_bind]
  rfl

end JoinOptimizer
