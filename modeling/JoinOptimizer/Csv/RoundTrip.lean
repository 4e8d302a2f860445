import JoinOptimizer.Csv.Calls
import JoinOptimizer.Lib.Text
import Mathlib.Data.List.TakeWhile

/-! Tables printed as CSV and what `Table::from_csv` makes of the text: the same rows, except that an
empty string comes back as NULL. -/

namespace JoinOptimizer

open Lib CSVParser

/-! ### Cells -/

/-- The field of a cell.  No column of numbers of type FP64 is printed here. -/
def Data.field : Data → Bytes
  | int32 value => decimalInt value.toInt
  | int64 value => decimalInt value.toInt
  | string value => value
  | fp64 _ | monostate => []

/-- A cell as it comes back: a field without a byte is NULL. -/
def Data.loaded : Data → Data
  | string [] => monostate
  | d => d

/-- The rows of a table as they come back. -/
def Table.loaded (t : Table) : Table := ⟨t.data.map (·.map Data.loaded), t.types⟩

/-- The escape and the separator that `from_csv` gives to its parser. -/
def csvFormat : Format where
  escape := backslash
  sep := separator
  escape_eq := .inr rfl
  sep_ne := by decide

/-- A document has the fields of a table, behind one more record if there is a header. -/
def CSVParser.Document.Prints (doc : Document csvFormat) (header : Bool) (t : Table) : Prop :=
  behindHeader header (doc.records.map (·.map Field.bytes)) = t.data.map (·.map Data.field)

theorem Data.HasType.loaded {d : Data} {type : DataType} (h : d.HasType type) : d.loaded.HasType type := by
  unfold Data.loaded
  split
  · trivial
  · exact h

theorem Table.WellTyped.loaded {t : Table} (h : t.WellTyped) : t.loaded.WellTyped := by
  intro record hrecord
  obtain ⟨cells, hcells, rfl⟩ := List.mem_map.mp hrecord
  rw [List.forall₂_map_left_iff]
  exact (h cells hcells).imp fun _ _ hd => hd.loaded

theorem decimalInt_ne_nil (z : Int) : decimalInt z ≠ [] := by
  obtain ⟨c, cs, hcs, -⟩ := decimalInt_head z
  rw [hcs]
  exact List.cons_ne_nil c cs

/-- `strtoll` reads a number back. -/
theorem strtoll_decimalInt (z : Int) : strtoll (decimalInt z) = some z := by
  have htake : (decimal z.natAbs).takeWhile (fun c => 48 ≤ c && c ≤ 57) = decimal z.natAbs :=
    List.takeWhile_eq_self_iff.mpr isDigit_decimal
  have hvalue := foldl_digits (isDigit_decimal (n := z.natAbs))
  rw [ofDecimal_decimal] at hvalue
  have hne := decimal_ne_nil z.natAbs
  unfold strtoll decimalInt
  split
  · next hneg =>
    have hdrop : (45 :: decimal z.natAbs : Bytes).dropWhile (fun c => c = 32 || (9 ≤ c && c ≤ 13)) =
        45 :: decimal z.natAbs := rfl
    simp only [hdrop, htake, hvalue, if_neg hne, List.head?_cons, if_true]
    congr 1
    omega
  · next hpos =>
    obtain ⟨c, cs, hcs, hc⟩ := decimal_head z.natAbs
    rw [hcs] at htake hvalue hne ⊢
    have hdigit : 48 ≤ c.toNat ∧ c.toNat ≤ 57 := by
      simpa [isDigit, UInt8.le_iff_toNat_le] using hc
    have hplus : c ≠ 43 := by
      rintro rfl
      exact absurd hc (by decide)
    have hminus : c ≠ 45 := by
      rintro rfl
      exact absurd hc (by decide)
    have hdrop : (c :: cs).dropWhile (fun c => c = 32 || (9 ≤ c && c ≤ 13)) = c :: cs := by
      refine List.dropWhile_cons_of_neg ?_
      simp [UInt8.le_iff_toNat_le, ← UInt8.toNat_inj]
      omega
    simp only [hdrop]
    split
    · next heq => exact absurd (List.cons.inj heq).1 hplus
    · next heq => exact absurd (List.cons.inj heq).1 hminus
    · simp only [htake, hvalue, if_neg hne, List.head?_cons, Option.some.injEq, if_neg hminus]
      omega

theorem stoi_decimalInt (value : Int32) : stoi (decimalInt value.toInt) = some value := by
  have hmin := value.le_toInt
  have hmax := value.toInt_lt
  unfold stoi
  rw [strtoll_decimalInt]
  show (if _ then some (Int32.ofInt value.toInt) else none) = _
  rw [if_pos ⟨hmin, hmax⟩, Int32.ofInt_toInt]

theorem stoll_decimalInt (value : Int64) : stoll (decimalInt value.toInt) = some value := by
  have hmin := value.le_toInt
  have hmax := value.toInt_lt
  unfold stoll
  rw [strtoll_decimalInt]
  show (if _ then some (Int64.ofInt value.toInt) else none) = _
  rw [if_pos ⟨hmin, hmax⟩, Int64.ofInt_toInt]

/-- A field that is not empty is read as its cell. -/
theorem parseField_field {type : DataType} (htype : type ≠ .FP64) {d : Data} (hd : d.HasType type)
    (hfield : d.field ≠ []) (out : Outside) : parseField out type d.field = .ok d.loaded := by
  cases d with
  | int32 value =>
    cases type <;> simp [Data.HasType] at hd
    unfold parseField Data.field
    dsimp only
    rw [stoi_decimalInt]
    rfl
  | int64 value =>
    cases type <;> simp [Data.HasType] at hd
    unfold parseField Data.field
    dsimp only
    rw [stoll_decimalInt]
    rfl
  | fp64 bits => exact absurd rfl hfield
  | string value =>
    cases type <;> simp [Data.HasType] at hd
    cases value with
    | nil => exact absurd rfl hfield
    | cons c value => rfl
  | monostate => exact absurd rfl hfield

theorem loaded_of_field_eq_nil {type : DataType} (htype : type ≠ .FP64) {d : Data} (hd : d.HasType type)
    (hfield : d.field = []) : d.loaded = .monostate := by
  cases d with
  | int32 value => exact absurd hfield (decimalInt_ne_nil _)
  | int64 value => exact absurd hfield (decimalInt_ne_nil _)
  | fp64 bits => cases type <;> simp_all [Data.HasType]
  | string value =>
    have hvalue : value = [] := hfield
    rw [hvalue]
    rfl
  | monostate => rfl

/-! ### Rows -/

section Rows

variable {out : Outside} {types : List DataType} (htypes : ∀ type ∈ types, type ≠ .FP64) {header : Bool}
include htypes

/-- The call for a cell, and what becomes of it. -/
theorem onField_cell {i col : Nat} (hi : (i : Int) + rowOff header ≠ -1) (hcol : col < types.length)
    {d : Data} (hd : d.HasType types[col]) (s : TableParser) :
    TableParser.onField out types header s ⟨col, i, d.field⟩ =
      if col + 1 = types.length then do
        .ok ⟨[], ← s.table.addRecord types (s.lastRecord ++ [d.loaded])⟩
      else .ok { s with lastRecord := s.lastRecord ++ [d.loaded] } := by
  have htype := htypes _ (List.getElem_mem hcol)
  rw [TableParser.onField, if_neg hi]
  dsimp only
  by_cases hfield : d.field = []
  · rw [if_pos (by rw [hfield]; rfl), loaded_of_field_eq_nil htype hd hfield]
    rfl
  · rw [if_neg (by simpa using hfield), index_of_lt hcol, ok_bind, parseField_field htype hd hfield, ok_bind]

/-- The calls for the cells of a record from column `col` on add the record. -/
theorem fields_read {i : Nat} (hi : (i : Int) + rowOff header ≠ -1) {cells : List Data} (hne : cells ≠ [])
    {col : Nat} (hcells : List.Forall₂ Data.HasType cells (types.drop col)) (s : TableParser) :
    (fieldCalls i col (cells.map Data.field)).foldlM (TableParser.onField out types header) s =
      s.table.addRecord types (s.lastRecord ++ cells.map Data.loaded) >>= fun table => .ok ⟨[], table⟩ := by
  induction cells generalizing col s with
  | nil => exact absurd rfl hne
  | cons d cells ih =>
    have hlength : cells.length + 1 = types.length - col := by
      simpa using hcells.length_eq
    have hcol : col < types.length := by omega
    rw [List.drop_eq_getElem_cons hcol] at hcells
    obtain ⟨hd, hrest⟩ := List.forall₂_cons.mp hcells
    rw [List.map_cons, fieldCalls_cons, List.foldlM_cons, onField_cell htypes hi hcol hd]
    cases cells with
    | nil =>
      have hlast : col + 1 = types.length := by
        rw [List.length_nil] at hlength
        omega
      rw [if_pos hlast, List.map_singleton]
      cases s.table.addRecord types (s.lastRecord ++ [d.loaded]) <;> rfl
    | cons e cells =>
      have hlast : col + 1 ≠ types.length := by
        rw [List.length_cons] at hlength
        omega
      rw [if_neg hlast, ok_bind, ih (List.cons_ne_nil e cells) hrest]
      simp

/-- The calls for records add the records. -/
theorem rows_read (hne : types ≠ []) (records : List (List Data)) {i : Nat} (hi : header = true → 1 ≤ i)
    (hrecords : ∀ record ∈ records, List.Forall₂ Data.HasType record types) (table : InnerTable) :
    (rowsCalls i (records.map (·.map Data.field))).foldlM (TableParser.onField out types header)
        ⟨[], table⟩ =
      (records.map (·.map Data.loaded)).foldlM (InnerTable.addRecord types) table >>= fun table =>
        .ok ⟨[], table⟩ := by
  induction records generalizing i table with
  | nil => rfl
  | cons record records ih =>
    have hrow : (i : Int) + rowOff header ≠ -1 := by
      cases header with
      | false => simp [rowOff]
      | true =>
        have := hi rfl
        simp only [rowOff, if_true]
        omega
    have hrecord := hrecords record List.mem_cons_self
    have hcells : record ≠ [] := by
      rintro rfl
      exact hne (List.length_eq_zero_iff.mp hrecord.length_eq.symm)
    have hcalls : (rowCalls i (record.map Data.field)).foldlM (TableParser.onField out types header)
        ⟨[], table⟩ = _ := fields_read htypes hrow hcells (show List.Forall₂ _ _ (types.drop 0) from hrecord) _
    rw [List.map_cons, List.map_cons, rowsCalls, List.foldlM_append, hcalls, List.foldlM_cons,
      List.nil_append]
    cases table.addRecord types (record.map Data.loaded) with
    | error e => rfl
    | ok table =>
      exact ih (fun _ => Nat.le_add_left 1 i) (fun r hr => hrecords r (List.mem_cons_of_mem record hr)) table

end Rows

/-! ### The text of a document -/

/-- The parser comes to the end of a text where a quote is not escaped by a quote. -/
theorem CSVParser.Document.parse_text {fmt : Format} (hescape : fmt.escape ≠ quote) (doc : Document fmt) :
    ∃ s, (new fmt.escape fmt.sep false).parse [doc.text] = .ok s ∧ s.calls = doc.calls := by
  obtain ⟨t, r, f, cs, lastRow, last, hr, -, hcol, ht, hcalls, hloop, hflag⟩ :=
    (at_new fmt doc.width).loop_records doc.terminator doc.nonempty doc.pos doc.rectangular doc.last
  obtain ⟨u, hu, hloop', hflag'⟩ := ht.loop_field f (if doc.closed then doc.terminator.bytes else [])
    fun _ hquote => absurd hquote hescape
  have hdone : ∃ v, (u.loop (if doc.closed then doc.terminator.bytes else []) >>= finish) = .ok v ∧
      v.calls = [] ++ cs ++ [⟨last, lastRow, f.bytes⟩] := by
    cases hclosed : doc.closed with
    | true => exact hu.finish_closed hcol doc.terminator
    | false =>
      have hend : u.afterRecordSep = false := by
        rcases hflag' with hflag' | ⟨hnil, rfl⟩
        · exact hflag'
        · exact hflag.resolve_right fun htext => doc.last hclosed r hr (htext.trans hnil)
      exact hu.finish_open hcol hend
  obtain ⟨v, hv, hfound⟩ := hdone
  refine ⟨v, ?_, ?_⟩
  · rw [parse_single, (at_new fmt doc.width).fresh.execute]
    exact (congrArg (· >>= finish) (hloop.trans hloop')).trans hv
  · rw [hfound, List.nil_append, hcalls]
    rfl

theorem recordsCalls_eq {fmt : Format} (records : List (List (Field fmt))) (i : Nat) :
    recordsCalls i records = rowsCalls i (records.map (·.map Field.bytes)) := by
  induction records generalizing i with
  | nil => rfl
  | cons record records ih =>
    have hrow : recordCalls i 0 record = rowCalls i (record.map Field.bytes) := by
      rw [recordCalls, rowCalls, List.zipIdx_map, List.map_map]
      rfl
    rw [List.map_cons, rowsCalls, ← ih, ← hrow]
    rfl

section Text

variable {t : Table} {header : Bool} {doc : Document csvFormat}

/-- The calls behind the header are those for the cells of the table. -/
theorem CSVParser.Document.Prints.foldlM_calls (h : doc.Prints header t) (hne : t.types ≠ [])
    (htypes : ∀ type ∈ t.types, type ≠ .FP64) (hwell : t.WellTyped) (out : Outside) :
    doc.calls.foldlM (TableParser.onField out t.types header) ⟨[], .empty t.types⟩ =
      .ok ⟨[], ⟨t.data.length, columnsOf t.types t.loaded.data⟩⟩ := by
  have hrecords : ∀ record ∈ t.loaded.data, record.length = t.types.length := fun record hrecord =>
    (hwell.loaded record hrecord).length_eq
  have hadd := InnerTable.addRecords_eq hrecords
  have hread : ∀ i, (header = true → 1 ≤ i) →
      (rowsCalls i (t.data.map (·.map Data.field))).foldlM (TableParser.onField out t.types header)
          ⟨[], .empty t.types⟩ = .ok ⟨[], ⟨t.data.length, columnsOf t.types t.loaded.data⟩⟩ := by
    intro i hi
    rw [rows_read htypes hne t.data hi hwell]
    refine (congrArg (· >>= _) hadd).trans ?_
    simp [Table.loaded]
  unfold CSVParser.Document.Prints at h
  rw [CSVParser.Document.calls, recordsCalls_eq]
  generalize doc.records.map (·.map Field.bytes) = rows at h ⊢
  cases header with
  | false =>
    have hrows : rows = t.data.map (·.map Data.field) := h
    rw [hrows]
    exact hread 0 nofun
  | true =>
    cases rows with
    | nil =>
      have hrows : [] = t.data.map (·.map Data.field) := h
      rw [← hrows] at hread
      exact hread 1 fun _ => Nat.le_refl 1
    | cons row rows =>
      have hrows : rows = t.data.map (·.map Data.field) := h
      have hrow : ∀ call ∈ rowCalls 0 row, call.rowIdx = 0 := by
        intro call hcall
        obtain ⟨f, -, rfl⟩ := List.mem_map.mp hcall
        rfl
      rw [rowsCalls, List.foldlM_append, TableParser.header_kept (by simp [rowOff]) _ hrow, ok_bind, hrows]
      exact hread 1 fun _ => Nat.le_refl 1

/-- The table of a printed table. -/
theorem loadTable_text (h : doc.Prints header t) (hne : t.types ≠ [])
    (htypes : ∀ type ∈ t.types, type ≠ .FP64) (hwell : t.WellTyped) (out : Outside) :
    loadTable out t.types header doc.text = .ok ⟨t.data.length, columnsOf t.types t.loaded.data⟩ := by
  obtain ⟨hflatten, hbuffers⟩ := readBuffers_spec doc.text
  obtain ⟨s, hparse, hcalls⟩ := doc.parse_text (by decide)
  have hparse : (new backslash separator false).parse [doc.text] = .ok s := hparse
  obtain ⟨hsame, hok⟩ := parse_buffers backslash separator false hbuffers
  rw [hflatten, hparse] at hsame hok
  have hsame : s.calls = _ := hsame
  rw [loadTable, ← hsame, hcalls, h.foldlM_calls hne htypes hwell out, ok_bind]
  cases houtcome : (new backslash separator false).parse (readBuffers doc.text) with
  | ok s => rfl
  | error e =>
    rw [houtcome] at hok
    cases hok

end Text

/-! ### The whole way -/

theorem ne_fp64 {types : List DataType} (htypes : ∀ type ∈ types, type = .INT32 ∨ type = .VARCHAR) :
    ∀ type ∈ types, type ≠ .FP64 := by
  intro type htype
  rcases htypes type htype with rfl | rfl <;> simp

/-- A table that is printed, in whatever way the format has, is loaded again under any filter: with the
rows that the filter selects, and NULL for each empty string. -/
theorem fromCsv_prints {t : Table} (htypes : ∀ type ∈ t.types, type = .INT32 ∨ type = .VARCHAR)
    (hne : t.types ≠ []) (hwell : t.WellTyped) {header : Bool} {doc : Document csvFormat}
    (hdoc : doc.Prints header t) {out : Outside} (horder : out.order.Perm (List.range t.types.length))
    {filter : Option Statement} (hfits : ∀ s, filter = some s → s.Fits (t.types.map InnerColumnBase.ofType))
    {caches : Caches} {path : String} (htable : caches.tables.lookup path = none)
    (hresult : filter = none → caches.results.lookup path = none) :
    ∃ ct caches', fromCsv out caches t.types path (some doc.text) filter header = .ok (ct, caches') ∧
      fromColumnar ct = .ok (t.loaded.selectedBy out.re2 filter) := by
  have hload := loadTable_text hdoc hne (ne_fp64 htypes)
    hwell out
  have hlength : t.loaded.data.length = t.data.length := List.length_map _
  rw [← hlength] at hload
  exact fromCsv_fresh (t := t.loaded) htypes hwell.loaded hne horder hfits htable hresult hload

/-- A number and a string in which a quote stands, and a record of NULL and an empty string. -/
def twoCells : Table where
  data := [[.int32 (-5), .string [97, 34]], [.monostate, .string []]]
  types := [.INT32, .VARCHAR]

theorem wellTyped_twoCells : twoCells.WellTyped := by
  simp [Table.WellTyped, twoCells, Data.HasType]

/-- The lines `n,s`, `-5,"a\""` and `,""`, each with a carriage return and a line feed at its end. -/
def twoCellsText : Document csvFormat where
  width := 2
  records :=
    [[⟨[110], false, by simp [Format.Special]; decide⟩, ⟨[115], false, by simp [Format.Special]; decide⟩],
      [⟨[45, 53], false, by simp [Format.Special]; decide⟩, ⟨[97, 34], true, nofun⟩],
      [⟨[], false, by simp⟩, ⟨[], true, nofun⟩]]
  terminator := .crlf
  closed := true
  pos := by decide
  nonempty := by simp
  rectangular := by simp
  last := nofun

/-- The empty string comes back as NULL. -/
theorem fromCsv_prints_two :
    twoCellsText.text = [110, 44, 115, 13, 10, 45, 53, 44, 34, 97, 92, 34, 34, 13, 10, 44, 34, 34, 13, 10] ∧
    ∃ ct caches', fromCsv twoColumns ⟨[], []⟩ [.INT32, .VARCHAR] "t.csv" (some twoCellsText.text) none true =
        .ok (ct, caches') ∧
      fromColumnar ct =
        .ok ⟨[[.int32 (-5), .string [97, 34]], [.monostate, .monostate]], [.INT32, .VARCHAR]⟩ := by
  have hdoc : twoCellsText.Prints true twoCells := by
    unfold CSVParser.Document.Prints
    decide
  exact ⟨by decide, fromCsv_prints (t := twoCells) (by decide) (by simp [twoCells]) wellTyped_twoCells hdoc
    (List.Perm.refl _) (by simp) rfl fun _ => rfl⟩

/-- No cell of a file changes when it is loaded again. -/
theorem loaded_of_read {t : Table} (hread : ∀ record ∈ t.data, List.Forall₂ Data.Read record t.types) :
    t.loaded = t := by
  have hcell : ∀ (d : Data) (type : DataType), d.Read type → d.loaded = d := by
    intro d type hd
    unfold Data.loaded
    split
    · exact absurd rfl hd.2
    · rfl
  have hrecord : ∀ record ∈ t.data, record.map Data.loaded = id record := by
    intro record hmem
    refine List.ext_getElem (by simp) fun j hj hj' => ?_
    have hlt : j < t.types.length := by
      rw [← (hread record hmem).length_eq]
      exact hj'
    rw [List.getElem_map]
    exact hcell _ _ ((hread record hmem).get hj' hlt)
  unfold Table.loaded
  rw [List.map_congr_left hrecord, List.map_id]

/-- What a call has made of a file, printed in whatever way the format has, is what later calls load. -/
theorem fromCsv_reprints {types : List DataType} (htypes : ∀ type ∈ types, type = .INT32 ∨ type = .VARCHAR)
    (hne : types ≠ []) {out : Outside} (horder : out.order.Perm (List.range types.length))
    {filter : Option Statement} (hfits : ∀ s, filter = some s → s.Fits (types.map InnerColumnBase.ofType))
    {caches caches' : Caches} {path : String} (htable : caches.tables.lookup path = none)
    (hresult : filter = none → caches.results.lookup path = none) {content : Bytes} {header : Bool}
    {ct : ColumnarTable} (hcsv : fromCsv out caches types path (some content) filter header = .ok (ct, caches')) :
    ∃ t, fromColumnar ct = .ok t ∧ ∀ (doc : Document csvFormat) (header' : Bool), doc.Prints header' t →
      ∀ (out' : Outside) (later : Caches) (path' : String), out'.order.Perm (List.range types.length) →
        later.tables.lookup path' = none → later.results.lookup path' = none →
        ∃ ct' later', fromCsv out' later types path' (some doc.text) none header' = .ok (ct', later') ∧
          fromColumnar ct' = .ok t := by
  obtain ⟨table, hload⟩ : ∃ table, loadTable out types header content = .ok table := by
    rw [fromCsv_miss hresult] at hcsv
    unfold readTable at hcsv
    rw [htable] at hcsv
    cases hload : loadTable out types header content with
    | ok table => exact ⟨table, rfl⟩
    | error e => simp [hload] at hcsv
  obtain ⟨records, hrecords, rfl⟩ := loadTable_read hload
  have hwell : (Table.mk records types).WellTyped := fun record hrecord =>
    (hrecords record hrecord).imp fun _ _ hd => hd.1
  obtain ⟨ct₀, caches₀, hcsv₀, hdecode⟩ := fromCsv_fresh (t := ⟨records, types⟩) htypes hwell hne horder hfits
    htable hresult hload
  obtain ⟨rfl, rfl⟩ := Prod.mk.inj (Except.ok.inj (hcsv.symm.trans hcsv₀))
  refine ⟨_, hdecode, fun doc header' hdoc out' later path' horder' htable' hresult' => ?_⟩
  let t := (Table.mk records types).selectedBy out.re2 filter
  have hread : ∀ record ∈ t.data, List.Forall₂ Data.Read record t.types := by
    intro record hrecord
    cases filter with
    | none => exact hrecords record hrecord
    | some s => exact hrecords record (List.mem_of_mem_filter hrecord)
  have hload' := loadTable_text hdoc hne (ne_fp64 htypes)
    (hwell.selectedBy out.re2 filter) out'
  rw [loaded_of_read hread] at hload'
  exact fromCsv_fresh (t := t) htypes (hwell.selectedBy out.re2 filter) hne horder' (by simp) htable'
    (fun _ => hresult') hload'

/-- The lines `"-5","a\""` and `,`, where the last one has no end. -/
def reprintedText : Document csvFormat where
  width := 2
  records :=
    [[⟨[45, 53], true, nofun⟩, ⟨[97, 34], true, nofun⟩], [⟨[], false, by simp⟩, ⟨[], false, by simp⟩]]
  terminator := .lf
  closed := false
  pos := by decide
  nonempty := by simp
  rectangular := by simp
  last _ r hr := by
    obtain rfl := Option.some.inj hr
    simp [recordText]

theorem fromCsv_reprints_two :
    ∃ ct caches', fromCsv twoColumns ⟨[], []⟩ [.INT32, .VARCHAR] "t.csv" (some twoCellsText.text) none true =
        .ok (ct, caches') ∧
      ∃ ct' later', fromCsv twoColumns ⟨[], []⟩ [.INT32, .VARCHAR] "u.csv" (some reprintedText.text) none false =
          .ok (ct', later') ∧
        fromColumnar ct = fromColumnar ct' := by
  have hdoc : twoCellsText.Prints true twoCells := by
    unfold CSVParser.Document.Prints
    decide
  have htypes : ∀ type ∈ twoCells.types, type = .INT32 ∨ type = .VARCHAR := by decide
  have hload := loadTable_text hdoc (by simp [twoCells]) (ne_fp64 htypes) wellTyped_twoCells twoColumns
  have hfirst : ∃ ct caches', fromCsv twoColumns ⟨[], []⟩ [.INT32, .VARCHAR] "t.csv"
      (some twoCellsText.text) none true = .ok (ct, caches') ∧
        fromColumnar ct = .ok (twoCells.loaded.selectedBy twoColumns.re2 none) :=
    fromCsv_fresh (t := twoCells.loaded) htypes wellTyped_twoCells.loaded (by simp [twoCells, Table.loaded])
      (List.Perm.refl _) (by simp) rfl (fun _ => rfl) hload
  obtain ⟨ct, caches', hcsv, hdecode⟩ := hfirst
  refine ⟨ct, caches', hcsv, ?_⟩
  obtain ⟨t, ht, hlater⟩ := fromCsv_reprints htypes (by simp [twoCells]) (List.Perm.refl _) (by simp) rfl
    (fun _ => rfl) hcsv
  obtain rfl : t = _ := Except.ok.inj (ht.symm.trans hdecode)
  have hdoc' : reprintedText.Prints false (twoCells.loaded.selectedBy twoColumns.re2 none) := by
    unfold CSVParser.Document.Prints
    decide
  obtain ⟨ct', later', hcsv', hdecode'⟩ := hlater reprintedText false hdoc' twoColumns ⟨[], []⟩ "u.csv"
    (List.Perm.refl _) rfl rfl
  exact ⟨ct', later', hcsv', ht.trans hdecode'.symm⟩

end JoinOptimizer
