import JoinOptimizer.Store.LookAhead

/-! Late materialisation against the eager decoder: which rows of an encoded column read the same from
the values that `column_t_copy_scan` stores as from `Table::copy_scan`. -/

namespace JoinOptimizer

open Lib ValueT

/-- Row `i` of column `k` reads as `cell` on both paths: the scan stores a value that stands for it, and
`Table::copy_scan` reads it. -/
structure RowReads (inputs : List ColumnarTable) (tableId : Nat) (ct : ColumnarTable) (k : Nat)
    (type : DataType) (i : Nat) (cell : Data) : Prop where
  late : ∃ col v, scanColumn tableId ct k = .ok col ∧ col.values[i]? = some v ∧
    decodeData inputs type col.originalPages v = .ok cell
  eager : ∃ records, copyScan ct [(k, type)] = .ok records ∧ records[i]? = some [cell]

section Rows

variable {inputs : List ColumnarTable} {ct : ColumnarTable} {t : Table} {tableId k i : Nat}
  {column : Column} {cell : Data}

theorem Column.Holds.seen_eq_iff {cells : List Data} (h : column.Holds cells)
    (hcell : cells[i]? = some cell) :
    (column.seen cells)[i]? = some cell ↔ ¬ column.Misread cells i := by
  rcases h.reads i with ⟨hright, hseen⟩ | ⟨hmis, d, e, hd, he, hlost⟩
  · exact iff_of_true (hseen.trans hcell) hright
  · refine iff_of_false (fun hsame => ?_) (not_not.mpr hmis)
    obtain rfl : d = cell := Option.some.inj (hd.symm.trans hcell)
    obtain rfl : e = d := Option.some.inj (he.symm.trans hsame)
    have hbefore := hlost.before
    rw [hlost.after] at hbefore
    cases hbefore

/-- A row of a table reads on both paths exactly if the scan completes and does not misread it. -/
theorem ColumnarTable.Holds.rowReads_iff (h : ct.Holds t) (hcolumn : ct.columns[k]? = some column)
    (htype : column.type = .INT32 ∨ column.type = .VARCHAR)
    (hinput : column.type = .VARCHAR → inputs[tableId]? = some ct)
    (hfit : ∀ col, scanColumn tableId ct k = .ok col →
      column.type = .INT32 ∧ .monostate ∈ t.column k ∨ IndicesFit tableId k column.pages)
    (hcell : (t.column k)[i]? = some cell) :
    RowReads inputs tableId ct k column.type i cell ↔
      (∃ col, scanColumn tableId ct k = .ok col) ∧ ¬ column.Misread (t.column k) i := by
  have hholds := (h.get hcolumn).2
  have hlen := h.length_column k
  rw [← hholds.seen_eq_iff hcell]
  constructor
  · rintro ⟨⟨col, v, hcol, hv, hdecode⟩, -⟩
    obtain ⟨-, hseen⟩ := hholds.scan_seen hcolumn hlen htype hinput (hfit col hcol) hcol
    obtain ⟨c, hc, hdecode'⟩ := mapM_ok_getElem? hseen hv
    obtain rfl := Except.ok.inj (hdecode.symm.trans hdecode')
    exact ⟨⟨col, hcol⟩, hc⟩
  · rintro ⟨⟨col, hcol⟩, hseen⟩
    obtain ⟨-, hvalues⟩ := hholds.scan_seen hcolumn hlen htype hinput (hfit col hcol) hcol
    obtain ⟨hi, -⟩ := List.getElem?_eq_some_iff.mp hseen
    rw [mapM_ok_length hvalues] at hi
    obtain ⟨c, hc, hdecode⟩ := mapM_ok_getElem? hvalues (List.getElem?_eq_getElem hi)
    obtain rfl := Option.some.inj (hc.symm.trans hseen)
    constructor
    · exact ⟨col, _, hcol, List.getElem?_eq_getElem hi, hdecode⟩
    · refine ⟨_, copyScan_column h hcolumn column.type, ?_⟩
      rw [Table.column, List.getElem?_map] at hcell
      obtain ⟨record, hrecord, rfl⟩ := Option.map_eq_some_iff.mp hcell
      rw [List.getElem?_map, hrecord]
      rfl

end Rows

section Int32

variable {inputs : List ColumnarTable} {ct : ColumnarTable} {t : Table} {tableId k i : Nat}
  {column : Column} {cell : Data} {pages : List Page} {cs : List (Option Int32)}

/-- A scan without NULL completes inside the limits only: it stores a reference to a row of every
page. -/
theorem limitsFit_of_scanNoNull (ht : tableId < 2 ^ 31) (hk : k < 2 ^ 31)
    (hnonempty : ∀ p ∈ pages, p.numRows ≠ 0) (hpages : pages ≠ []) {col : ColumnT}
    (h : scanNoNull tableId k pages = .ok col) : LimitsFit tableId k pages := by
  rw [scanNoNull_eq] at h
  obtain ⟨vs, hvs, -⟩ := bind_eq_ok.mp h
  have hfits : ∀ n < pages.length, n < 2 ^ 31 → PlaceFits tableId k n 0 := by
    intro n hn hlt
    have hplace : (n, 0) ∈ rowPlaces pages := by
      refine List.mem_flatMap.mpr ⟨(pages[n], n), ?_, ?_⟩
      · rw [List.mk_mem_zipIdx_iff_getElem?, List.getElem?_eq_getElem hn]
      · have hrows := hnonempty _ (List.getElem_mem hn)
        exact List.mem_map.mpr ⟨0, List.mem_range.mpr (Nat.pos_of_ne_zero hrows), rfl⟩
    obtain ⟨j, hj⟩ := List.mem_iff_getElem?.mp hplace
    obtain ⟨v, -, hv⟩ := mapM_ok_getElem? hvs hj
    exact fits_of_putPlace_ok ht hk hlt (by decide) hv
  obtain ⟨htable, hcolumn, -⟩ := hfits 0 (List.length_pos_iff.mpr hpages) (by decide)
  refine ⟨htable, hcolumn, ?_⟩
  by_contra hmany
  have hlast := (hfits (2 ^ 26) (by omega) (by decide)).2.2.1
  omega

/-- A row of an INT32 column that has a NULL reads on both paths unless it is a negative integer, a row
of any other one as long as the column is inside the limits. -/
theorem ColumnarTable.Holds.rowReads_int32_iff (h : ct.Holds t)
    (hcolumn : ct.columns[k]? = some column) (htype : column.type = .INT32)
    (ht : tableId < 2 ^ 31) (hk : k < 2 ^ 31) (hnonempty : ∀ p ∈ column.pages, p.numRows ≠ 0)
    (hcell : (t.column k)[i]? = some cell) :
    RowReads inputs tableId ct k .INT32 i cell ↔ ¬ column.Misread (t.column k) i ∧
      (.monostate ∉ t.column k → LimitsFit tableId k column.pages) := by
  have hholds := (h.get hcolumn).2
  have hlen := h.length_column k
  have hi := (List.getElem?_eq_some_iff.mp hcell).1
  have hcompletes : (∃ col, scanColumn tableId ct k = .ok col) ↔
      (.monostate ∉ t.column k → LimitsFit tableId k column.pages) := by
    generalize t.column k = cells at hholds hlen hi
    cases hholds with
    | varchar _ => cases htype
    | int64 _ => cases htype
    | fp64 _ => cases htype
    | @int32 ps cs hps =>
      rw [List.length_map] at hlen hi
      have hnull : cs.all Option.isSome ↔ .monostate ∉ cs.map int32Type.cell := by
        rw [List.all_eq_true]
        constructor
        · intro hall hmem
          obtain ⟨c, hc, heq⟩ := List.mem_map.mp hmem
          obtain ⟨v, rfl⟩ := Option.isSome_iff_exists.mp (hall c hc)
          cases heq
        · rintro hmem (_ | v) hc
          · exact absurd (List.mem_map_of_mem hc) hmem
          · rfl
      constructor
      · rintro ⟨col, hcol⟩ hsome
        rw [scanColumn_int32 hcolumn hps hlen.le, if_pos (hnull.mpr hsome)] at hcol
        refine limitsFit_of_scanNoNull ht hk hnonempty ?_ hcol
        rintro rfl
        cases hps
        cases hi
      · intro hfit
        exact scanInt32_total (fun hall => hfit (hnull.mp hall)) hcolumn hps hlen.le
  have hreads := @rowReads_iff inputs _ _ _ _ _ _ _ h hcolumn (.inl htype)
    (fun hvarchar => by rw [htype] at hvarchar; cases hvarchar)
    (fun col hcol => by
      by_cases hnull : .monostate ∈ t.column k
      · exact .inl ⟨htype, hnull⟩
      · have hfit := hcompletes.mp ⟨col, hcol⟩ hnull
        exact .inr hfit.indicesFit) hcell
  rw [htype] at hreads
  rw [hreads, hcompletes, and_comm]

/-- The cell is a negative integer. -/
def Data.Negative (d : Data) : Prop := ∃ value, d = .int32 value ∧ value < 0

theorem toColumnar_rowReads_int32 (fresh : Nat → Nat → Page) (hwell : t.WellTyped)
    (htype : t.types[k]? = some .INT32) (ht : tableId < 2 ^ 31) (hk : k < 2 ^ 31)
    (hcell : (t.column k)[i]? = some cell) :
    ∃ ct column, toColumnar fresh t = .ok ct ∧ ct.columns[k]? = some column ∧
      (RowReads inputs tableId ct k .INT32 i cell ↔
        if .monostate ∈ t.column k then ¬ cell.Negative else LimitsFit tableId k column.pages) := by
  obtain ⟨ct, hct, hholds⟩ := toColumnar_holds fresh hwell
  obtain ⟨column, hcolumn, hencode⟩ := toColumnar_column hct htype
  obtain ⟨pages, hpages, hencode⟩ := bind_eq_ok.mp hencode
  cases hencode
  have hnonempty := encodeFixed_nonempty (T := int32Type) (fresh k) (hwell.cells htype) hpages
  refine ⟨ct, _, hct, hcolumn, ?_⟩
  rw [hholds.rowReads_int32_iff hcolumn rfl ht hk hnonempty hcell]
  unfold Column.Misread Data.Negative
  simp only [hcell, Option.some_inj]
  split
  · next hnull => simp [hnull]
  · next hnull => simp [hnull]

variable (inputs) (fresh : Nat → Nat → Page)

/-- Which rows of an encoded INT32 column read on both paths, and which of them still do behind a NULL
row. -/
theorem scanInt32_reads_iff (hwell : t.WellTyped) (htype : t.types[k]? = some .INT32)
    (ht : tableId < 2 ^ 31) (hk : k < 2 ^ 31) (hcell : (t.column k)[i]? = some cell) :
    (∃ ct column, toColumnar fresh t = .ok ct ∧ ct.columns[k]? = some column ∧
      (RowReads inputs tableId ct k .INT32 i cell ↔
        if .monostate ∈ t.column k then ¬ cell.Negative else LimitsFit tableId k column.pages)) ∧
    ∀ record, record[k]? = some .monostate →
      Table.WellTyped ⟨t.data ++ [record], t.types⟩ →
      ∃ ct, toColumnar fresh ⟨t.data ++ [record], t.types⟩ = .ok ct ∧
        (RowReads inputs tableId ct k .INT32 i cell ↔ ¬ cell.Negative) := by
  have hreads := @toColumnar_rowReads_int32 inputs
  constructor
  · obtain ⟨ct, column, hct, hcolumn, hiff⟩ := hreads fresh hwell htype ht hk hcell
    exact ⟨ct, column, hct, hcolumn, hiff⟩
  · intro record hnull hwell'
    have hcolumn : Table.column ⟨t.data ++ [record], t.types⟩ k = t.column k ++ [.monostate] := by
      simp [Table.column, List.getD_eq_getElem?_getD, hnull]
    have hcell' : (Table.column ⟨t.data ++ [record], t.types⟩ k)[i]? = some cell := by
      rw [hcolumn, List.getElem?_append_left (List.getElem?_eq_some_iff.mp hcell).1, hcell]
    obtain ⟨ct, column, hct, -, hiff⟩ := hreads fresh hwell' htype ht hk hcell'
    rw [hcolumn, if_pos (by simp)] at hiff
    exact ⟨ct, hct, hiff⟩

/-- Both integers of a column are read, but of the two before a NULL only the one that is not negative. -/
theorem scanInt32_reads_iff_three :
    (∃ ct, toColumnar (fun _ _ => ⟨fun _ => 0⟩) ⟨[[.int32 7], [.int32 (-5)]], [.INT32]⟩ = .ok ct ∧
      RowReads [] 0 ct 0 .INT32 0 (.int32 7) ∧ RowReads [] 0 ct 0 .INT32 1 (.int32 (-5))) ∧
    ∃ ct, toColumnar (fun _ _ => ⟨fun _ => 0⟩)
        ⟨[[.int32 7], [.int32 (-5)], [.monostate]], [.INT32]⟩ = .ok ct ∧
      RowReads [] 0 ct 0 .INT32 0 (.int32 7) ∧ ¬ RowReads [] 0 ct 0 .INT32 1 (.int32 (-5)) := by
  have hwell : Table.WellTyped ⟨[[.int32 7], [.int32 (-5)]], [.INT32]⟩ := by
    simp [Table.WellTyped, Data.HasType]
  have hwell' : Table.WellTyped ⟨[[.int32 7], [.int32 (-5)], [.monostate]], [.INT32]⟩ := by
    simp [Table.WellTyped, Data.HasType]
  obtain ⟨⟨ct, column, hct, hcolumn, hfirst⟩, hbehind⟩ :=
    scanInt32_reads_iff (k := 0) (i := 0) [] (fun _ _ => ⟨fun _ => 0⟩) hwell rfl
      (show 0 < 2 ^ 31 by decide) (by decide) rfl
  obtain ⟨⟨ct', column', hct', hcolumn', hsecond⟩, hbehind'⟩ :=
    scanInt32_reads_iff (k := 0) (i := 1) [] (fun _ _ => ⟨fun _ => 0⟩) hwell rfl
      (show 0 < 2 ^ 31 by decide) (by decide) rfl
  obtain rfl := Except.ok.inj (hct.symm.trans hct')
  obtain rfl := Option.some.inj (hcolumn.symm.trans hcolumn')
  have hpages : column.pages.length = 1 := by
    cases hct
    cases hcolumn
    rfl
  have hfit : LimitsFit 0 0 column.pages := ⟨by decide, by decide, by rw [hpages]; decide⟩
  rw [if_neg (by decide)] at hfirst hsecond
  obtain ⟨ct', hct', hread⟩ := hbehind [.monostate] rfl hwell'
  obtain ⟨ct'', hct'', hlost⟩ := hbehind' [.monostate] rfl hwell'
  obtain rfl := Except.ok.inj (hct'.symm.trans hct'')
  refine ⟨⟨ct, hct, hfirst.mpr hfit, hsecond.mpr hfit⟩, ct', hct', hread.mpr ?_, fun h => hlost.mp h ?_⟩
  · rintro ⟨value, hvalue, hneg⟩
    cases hvalue
    exact absurd hneg (by decide)
  · exact ⟨-5, rfl, by decide⟩

/-- A negative integer is lost once a NULL is in its column. -/
theorem scanInt32_negative_lost :
    ∃ ct, toColumnar (fun _ _ => ⟨fun _ => 0⟩) ⟨[[.int32 (-1)], [.monostate]], [.INT32]⟩ = .ok ct ∧
      ¬ RowReads [] 0 ct 0 .INT32 0 (.int32 (-1)) := by
  obtain ⟨ct, column, hct, -, hiff⟩ := @toColumnar_rowReads_int32 []
    ⟨[[.int32 (-1)], [.monostate]], [.INT32]⟩ 0 0 0 (.int32 (-1)) (fun _ _ => ⟨fun _ => 0⟩)
    (by simp [Table.WellTyped, Data.HasType]) rfl (by decide) (by decide) rfl
  rw [if_pos (by decide)] at hiff
  exact ⟨ct, hct, fun h => hiff.mp h ⟨-1, rfl, by decide⟩⟩

end Int32

section Varchar

variable {inputs : List ColumnarTable} {ct : ColumnarTable} {t : Table}
  {tableId k i numRows : Nat} {column : Column} {cell : Data} {all : List Page}

/-- The scan of pages without a long string. -/
theorem scanShortPages_iff {ps : List Page} {cs : List (Option Bytes)} (h : VarcharPages ps cs)
    (hshort : ∀ p ∈ ps, p.numRows < 0xfffe) {n : Nat} {c : ScanCursor}
    (hroom : c.rowIdx + cs.length ≤ numRows) :
    (∃ c', (ps.zipIdx n).foldlM (scanPage tableId k numRows ⟨.VARCHAR, all⟩) c = .ok c') ↔
      ∀ m p, ps[m]? = some p → PageAccepted tableId k (n + m) p := by
  induction h generalizing n c with
  | nil => exact iff_of_true ⟨c, rfl⟩ nofun
  | @page p cs ps rest hp _ ih =>
    rw [List.length_append] at hroom
    obtain ⟨hok, herr⟩ := scanPage_page tableId k numRows n all c hp (by omega)
    rw [List.zipIdx_cons, List.foldlM_cons]
    have hsplit : (∀ m q, (p :: ps)[m]? = some q → PageAccepted tableId k (n + m) q) ↔
        PageAccepted tableId k n p ∧
          ∀ m q, ps[m]? = some q → PageAccepted tableId k (n + 1 + m) q := by
      constructor
      · intro hall
        refine ⟨hall 0 p rfl, fun m q hq => ?_⟩
        rw [Nat.add_assoc, Nat.add_comm 1 m]
        exact hall (m + 1) q hq
      · rintro ⟨hfirst, hrest⟩ (_ | m) q hq
        · obtain rfl := Option.some.inj hq
          exact hfirst
        · have hlater := hrest m q hq
          rwa [Nat.add_assoc, Nat.add_comm 1 m] at hlater
    rw [hsplit]
    by_cases haccept : PageAccepted tableId k n p
    · obtain ⟨vs, hlen, -, hstep⟩ := hok haccept
      rw [hstep, ok_bind, ih (fun q hq => hshort q (by simp [hq]))
        (by simp only [ScanCursor.rowIdx_appendAll, ScanCursor.setType]; omega)]
      exact (and_iff_right haccept).symm
    · rw [herr haccept]
      exact iff_of_false (by rintro ⟨c', hc'⟩; cases hc') fun h => haccept h.1
  | long hs _ _ =>
    obtain ⟨first, -, -⟩ := hs
    have := hshort _ (List.mem_append_left _ List.mem_cons_self)
    omega

/-- The places of all strings of a column are inside the limits. -/
def PlacesAccepted (tableId k : Nat) (pages : List Page) : Prop :=
  ∀ n p, pages[n]? = some p → PageAccepted tableId k n p

/-- The scan of a column without a long string. -/
theorem scanColumn_short_iff (hcolumn : ct.columns[k]? = some ⟨.VARCHAR, all⟩)
    {cs : List (Option Bytes)} (hps : VarcharPages all cs) (hrows : cs.length ≤ ct.numRows)
    (hshort : ∀ p ∈ all, p.numRows < 0xfffe) :
    (∃ col, scanColumn tableId ct k = .ok col) ↔ PlacesAccepted tableId k all := by
  have hscan := @scanShortPages_iff tableId k ct.numRows all _ _ hps hshort 0 ⟨.empty, 0⟩
    (show (⟨.empty, 0⟩ : ScanCursor).rowIdx + cs.length ≤ ct.numRows by simpa using hrows)
  simp only [Nat.zero_add] at hscan
  rw [PlacesAccepted, ← hscan, scanColumn, index_eq_ok.mpr hcolumn, ok_bind, if_neg (by simp)]
  constructor
  · rintro ⟨col, hcol⟩
    obtain ⟨c, hc, -⟩ := bind_eq_ok.mp hcol
    exact ⟨c, hc⟩
  · rintro ⟨c, hc⟩
    exact ⟨c.column, by rw [hc]; rfl⟩

/-- The pages of an encoded column of short strings. -/
theorem toColumnar_short (fresh : Nat → Nat → Page) (hwell : t.WellTyped)
    (htype : t.types[k]? = some .VARCHAR)
    (hshort : ∀ s, .string s ∈ t.column k → s.length ≤ pageSize - 7) :
    ∃ ct pages, toColumnar fresh t = .ok ct ∧ ct.columns[k]? = some ⟨.VARCHAR, pages⟩ ∧
      ct.Holds t ∧ ∀ p ∈ pages, p.numRows < 0xfffe := by
  obtain ⟨ct, hct, hholds⟩ := toColumnar_holds fresh hwell
  obtain ⟨column, hcolumn, hencode⟩ := toColumnar_column hct htype
  obtain ⟨pages, hpages, hencode⟩ := bind_eq_ok.mp hencode
  cases hencode
  refine ⟨ct, pages, hct, hcolumn, hholds, ?_⟩
  refine encodeVarchar_short (fresh k) (hwell.cells htype) (fun record hrecord s hs => ?_) hpages
  apply hshort s
  rw [Table.column, List.mem_map]
  exact ⟨record, hrecord, by rw [List.getD_eq_getElem?_getD, hs]; rfl⟩

/-- A row of a column of short strings reads on both paths unless it is an empty string before one that
is not, as long as the column is inside the limits. -/
theorem ColumnarTable.Holds.rowReads_varchar_iff (h : ct.Holds t)
    (hcolumn : ct.columns[k]? = some ⟨.VARCHAR, all⟩) (hshort : ∀ p ∈ all, p.numRows < 0xfffe)
    (hinput : inputs[tableId]? = some ct) (hfit : IndicesFit tableId k all)
    (hcell : (t.column k)[i]? = some cell) :
    RowReads inputs tableId ct k .VARCHAR i cell ↔
      PlacesAccepted tableId k all ∧ ¬ Column.Misread ⟨.VARCHAR, all⟩ (t.column k) i := by
  have hlen := h.length_column k
  obtain ⟨-, hcells⟩ := h.get hcolumn
  have hcompletes : (∃ col, scanColumn tableId ct k = .ok col) ↔ PlacesAccepted tableId k all := by
    generalize t.column k = cells at hcells hlen
    cases hcells with
    | varchar hps =>
      rw [List.length_map] at hlen
      exact scanColumn_short_iff hcolumn hps hlen.le hshort
  rw [← hcompletes]
  exact h.rowReads_iff hcolumn (.inr rfl) (fun _ => hinput) (fun _ _ => .inr hfit) hcell

/-- Which rows of an encoded column of short strings read on both paths. -/
theorem scanVarchar_reads_iff (fresh : Nat → Nat → Page) (hwell : t.WellTyped)
    (htype : t.types[k]? = some .VARCHAR)
    (hshort : ∀ s, .string s ∈ t.column k → s.length ≤ pageSize - 7)
    (hcell : (t.column k)[i]? = some cell) :
    ∃ ct column, toColumnar fresh t = .ok ct ∧ ct.columns[k]? = some column ∧
      ∀ inputs tableId, inputs[tableId]? = some ct → IndicesFit tableId k column.pages →
        (RowReads inputs tableId ct k .VARCHAR i cell ↔
          PlacesAccepted tableId k column.pages ∧ ¬ column.Misread (t.column k) i) := by
  obtain ⟨ct, pages, hct, hcolumn, hholds, hmarks⟩ := toColumnar_short fresh hwell htype hshort
  refine ⟨ct, _, hct, hcolumn, fun inputs tableId hinput hfit => ?_⟩
  exact hholds.rowReads_varchar_iff hcolumn hmarks hinput hfit hcell

theorem scanVarchar_reads_iff_empty :
    ∃ ct column, toColumnar (fun _ _ => ⟨fun _ => 0⟩) ⟨[[.string []], [.monostate]], [.VARCHAR]⟩ =
        .ok ct ∧ ct.columns[0]? = some column ∧
      ∀ inputs tableId, inputs[tableId]? = some ct → IndicesFit tableId 0 column.pages →
        (RowReads inputs tableId ct 0 .VARCHAR 0 (.string []) ↔
          PlacesAccepted tableId 0 column.pages ∧
            ¬ column.Misread (Table.column ⟨[[.string []], [.monostate]], [.VARCHAR]⟩ 0) 0) :=
  scanVarchar_reads_iff (t := ⟨[[.string []], [.monostate]], [.VARCHAR]⟩) (fun _ _ => ⟨fun _ => 0⟩)
    (by simp [Table.WellTyped, Data.HasType]) rfl (by simp [Table.column]) rfl

/-- An empty string is read as the string behind it. -/
theorem scanVarchar_empty_misread :
    ∃ ct, toColumnar (fun _ _ => ⟨fun _ => 0⟩) ⟨[[.string []], [.string [97]]], [.VARCHAR]⟩ = .ok ct ∧
      ¬ RowReads [ct] 0 ct 0 .VARCHAR 0 (.string []) := by
  obtain ⟨ct, pages, hct, hcolumn, hholds, hmarks⟩ := toColumnar_short
    (t := ⟨[[.string []], [.string [97]]], [.VARCHAR]⟩) (k := 0) (fun _ _ => ⟨fun _ => 0⟩)
    (by simp [Table.WellTyped, Data.HasType]) rfl (by simp [Table.column, pageSize_eq])
  refine ⟨ct, hct, fun h => ?_⟩
  have hrows : pages.map Page.numRows = [2] := by
    cases hct
    cases hcolumn
    rfl
  obtain ⟨p, rfl, hp⟩ := List.map_eq_singleton_iff.mp hrows
  have hcell : (Table.column ⟨[[.string []], [.string [97]]], [.VARCHAR]⟩ 0)[0]? =
      some (.string []) := rfl
  have hiff := hholds.rowReads_varchar_iff hcolumn hmarks (show [ct][0]? = some ct from rfl)
    ⟨by decide, by decide, Nat.one_le_two_pow⟩ hcell
  refine (hiff.mp h).2 ⟨rfl, 1, [97], ⟨by decide, ?_⟩, rfl, by decide⟩
  simp [rowPages, Page.rowCount, hp]

end Varchar

end JoinOptimizer
