import JoinOptimizer.Store.RowScan
import JoinOptimizer.Store.LookAhead

/-! What `my_copy_scan` stores and what `to_columnar_from_value` makes of it.  The scan goes over the
pages as `column_t_copy_scan` does; `print_varchar` reads the page of a string as it reads the first page
of a long one. -/

namespace JoinOptimizer

open Lib ValueT

section Filled

variable {n : Nat} {vs : List ValueT} {v : ValueT}

/-- The first `n` of the values and of NULLs behind them. -/
def filled (n : Nat) (vs : List ValueT) : List ValueT := (vs ++ List.replicate n makeNull).take n

@[simp] theorem length_filled : (filled n vs).length = n := by
  simp [filled]

theorem getElem?_filled {i : Nat} (hi : i < n) : (filled n vs)[i]? = some (vs.getD i makeNull) := by
  rw [filled, List.getElem?_take_of_lt hi, List.getElem?_append]
  split
  · next hlt => simp [hlt]
  · next hge =>
    rw [List.getElem?_replicate, if_pos (by omega), List.getD_eq_getElem?_getD,
      List.getElem?_eq_none (by omega)]
    rfl

theorem filled_null : filled n (vs ++ [makeNull]) = filled n vs := by
  refine List.ext_getElem? fun i => ?_
  by_cases hi : i < n
  · rw [getElem?_filled hi, getElem?_filled hi]
    simp only [List.getD_eq_getElem?_getD, List.getElem?_append]
    split
    · rfl
    · next hge =>
      rw [List.getElem?_eq_none (show vs.length ≤ i by omega)]
      cases i - vs.length <;> rfl
  · simp [hi]

theorem filled_set : (filled n vs).set vs.length v = filled n (vs ++ [v]) := by
  refine List.ext_getElem? fun i => ?_
  by_cases hi : i < n
  · rw [getElem?_filled hi, List.getElem?_set]
    by_cases heq : vs.length = i
    · subst heq
      simp [hi]
    · rw [if_neg heq, getElem?_filled hi]
      simp only [List.getD_eq_getElem?_getD, List.getElem?_append]
      split
      · rfl
      · next hge =>
        obtain ⟨m, hm⟩ : ∃ m, i - vs.length = m + 1 := ⟨i - vs.length - 1, by omega⟩
        rw [hm, List.getElem?_eq_none (show vs.length ≤ i by omega)]
        rfl
  · simp [hi]

theorem filled_of_length (h : vs.length = n) : filled n vs = vs := by
  rw [filled, ← h, List.take_left]

end Filled

theorem ColumnT.values_append (c : ColumnT) (v : ValueT) : (c.append v).values = c.values ++ [v] := by
  rw [values, grid_append, flatten_pushPage]
  rfl

namespace ScanCursor

/-- The cursor of `my_copy_scan` where that of `column_t_copy_scan` is `c`. -/
def rows (numRows : Nat) (c : ScanCursor) : RowCursor := ⟨filled numRows c.column.values, c.rowIdx⟩

/-- There is a value for every row passed. -/
def Aligned (c : ScanCursor) : Prop := c.column.values.length = c.rowIdx

variable {c : ScanCursor} {numRows : Nat}

theorem Aligned.append (h : c.Aligned) (v : ValueT) : (c.append v).Aligned := by
  unfold Aligned at h ⊢
  simp [ScanCursor.append, ColumnT.values_append, h]

theorem rows_null : (c.append makeNull).rows numRows = (c.rows numRows).skip := by
  simp [rows, ScanCursor.append, ColumnT.values_append, filled_null, RowCursor.skip]

theorem rows_put (h : c.Aligned) (hroom : c.rowIdx < numRows) (v : ValueT) :
    (c.rows numRows).put v = .ok ((c.append v).rows numRows) := by
  unfold Aligned at h
  rw [RowCursor.put, if_pos (by simpa [rows] using hroom)]
  simp only [rows, ScanCursor.append, ColumnT.values_append, ← filled_set, h]

theorem rows_check : (c.rows numRows).check numRows = c.check numRows := rfl

end ScanCursor

section Steps

variable {tableId inColIdx pageIdx numRows bitmap i : Nat} {page : Page} {c : ScanCursor}

theorem copyInt32Row_eq {s : Nat × ScanCursor} (hs : s.2.Aligned) :
    copyInt32Row numRows page bitmap (s.1, s.2.rows numRows) i =
      (scanInt32Row numRows page bitmap s i).map fun s => (s.1, s.2.rows numRows) := by
  unfold copyInt32Row scanInt32Row
  split
  · simp only [ScanCursor.rows_check]
    unfold ScanCursor.check
    split
    · rfl
    · next hroom =>
      simp only [ok_bind, ScanCursor.rows_put hs (Nat.lt_of_not_le hroom)]
      rfl
  · rw [Except.map, ScanCursor.rows_null]

theorem copyVarcharRow_eq {s : Nat × Nat × ScanCursor} (hs : s.2.2.Aligned) :
    copyVarcharRow tableId inColIdx pageIdx numRows page bitmap (s.1, s.2.1, s.2.2.rows numRows) i =
      (scanVarcharRow tableId inColIdx pageIdx numRows page bitmap s i).map
        fun s => (s.1, s.2.1, s.2.2.rows numRows) := by
  unfold copyVarcharRow scanVarcharRow
  dsimp only
  split
  · simp only [ScanCursor.rows_check]
    unfold ScanCursor.check
    split
    · rfl
    · next hroom =>
      simp only [ok_bind]
      cases putVarchar (.ofNat tableId) (.ofNat inColIdx) (.ofNat pageIdx) (.ofNat s.2.1) with
      | error e => rfl
      | ok v =>
        simp only [ok_bind, ScanCursor.rows_put hs (Nat.lt_of_not_le hroom)]
        rfl
  · rw [Except.map, ScanCursor.rows_null]

theorem scanInt32Row_aligned {s s' : Nat × ScanCursor} (hs : s.2.Aligned)
    (h : scanInt32Row numRows page bitmap s i = .ok s') : s'.2.Aligned := by
  rw [scanInt32Row] at h
  split at h
  · obtain ⟨_, -, h⟩ := bind_eq_ok.mp h
    cases h
    exact hs.append _
  · cases h
    exact hs.append _

theorem scanVarcharRow_aligned {s s' : Nat × Nat × ScanCursor} (hs : s.2.2.Aligned)
    (h : scanVarcharRow tableId inColIdx pageIdx numRows page bitmap s i = .ok s') :
    s'.2.2.Aligned := by
  rw [scanVarcharRow] at h
  split at h
  · obtain ⟨_, -, h⟩ := bind_eq_ok.mp h
    obtain ⟨v, -, h⟩ := bind_eq_ok.mp h
    cases h
    exact hs.append _
  · cases h
    exact hs.append _

theorem copyInt32Page_eq (hc : c.Aligned) : copyInt32Page numRows page (c.rows numRows) =
    (scanInt32Page numRows page c).map (ScanCursor.rows numRows) := by
  have hrun : (List.range page.numRows).foldlM (copyInt32Row numRows page (bitmapBegin page.numRows))
      (0, c.rows numRows) = ((List.range page.numRows).foldlM
        (scanInt32Row numRows page (bitmapBegin page.numRows)) (0, c.setType .INT32)).map
          fun s => (s.1, s.2.rows numRows) :=
    foldlM_view (fun _ _ => copyInt32Row_eq) (fun _ _ _ => scanInt32Row_aligned)
      (List.range page.numRows) (s := (0, c.setType .INT32)) hc
  rw [copyInt32Page, scanInt32Page, hrun]
  cases (List.range page.numRows).foldlM
    (scanInt32Row numRows page (bitmapBegin page.numRows)) (0, c.setType .INT32) <;> rfl

/-- A page of strings; the row of a long string needs room. -/
theorem copyVarcharPage_eq {pages : List Page} (hc : c.Aligned)
    (hroom : page.numRows = 0xffff → c.rowIdx < numRows) :
    copyVarcharPage tableId inColIdx numRows pages page pageIdx (c.rows numRows) =
      (scanVarcharPage tableId inColIdx numRows pages page pageIdx c).map
        (ScanCursor.rows numRows) := by
  have hc' : (c.setType .VARCHAR).Aligned := hc
  have hrun : (List.range page.numRows).foldlM
      (copyVarcharRow tableId inColIdx pageIdx numRows page (bitmapBegin page.numRows))
      (0, 0, c.rows numRows) = ((List.range page.numRows).foldlM
        (scanVarcharRow tableId inColIdx pageIdx numRows page (bitmapBegin page.numRows))
        (0, 0, c.setType .VARCHAR)).map fun s => (s.1, s.2.1, s.2.2.rows numRows) :=
    foldlM_view (fun _ _ => copyVarcharRow_eq) (fun _ _ _ => scanVarcharRow_aligned)
      (List.range page.numRows) (s := (0, 0, c.setType .VARCHAR)) hc
  rw [copyVarcharPage, scanVarcharPage]
  split
  · next hmark =>
    cases index pages (pageIdx + 1) with
    | error e => rfl
    | ok next =>
      simp only [ok_bind]
      cases longStringPos pages 0 next with
      | error e => rfl
      | ok pos =>
        simp only [ok_bind]
        cases putVarchar (.ofNat tableId) (.ofNat inColIdx) (.ofNat pageIdx) (.ofNat pos) with
        | error e => rfl
        | ok v => exact ScanCursor.rows_put hc' (hroom hmark) v
  · split
    · rfl
    · rw [hrun]
      cases (List.range page.numRows).foldlM
        (scanVarcharRow tableId inColIdx pageIdx numRows page (bitmapBegin page.numRows))
        (0, 0, c.setType .VARCHAR) <;> rfl

/-- On a page with room for its rows, `my_copy_scan` does what `column_t_copy_scan` does. -/
theorem copyPage_eq {column : Column} {p : Page × Nat} (hc : c.Aligned)
    (hroom : c.rowIdx + p.1.rowCount column.type ≤ numRows) :
    copyPage tableId inColIdx numRows column (c.rows numRows) p =
      (scanPage tableId inColIdx numRows column c p).map (ScanCursor.rows numRows) := by
  obtain ⟨type, pages⟩ := column
  cases type with
  | INT32 => exact copyInt32Page_eq hc
  | VARCHAR =>
    refine copyVarcharPage_eq hc fun hmark => ?_
    simp only [rowCount_first hmark] at hroom
    omega
  | INT64 => rfl
  | FP64 => rfl

theorem ScanCursor.Reached.aligned {vs : List ValueT} (h : c.Reached vs) : c.Aligned := by
  obtain ⟨type, hcolumn, hrow⟩ := h
  rw [Aligned, hcolumn, ColumnT.values_ofValues, hrow]

theorem copyPages_eq {column : Column} {ps : List (Page × Nat)} {vs : List ValueT} (hc : c.Reached vs)
    (hroom : c.rowIdx + (ps.map fun p => p.1.rowCount column.type).sum ≤ numRows) :
    ps.foldlM (copyPage tableId inColIdx numRows column) (c.rows numRows) =
      (ps.foldlM (scanPage tableId inColIdx numRows column) c).map (ScanCursor.rows numRows) := by
  induction ps generalizing c vs with
  | nil => rfl
  | cons p ps ih =>
    rw [List.map_cons, List.sum_cons] at hroom
    rw [List.foldlM_cons, List.foldlM_cons, copyPage_eq hc.aligned (by omega)]
    cases hrun : scanPage tableId inColIdx numRows column c p with
    | error e => rfl
    | ok c' =>
      obtain ⟨ws, hlen, hc'⟩ := scanPage_reached hrun hc
      apply ih hc'
      obtain ⟨-, -, hrow⟩ := hc
      obtain ⟨-, -, hrow'⟩ := hc'
      rw [hrow', List.length_append, hlen]
      omega

end Steps

/-- A column of `my_copy_scan` has the values of the rows that `column_t_copy_scan` would append one by
one. -/
theorem copyColumn_eq {tableId k : Nat} {ct : ColumnarTable} {column : Column}
    (hcolumn : ct.columns[k]? = some column) (hroom : column.rowCount ≤ ct.numRows) :
    copyColumn tableId ct k = (do
      let c ← column.pages.zipIdx.foldlM (scanPage tableId k ct.numRows column) ⟨.empty, 0⟩
      .ok (filled ct.numRows c.column.values)) := by
  have hstart : (⟨.empty, 0⟩ : ScanCursor).Reached [] := ⟨.INT32, rfl, rfl⟩
  have hsum : (column.pages.zipIdx.map fun p => p.1.rowCount column.type).sum = column.rowCount := by
    have hmap : (fun p : Page × Nat => p.1.rowCount column.type) = Page.rowCount column.type ∘ Prod.fst :=
      rfl
    rw [hmap, ← List.map_map, List.zipIdx_map_fst, Column.rowCount]
  have hpages : column.pages.zipIdx.foldlM (copyPage tableId k ct.numRows column)
      ⟨List.replicate ct.numRows makeNull, 0⟩ =
        (column.pages.zipIdx.foldlM (scanPage tableId k ct.numRows column) ⟨.empty, 0⟩).map
          (ScanCursor.rows ct.numRows) := by
    have hrows : (⟨.empty, 0⟩ : ScanCursor).rows ct.numRows =
        ⟨List.replicate ct.numRows makeNull, 0⟩ := by
      simp [ScanCursor.rows, filled, ColumnT.values, ColumnT.grid, ColumnT.empty]
    rw [← hrows]
    apply copyPages_eq hstart
    rw [hsum]
    simpa using hroom
  rw [copyColumn, index_eq_ok.mpr hcolumn, ok_bind, hpages]
  cases column.pages.zipIdx.foldlM (scanPage tableId k ct.numRows column) ⟨.empty, 0⟩ <;> rfl

/-- The strings of a column as `print_varchar` prints them, page by page. -/
def printedVarchar : List Page → List (Option Bytes) → List (Option Bytes)
  | [], _ => []
  | p :: ps, cs =>
    if p.numRows = 0xffff then cs.take 1 ++ printedVarchar ps (cs.drop 1)
    else if p.numRows = 0xfffe then printedVarchar ps cs
    else (cs.take p.numRows).map (Option.map fun _ => p.longChars) ++
      printedVarchar ps (cs.drop p.numRows)

/-- The string or NULL that a value of the row store stands for. -/
def printValue (inputs : List ColumnarTable) (v : ValueT) : Result (Option Bytes) := do
  if v.isNull then
    .ok none
  else if v.isVarchar then
    let s ← printVarchar inputs v
    .ok (some s)
  else
    .error (.runtimeError "wrong type of field")

/-- The places of the strings of a column lie inside the limits of `value_t`, and the pages that the scan
looks at behind a long string are pages of the column. -/
structure PlacesKept (tableId inColIdx : Nat) (pages : List Page) : Prop where
  short : ∀ n p, pages[n]? = some p → p.numRows < 0xfffe → p.numNonNull ≠ 0 →
    PlaceFits tableId inColIdx n 0
  long : ∀ n p, pages[n]? = some p → p.numRows = 0xffff →
    LookAheadInside pages n ∧ PlaceFits tableId inColIdx n (countedPos pages n)

/-- The cell that a value of the row store stands for in a column of the type. -/
def readValue (inputs : List ColumnarTable) (type : DataType) (v : ValueT) : Result Data := do
  match type with
  | .INT32 => .ok (int32Type.cell (← decodeInt32 [] v))
  | .VARCHAR => .ok (varcharCell (← printValue inputs v))
  | _ => .error (.runtimeError "OTHER TYPE FOUND!!")

/-- The cells of a column as they come back from the row store. -/
def Column.rowSeen (column : Column) (cells : List Data) : List Data :=
  match column.type with
  | .INT32 => (cells.map int32Type.project).map fun cell =>
      int32Type.cell (cell.filter fun v => !decide (v < 0))
  | .VARCHAR => (printedVarchar column.pages (cells.map VarcharWriter.project)).map varcharCell
  | _ => cells

/-- The scan of the column completes. -/
def Column.RowCompletes (tableId k : Nat) (column : Column) : Prop :=
  column.type = .VARCHAR → PlacesKept tableId k column.pages

section Printed

theorem printedVarchar_page {p : Page} {cs : List (Option Bytes)} (hp : VarcharPage p cs)
    (ps : List Page) (rest : List (Option Bytes)) :
    printedVarchar (p :: ps) (cs ++ rest) =
      cs.map (Option.map fun _ => p.longChars) ++ printedVarchar ps rest := by
  have hlt := hp.numRows_lt
  rw [printedVarchar, if_neg (by omega), if_neg (by omega), hp.rows, List.take_left, List.drop_left]

theorem printedVarchar_continued {qs : List Page} (h : ∀ q ∈ qs, q.numRows = 0xfffe) (ps : List Page)
    (rest : List (Option Bytes)) : printedVarchar (qs ++ ps) rest = printedVarchar ps rest := by
  induction qs with
  | nil => rfl
  | cons q qs ih =>
    have hmark := h q (by simp)
    rw [List.cons_append, printedVarchar, if_neg (by omega), if_pos hmark]
    exact ih fun q' hq' => h q' (by simp [hq'])

theorem printedVarchar_long {qs : List Page} {s : Bytes} (h : LongString qs s) (ps : List Page)
    (rest : List (Option Bytes)) :
    printedVarchar (qs ++ ps) (some s :: rest) = some s :: printedVarchar ps rest := by
  obtain ⟨first, marks, -⟩ := h
  rw [List.cons_append, printedVarchar, if_pos first]
  simp only [List.take_succ_cons, List.take_zero, List.drop_succ_cons, List.drop_zero,
    List.singleton_append]
  rw [printedVarchar_continued marks]

end Printed

section Varchar

variable {inputs : List ColumnarTable} {table : ColumnarTable} {tableId inColIdx n : Nat}
  {all ps : List Page} {cs : List (Option Bytes)} {vs : List ValueT} {v : ValueT}

theorem ValueT.PlaceFits.accepted {t c p q : Nat} (h : PlaceFits t c p q) : PlaceAccepted t c p q := by
  by_contra hrefused
  obtain ⟨v, hv, -⟩ := putPlace_ok (k := 0) (by decide) h
  cases hv.symm.trans (putPlace_of_refused hrefused)

/-- A value that was made of a place inside the limits has that place. -/
theorem putVarchar_place {t c p q : Nat} (h : PlaceFits t c p q)
    (hv : putVarchar (.ofNat t) (.ofNat c) (.ofNat p) (.ofNat q) = .ok v) :
    v.mode = 0 ∧ v.getTable = t ∧ v.getColumn = c ∧ v.getPage = p := by
  obtain ⟨w, hw, hmode, htable, hcolumn, hpage, -⟩ := putPlace_ok (k := 0) (by decide) h
  have hw' : putVarchar (.ofNat t) (.ofNat c) (.ofNat p) (.ofNat q) = .ok w := hw
  cases hv.symm.trans hw'
  exact ⟨hmode, htable, hcolumn, hpage⟩

/-- What a value of a string column prints: the characters of its page, and those of the pages that
continue it. -/
theorem printValue_eq {qs post : List Page} {p : Page} {q : Nat} (ht : inputs[tableId]? = some table)
    (hc : table.columns[inColIdx]? = some ⟨.VARCHAR, all⟩) (hall : all.drop n = p :: qs ++ post)
    (hqs : ∀ q ∈ qs, q.numRows = 0xfffe) (hpost : ∀ q, post.head? = some q → q.numRows ≠ 0xfffe)
    (hfits : PlaceFits tableId inColIdx n q)
    (hv : putVarchar (.ofNat tableId) (.ofNat inColIdx) (.ofNat n) (.ofNat q) = .ok v) :
    printValue inputs v = .ok (some ((p :: qs).flatMap Page.longChars)) := by
  obtain ⟨hmode, htable, hcolumn, hpage⟩ := putVarchar_place hfits hv
  have hp : all[n]? = some p := getElem?_of_drop hall
  have hdrop : all.drop (n + 1) = qs ++ post := drop_succ_of_drop hall
  rw [printValue, isNull_eq, isVarchar_eq, hmode]
  simp only [printVarchar, htable, hcolumn, hpage, index_eq_ok.mpr ht, index_eq_ok.mpr hc,
    index_eq_ok.mpr hp, ok_bind, hdrop, appendContinuations_eq hqs hpost]
  rfl

/-- The values of a scan inside the limits stand for the strings as `print_varchar` prints them. -/
theorem VarcharScan.printed (ht : inputs[tableId]? = some table)
    (hc : table.columns[inColIdx]? = some ⟨.VARCHAR, all⟩) (hkept : PlacesKept tableId inColIdx all)
    (h : VarcharScan tableId inColIdx all n ps cs vs) (hall : all.drop n = ps) :
    vs.mapM (printValue inputs) = .ok (printedVarchar ps cs) := by
  induction h with
  | nil => rfl
  | @page n p cs vs ps rest ws hp hrun hscan ih =>
    have hn : all[n]? = some p := getElem?_of_drop hall
    have hrest := ih (drop_succ_of_drop hall)
    have hfirst : vs.mapM (printValue inputs) = .ok (cs.map (Option.map fun _ => p.longChars)) := by
      have hlen := mapM_ok_length hrun
      rw [List.length_range] at hlen
      rw [mapM_eq_ok_iff, List.forall₂_iff_get]
      refine ⟨by rw [hlen, List.length_map], fun i hi hi' => ?_⟩
      have hics : i < cs.length := by omega
      have hv := mapM_ok_getElem hrun (i := i) (by simpa using hics) hi
      rw [List.getElem_range, varcharReference, List.getElem?_eq_getElem hics] at hv
      simp only [List.get_eq_getElem, List.getElem_map]
      cases hcell : cs[i] with
      | none =>
        simp only [hcell] at hv
        rw [← Except.ok.inj hv]
        rfl
      | some s =>
        simp only [hcell] at hv
        have hmem := List.reduceOption_mem_iff.mpr (hcell ▸ List.getElem_mem hics)
        have hstart := VarcharPage.start_le cs (rank cs i)
        have hfits := hp.fits
        have hpage := pageSize_eq
        have hplace := hkept.short n p hn hp.numRows_lt
          (by rw [hp.nonNull]; exact (List.length_pos_of_mem hmem).ne')
        have hplace' : PlaceFits tableId inColIdx n (VarcharPage.start cs (rank cs i)) :=
          ⟨hplace.1, hplace.2.1, hplace.2.2.1, by omega⟩
        have hnone : ∀ q ∈ ([] : List Page), q.numRows = 0xfffe := by simp
        have hprint := printValue_eq ht hc hall hnone hscan.pages.head_ne hplace' hv
        simpa using hprint
    rw [printedVarchar_page hp, List.mapM_append, hfirst, hrest]
    rfl
  | @long n qs s next pos v ps rest ws hs hnext hpos hv hscan ih =>
    have hrest := ih (drop_of_drop hall)
    obtain ⟨first, marks, -⟩ := id hs
    rename_i p qs
    have hn : all[n]? = some p := getElem?_of_drop hall
    obtain ⟨hinside, hplace⟩ := hkept.long n p hn first
    have hcounted : pos = countedPos all n :=
      Except.ok.inj (hpos.symm.trans ((longStringPos_next hnext).1 hinside))
    rw [hcounted] at hv
    have hprint := printValue_eq ht hc hall marks hscan.pages.head_ne hplace hv
    rw [printedVarchar_long hs, List.mapM_cons, hprint, ok_bind, hrest]
    rfl

/-- A scan that completes has kept to the limits and to the pages of the column. -/
theorem VarcharScan.placesKept (hfit : IndicesFit tableId inColIdx all)
    (h : VarcharScan tableId inColIdx all n ps cs vs) (hall : all.drop n = ps) :
    ∀ m p, n ≤ m → all[m]? = some p →
      (p.numRows < 0xfffe → p.numNonNull ≠ 0 → PlaceFits tableId inColIdx m 0) ∧
      (p.numRows = 0xffff →
        LookAheadInside all m ∧ PlaceFits tableId inColIdx m (countedPos all m)) := by
  have hpages := hfit.pages
  refine h.forall_page hall ?_ ?_ ?_
  · intro m p cs vs hp hpage hrun
    have hlt := hpage.numRows_lt
    refine ⟨fun _ hne => ?_, fun hmark => absurd hmark (by omega)⟩
    rw [hpage.nonNull] at hne
    obtain ⟨s, hs⟩ := List.exists_mem_of_ne_nil _ (List.ne_nil_of_length_pos (Nat.pos_of_ne_zero hne))
    obtain ⟨i, hi⟩ := List.mem_iff_getElem?.mp (List.reduceOption_mem_iff.mp hs)
    have hics := (List.getElem?_eq_some_iff.mp hi).1
    obtain ⟨v, -, hv⟩ := mapM_ok_getElem? hrun
      (show (List.range cs.length)[i]? = some i by simp [hics])
    rw [varcharReference, hi] at hv
    have hstart := VarcharPage.start_le cs (rank cs i)
    have hfits := hpage.fits
    have hpage := pageSize_eq
    have hmlt := (List.getElem?_eq_some_iff.mp hp).1
    have hplace := fits_of_putPlace_ok hfit.table hfit.column (by omega) (by omega) hv
    exact ⟨hplace.1, hplace.2.1, hplace.2.2.1, by decide⟩
  · intro m p next pos v hp first hnext hpos hv
    have hmlt := (List.getElem?_eq_some_iff.mp hp).1
    refine ⟨fun hlt => absurd first (by omega), fun _ => ?_⟩
    by_cases hinside : LookAheadInside all m
    · refine ⟨hinside, ?_⟩
      obtain rfl : pos = countedPos all m :=
        Except.ok.inj (hpos.symm.trans ((longStringPos_next hnext).1 hinside))
      have hcounted : countedPos all m < 2 ^ 31 := by
        unfold countedPos
        split
        · decide
        · next hne =>
          have := hinside.2 hne
          omega
      exact fits_of_putPlace_ok hfit.table hfit.column (by omega) hcounted hv
    · cases hpos.symm.trans ((longStringPos_next hnext).2 hinside)
  · intro m p hmark
    exact ⟨fun h => absurd hmark (by omega), fun h => absurd hmark (by omega)⟩

/-- Inside the limits the scan of a column of strings completes. -/
theorem scanKept_total {numRows : Nat} {c : ScanCursor} (hkept : PlacesKept tableId inColIdx all)
    (h : VarcharPages ps cs) (hall : all.drop n = ps) (hroom : c.rowIdx + cs.length ≤ numRows) :
    ∃ c', (ps.zipIdx n).foldlM (scanPage tableId inColIdx numRows ⟨.VARCHAR, all⟩) c = .ok c' := by
  induction h generalizing n c with
  | nil => exact ⟨c, rfl⟩
  | @page p cs ps rest hp _ ih =>
    rw [List.length_append] at hroom
    have hn : all[n]? = some p := getElem?_of_drop hall
    obtain ⟨hok, -⟩ := scanPage_page tableId inColIdx numRows n all c hp (by omega)
    obtain ⟨vs, hlen, -, hstep⟩ := hok fun hne => (hkept.short n p hn hp.numRows_lt hne).accepted
    obtain ⟨c', hc'⟩ := ih (n := n + 1) (c := (c.setType .VARCHAR).appendAll vs)
      (drop_succ_of_drop hall)
      (by simp only [ScanCursor.rowIdx_appendAll, ScanCursor.setType]; omega)
    refine ⟨c', ?_⟩
    rw [List.zipIdx_cons, List.foldlM_cons, hstep]
    exact hc'
  | @long qs s ps rest hs _ ih =>
    obtain ⟨first, marks, -⟩ := hs
    rename_i p qs
    rw [List.length_cons] at hroom
    have hn : all[n]? = some p := getElem?_of_drop hall
    obtain ⟨hinside, hplace⟩ := hkept.long n p hn first
    obtain ⟨-, -, hok⟩ := scanPage_long tableId inColIdx numRows n all c first
    obtain ⟨v, hstep, -⟩ := hok hinside hplace.accepted
    have htype : ((c.setType .VARCHAR).append v).column.type = .VARCHAR := by
      rw [ScanCursor.append, ColumnT.type_append, ScanCursor.setType]
    obtain ⟨c', hc'⟩ := ih (n := n + 1 + qs.length) (c := (c.setType .VARCHAR).append v)
      (drop_of_drop (drop_succ_of_drop hall))
      (by simp only [ScanCursor.append, ScanCursor.setType]; omega)
    refine ⟨c', ?_⟩
    rw [List.cons_append, List.zipIdx_cons, List.foldlM_cons, hstep, ok_bind, List.zipIdx_append,
      List.foldlM_append, scanContinuations_eq marks htype]
    exact hc'

/-- What `my_copy_scan` stores for a column of strings. -/
theorem copyColumn_varchar (hc : table.columns[inColIdx]? = some ⟨.VARCHAR, all⟩)
    (hpages : VarcharPages all cs) (hrows : cs.length = table.numRows)
    (hcopy : copyColumn tableId table inColIdx = .ok vs) :
    VarcharScan tableId inColIdx all 0 all cs vs := by
  rw [copyColumn_eq hc (by rw [hpages.rowCount, hrows])] at hcopy
  obtain ⟨c, hrun, hcopy⟩ := bind_eq_ok.mp hcopy
  have hscan : scanColumn tableId table inColIdx = .ok c.column := by
    rw [scanColumn, index_eq_ok.mpr hc, ok_bind, if_neg (by simp), hrun]
    rfl
  obtain ⟨type, ws, hscan, hcol, -⟩ := scanColumn_varchar hc hpages hrows.le hscan
  have hvs := Except.ok.inj hcopy
  rw [hcol, ColumnT.values_ofValues, filled_of_length (hscan.length_eq.trans hrows)] at hvs
  exact hvs ▸ hscan

theorem copyColumn_varchar_total (hc : table.columns[inColIdx]? = some ⟨.VARCHAR, all⟩)
    (hpages : VarcharPages all cs) (hrows : cs.length = table.numRows)
    (hkept : PlacesKept tableId inColIdx all) :
    ∃ vs, copyColumn tableId table inColIdx = .ok vs := by
  obtain ⟨c, hrun⟩ := scanKept_total (n := 0) (c := ⟨.empty, 0⟩) hkept hpages rfl
    (by simpa using hrows.le)
  rw [copyColumn_eq hc (by rw [hpages.rowCount, hrows]), hrun]
  exact ⟨_, rfl⟩

end Varchar

/-- What `my_copy_scan` stores for a column of integers. -/
theorem copyColumn_int32 {tableId k : Nat} {table : ColumnarTable} {ps : List Page}
    {cs : List (Option Int32)} (hc : table.columns[k]? = some ⟨.INT32, ps⟩)
    (hpages : FixedPages int32Type ps cs) (hrows : cs.length = table.numRows) :
    copyColumn tableId table k = .ok (cs.map int32Value) := by
  rw [copyColumn_eq hc (by rw [hpages.rowCount, hrows]),
    scanInt32Pages_eq hpages rfl (by simpa using hrows.le), ok_bind]
  have hvalues : ((⟨.empty, 0⟩ : ScanCursor).appendAll (cs.map int32Value)).column.values =
      cs.map int32Value := ColumnT.values_ofValues
  rw [hvalues, filled_of_length (by rw [List.length_map, hrows])]

section Insert

variable {fresh : Nat → Page} {inputs : List ColumnarTable} {dataVec : List (List ValueT)}
  {colIdx : Nat} {vs : List ValueT}

theorem insertInt32Value_eq {v : ValueT} {cell : Option Int32} (h : decodeInt32 [] v = .ok cell)
    (w : ColumnInserter) : insertInt32Value fresh w v = w.call int32Type fresh cell := by
  simp only [decodeInt32, insertInt32Value, isInt32_eq, isInt32NoNull_eq, isNull_eq,
    decide_eq_true_eq] at h ⊢
  by_cases h1 : v.mode = 1
  · simp only [h1, if_true] at h ⊢
    cases h
    rfl
  · by_cases h2 : v.mode = 2
    · simp [h2, getInt32ValueFromPage, index] at h
    · by_cases h3 : v.mode = 3
      · simp only [h3, if_true] at h ⊢
        cases h
        rfl
      · simp [h1, h2, h3] at h

theorem insertVarcharValue_eq {v : ValueT} {cell : Option Bytes} (h : printValue inputs v = .ok cell)
    (w : StringInserter) : insertVarcharValue fresh inputs w v = .ok (w.call fresh cell) := by
  rw [printValue] at h
  rw [insertVarcharValue]
  split at h
  · next hnull =>
    cases h
    rw [if_pos hnull]
    rfl
  · next hnull =>
    rw [if_neg hnull]
    split at h
    · next hvarchar =>
      obtain ⟨s, hs, h⟩ := bind_eq_ok.mp h
      cases h
      rw [if_pos hvarchar, hs]
      rfl
    · cases h

/-- A column that comes of the values holds the cells that they stand for. -/
theorem columnFromValue_holds (fresh : Nat → Page) {type : DataType} {cells : List Data}
    (hvs : (dataVec.mapM fun row => index row colIdx) = .ok vs)
    (hcells : vs.mapM (readValue inputs type) = .ok cells)
    (htype : type = .INT32 ∨ type = .VARCHAR) :
    ∃ column, columnFromValue fresh inputs dataVec colIdx type = .ok column ∧
      column.type = type ∧ column.Holds cells := by
  rcases htype with rfl | rfl
  · obtain ⟨cs, hcs, rfl⟩ := mapM_comp_eq_ok hcells
    refine ⟨⟨.INT32, ColumnInserter.run int32Type fresh cs⟩, ?_, rfl,
      .int32 (ColumnInserter.run_holds (Nat.le_refl 4) fresh cs)⟩
    simp only [columnFromValue]
    rw [foldlM_mapM (f := fun w v => .ok (insertInt32Value fresh w v)) hvs,
      foldlM_insert (fun _ _ hv w => congrArg Except.ok (insertInt32Value_eq hv w)) hcs]
    rfl
  · obtain ⟨cs, hcs, rfl⟩ := mapM_comp_eq_ok hcells
    refine ⟨⟨.VARCHAR, StringInserter.run fresh cs⟩, ?_, rfl,
      .varchar (StringInserter.run_holds fresh cs)⟩
    simp only [columnFromValue]
    rw [foldlM_mapM hvs, foldlM_insert (fun _ _ hv w => insertVarcharValue_eq hv w) hcs]
    rfl

end Insert

section Columns

variable {inputs : List ColumnarTable} {ct : ColumnarTable} {tableId k : Nat} {column : Column}
  {cells : List Data}

/-- The values of a scan that completes stand for the cells as they come back. -/
theorem Column.Holds.copyColumn_total (h : column.Holds cells) (hcolumn : ct.columns[k]? = some column)
    (hlen : cells.length = ct.numRows) (htype : column.type = .INT32 ∨ column.type = .VARCHAR)
    (hinput : inputs[tableId]? = some ct) (hcompletes : column.RowCompletes tableId k) :
    ∃ vs, copyColumn tableId ct k = .ok vs ∧
      vs.mapM (readValue inputs column.type) = .ok (column.rowSeen cells) := by
  cases h with
  | int64 _ => simp at htype
  | fp64 _ => simp at htype
  | @int32 ps cs hps =>
    rw [List.length_map] at hlen
    refine ⟨_, copyColumn_int32 hcolumn hps hlen, ?_⟩
    unfold Column.rowSeen
    rw [map_project_cell, mapM_eq_ok_iff, List.forall₂_map_left_iff, List.forall₂_map_right_iff,
      List.forall₂_same]
    intro cell _
    rw [readValue, decodeInt32_int32Value]
    rfl
  | @varchar ps cs hps =>
    rw [List.length_map] at hlen
    obtain ⟨vs, hvs⟩ := copyColumn_varchar_total hcolumn hps hlen (hcompletes rfl)
    have hscan := copyColumn_varchar hcolumn hps hlen hvs
    refine ⟨vs, hvs, ?_⟩
    unfold Column.rowSeen
    rw [map_project_varcharCell]
    exact mapM_ok_comp (hscan.printed hinput hcolumn (hcompletes rfl) rfl) varcharCell

theorem Column.Holds.rowCompletes (h : column.Holds cells) (hcolumn : ct.columns[k]? = some column)
    (hlen : cells.length = ct.numRows) (hfit : IndicesFit tableId k column.pages) {vs : List ValueT}
    (hvs : copyColumn tableId ct k = .ok vs) : column.RowCompletes tableId k := by
  intro htype
  cases h with
  | int32 _ | int64 _ | fp64 _ => cases htype
  | @varchar ps cs hps =>
    rw [List.length_map] at hlen
    have hkept := (copyColumn_varchar hcolumn hps hlen hvs).placesKept hfit rfl
    exact ⟨fun n p hp => (hkept n p (Nat.zero_le n) hp).1, fun n p hp => (hkept n p (Nat.zero_le n) hp).2⟩

theorem Column.Holds.length_copyColumn (h : column.Holds cells)
    (hcolumn : ct.columns[k]? = some column) (hlen : cells.length = ct.numRows)
    (htype : column.type = .INT32 ∨ column.type = .VARCHAR) {vs : List ValueT}
    (hvs : copyColumn tableId ct k = .ok vs) : vs.length = ct.numRows := by
  rw [copyColumn_eq hcolumn (by rw [h.rowCount htype, hlen])] at hvs
  obtain ⟨c, -, hvs⟩ := bind_eq_ok.mp hvs
  cases hvs
  exact length_filled

end Columns

end JoinOptimizer
