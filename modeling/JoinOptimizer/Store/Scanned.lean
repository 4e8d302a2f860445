import JoinOptimizer.Store.Scan

/-! What a scan leaves in a column: the values of its rows in order, appended one by one, whichever path
filled it. -/

namespace JoinOptimizer

open Lib ValueT

/-- The page and the slot of each row of a column without NULL. -/
def rowPlaces (pages : List Page) : List (Nat × Nat) :=
  pages.zipIdx.flatMap fun p => (List.range p.1.numRows).map fun i => (p.2, i)

/-- The reference to a row of a column without NULL. -/
def noNullReference (tableId inColIdx : Nat) (place : Nat × Nat) : Result ValueT :=
  putInt32NoNull (.ofNat tableId) (.ofNat inColIdx) (.ofNat place.1) (.ofNat place.2)

theorem length_rowPlaces (pages : List Page) : (rowPlaces pages).length = totalRows pages := by
  have h : pages.zipIdx.map (fun p => p.1.numRows) = pages.map Page.numRows := by
    rw [show (fun p : Page × Nat => p.1.numRows) = Page.numRows ∘ Prod.fst from rfl,
      ← List.map_map, List.zipIdx_map_fst]
  rw [rowPlaces, List.length_flatMap, totalRows, ← h]
  simp

namespace NoNullCursor

/-- A write to the next slot. -/
def put (c : NoNullCursor) (v : ValueT) : NoNullCursor :=
  if h : c.current.values.length = bufSize then ⟨c.done ++ [c.current], .single v⟩
  else ⟨c.done, c.current.push h v⟩

def grid (c : NoNullCursor) : List (List ValueT) := (c.done ++ [c.current]).map ColumnPage.values

def putAll (vs : List ValueT) : NoNullCursor := vs.foldl put ⟨[], .empty⟩

theorem putAll_concat (vs : List ValueT) (v : ValueT) :
    putAll (vs ++ [v]) = (putAll vs).put v := by
  rw [putAll, List.foldl_append]
  rfl

/-- The path that allocates its pages in advance breaks them as `append` does. -/
theorem putAll_spec (vs : List ValueT) (v : ValueT) :
    Packed bufSize ((putAll (vs ++ [v])).done.map ColumnPage.values)
        (putAll (vs ++ [v])).current.values ∧
      (putAll (vs ++ [v])).grid = paged bufSize (vs ++ [v]) := by
  induction vs using List.reverseRecOn generalizing v with
  | nil =>
    rw [putAll_concat, put, dif_neg (show ¬ (putAll []).current.values.length = bufSize by decide)]
    exact ⟨⟨by simp [putAll], Nat.one_pos, show 1 ≤ bufSize by decide⟩, rfl⟩
  | append_singleton vs w ih =>
    obtain ⟨hpacked, hgrid⟩ := ih w
    rw [paged_concat (vs ++ [w]), ← hgrid, putAll_concat (vs ++ [w])]
    generalize putAll (vs ++ [w]) = c at hpacked hgrid
    have hconcat : c.grid = c.done.map ColumnPage.values ++ [c.current.values] := by simp [grid]
    rw [hconcat, pushPage_concat, put]
    by_cases hfull : c.current.values.length = bufSize
    · rw [dif_pos hfull, if_pos hfull]
      refine ⟨?_, by simp [grid, ColumnPage.single]⟩
      simpa [ColumnPage.single] using hpacked.next hfull v
    · rw [dif_neg hfull, if_neg hfull]
      refine ⟨?_, by simp [grid, ColumnPage.push]⟩
      exact hpacked.concat hfull v

/-- The slots written so far. -/
theorem length_putAll (vs : List ValueT) : vs.length =
    (putAll vs).done.length * bufSize + (putAll vs).current.values.length := by
  rcases List.eq_nil_or_concat vs with rfl | ⟨ws, w, rfl⟩
  · rfl
  · rw [List.concat_eq_append]
    obtain ⟨hpacked, hgrid⟩ := putAll_spec ws w
    have hlen := hpacked.length_flatten
    rw [List.length_map] at hlen
    rw [← hlen]
    conv_lhs => rw [← flatten_paged bufSize (ws ++ [w]), ← hgrid]
    simp [grid]

end NoNullCursor

theorem noNullRow_put {tableId inColIdx needed : Nat} {vs : List ValueT} (place : Nat × Nat)
    (hroom : vs.length < needed * bufSize) :
    noNullRow tableId inColIdx needed place.1 (NoNullCursor.putAll vs) place.2 =
      (do .ok (NoNullCursor.putAll (vs ++ [← noNullReference tableId inColIdx place]))) := by
  have hlen := NoNullCursor.length_putAll vs
  simp only [NoNullCursor.putAll_concat, noNullRow, NoNullCursor.put, noNullReference]
  split
  · next hfull =>
    have hmore : (NoNullCursor.putAll vs).done.length + 1 < needed := by
      by_contra hle
      have := Nat.mul_le_mul_right bufSize
        (show needed ≤ (NoNullCursor.putAll vs).done.length + 1 by omega)
      rw [Nat.add_mul] at this
      omega
    rw [if_pos hmore]
  · rfl

theorem foldlM_noNullPage (tableId inColIdx needed : Nat) (pages : List Page) (c : NoNullCursor) :
    pages.zipIdx.foldlM (noNullPage tableId inColIdx needed) c =
      (rowPlaces pages).foldlM
        (fun c place => noNullRow tableId inColIdx needed place.1 c place.2) c := by
  rw [rowPlaces, foldlM_flatMap]
  refine congrArg (fun f => pages.zipIdx.foldlM f c) (funext fun c => funext fun p => ?_)
  rw [List.foldlM_map]
  rfl

theorem neededPages_spec (rows : Nat) :
    rows ≤ neededPages rows * bufSize ∧ neededPages rows * bufSize < rows + bufSize := by
  rw [neededPages, show bufSize = 1024 from rfl]
  omega

theorem scanNoNull_eq (tableId inColIdx : Nat) (pages : List Page) :
    scanNoNull tableId inColIdx pages =
      (do .ok (ColumnT.ofValues .INT32 true pages
        (← (rowPlaces pages).mapM (noNullReference tableId inColIdx)))) := by
  have htotal := length_rowPlaces pages
  rw [scanNoNull]
  split
  · next hzero =>
    have hnil : rowPlaces pages = [] := List.eq_nil_of_length_eq_zero (by omega)
    rw [hnil]
    rfl
  · next hrows =>
    obtain ⟨henough, htight⟩ := neededPages_spec (totalRows pages)
    generalize neededPages (totalRows pages) = needed at henough htight
    have hloop : (rowPlaces pages).foldlM
        (fun c place => noNullRow tableId inColIdx needed place.1 c place.2) ⟨[], .empty⟩ =
        (do .ok (NoNullCursor.putAll
          (← (rowPlaces pages).mapM (noNullReference tableId inColIdx)))) := by
      refine foldlM_eq_mapM NoNullCursor.putAll rfl fun vs hi => ?_
      exact noNullRow_put _ (Nat.lt_of_lt_of_le hi (htotal ▸ henough))
    simp only [foldlM_noNullPage, hloop]
    cases hrun : (rowPlaces pages).mapM (noNullReference tableId inColIdx) with
    | error e => rfl
    | ok vs =>
      have hlen := mapM_ok_length hrun
      simp only [ok_bind]
      congr 1
      rcases List.eq_nil_or_concat vs with rfl | ⟨ws, w, rfl⟩
      · rw [List.length_nil] at hlen
        omega
      · rw [List.concat_eq_append] at hlen ⊢
        obtain ⟨hpacked, hgrid⟩ := NoNullCursor.putAll_spec ws w
        have hput := NoNullCursor.length_putAll (ws ++ [w])
        generalize NoNullCursor.putAll (ws ++ [w]) = c at hpacked hgrid hput
        have hlast : needed - c.done.length - 1 = 0 := by
          have hpos := hpacked.pos
          have hle := hpacked.le
          by_contra hne
          have := Nat.mul_le_mul_right bufSize (show c.done.length + 2 ≤ needed by omega)
          rw [Nat.add_mul] at this
          omega
        refine ColumnT.eq_of_grid (by simp) ?_ (by simp) (by simp)
        rw [ColumnT.grid_ofValues, ← hgrid, hlast]
        simp [ColumnT.grid, NoNullCursor.grid]

/-- The rows that the header of a page announces. -/
def Page.rowCount (type : DataType) (p : Page) : Nat :=
  match type with
  | .INT32 => p.numRows
  | .VARCHAR => if p.numRows = 0xffff then 1 else if p.numRows = 0xfffe then 0 else p.numRows
  | _ => 0

/-- The rows that a column encodes. -/
def Column.rowCount (c : Column) : Nat := (c.pages.map (Page.rowCount c.type)).sum

namespace ScanCursor

/-- The cursor has appended the values `vs`, one for each row. -/
def Reached (c : ScanCursor) (vs : List ValueT) : Prop :=
  ∃ type, c.column = ColumnT.ofValues type false [] vs ∧ c.rowIdx = vs.length

variable {c : ScanCursor} {vs : List ValueT}

theorem setType_of_eq {type : DataType} (h : c.column.type = type) : c.setType type = c := by
  rw [setType, ← h]

/-- The cursor after the values `vs` of as many rows. -/
def appendAll (c : ScanCursor) (vs : List ValueT) : ScanCursor :=
  ⟨c.column.appendAll vs, c.rowIdx + vs.length⟩

theorem appendAll_append (c : ScanCursor) (vs ws : List ValueT) :
    c.appendAll (vs ++ ws) = (c.appendAll vs).appendAll ws := by
  rw [appendAll, appendAll, appendAll, ColumnT.appendAll_append, List.length_append, Nat.add_assoc]

theorem appendAll_concat (c : ScanCursor) (vs : List ValueT) (v : ValueT) :
    c.appendAll (vs ++ [v]) = (c.appendAll vs).append v := by
  rw [appendAll_append]
  rfl

@[simp] theorem type_appendAll (c : ScanCursor) (vs : List ValueT) :
    (c.appendAll vs).column.type = c.column.type := ColumnT.type_appendAll _ vs

@[simp] theorem rowIdx_appendAll (c : ScanCursor) (vs : List ValueT) :
    (c.appendAll vs).rowIdx = c.rowIdx + vs.length := rfl

theorem Reached.append (h : c.Reached vs) (v : ValueT) : (c.append v).Reached (vs ++ [v]) := by
  obtain ⟨type, hcolumn, hrow⟩ := h
  refine ⟨type, ?_, by simp [ScanCursor.append, hrow]⟩
  rw [ScanCursor.append, hcolumn, ColumnT.append_ofValues]

theorem Reached.setType (h : c.Reached vs) (type : DataType) : (c.setType type).Reached vs := by
  obtain ⟨_, hcolumn, hrow⟩ := h
  refine ⟨type, ?_, hrow⟩
  rw [ScanCursor.setType, hcolumn]
  refine ColumnT.eq_of_grid (by simp) ?_ (by simp) (by simp)
  rw [ColumnT.grid_ofValues]
  exact ColumnT.grid_ofValues

end ScanCursor

section Count

variable {tableId inColIdx pageIdx numRows bitmap i : Nat} {page : Page} {vs : List ValueT}

theorem scanInt32Row_reached {s s' : Nat × ScanCursor}
    (h : scanInt32Row numRows page bitmap s i = .ok s') (hs : s.2.Reached vs) :
    ∃ v, s'.2.Reached (vs ++ [v]) := by
  rw [scanInt32Row] at h
  split at h
  · obtain ⟨_, -, h⟩ := bind_eq_ok.mp h
    cases h
    exact ⟨_, hs.append _⟩
  · cases h
    exact ⟨_, hs.append _⟩

theorem scanVarcharRow_reached {s s' : Nat × Nat × ScanCursor}
    (h : scanVarcharRow tableId inColIdx pageIdx numRows page bitmap s i = .ok s')
    (hs : s.2.2.Reached vs) : ∃ v, s'.2.2.Reached (vs ++ [v]) := by
  rw [scanVarcharRow] at h
  split at h
  · obtain ⟨_, -, h⟩ := bind_eq_ok.mp h
    obtain ⟨v, -, h⟩ := bind_eq_ok.mp h
    cases h
    exact ⟨_, hs.append _⟩
  · cases h
    exact ⟨_, hs.append _⟩

/-- A page of any bytes adds as many rows as its header announces, if its scan completes. -/
theorem scanPage_reached {column : Column} {c c' : ScanCursor} {p : Page × Nat}
    (h : scanPage tableId inColIdx numRows column c p = .ok c') (hc : c.Reached vs) :
    ∃ ws, ws.length = p.1.rowCount column.type ∧ c'.Reached (vs ++ ws) := by
  have hsame : c.Reached (vs ++ []) := by rwa [List.append_nil]
  rw [scanPage] at h
  split at h
  · next htype =>
    obtain ⟨s, hrun, h⟩ := bind_eq_ok.mp h
    cases h
    obtain ⟨ws, hlen, hreached⟩ := foldlM_invariant
      (P := fun pre (s : Nat × ScanCursor) =>
        ∃ ws, ws.length = pre.length ∧ s.2.Reached (vs ++ ws))
      hrun ⟨[], rfl, by rw [List.append_nil]; exact hc.setType .INT32⟩ (by
        rintro pre i t t' - ⟨ws, hlen, hreached⟩ hstep
        obtain ⟨v, hv⟩ := scanInt32Row_reached hstep hreached
        exact ⟨ws ++ [v], by simp [hlen], by rwa [← List.append_assoc]⟩)
    exact ⟨ws, by simpa [htype, Page.rowCount] using hlen, hreached⟩
  · next htype =>
    rw [htype, Page.rowCount]
    have hc := hc.setType .VARCHAR
    rw [scanVarcharPage] at h
    split at h
    · next hmark =>
      obtain ⟨_, -, h⟩ := bind_eq_ok.mp h
      obtain ⟨_, -, h⟩ := bind_eq_ok.mp h
      obtain ⟨v, -, h⟩ := bind_eq_ok.mp h
      cases h
      exact ⟨[v], by simp [hmark], hc.append v⟩
    · next hmark =>
      split at h
      · next hmark' =>
        cases h
        exact ⟨[], by simp [hmark'], by rwa [List.append_nil]⟩
      · next hmark' =>
        obtain ⟨s, hrun, h⟩ := bind_eq_ok.mp h
        cases h
        obtain ⟨ws, hlen, hreached⟩ := foldlM_invariant
          (P := fun pre (s : Nat × Nat × ScanCursor) =>
            ∃ ws, ws.length = pre.length ∧ s.2.2.Reached (vs ++ ws))
          hrun ⟨[], rfl, by rwa [List.append_nil]⟩ (by
            rintro pre i t t' - ⟨ws, hlen, hreached⟩ hstep
            obtain ⟨v, hv⟩ := scanVarcharRow_reached hstep hreached
            exact ⟨ws ++ [v], by simp [hlen], by rwa [← List.append_assoc]⟩)
        exact ⟨ws, by simpa [hmark, hmark'] using hlen, hreached⟩
  · next hint32 hvarchar =>
    cases h
    refine ⟨[], ?_, hsame⟩
    unfold Page.rowCount
    split <;> simp_all

/-- The columns of a scan have one value for each row that their base column encodes, on pages filled
in one way; only a column without NULL keeps the pages of its base column. -/
theorem scanColumn_ofValues {table : ColumnarTable} {col : ColumnT}
    (h : scanColumn tableId table inColIdx = .ok col) :
    ∃ column type isNoNull originalPages vs, table.columns[inColIdx]? = some column ∧
      vs.length = column.rowCount ∧ col = ColumnT.ofValues type isNoNull originalPages vs ∧
      (isNoNull = false → originalPages = []) := by
  obtain ⟨column, hcolumn, h⟩ := bind_eq_ok.mp h
  rw [index_eq_ok] at hcolumn
  split at h
  · next hcond =>
    have htype : column.type = .INT32 := by simp_all
    rw [scanNoNull_eq] at h
    obtain ⟨vs, hrun, h⟩ := bind_eq_ok.mp h
    cases h
    refine ⟨column, _, _, _, vs, hcolumn, ?_, rfl, nofun⟩
    rw [mapM_ok_length hrun, length_rowPlaces, Column.rowCount, htype]
    rfl
  · obtain ⟨c, hrun, h⟩ := bind_eq_ok.mp h
    cases h
    obtain ⟨vs, hlen, type, hcol, -⟩ := foldlM_invariant
      (P := fun pre (c : ScanCursor) => ∃ vs,
        vs.length = (pre.map (Page.rowCount column.type ∘ Prod.fst)).sum ∧ c.Reached vs)
      hrun ⟨[], rfl, .INT32, rfl, rfl⟩
      fun pre p t t' _ ⟨vs, hlen, hreached⟩ hstep => by
        obtain ⟨ws, hws, hreached'⟩ := scanPage_reached hstep hreached
        exact ⟨vs ++ ws, by simp [hlen, hws], hreached'⟩
    refine ⟨column, type, _, _, vs, hcolumn, ?_, hcol, fun _ => rfl⟩
    rw [hlen, Column.rowCount, ← List.map_map, List.zipIdx_map_fst]

end Count

/-- The value of a cell of an INT32 column that is copied. -/
def int32Value : Option Int32 → ValueT
  | some v => putInt32 v
  | none => makeNull

/-- The value of row `i` of a page of strings: where the string starts. -/
def varcharReference (tableId inColIdx pageIdx : Nat) (cs : List (Option Bytes)) (i : Nat) :
    Result ValueT :=
  match cs[i]? with
  | some (some _) =>
    putVarchar (.ofNat tableId) (.ofNat inColIdx) (.ofNat pageIdx)
      (.ofNat (VarcharPage.start cs (rank cs i)))
  | _ => .ok makeNull

theorem check_eq_ok {numRows : Nat} {c : ScanCursor} (h : c.rowIdx < numRows) :
    c.check numRows = .ok () := if_neg (by omega)

section Cells

variable {numRows : Nat} {p : Page} {c : ScanCursor}

theorem scanInt32Row_eq {cs : List (Option Int32)} (hp : FixedPage int32Type p cs) {i : Nat}
    (hi : i < cs.length) (hroom : c.rowIdx < numRows) :
    scanInt32Row numRows p (bitmapBegin cs.length) (rank cs i, c) i =
      .ok (rank cs (i + 1), c.append (int32Value cs[i])) := by
  rw [scanInt32Row, hp.bits i hi]
  cases hc : cs[i] with
  | none =>
    rw [rank_succ_of_none hi hc]
    rfl
  | some v =>
    have hvalue := hp.value (rank_lt hi hc)
    rw [getElem_rank hi hc] at hvalue
    rw [rank_succ_of_some hi hc, check_eq_ok hroom]
    simp only [Option.isSome_some, if_true, ok_bind, int32Value]
    rw [show int32Type.size = 4 from rfl] at hvalue
    rw [hvalue]

theorem scanInt32Page_eq {cs : List (Option Int32)} (hp : FixedPage int32Type p cs)
    (htype : c.column.type = .INT32) (hroom : c.rowIdx + cs.length ≤ numRows) :
    scanInt32Page numRows p c = .ok (c.appendAll (cs.map int32Value)) := by
  have hrun : (List.range cs.length).foldlM (scanInt32Row numRows p (bitmapBegin cs.length))
      (0, c) = .ok (cs.reduceOption.length, c.appendAll (cs.map int32Value)) := by
    refine foldlM_range_trajectory (fun i => (rank cs i, c.appendAll ((cs.map int32Value).take i)))
      rfl ?_ fun i hi => ?_
    · rw [List.take_of_length_le (by simp), rank_length]
    · have hi' : i < (cs.map int32Value).length := by simpa using hi
      rw [scanInt32Row_eq hp hi (by simp; omega), List.take_succ_eq_append_getElem hi',
        ScanCursor.appendAll_concat, List.getElem_map]
  rw [scanInt32Page, ScanCursor.setType_of_eq htype, hp.rows, hrun]
  rfl

theorem scanVarcharRow_eq {cs : List (Option Bytes)} (hp : VarcharPage p cs)
    {tableId inColIdx pageIdx i : Nat} (hi : i < cs.length) (hroom : c.rowIdx < numRows) :
    scanVarcharRow tableId inColIdx pageIdx numRows p (bitmapBegin cs.length)
        (rank cs i, VarcharPage.start cs (rank cs i), c) i =
      (do .ok (rank cs (i + 1), VarcharPage.start cs (rank cs (i + 1)),
        c.append (← varcharReference tableId inColIdx pageIdx cs i))) := by
  rw [scanVarcharRow, hp.bits i hi, varcharReference, List.getElem?_eq_getElem hi]
  cases hc : cs[i] with
  | none =>
    rw [rank_succ_of_none hi hc]
    rfl
  | some v =>
    have hr := rank_lt hi hc
    have hoffset : p.u16 (4 + rank cs i * 2) = VarcharPage.start cs (rank cs i + 1) :=
      hp.offsets _ hr
    rw [rank_succ_of_some hi hc, check_eq_ok hroom, hoffset]
    rfl

theorem scanVarcharRows_eq {cs : List (Option Bytes)} (hp : VarcharPage p cs)
    (tableId inColIdx pageIdx : Nat) (hroom : c.rowIdx + cs.length ≤ numRows) :
    (List.range cs.length).foldlM
        (scanVarcharRow tableId inColIdx pageIdx numRows p (bitmapBegin cs.length)) (0, 0, c) =
      (do
        let vs ← (List.range cs.length).mapM (varcharReference tableId inColIdx pageIdx cs)
        .ok (rank cs vs.length, VarcharPage.start cs (rank cs vs.length), c.appendAll vs)) := by
  refine foldlM_eq_mapM (fun vs : List ValueT => (rank cs vs.length,
    VarcharPage.start cs (rank cs vs.length), c.appendAll vs)) rfl fun vs hi => ?_
  rw [List.length_range] at hi
  rw [List.getElem_range, scanVarcharRow_eq hp hi (by rw [ScanCursor.rowIdx_appendAll]; omega)]
  simp only [List.length_append, List.length_singleton, ScanCursor.appendAll_concat]

end Cells

/-- Where the loop behind a long string stops: at once, or behind the first page from `pages[pos + 2]` on
that is not marked 0xfffe. -/
theorem longStringPos_spec {pages : List Page} {pos r : Nat} {next : Page}
    (h : longStringPos pages pos next = .ok r) :
    next.numRows ≠ 0xfffe ∧ r = pos ∨
      next.numRows = 0xfffe ∧ pos < r ∧ ∃ q, pages[r + 1]? = some q ∧ q.numRows ≠ 0xfffe := by
  fun_induction longStringPos pages pos next with
  | case1 pos next hmark page hget ih =>
    rcases ih h with ⟨hne, rfl⟩ | ⟨_, hlt, hq⟩
    · exact .inr ⟨hmark, by omega, page, hget, hne⟩
    · exact .inr ⟨hmark, by omega, hq⟩
  | case2 pos next hmark hget => cases h
  | case3 pos next hmark =>
    cases h
    exact .inl ⟨hmark, rfl⟩

theorem longStringPos_ok {pages : List Page} (pos : Nat) (next : Page) {j : Nat} {q : Page} (hj : pos + 2 ≤ j)
    (hq : pages[j]? = some q) (hmark : q.numRows ≠ 0xfffe) :
    ∃ r, longStringPos pages pos next = .ok r ∧ r + 1 ≤ j := by
  fun_induction longStringPos pages pos next with
  | case1 pos next _ page hget ih =>
    by_cases heq : j = pos + 2
    · subst heq
      obtain rfl : page = q := by simpa [hget] using hq
      refine ⟨pos + 1, ?_, by omega⟩
      rw [longStringPos, if_neg hmark]
    · exact ih (by omega)
  | case2 pos next _ hget =>
    have hlt := (List.getElem?_eq_some_iff.mp hq).1
    have := List.getElem?_eq_none_iff.mp hget
    omega
  | case3 pos next _ => exact ⟨pos, rfl, by omega⟩

/-- What the scan of a column of strings stores: on a page of strings the start of each string, for a
long string its first page and what the search behind it finds.  `n` is the index of the next page among
all pages `all` of the column. -/
inductive VarcharScan (tableId inColIdx : Nat) (all : List Page) :
    Nat → List Page → List (Option Bytes) → List ValueT → Prop
  | nil {n : Nat} : VarcharScan tableId inColIdx all n [] [] []
  | page {n : Nat} {p : Page} {cs : List (Option Bytes)} {vs : List ValueT} {ps : List Page}
      {rest : List (Option Bytes)} {ws : List ValueT} : VarcharPage p cs →
      (List.range cs.length).mapM (varcharReference tableId inColIdx n cs) = .ok vs →
      VarcharScan tableId inColIdx all (n + 1) ps rest ws →
      VarcharScan tableId inColIdx all n (p :: ps) (cs ++ rest) (vs ++ ws)
  | long {n : Nat} {qs : List Page} {s : Bytes} {next : Page} {pos : Nat} {v : ValueT}
      {ps : List Page} {rest : List (Option Bytes)} {ws : List ValueT} : LongString qs s →
      all[n + 1]? = some next → longStringPos all 0 next = .ok pos →
      putVarchar (.ofNat tableId) (.ofNat inColIdx) (.ofNat n) (.ofNat pos) = .ok v →
      VarcharScan tableId inColIdx all (n + qs.length) ps rest ws →
      VarcharScan tableId inColIdx all n (qs ++ ps) (some s :: rest) (v :: ws)

theorem VarcharScan.length_eq {tableId inColIdx n : Nat} {all ps : List Page}
    {cs : List (Option Bytes)} {vs : List ValueT}
    (h : VarcharScan tableId inColIdx all n ps cs vs) : vs.length = cs.length := by
  induction h with
  | nil => rfl
  | page _ hrun _ ih =>
    have hlen := mapM_ok_length hrun
    rw [List.length_range] at hlen
    rw [List.length_append, List.length_append, hlen, ih]
  | long _ _ _ _ _ ih => rw [List.length_cons, List.length_cons, ih]

section Pages

variable {tableId inColIdx numRows : Nat}

theorem scanInt32Pages_eq {ps : List Page} {cs : List (Option Int32)}
    (h : FixedPages int32Type ps cs) {all : List Page} {n : Nat} {c : ScanCursor}
    (htype : c.column.type = .INT32) (hroom : c.rowIdx + cs.length ≤ numRows) :
    (ps.zipIdx n).foldlM (scanPage tableId inColIdx numRows ⟨.INT32, all⟩) c =
      .ok (c.appendAll (cs.map int32Value)) := by
  induction h generalizing n c with
  | nil => rfl
  | page hp _ ih =>
    rw [List.length_append] at hroom
    rw [List.zipIdx_cons, List.foldlM_cons, scanPage,
      scanInt32Page_eq hp htype (by omega), ok_bind, ih (by simpa using htype) (by simp; omega),
      List.map_append, ScanCursor.appendAll_append]

/-- The continuation pages of a long string add nothing. -/
theorem scanContinuations_eq {qs : List Page} (h : ∀ q ∈ qs, q.numRows = 0xfffe) {all : List Page}
    {n : Nat} {c : ScanCursor} (htype : c.column.type = .VARCHAR) :
    (qs.zipIdx n).foldlM (scanPage tableId inColIdx numRows ⟨.VARCHAR, all⟩) c = .ok c := by
  induction qs generalizing n with
  | nil => rfl
  | cons q qs ih =>
    have hmark := h q (by simp)
    rw [List.zipIdx_cons, List.foldlM_cons, scanPage]
    simp only [scanVarcharPage, ScanCursor.setType_of_eq htype, hmark]
    exact ih fun q' hq' => h q' (by simp [hq'])

/-- A completed scan of a column of strings. -/
theorem scanVarcharPages_holds {ps : List Page} {cs : List (Option Bytes)} (h : VarcharPages ps cs)
    {all : List Page} {n : Nat} {c c' : ScanCursor} (htype : c.column.type = .VARCHAR)
    (hroom : c.rowIdx + cs.length ≤ numRows)
    (hrun : (ps.zipIdx n).foldlM (scanPage tableId inColIdx numRows ⟨.VARCHAR, all⟩) c = .ok c') :
    ∃ vs, VarcharScan tableId inColIdx all n ps cs vs ∧ c' = c.appendAll vs := by
  induction h generalizing n c with
  | nil =>
    cases hrun
    exact ⟨[], .nil, rfl⟩
  | @page p cs ps rest hp _ ih =>
    rw [List.length_append] at hroom
    have hlt := hp.numRows_lt
    rw [List.zipIdx_cons, List.foldlM_cons, scanPage] at hrun
    simp only [scanVarcharPage, ScanCursor.setType_of_eq htype] at hrun
    rw [if_neg (by omega), if_neg (by omega), hp.rows,
      scanVarcharRows_eq hp _ _ _ (by omega)] at hrun
    obtain ⟨d, hd, hrun⟩ := bind_eq_ok.mp hrun
    obtain ⟨s, hs, hd⟩ := bind_eq_ok.mp hd
    obtain ⟨vs, hvs, hs⟩ := bind_eq_ok.mp hs
    cases hs
    cases hd
    have hlen := mapM_ok_length hvs
    rw [List.length_range] at hlen
    obtain ⟨ws, hscan, rfl⟩ := ih (c := c.appendAll vs) (by simpa using htype) (by simp; omega) hrun
    exact ⟨vs ++ ws, .page hp hvs hscan, by rw [ScanCursor.appendAll_append]⟩
  | @long qs s ps rest hs _ ih =>
    obtain ⟨first, marks, fits⟩ := hs
    rename_i p qs
    rw [List.length_cons] at hroom
    rw [List.zipIdx_append, List.foldlM_append, List.zipIdx_cons, List.foldlM_cons, scanPage] at hrun
    simp only [scanVarcharPage, ScanCursor.setType_of_eq htype, if_pos first] at hrun
    obtain ⟨d, hd, hrun⟩ := bind_eq_ok.mp hrun
    obtain ⟨e, he, hd⟩ := bind_eq_ok.mp hd
    obtain ⟨next, hnext, he⟩ := bind_eq_ok.mp he
    obtain ⟨pos, hpos, he⟩ := bind_eq_ok.mp he
    obtain ⟨v, hv, he⟩ := bind_eq_ok.mp he
    cases he
    have htype' : (c.append v).column.type = .VARCHAR := by
      rw [ScanCursor.append, ColumnT.type_append, htype]
    rw [scanContinuations_eq marks htype'] at hd
    cases hd
    obtain ⟨ws, hscan, rfl⟩ := ih htype' (by simp only [ScanCursor.append]; omega) hrun
    refine ⟨v :: ws, .long (.mk first marks fits) (index_eq_ok.mp hnext) hpos hv ?_, ?_⟩
    · simpa [Nat.add_comm] using hscan
    · exact (c.appendAll_append [v] ws).symm

end Pages

/-- The places of a column lie inside the limits of `value_t`. -/
structure LimitsFit (tableId inColIdx : Nat) (pages : List Page) : Prop where
  table : tableId < 32
  column : inColIdx < 2 ^ 15
  pages : pages.length ≤ 2 ^ 26

/-- What the loop behind a long string needs: a page behind the first page of the string and, if that
page continues the string, one among `pages[2]` to `pages[65536]` that continues none. -/
def LongStringsFollowed (pages : List Page) : Prop :=
  ∀ i p, pages[i]? = some p → p.numRows = 0xffff →
    ∃ next, pages[i + 1]? = some next ∧ (next.numRows = 0xfffe →
      ∃ j q, 2 ≤ j ∧ j ≤ 65536 ∧ pages[j]? = some q ∧ q.numRows ≠ 0xfffe)

section Total

variable {tableId inColIdx numRows : Nat} {all : List Page}

theorem longStringPos_total (hfollow : LongStringsFollowed all) {i : Nat} {p : Page}
    (hp : all[i]? = some p) (hmark : p.numRows = 0xffff) :
    ∃ next pos, all[i + 1]? = some next ∧ longStringPos all 0 next = .ok pos ∧ pos < 2 ^ 16 := by
  obtain ⟨next, hnext, hcont⟩ := hfollow i p hp hmark
  by_cases hm : next.numRows = 0xfffe
  · obtain ⟨j, q, hj, hj', hq, hqm⟩ := hcont hm
    obtain ⟨pos, hpos, hle⟩ := longStringPos_ok 0 next hj hq hqm
    exact ⟨next, pos, hnext, hpos, by omega⟩
  · exact ⟨next, 0, hnext, by rw [longStringPos, if_neg hm], by decide⟩

theorem varcharReference_total (hfit : LimitsFit tableId inColIdx all) {n : Nat}
    (hn : n < all.length) {p : Page} {cs : List (Option Bytes)} (hp : VarcharPage p cs) (i : Nat) :
    ∃ v, varcharReference tableId inColIdx n cs i = .ok v := by
  have hstart := VarcharPage.start_le cs (rank cs i)
  have hfits := hp.fits
  have hpage := pageSize_eq
  have hpages := hfit.pages
  unfold varcharReference
  split
  · obtain ⟨v, hv, -⟩ := putPlace_ok (k := 0) (by decide)
      (⟨hfit.table, hfit.column, by omega, by omega⟩ :
        PlaceFits tableId inColIdx n (VarcharPage.start cs (rank cs i)))
    exact ⟨v, hv⟩
  · exact ⟨_, rfl⟩

theorem scanVarcharPages_total (hfit : LimitsFit tableId inColIdx all)
    (hfollow : LongStringsFollowed all) {ps : List Page} {cs : List (Option Bytes)}
    (h : VarcharPages ps cs) {n : Nat} {c : ScanCursor} (htype : c.column.type = .VARCHAR)
    (hroom : c.rowIdx + cs.length ≤ numRows) (hall : all.drop n = ps) :
    ∃ c', (ps.zipIdx n).foldlM (scanPage tableId inColIdx numRows ⟨.VARCHAR, all⟩) c = .ok c' := by
  induction h generalizing n c with
  | nil => exact ⟨c, rfl⟩
  | @page p cs ps rest hp _ ih =>
    rw [List.length_append] at hroom
    have hlt := hp.numRows_lt
    have hnth : all[n]? = some p := getElem?_of_drop hall
    have hn := (List.getElem?_eq_some_iff.mp hnth).1
    obtain ⟨vs, hvs⟩ := mapM_ok_of_exists (List.range cs.length)
      fun i _ => varcharReference_total hfit hn hp i
    have hlen := mapM_ok_length hvs
    rw [List.length_range] at hlen
    obtain ⟨c', hc'⟩ := ih (n := n + 1) (c := c.appendAll vs)
      (by simpa using htype) (by simp; omega) (drop_succ_of_drop hall)
    refine ⟨c', ?_⟩
    rw [List.zipIdx_cons, List.foldlM_cons, scanPage]
    simp only [scanVarcharPage, ScanCursor.setType_of_eq htype]
    rw [if_neg (by omega), if_neg (by omega), hp.rows, scanVarcharRows_eq hp _ _ _ (by omega), hvs]
    exact hc'
  | @long qs s ps rest hs _ ih =>
    obtain ⟨first, marks, -⟩ := hs
    rename_i p qs
    rw [List.length_cons] at hroom
    have hnth : all[n]? = some p := getElem?_of_drop hall
    have hn := (List.getElem?_eq_some_iff.mp hnth).1
    have hpages := hfit.pages
    obtain ⟨next, pos, hnext, hpos, hlt⟩ := longStringPos_total hfollow hnth first
    obtain ⟨v, hv, -⟩ := putPlace_ok (k := 0) (by decide)
      (⟨hfit.table, hfit.column, by omega, hlt⟩ : PlaceFits tableId inColIdx n pos)
    have htype' : (c.append v).column.type = .VARCHAR := by
      rw [ScanCursor.append, ColumnT.type_append, htype]
    obtain ⟨c', hc'⟩ := ih (n := n + (p :: qs).length) htype'
      (by simp only [ScanCursor.append]; omega)
      (drop_of_drop hall)
    refine ⟨c', ?_⟩
    have hv' : putVarchar (.ofNat tableId) (.ofNat inColIdx) (.ofNat n) (.ofNat pos) = .ok v := hv
    rw [List.zipIdx_append, List.foldlM_append, List.zipIdx_cons, List.foldlM_cons, scanPage]
    simp only [scanVarcharPage, ScanCursor.setType_of_eq htype, if_pos first, index_eq_ok.mpr hnext,
      ok_bind, hpos, hv']
    rw [scanContinuations_eq marks htype', ok_bind]
    exact hc'

/-- What holds of every page from `n` on: of a page of strings, of the first page of a long string and of
the pages that continue one. -/
theorem VarcharScan.forall_page {P : Nat → Page → Prop} {n : Nat} {ps : List Page}
    {cs : List (Option Bytes)} {vs : List ValueT}
    (h : VarcharScan tableId inColIdx all n ps cs vs) (hall : all.drop n = ps)
    (hshort : ∀ i p cs vs, all[i]? = some p → VarcharPage p cs →
      (List.range cs.length).mapM (varcharReference tableId inColIdx i cs) = .ok vs → P i p)
    (hlong : ∀ i p next pos v, all[i]? = some p → p.numRows = 0xffff → all[i + 1]? = some next →
      longStringPos all 0 next = .ok pos →
      putVarchar (.ofNat tableId) (.ofNat inColIdx) (.ofNat i) (.ofNat pos) = .ok v → P i p)
    (hcontinued : ∀ i p, p.numRows = 0xfffe → P i p) :
    ∀ i p, n ≤ i → all[i]? = some p → P i p := by
  induction h with
  | nil =>
    intro i p hi hp
    have := (List.getElem?_eq_some_iff.mp hp).1
    have := List.drop_eq_nil_iff.mp hall
    omega
  | @page n q cs vs ps rest ws hq hrun _ ih =>
    intro i p hi hp
    by_cases hin : i = n
    · subst hin
      obtain rfl : q = p := Option.some.inj ((getElem?_of_drop hall).symm.trans hp)
      exact hshort i q cs vs hp hq hrun
    · exact ih (drop_succ_of_drop hall) i p (by omega) hp
  | @long n qs s next pos v ps rest ws hs hnext hpos hv hscan ih =>
    intro i p hi hp
    obtain ⟨first, marks, -⟩ := hs
    rename_i q qs
    by_cases hin : i = n
    · subst hin
      obtain rfl : q = p := Option.some.inj ((getElem?_of_drop hall).symm.trans hp)
      exact hlong i q next pos v hp first hnext hpos hv
    · by_cases hcont : i < n + (q :: qs).length
      · rw [List.length_cons] at hcont
        exact hcontinued i p (marks p (mem_of_drop (drop_succ_of_drop hall) (by omega) (by omega) hp))
      · exact ih (drop_of_drop hall) i p (by omega) hp

/-- A scan that completes has found what it needs behind every long string. -/
theorem VarcharScan.followed (hall' : all.length ≤ 2 ^ 31) (ht : tableId < 2 ^ 31)
    (hc : inColIdx < 2 ^ 31) {n : Nat} {ps : List Page}
    {cs : List (Option Bytes)} {vs : List ValueT}
    (h : VarcharScan tableId inColIdx all n ps cs vs) (hall : all.drop n = ps) :
    ∀ i p, n ≤ i → all[i]? = some p → p.numRows = 0xffff →
      ∃ next, all[i + 1]? = some next ∧ (next.numRows = 0xfffe →
        ∃ j q, 2 ≤ j ∧ j ≤ 65536 ∧ all[j]? = some q ∧ q.numRows ≠ 0xfffe) := by
  refine h.forall_page hall ?_ ?_ ?_
  · intro i p cs vs _ hpage _ hmark
    have := hpage.numRows_lt
    omega
  · intro i p next pos v hp _ hnext hpos hv _
    refine ⟨next, hnext, fun hcont => ?_⟩
    have hlt := (List.getElem?_eq_some_iff.mp hp).1
    rcases longStringPos_spec hpos with ⟨hne, -⟩ | ⟨-, hlt', q', hq', hqm⟩
    · exact absurd hcont hne
    · have hlen := (List.getElem?_eq_some_iff.mp hq').1
      have hfits := fits_of_putPlace_ok ht hc (p := i) (q := pos) (by omega) (by omega) hv
      exact ⟨pos + 1, q', by omega, by have := hfits.2.2.2; omega, hq', hqm⟩
  · intro i p hcontinued hmark
    omega

end Total

section Column

variable {table : ColumnarTable} {tableId inColIdx : Nat}

theorem noNulls_eq {ps : List Page} {cs : List (Option Int32)} (h : FixedPages int32Type ps cs) :
    noNulls ps = cs.all Option.isSome := by
  induction h with
  | nil => rfl
  | @page p cs ps rest hp _ ih =>
    have hcount : (p.numRows == p.numNonNull) = cs.all Option.isSome := by
      rw [hp.rows, hp.nonNull, Bool.eq_iff_iff, beq_iff_eq, List.all_eq_true]
      rw [eq_comm, List.reduceOption_length_eq_iff]
    rw [noNulls, List.all_cons, List.all_append, ← hcount, ← ih]
    rfl

/-- The scan of an INT32 column. -/
theorem scanColumn_int32 {ps : List Page} {cs : List (Option Int32)}
    (hcol : table.columns[inColIdx]? = some ⟨.INT32, ps⟩) (hps : FixedPages int32Type ps cs)
    (hrows : cs.length ≤ table.numRows) :
    scanColumn tableId table inColIdx =
      if cs.all Option.isSome then scanNoNull tableId inColIdx ps
      else .ok (.ofValues .INT32 false [] (cs.map int32Value)) := by
  rw [scanColumn, index_eq_ok.mpr hcol, ok_bind]
  simp only [decide_true, Bool.true_and, noNulls_eq hps]
  split
  · rfl
  · rw [scanInt32Pages_eq hps rfl (by simpa using hrows)]
    rfl

/-- The scan of a column of strings. -/
theorem scanColumn_varchar {ps : List Page} {cs : List (Option Bytes)}
    (hcol : table.columns[inColIdx]? = some ⟨.VARCHAR, ps⟩) (hps : VarcharPages ps cs)
    (hrows : cs.length ≤ table.numRows) {col : ColumnT}
    (h : scanColumn tableId table inColIdx = .ok col) :
    ∃ type vs, VarcharScan tableId inColIdx ps 0 ps cs vs ∧
      col = .ofValues type false [] vs ∧ (type = .VARCHAR ∨ type = .INT32 ∧ cs = []) := by
  rw [scanColumn, index_eq_ok.mpr hcol, ok_bind, if_neg (by simp)] at h
  obtain ⟨c, hrun, h⟩ := bind_eq_ok.mp h
  cases h
  cases ps with
  | nil =>
    obtain rfl := hps.eq_nil rfl
    cases hrun
    exact ⟨.INT32, [], .nil, rfl, .inr ⟨rfl, rfl⟩⟩
  | cons p ps =>
    have hset : ((p :: ps).zipIdx).foldlM
        (scanPage tableId inColIdx table.numRows ⟨.VARCHAR, p :: ps⟩)
        ((⟨.empty, 0⟩ : ScanCursor).setType .VARCHAR) = .ok c := hrun
    obtain ⟨vs, hscan, rfl⟩ := scanVarcharPages_holds hps rfl (by simpa [ScanCursor.setType] using
      hrows) hset
    exact ⟨.VARCHAR, vs, hscan, rfl, .inl rfl⟩

theorem scanColumn_varchar_total {ps : List Page} {cs : List (Option Bytes)}
    (hcol : table.columns[inColIdx]? = some ⟨.VARCHAR, ps⟩) (hps : VarcharPages ps cs)
    (hrows : cs.length ≤ table.numRows) (hfit : LimitsFit tableId inColIdx ps)
    (hfollow : LongStringsFollowed ps) :
    ∃ col, scanColumn tableId table inColIdx = .ok col := by
  rw [scanColumn, index_eq_ok.mpr hcol, ok_bind, if_neg (by simp)]
  cases ps with
  | nil => exact ⟨_, rfl⟩
  | cons p ps =>
    obtain ⟨c, hc⟩ := scanVarcharPages_total hfit hfollow hps (n := 0)
      (c := (⟨.empty, 0⟩ : ScanCursor).setType .VARCHAR) rfl
      (by simpa [ScanCursor.setType] using hrows) rfl
    refine ⟨c.column, ?_⟩
    have hrun : ((p :: ps).zipIdx).foldlM
        (scanPage tableId inColIdx table.numRows ⟨.VARCHAR, p :: ps⟩) ⟨.empty, 0⟩ = .ok c := hc
    rw [hrun]
    rfl

end Column

end JoinOptimizer
