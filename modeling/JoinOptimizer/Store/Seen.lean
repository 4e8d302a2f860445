import JoinOptimizer.Store.Scanned
import JoinOptimizer.Store.Materialize

/-! What a scanned column stands for.  The values that a scan stores do not always stand for the cells
they were made of: in an INT32 column that has a NULL, a negative integer reads as NULL, and a string is
told from where it starts, so that an empty string reads as the next string of its page that is not
empty. -/

namespace JoinOptimizer

open Lib ValueT

/-- The first string that is not empty. -/
def firstNonEmpty (cs : List (Option Bytes)) : Bytes :=
  (cs.reduceOption.find? fun s => !s.isEmpty).getD []

/-- The strings of a page as they are read back. -/
def seenPage : List (Option Bytes) → List (Option Bytes)
  | [] => []
  | none :: cs => none :: seenPage cs
  | some s :: cs => some (firstNonEmpty (some s :: cs)) :: seenPage cs

/-- The strings of a column as they are read back, page by page. -/
def seenVarchar : List Page → List (Option Bytes) → List (Option Bytes)
  | [], _ => []
  | p :: ps, cs =>
    if p.numRows = 0xffff then cs.take 1 ++ seenVarchar ps (cs.drop 1)
    else if p.numRows = 0xfffe then seenVarchar ps cs
    else seenPage (cs.take p.numRows) ++ seenVarchar ps (cs.drop p.numRows)

/-- The integers of a column as they are read back. -/
def seenInt32 (cs : List (Option Int32)) : List (Option Int32) :=
  if cs.all Option.isSome then cs else cs.map (Option.filter fun v => !decide (v < 0))

theorem length_seenPage (cs : List (Option Bytes)) : (seenPage cs).length = cs.length := by
  induction cs with
  | nil => rfl
  | cons c cs ih => cases c <;> simp [seenPage, ih]

theorem getElem?_seenPage (cs : List (Option Bytes)) (i : Nat) :
    (seenPage cs)[i]? = cs[i]?.map fun c => c.map fun _ => firstNonEmpty (cs.drop i) := by
  induction cs generalizing i with
  | nil => rfl
  | cons c cs ih =>
    cases i with
    | zero => cases c <;> simp [seenPage]
    | succ i => cases c <;> simpa [seenPage] using ih i

theorem seenVarchar_page {p : Page} {cs : List (Option Bytes)} (hp : VarcharPage p cs)
    (ps : List Page) (rest : List (Option Bytes)) :
    seenVarchar (p :: ps) (cs ++ rest) = seenPage cs ++ seenVarchar ps rest := by
  have hlt := hp.numRows_lt
  rw [seenVarchar, if_neg (by omega), if_neg (by omega), hp.rows, List.take_left, List.drop_left]

theorem seenVarchar_long {qs : List Page} {s : Bytes} (h : LongString qs s) (ps : List Page)
    (rest : List (Option Bytes)) :
    seenVarchar (qs ++ ps) (some s :: rest) = some s :: seenVarchar ps rest := by
  obtain ⟨first, marks, -⟩ := h
  rename_i p qs
  have hcont : ∀ qs : List Page, (∀ q ∈ qs, q.numRows = 0xfffe) →
      seenVarchar (qs ++ ps) rest = seenVarchar ps rest := by
    intro qs
    induction qs with
    | nil => exact fun _ => rfl
    | cons q qs ih =>
      intro h
      have hmark := h q (by simp)
      rw [List.cons_append, seenVarchar, if_neg (by omega), if_pos hmark]
      exact ih fun q' hq' => h q' (by simp [hq'])
  rw [List.cons_append, seenVarchar, if_pos first]
  simp only [List.take_succ_cons, List.take_zero, List.drop_succ_cons, List.drop_zero,
    List.singleton_append]
  rw [hcont qs marks]

/-- Strings without characters do not move the start of those after them. -/
theorem VarcharPage.start_add_of_nil {cs : List (Option Bytes)} {j e : Nat}
    (h : ∀ s ∈ (cs.reduceOption.drop j).take e, s = []) :
    VarcharPage.start cs (j + e) = VarcharPage.start cs j := by
  have hnil : ((cs.reduceOption.drop j).take e).flatten = [] := List.flatten_eq_nil_iff.mpr h
  rw [VarcharPage.start, VarcharPage.start, List.take_add, List.flatten_append, hnil, List.append_nil]

/-- The search from the start of a string finds the end of the first string from there on that is not
empty. -/
theorem stringAt_start {p : Page} {cs : List (Option Bytes)} (hp : VarcharPage p cs) {i : Nat}
    (hi : i < cs.length) {s : Bytes} (hs : cs[i] = some s) :
    stringAt p (VarcharPage.start cs (rank cs i)) = firstNonEmpty (cs.drop i) := by
  let strings := cs.reduceOption
  let j := rank cs i
  let d := (strings.drop j).findIdx fun s => !s.isEmpty
  have hj : j < strings.length := rank_lt hi hs
  have hd : d ≤ (strings.drop j).length := List.findIdx_le_length
  have hdlen : (strings.drop j).length = strings.length - j := List.length_drop
  have hdrop : (cs.drop i).reduceOption = strings.drop j := (drop_rank cs i).symm
  -- the strings before the one found have no characters
  have hstart : VarcharPage.start cs (j + d) = VarcharPage.start cs j := by
    refine VarcharPage.start_add_of_nil fun t ht => ?_
    obtain ⟨m, hm, rfl⟩ := List.mem_take_iff_getElem.mp ht
    have hlt : m < d := by omega
    simpa using List.not_of_lt_findIdx hlt
  have hfound : firstNonEmpty (cs.drop i) = (strings[j + d]?).getD [] := by
    rw [firstNonEmpty, hdrop, List.find?_eq_getElem?_findIdx, List.getElem?_drop]
  have hoffset (m : Nat) (hm : m < strings.length) :
      offsetBegin p (m : Int) = VarcharPage.start cs (m + 1) := hp.offsets m hm
  have hsearch : searchAbove (offsetBegin p) (VarcharPage.start cs j)
      (fun offset => offset - VarcharPage.start cs j) 0 (p.numNonNull - 1) 0 =
        ((strings[j + d]?).getD []).length := by
    have hbelow (m : Int) (h0 : 0 ≤ m) (hm : m < (j + d : Nat)) :
        offsetBegin p m ≤ VarcharPage.start cs j := by
      obtain ⟨m, rfl⟩ := Int.eq_ofNat_of_zero_le h0
      rw [hoffset m (by omega), ← hstart]
      exact VarcharPage.start_mono cs (by omega)
    have hlen (hk : j + d < strings.length) : VarcharPage.start cs (j + d + 1) =
        VarcharPage.start cs j + ((strings[j + d]?).getD []).length := by
      rw [VarcharPage.start_succ hk, hstart, List.getElem?_eq_getElem hk, Option.getD_some]
    have hpos (hk : j + d < strings.length) : 0 < ((strings[j + d]?).getD []).length := by
      have hlt : d < (strings.drop j).length := by omega
      have hne := @List.findIdx_getElem _ (fun s : Bytes => !s.isEmpty) _ hlt
      rw [List.getElem_drop] at hne
      rw [List.getElem?_eq_getElem hk, Option.getD_some]
      exact List.length_pos_iff.mpr (by simpa using hne)
    have habove (m : Int) (hm : (j + d : Nat) ≤ m) (hm' : m < strings.length) :
        VarcharPage.start cs j < offsetBegin p m := by
      obtain ⟨m, rfl⟩ := Int.eq_ofNat_of_zero_le (by omega : 0 ≤ m)
      have hk : j + d < strings.length := by omega
      rw [hoffset m (by omega)]
      have hmono := VarcharPage.start_mono cs (show j + d + 1 ≤ m + 1 by omega)
      have := hlen hk
      have := hpos hk
      omega
    have hcount : (p.numNonNull : Int) = strings.length := by rw [hp.nonNull]
    rw [hcount]
    refine searchAbove_eq (k := (j + d : Nat)) (n := strings.length) hbelow habove ?_
      (by omega) (by omega) (by omega) (by omega) ?_
    · intro hk
      have hk' : j + d < strings.length := by omega
      rw [hoffset (j + d) hk', hlen hk', Nat.add_sub_cancel_left]
    · intro hk
      rw [List.getElem?_eq_none (by omega)]
      rfl
  rw [hfound, stringAt, hsearch, hp.nonNull]
  by_cases hk : j + d < strings.length
  · have hread := hp.string hk
    rw [hstart] at hread
    rw [List.getElem?_eq_getElem hk, Option.getD_some]
    exact hread
  · rw [List.getElem?_eq_none (by omega)]
    rfl

theorem VarcharPages.head_ne {ps : List Page} {cs : List (Option Bytes)} (h : VarcharPages ps cs) :
    ∀ p, ps.head? = some p → p.numRows ≠ 0xfffe := by
  cases h with
  | nil => simp
  | page hp _ =>
    intro q hq
    obtain rfl : _ = q := by simpa using hq
    have := hp.numRows_lt
    omega
  | long hs _ =>
    obtain ⟨first, -, -⟩ := hs
    intro q hq
    obtain rfl : _ = q := by simpa using hq
    omega

theorem appendContinuations_eq {qs ps : List Page} (hqs : ∀ q ∈ qs, q.numRows = 0xfffe)
    (hps : ∀ p, ps.head? = some p → p.numRows ≠ 0xfffe) (value : Bytes) :
    appendContinuations (qs ++ ps) value = value ++ qs.flatMap Page.longChars := by
  induction qs generalizing value with
  | nil =>
    cases ps with
    | nil => simp [appendContinuations]
    | cons p ps => simp [appendContinuations, hps p rfl]
  | cons q qs ih =>
    have hmark := hqs q (by simp)
    rw [List.cons_append, appendContinuations, if_neg (by simpa using hmark),
      ih fun q' hq' => hqs q' (by simp [hq'])]
    simp

theorem VarcharScan.pages {tableId inColIdx n : Nat} {all ps : List Page}
    {cs : List (Option Bytes)} {vs : List ValueT}
    (h : VarcharScan tableId inColIdx all n ps cs vs) : VarcharPages ps cs := by
  induction h with
  | nil => exact .nil
  | page hp _ _ ih => exact .page hp ih
  | long hs _ _ _ _ ih => exact .long hs ih

/-- The places of a column whose indices are `int32_t`s. -/
structure IndicesFit (tableId inColIdx : Nat) (pages : List Page) : Prop where
  table : tableId < 2 ^ 31
  column : inColIdx < 2 ^ 31
  pages : pages.length ≤ 2 ^ 31

theorem LimitsFit.indicesFit {tableId inColIdx : Nat} {pages : List Page}
    (h : LimitsFit tableId inColIdx pages) : IndicesFit tableId inColIdx pages := by
  have h1 := h.table
  have h2 := h.column
  have h3 := h.pages
  exact ⟨by omega, by omega, by omega⟩

section Varchar

variable {inputs : List ColumnarTable} {table : ColumnarTable} {tableId inColIdx : Nat}
  {all : List Page}

theorem resolveVarchar_eq {v : ValueT} {page : Page} (ht : inputs[v.getTable]? = some table)
    (hc : table.columns[v.getColumn]? = some ⟨.VARCHAR, all⟩) (hp : all[v.getPage]? = some page) :
    resolveVarchar inputs v =
      if page.numRows = 0xffff then
        .ok (appendContinuations (all.drop (v.getPage + 1)) page.longChars)
      else .ok (stringAt page v.getPos) := by
  simp only [resolveVarchar, printVarchar, index_eq_ok.mpr ht, index_eq_ok.mpr hc,
    index_eq_ok.mpr hp, ok_bind]

theorem decodeVarchar_reference {n i : Nat} {p : Page} {cs : List (Option Bytes)} {v : ValueT}
    (hfit : IndicesFit tableId inColIdx all) (ht : inputs[tableId]? = some table)
    (hc : table.columns[inColIdx]? = some ⟨.VARCHAR, all⟩) (hn : all[n]? = some p)
    (hp : VarcharPage p cs) (hi : i < cs.length)
    (hv : varcharReference tableId inColIdx n cs i = .ok v) :
    decodeVarchar inputs v = .ok (cs[i].map fun _ => firstNonEmpty (cs.drop i)) := by
  rw [varcharReference, List.getElem?_eq_getElem hi] at hv
  cases hcell : cs[i] with
  | none =>
    simp only [hcell] at hv
    cases hv
    rfl
  | some s =>
    simp only [hcell] at hv
    have hnlt := (List.getElem?_eq_some_iff.mp hn).1
    have hpages := hfit.pages
    have hstart := VarcharPage.start_le cs (rank cs i)
    have hfits := hp.fits
    have hpage := pageSize_eq
    obtain ⟨hmode, htable, hcolumn, hpageIdx, hpos⟩ := putPlace_spec (k := 0) (by decide)
      hfit.table hfit.column (by omega) (by omega) hv
    have hrows := hp.numRows_lt
    have hmark : ¬ p.numRows = 0xffff := by omega
    have hresolve := resolveVarchar_eq (v := v) (by rwa [htable]) (by rwa [hcolumn])
      (by rwa [hpageIdx])
    rw [if_neg hmark, hpos, stringAt_start hp hi hcell] at hresolve
    rw [decodeVarchar, isNull_eq, isVarchar_eq, hmode, hresolve]
    rfl

/-- The values of a scan of strings stand for the strings as they are read back. -/
theorem VarcharScan.decode (hfit : IndicesFit tableId inColIdx all)
    (ht : inputs[tableId]? = some table)
    (hc : table.columns[inColIdx]? = some ⟨.VARCHAR, all⟩) {n : Nat} {ps : List Page}
    {cs : List (Option Bytes)} {vs : List ValueT}
    (h : VarcharScan tableId inColIdx all n ps cs vs) (hall : all.drop n = ps)
    (hn : n ≤ all.length) :
    vs.mapM (decodeVarchar inputs) = .ok (seenVarchar ps cs) := by
  induction h with
  | nil => rfl
  | @page n p cs vs ps rest ws hp hrun hscan ih =>
    have hnth : all[n]? = some p := getElem?_of_drop hall
    have hlt := (List.getElem?_eq_some_iff.mp hnth).1
    have hrest := ih (drop_succ_of_drop hall) hlt
    have hfirst : vs.mapM (decodeVarchar inputs) = .ok (seenPage cs) := by
      have hlen := mapM_ok_length hrun
      rw [List.length_range] at hlen
      rw [mapM_eq_ok_iff, List.forall₂_iff_get]
      refine ⟨by rw [hlen, length_seenPage], fun i hi hi' => ?_⟩
      have hics : i < cs.length := by omega
      have hv := mapM_ok_getElem hrun (i := i) (by simpa using hics) hi
      rw [List.getElem_range] at hv
      have hseen := getElem?_seenPage cs i
      rw [List.getElem?_eq_getElem hi', List.getElem?_eq_getElem hics, Option.map_some,
        Option.some_inj] at hseen
      simp only [List.get_eq_getElem, hseen]
      exact decodeVarchar_reference hfit ht hc hnth hp hics hv
    rw [seenVarchar_page hp, List.mapM_append, hfirst, hrest]
    rfl
  | @long n qs s next pos v ps rest ws hs hnext hpos hv hscan ih =>
    obtain ⟨first, marks, fits⟩ := id hs
    rename_i p qs
    have hnth : all[n]? = some p := getElem?_of_drop hall
    have hlt := (List.getElem?_eq_some_iff.mp hnth).1
    have hlen : n + (p :: qs).length ≤ all.length := by
      have := congrArg List.length hall
      rw [List.length_drop, List.length_append] at this
      omega
    have hrest := ih (drop_of_drop hall) hlen
    have hpages := hfit.pages
    have hposlt : pos < 2 ^ 31 := by
      rcases longStringPos_spec hpos with ⟨-, rfl⟩ | ⟨-, -, q, hq, -⟩
      · decide
      · have := (List.getElem?_eq_some_iff.mp hq).1
        omega
    obtain ⟨hmode, htable, hcolumn, hpageIdx, -⟩ := putPlace_spec (k := 0) (by decide)
      hfit.table hfit.column (by omega) hposlt hv
    have hresolve := resolveVarchar_eq (v := v) (by rwa [htable]) (by rwa [hcolumn])
      (by rwa [hpageIdx])
    have hdrop : all.drop (n + 1) = qs ++ ps := drop_succ_of_drop hall
    rw [if_pos first, hpageIdx, hdrop, appendContinuations_eq marks hscan.pages.head_ne] at hresolve
    have hfirst : decodeVarchar inputs v = .ok (some ((p :: qs).flatMap Page.longChars)) := by
      rw [decodeVarchar, isNull_eq, isVarchar_eq, hmode, hresolve]
      rfl
    rw [seenVarchar_long hs, List.mapM_cons, hfirst, ok_bind, hrest]
    rfl

end Varchar

/-- A value refers to a row of one of the pages `pages`, where the integer `x` is. -/
structure RefersTo (pages : List Page) (v : ValueT) (x : Int32) : Prop where
  mode : v.isInt32NoNull = true
  place : ∃ p, pages[v.getPage]? = some p ∧ v.getPos < p.numRows
  value : getInt32ValueFromPage v pages = .ok x

section Int32

variable {tableId inColIdx : Nat} {all : List Page}

/-- Row `i` of a page without NULL is its `i`-th value. -/
theorem FixedPage.value_of_all {p : Page} {cs : List (Option Int32)} (hp : FixedPage int32Type p cs)
    (hall : cs.all Option.isSome) {i : Nat} (hi : i < cs.length) :
    4 + i * 4 + 4 ≤ pageSize ∧
      cs[i] = some (int32Type.ofBytes (p.read (4 + i * 4) 4)) := by
  have hsome := List.all_eq_true.mp hall
  have hcount : cs.reduceOption.length = cs.length :=
    List.reduceOption_length_eq_iff.mpr fun c hc => hsome c hc
  have hrank : rank cs i = i := by
    have hprefix : (cs.take i).reduceOption.length = (cs.take i).length :=
      List.reduceOption_length_eq_iff.mpr fun c hc => hsome c (List.mem_of_mem_take hc)
    rw [rank, hprefix, List.length_take]
    omega
  obtain ⟨v, hv⟩ := Option.isSome_iff_exists.mp (hsome _ (List.getElem_mem hi))
  have hvalue := hp.value (rank_lt hi hv)
  rw [getElem_rank hi hv, hrank] at hvalue
  have hfits := hp.fits
  rw [hcount, show int32Type.size = 4 from rfl] at hfits
  refine ⟨by omega, ?_⟩
  rw [hv, ← hvalue]
  rfl

theorem noNullReference_refersTo (hfit : IndicesFit tableId inColIdx all) {n i : Nat} {p : Page}
    {cs : List (Option Int32)} (hn : all[n]? = some p) (hp : FixedPage int32Type p cs)
    (hsome : cs.all Option.isSome) (hi : i < cs.length) {v : ValueT}
    (hv : noNullReference tableId inColIdx (n, i) = .ok v) :
    ∃ x, cs[i] = some x ∧ RefersTo all v x := by
  have hlt := (List.getElem?_eq_some_iff.mp hn).1
  have hpages := hfit.pages
  have hlen := hp.length_lt
  obtain ⟨hinside, hvalue⟩ := hp.value_of_all hsome hi
  obtain ⟨hmode, -, -, hpage, hpos⟩ := putPlace_spec (k := 2) (by decide) hfit.table hfit.column
    (by omega) (by omega) hv
  refine ⟨_, hvalue, by rw [isInt32NoNull_eq, hmode]; rfl, ⟨p, by rwa [hpage], ?_⟩, ?_⟩
  · rw [hpos, hp.rows]
    exact hi
  · rw [getInt32ValueFromPage, hpage, index_eq_ok.mpr hn, ok_bind, hpos, if_pos hinside]

theorem rowPlaces_refersTo (hfit : IndicesFit tableId inColIdx all) {ps : List Page}
    {cs : List (Option Int32)} (h : FixedPages int32Type ps cs) (hsome : cs.all Option.isSome)
    {n : Nat} (hall : all.drop n = ps) {vs : List ValueT}
    (hvs : ((ps.zipIdx n).flatMap fun p => (List.range p.1.numRows).map fun i => (p.2, i)).mapM
      (noNullReference tableId inColIdx) = .ok vs) :
    List.Forall₂ (fun v c => ∃ x, c = some x ∧ RefersTo all v x) vs cs := by
  induction h generalizing n vs with
  | nil =>
    cases hvs
    exact .nil
  | @page p cs ps rest hp _ ih =>
    rw [List.all_append, Bool.and_eq_true] at hsome
    have hn : all[n]? = some p := getElem?_of_drop hall
    rw [List.zipIdx_cons, List.flatMap_cons, List.mapM_append] at hvs
    obtain ⟨us, hus, hvs⟩ := bind_eq_ok.mp hvs
    obtain ⟨ws, hws, hvs⟩ := bind_eq_ok.mp hvs
    cases hvs
    refine List.rel_append ?_ (ih hsome.2 (drop_succ_of_drop hall) hws)
    have hlen := mapM_ok_length hus
    rw [List.length_map, List.length_range, hp.rows] at hlen
    rw [List.forall₂_iff_get]
    refine ⟨hlen, fun i hi hi' => ?_⟩
    have hv := mapM_ok_getElem hus (i := i) (by simpa [hp.rows] using hi') hi
    rw [List.getElem_map, List.getElem_range] at hv
    exact noNullReference_refersTo hfit hn hp hsome.1 hi' hv

/-- The scan of an INT32 column without NULL stores a reference to each row. -/
theorem scanNoNull_refersTo {ps : List Page} (hfit : IndicesFit tableId inColIdx ps)
    {cs : List (Option Int32)} (h : FixedPages int32Type ps cs) (hsome : cs.all Option.isSome)
    {col : ColumnT} (hcol : scanNoNull tableId inColIdx ps = .ok col) :
    ∃ vs, col = .ofValues .INT32 true ps vs ∧
      List.Forall₂ (fun v c => ∃ x, c = some x ∧ RefersTo ps v x) vs cs := by
  rw [scanNoNull_eq] at hcol
  obtain ⟨vs, hvs, hcol⟩ := bind_eq_ok.mp hcol
  cases hcol
  exact ⟨vs, rfl, rowPlaces_refersTo hfit h hsome rfl hvs⟩

theorem RefersTo.decode {v : ValueT} {x : Int32} (h : RefersTo all v x) :
    decodeInt32 all v = .ok (some x) := by
  have hmode := h.mode
  rw [isInt32NoNull_eq, decide_eq_true_eq] at hmode
  rw [decodeInt32, isInt32_eq, isInt32NoNull_eq, hmode, h.value]
  rfl

theorem decodeInt32_int32Value (cell : Option Int32) :
    decodeInt32 all (int32Value cell) = .ok (cell.filter fun v => !decide (v < 0)) := by
  cases cell with
  | none => rfl
  | some v =>
    by_cases h : v < 0
    · rw [int32Value, decodeInt32, isInt32_eq, isInt32NoNull_eq, isNull_eq, mode_putInt32_of_neg h]
      simp [Option.filter, h]
    · rw [int32Value, decodeInt32, isInt32_eq, mode_putInt32_of_nonneg h, getInt32_putInt32]
      simp [Option.filter, h]

/-- The values of a scan of integers stand for the integers as they are read back. -/
theorem scanInt32_decode {table : ColumnarTable} {ps : List Page} {cs : List (Option Int32)}
    (hfit : cs.all Option.isSome → IndicesFit tableId inColIdx ps)
    (hcol : table.columns[inColIdx]? = some ⟨.INT32, ps⟩) (hps : FixedPages int32Type ps cs)
    (hrows : cs.length ≤ table.numRows) {col : ColumnT}
    (h : scanColumn tableId table inColIdx = .ok col) :
    ∃ isNoNull originalPages vs, col = .ofValues .INT32 isNoNull originalPages vs ∧
      vs.mapM (decodeInt32 originalPages) = .ok (seenInt32 cs) := by
  rw [scanColumn_int32 hcol hps hrows] at h
  split at h
  · next hsome =>
    obtain ⟨vs, rfl, hrefers⟩ := scanNoNull_refersTo (hfit hsome) hps hsome h
    refine ⟨true, ps, vs, rfl, ?_⟩
    rw [seenInt32, if_pos hsome, mapM_eq_ok_iff]
    refine hrefers.imp fun v c hvc => ?_
    obtain ⟨x, rfl, hx⟩ := hvc
    exact hx.decode
  · next hnull =>
    cases h
    refine ⟨false, [], _, rfl, ?_⟩
    rw [seenInt32, if_neg hnull, mapM_eq_ok_iff, List.forall₂_map_left_iff,
      List.forall₂_map_right_iff, List.forall₂_same]
    exact fun cell _ => decodeInt32_int32Value cell

/-- A scan of an INT32 column completes if the column has a NULL or is inside the limits. -/
theorem scanInt32_total {table : ColumnarTable} {ps : List Page} {cs : List (Option Int32)}
    (hfit : cs.all Option.isSome → LimitsFit tableId inColIdx ps)
    (hcol : table.columns[inColIdx]? = some ⟨.INT32, ps⟩) (hps : FixedPages int32Type ps cs)
    (hrows : cs.length ≤ table.numRows) : ∃ col, scanColumn tableId table inColIdx = .ok col := by
  rw [scanColumn_int32 hcol hps hrows]
  split
  · next hsome =>
    rw [scanNoNull_eq]
    have hplace : ∀ place ∈ rowPlaces ps, ∃ v, noNullReference tableId inColIdx place = .ok v := by
      intro place hplace
      obtain ⟨⟨p, n⟩, hp, hplace⟩ := List.mem_flatMap.mp hplace
      obtain ⟨i, hi, rfl⟩ := List.mem_map.mp hplace
      have hn := (List.mk_mem_zipIdx_iff_getElem?.mp hp)
      have hlt := (List.getElem?_eq_some_iff.mp hn).1
      have hrow : i < p.numRows := List.mem_range.mp hi
      have hu16 : p.numRows < 256 ^ 2 := p.word_lt 0 2
      have hpages := (hfit hsome).pages
      obtain ⟨v, hv, -⟩ := putPlace_ok (k := 2) (by decide)
        (⟨(hfit hsome).table, (hfit hsome).column, by omega, by omega⟩ : PlaceFits tableId inColIdx n i)
      exact ⟨v, hv⟩
    obtain ⟨vs, hvs⟩ := mapM_ok_of_exists _ hplace
    rw [hvs]
    exact ⟨_, rfl⟩
  · exact ⟨_, rfl⟩

end Int32

end JoinOptimizer
