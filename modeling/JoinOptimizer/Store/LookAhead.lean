import JoinOptimizer.Store.Reading
import JoinOptimizer.Page.Agree

/-! The long strings of a column.  The scan looks ahead from the first page of a long string to tell how
many pages follow it, and starts to count where only the string of the first row has its pages;
`print_varchar` walks over the pages themselves. -/

namespace JoinOptimizer

open Lib ValueT

/-- The number of pages marked 0xfffe from page `i` on. -/
def continuations (pages : List Page) (i : Nat) : Nat :=
  ((pages.drop i).takeWhile fun page => page.numRows == 0xfffe).length

/-- The position that the scan counts for the long string that starts on page `i`. -/
def countedPos (pages : List Page) (i : Nat) : Nat :=
  if continuations pages (i + 1) = 0 then 0 else continuations pages 2 + 1

/-- The pages that the scan looks at behind page `i` are pages of the column. -/
def LookAheadInside (pages : List Page) (i : Nat) : Prop :=
  i + 1 < pages.length ∧
    (continuations pages (i + 1) ≠ 0 → 2 + continuations pages 2 < pages.length)

section Continuations

variable {pages : List Page} {i : Nat} {page : Page}

theorem continuations_eq (h : pages[i]? = some page) : continuations pages i =
    if page.numRows = 0xfffe then continuations pages (i + 1) + 1 else 0 := by
  obtain ⟨hi, rfl⟩ := List.getElem?_eq_some_iff.mp h
  unfold continuations
  rw [List.drop_eq_getElem_cons hi, List.takeWhile_cons]
  by_cases hmark : pages[i].numRows = 0xfffe
  · simp [hmark]
  · simp [hmark]

/-- The pages of a long string behind its first page are as many as they are counted. -/
theorem continuations_append {qs ps : List Page} (hqs : ∀ q ∈ qs, q.numRows = 0xfffe)
    (hps : ∀ p, ps.head? = some p → p.numRows ≠ 0xfffe) (h : pages.drop i = qs ++ ps) :
    continuations pages i = qs.length := by
  unfold continuations
  rw [h, List.takeWhile_append_of_pos (by simpa using hqs)]
  cases ps with
  | nil => simp
  | cons p ps => simp [hps p rfl]

end Continuations

/-- The loop behind a long string runs over the pages marked 0xfffe from `pages[pos + 2]` on and needs a
page behind them. -/
theorem longStringPos_eq (pages : List Page) (pos : Nat) (next : Page) :
    longStringPos pages pos next =
      if next.numRows = 0xfffe then
        if pos + 2 + continuations pages (pos + 2) < pages.length then
          .ok (pos + 1 + continuations pages (pos + 2))
        else .error .outOfRange
      else .ok pos := by
  fun_induction longStringPos pages pos next with
  | case1 pos next hmark page hget ih =>
    have hlt := (List.getElem?_eq_some_iff.mp hget).1
    rw [ih, if_pos hmark, continuations_eq hget]
    split
    · rw [show pos + 1 + 2 = pos + 2 + 1 by omega]
      simp only [show pos + 2 + (continuations pages (pos + 2 + 1) + 1) =
        pos + 2 + 1 + continuations pages (pos + 2 + 1) by omega]
      split
      · congr 1
        omega
      · rfl
    · rfl
  | case2 pos next hmark hget =>
    have := List.getElem?_eq_none_iff.mp hget
    rw [if_pos hmark, if_neg (by omega)]
  | case3 pos next hmark => rw [if_neg hmark]

/-- The loop behind the long string on page `n` completes where it looks at pages of the column only. -/
theorem longStringPos_next {all : List Page} {n : Nat} {next : Page} (hnext : all[n + 1]? = some next) :
    (LookAheadInside all n → longStringPos all 0 next = .ok (countedPos all n)) ∧
      (¬ LookAheadInside all n → longStringPos all 0 next = .error .outOfRange) := by
  have hlen := (List.getElem?_eq_some_iff.mp hnext).1
  have hcont := continuations_eq hnext
  rw [longStringPos_eq, LookAheadInside, countedPos, Nat.zero_add, Nat.zero_add]
  by_cases hmark : next.numRows = 0xfffe
  · rw [if_pos hmark] at hcont
    rw [if_pos hmark, if_neg (show ¬ continuations all (n + 1) = 0 by omega)]
    constructor
    · rintro ⟨-, h⟩
      rw [if_pos (by have := h (by omega); omega)]
      congr 1
      omega
    · intro h
      rw [if_neg]
      intro hlt
      exact h ⟨hlen, fun _ => by omega⟩
  · rw [if_neg hmark] at hcont
    rw [if_neg hmark, if_pos hcont]
    exact ⟨fun _ => rfl, fun h => absurd ⟨hlen, fun h' => absurd hcont h'⟩ h⟩

section Steps

variable {tableId inColIdx numRows n : Nat} {all : List Page} {p : Page} {c : ScanCursor}

/-- The error of a place outside the limits of a value. -/
def overflow : Fault := .runtimeError "Table,column,page,pos overflow"

theorem varcharReference_cases {cs : List (Option Bytes)} (hp : VarcharPage p cs) (i : Nat) :
    (PlaceAccepted tableId inColIdx n 0 →
        ∃ v, varcharReference tableId inColIdx n cs i = .ok v) ∧
      (∀ e, varcharReference tableId inColIdx n cs i = .error e → e = overflow) ∧
      (∀ s v, cs[i]? = some (some s) → varcharReference tableId inColIdx n cs i = .ok v →
        PlaceAccepted tableId inColIdx n 0) := by
  have hstart : VarcharPage.start cs (rank cs i) < 2 ^ 16 := by
    have := VarcharPage.start_le cs (rank cs i)
    have := hp.fits
    have := pageSize_eq
    omega
  have haccepted : PlaceAccepted tableId inColIdx n (VarcharPage.start cs (rank cs i)) ↔
      PlaceAccepted tableId inColIdx n 0 := by
    have hpos (q : Nat) (hq : q < 2 ^ 16) : ¬ (65536 : Int32) ≤ Int32.ofNat q := by
      intro h
      have := (ofNat_le_ofNat (m := 65536) (by decide) (by omega)).mp h
      omega
    unfold PlaceAccepted
    simp only [hpos _ hstart, hpos 0 (by decide)]
  unfold varcharReference
  split
  · by_cases h : PlaceAccepted tableId inColIdx n (VarcharPage.start cs (rank cs i))
    · obtain ⟨v, hv, -⟩ := putPlace_of_accepted 0 h
      refine ⟨fun _ => ⟨v, hv⟩, fun e he => ?_, fun _ _ _ _ => haccepted.mp h⟩
      rw [putVarchar, varcharMode] at he
      cases hv.symm.trans he
    · have hv : putPlace varcharMode (.ofNat tableId) (.ofNat inColIdx) (.ofNat n)
          (.ofNat (VarcharPage.start cs (rank cs i))) =
          .error (.runtimeError "Table,column,page,pos overflow") := putPlace_of_refused h
      refine ⟨fun h' => absurd (haccepted.mpr h') h, fun e he => ?_, fun s v _ hok => ?_⟩
      · exact (Except.error.inj (hv.symm.trans he)).symm
      · cases hv.symm.trans hok
  · next hcell =>
    refine ⟨fun _ => ⟨_, rfl⟩, nofun, fun s v hs _ => ?_⟩
    exact absurd hs (hcell s)

/-- The places of the strings of a page are inside the limits. -/
def PageAccepted (tableId inColIdx n : Nat) (p : Page) : Prop :=
  p.numNonNull ≠ 0 → PlaceAccepted tableId inColIdx n 0

variable (tableId inColIdx numRows n all c)

theorem scanPage_page {cs : List (Option Bytes)} (hp : VarcharPage p cs)
    (hroom : c.rowIdx + cs.length ≤ numRows) :
    (PageAccepted tableId inColIdx n p → ∃ vs, vs.length = cs.length ∧
        (List.range cs.length).mapM (varcharReference tableId inColIdx n cs) = .ok vs ∧
        scanPage tableId inColIdx numRows ⟨.VARCHAR, all⟩ c (p, n) =
          .ok ((c.setType .VARCHAR).appendAll vs)) ∧
      (¬ PageAccepted tableId inColIdx n p →
        scanPage tableId inColIdx numRows ⟨.VARCHAR, all⟩ c (p, n) = .error overflow) := by
  have hlt := hp.numRows_lt
  have hrun : scanPage tableId inColIdx numRows ⟨.VARCHAR, all⟩ c (p, n) = (do
      let vs ← (List.range cs.length).mapM (varcharReference tableId inColIdx n cs)
      .ok ((c.setType .VARCHAR).appendAll vs)) := by
    have hroom' : (c.setType .VARCHAR).rowIdx + cs.length ≤ numRows := hroom
    simp only [scanPage, scanVarcharPage]
    rw [if_neg (by omega), if_neg (by omega), hp.rows, scanVarcharRows_eq hp _ _ _ hroom']
    cases (List.range cs.length).mapM (varcharReference tableId inColIdx n cs) with
    | error e => rfl
    | ok vs => rfl
  have hstring : p.numNonNull ≠ 0 → ∃ i s, i < cs.length ∧ cs[i]? = some (some s) := by
    intro hne
    rw [hp.nonNull] at hne
    have hpos : 0 < cs.reduceOption.length := by omega
    obtain ⟨s, hs⟩ := List.exists_mem_of_ne_nil _ (List.ne_nil_of_length_pos hpos)
    obtain ⟨i, hi⟩ := List.mem_iff_getElem?.mp (List.reduceOption_mem_iff.mp hs)
    exact ⟨i, s, (List.getElem?_eq_some_iff.mp hi).1, hi⟩
  constructor
  · intro haccept
    obtain ⟨vs, hvs⟩ : ∃ vs,
        (List.range cs.length).mapM (varcharReference tableId inColIdx n cs) = .ok vs := by
      refine mapM_ok_of_exists _ fun i hi => ?_
      by_cases hzero : p.numNonNull = 0
      · rw [hp.nonNull, List.length_eq_zero_iff] at hzero
        unfold varcharReference
        split
        · next s hs =>
          have hmem := List.reduceOption_mem_iff.mpr (List.mem_of_getElem? hs)
          rw [hzero] at hmem
          cases hmem
        · exact ⟨_, rfl⟩
      · exact (varcharReference_cases hp i).1 (haccept hzero)
    have hlen := mapM_ok_length hvs
    rw [List.length_range] at hlen
    exact ⟨vs, hlen, hvs, by rw [hrun, hvs]; rfl⟩
  · intro hrefuse
    rw [PageAccepted, Classical.not_imp] at hrefuse
    obtain ⟨hne, hplace⟩ := hrefuse
    obtain ⟨i, s, hi, hs⟩ := hstring hne
    cases hvs : (List.range cs.length).mapM (varcharReference tableId inColIdx n cs) with
    | error e =>
      obtain ⟨j, -, hj⟩ := mapM_eq_error hvs
      obtain rfl := (varcharReference_cases hp j).2.1 e hj
      rw [hrun, hvs]
      rfl
    | ok vs =>
      have hi' : i < vs.length := by
        rw [mapM_ok_length hvs, List.length_range]
        exact hi
      have hv := mapM_ok_getElem hvs (i := i) (by simpa using hi) hi'
      rw [List.getElem_range] at hv
      exact absurd ((varcharReference_cases hp i).2.2 s _ hs hv) hplace

/-- The scan at the first page of a long string. -/
theorem scanPage_long (hmark : p.numRows = 0xffff) :
    (¬ LookAheadInside all n →
        scanPage tableId inColIdx numRows ⟨.VARCHAR, all⟩ c (p, n) = .error .outOfRange) ∧
      (LookAheadInside all n → ¬ PlaceAccepted tableId inColIdx n (countedPos all n) →
        scanPage tableId inColIdx numRows ⟨.VARCHAR, all⟩ c (p, n) = .error overflow) ∧
      (LookAheadInside all n → PlaceAccepted tableId inColIdx n (countedPos all n) →
        ∃ v, scanPage tableId inColIdx numRows ⟨.VARCHAR, all⟩ c (p, n) =
          .ok ((c.setType .VARCHAR).append v) ∧ v.getPos = countedPos all n % 2 ^ 16) := by
  have hrun : scanPage tableId inColIdx numRows ⟨.VARCHAR, all⟩ c (p, n) = (do
      let nextPage ← index all (n + 1)
      let pos ← longStringPos all 0 nextPage
      let v ← putVarchar (.ofNat tableId) (.ofNat inColIdx) (.ofNat n) (.ofNat pos)
      .ok ((c.setType .VARCHAR).append v)) := by
    simp only [scanPage, scanVarcharPage, if_pos hmark]
  cases hnext : all[n + 1]? with
  | none =>
    have hlen := List.getElem?_eq_none_iff.mp hnext
    have hout : ¬ LookAheadInside all n := fun h => absurd h.1 (by omega)
    refine ⟨fun _ => ?_, fun h => absurd h hout, fun h => absurd h hout⟩
    rw [hrun, index, hnext]
    rfl
  | some next =>
    have hpos := longStringPos_next hnext
    rw [hrun, index_eq_ok.mpr hnext, ok_bind]
    refine ⟨fun h => ?_, fun h hplace => ?_, fun h hplace => ?_⟩
    · rw [hpos.2 h]
      rfl
    · rw [hpos.1 h, ok_bind, putVarchar, putPlace_of_refused hplace]
      rfl
    · obtain ⟨v, hv, hget⟩ := putPlace_of_accepted 0 hplace
      refine ⟨v, ?_, hget⟩
      have hv' : putVarchar (.ofNat tableId) (.ofNat inColIdx) (.ofNat n)
          (.ofNat (countedPos all n)) = .ok v := hv
      rw [hpos.1 h, ok_bind, hv']
      rfl

variable {tableId inColIdx numRows n all c}

/-- The scan passes over a page marked 0xfffe. -/
theorem scanPage_continued (hmark : p.numRows = 0xfffe) :
    scanPage tableId inColIdx numRows ⟨.VARCHAR, all⟩ c (p, n) = .ok (c.setType .VARCHAR) := by
  simp [scanPage, scanVarcharPage, hmark]

end Steps

section Scans

variable (tableId inColIdx numRows : Nat) (all : List Page)

/-- From page `n` on, the scan records for every long string that it comes to the number of pages marked
0xfffe directly behind its first page. -/
def RecordsPositions : Nat → List Page → ScanCursor → Prop
  | _, [], _ => True
  | n, p :: ps, c => ∀ c', scanPage tableId inColIdx numRows ⟨.VARCHAR, all⟩ c (p, n) = .ok c' →
      (p.numRows = 0xffff → ∃ v, c'.column.values = c.column.values ++ [v] ∧
        v.getPos = continuations all (n + 1)) ∧
      RecordsPositions (n + 1) ps c'

/-- From page `n` on and as far as the limits of `value_t` let the scan come, every long string has the
pages that the scan looks at, and the scan counts its own continuation pages. -/
def LongStringsCounted : Nat → List Page → Prop
  | _, [] => True
  | n, p :: ps =>
    if p.numRows = 0xffff then
      LookAheadInside all n ∧ (PlaceAccepted tableId inColIdx n (countedPos all n) →
        countedPos all n % 2 ^ 16 = continuations all (n + 1) ∧ LongStringsCounted (n + 1) ps)
    else if p.numRows = 0xfffe then LongStringsCounted (n + 1) ps
    else PageAccepted tableId inColIdx n p → LongStringsCounted (n + 1) ps

variable {tableId inColIdx numRows all}

theorem ScanCursor.values_append (c : ScanCursor) (type : DataType) (v : ValueT) :
    ((c.setType type).append v).column.values = c.column.values ++ [v] := by
  rw [ScanCursor.append, ColumnT.values, ColumnT.grid_append, flatten_pushPage]
  rfl

theorem recordsPositions_continued {qs ps : List Page} (hqs : ∀ q ∈ qs, q.numRows = 0xfffe) {n : Nat}
    {c : ScanCursor} (htype : c.column.type = .VARCHAR) :
    RecordsPositions tableId inColIdx numRows all n (qs ++ ps) c ↔
      RecordsPositions tableId inColIdx numRows all (n + qs.length) ps c := by
  induction qs generalizing n with
  | nil => exact Iff.rfl
  | cons q qs ih =>
    have hmark := hqs q (by simp)
    have hrest := ih (fun q' hq' => hqs q' (by simp [hq'])) (n := n + 1)
    rw [List.cons_append, RecordsPositions, scanPage_continued hmark, ScanCursor.setType_of_eq htype,
      List.length_cons, ← Nat.add_assoc, Nat.add_right_comm, ← hrest]
    constructor
    · intro h
      exact (h c rfl).2
    · intro h c' hc'
      cases hc'
      exact ⟨fun hfirst => by omega, h⟩

theorem longStringsCounted_continued {qs ps : List Page} (hqs : ∀ q ∈ qs, q.numRows = 0xfffe)
    {n : Nat} : LongStringsCounted tableId inColIdx all n (qs ++ ps) ↔
      LongStringsCounted tableId inColIdx all (n + qs.length) ps := by
  induction qs generalizing n with
  | nil => exact Iff.rfl
  | cons q qs ih =>
    have hmark := hqs q (by simp)
    have hrest := ih (fun q' hq' => hqs q' (by simp [hq'])) (n := n + 1)
    rw [List.cons_append, LongStringsCounted, if_neg (by omega), if_pos hmark, List.length_cons,
      ← Nat.add_assoc, Nat.add_right_comm, ← hrest]

/-- The scan of the pages from page `n` on. -/
theorem scanPages_iff {ps : List Page} {cs : List (Option Bytes)} (h : VarcharPages ps cs) {n : Nat}
    {c : ScanCursor} (hall : all.drop n = ps) (hroom : c.rowIdx + cs.length ≤ numRows) :
    (ps.zipIdx n).foldlM (scanPage tableId inColIdx numRows ⟨.VARCHAR, all⟩) c ≠ .error .outOfRange ∧
        RecordsPositions tableId inColIdx numRows all n ps c ↔
      LongStringsCounted tableId inColIdx all n ps := by
  induction h generalizing n c with
  | nil => exact iff_of_true ⟨nofun, True.intro⟩ True.intro
  | @page p cs ps rest hp _ ih =>
    rw [List.length_append] at hroom
    have hlt := hp.numRows_lt
    obtain ⟨hok, herr⟩ := scanPage_page tableId inColIdx numRows n all c hp (by omega)
    rw [List.zipIdx_cons, List.foldlM_cons, RecordsPositions, LongStringsCounted, if_neg (by omega),
      if_neg (by omega)]
    by_cases haccept : PageAccepted tableId inColIdx n p
    · obtain ⟨vs, hlen, -, hstep⟩ := hok haccept
      have hrest := ih (n := n + 1) (c := (c.setType .VARCHAR).appendAll vs)
        (drop_succ_of_drop hall)
        (by simp only [ScanCursor.rowIdx_appendAll, ScanCursor.setType]; omega)
      rw [hstep, ok_bind]
      constructor
      · rintro ⟨hfold, hrecords⟩ -
        exact hrest.mp ⟨hfold, (hrecords _ rfl).2⟩
      · intro hcounted
        obtain ⟨hfold, hrecords⟩ := hrest.mpr (hcounted haccept)
        refine ⟨hfold, fun c' hc' => ?_⟩
        cases hc'
        exact ⟨fun hfirst => by omega, hrecords⟩
    · rw [herr haccept]
      refine iff_of_true ⟨?_, fun c' hc' => ?_⟩ fun h => absurd h haccept
      · rw [error_bind, overflow]
        simp
      · cases hc'
  | @long qs s ps rest hs _ ih =>
    obtain ⟨first, marks, -⟩ := hs
    rename_i p qs
    rw [List.length_cons] at hroom
    have hn : all[n]? = some p := getElem?_of_drop hall
    obtain ⟨hout, herr, hok⟩ := scanPage_long tableId inColIdx numRows n all c first
    rw [List.cons_append, List.zipIdx_cons, List.foldlM_cons, RecordsPositions, LongStringsCounted,
      if_pos first]
    by_cases hinside : LookAheadInside all n
    · by_cases hplace : PlaceAccepted tableId inColIdx n (countedPos all n)
      · obtain ⟨v, hstep, hpos⟩ := hok hinside hplace
        have htype : ((c.setType .VARCHAR).append v).column.type = .VARCHAR := by
          rw [ScanCursor.append, ColumnT.type_append, ScanCursor.setType]
        have hrest := ih (n := n + 1 + qs.length) (c := (c.setType .VARCHAR).append v)
          (drop_of_drop (drop_succ_of_drop hall))
          (by simp only [ScanCursor.append, ScanCursor.setType]; omega)
        rw [hstep, ok_bind, List.zipIdx_append, List.foldlM_append,
          scanContinuations_eq marks htype, ok_bind, longStringsCounted_continued marks, ← hrest]
        constructor
        · rintro ⟨hfold, hrecords⟩
          obtain ⟨hfirst, hlater⟩ := hrecords _ rfl
          obtain ⟨v', hvalues, hpos'⟩ := hfirst first
          rw [c.values_append, List.append_cancel_left_eq, List.singleton_inj] at hvalues
          refine ⟨hinside, fun _ => ⟨?_, hfold, (recordsPositions_continued marks htype).mp hlater⟩⟩
          rw [← hpos, hvalues, hpos']
        · rintro ⟨-, hcounted⟩
          obtain ⟨heq, hfold, hrecords⟩ := hcounted hplace
          refine ⟨hfold, fun c' hc' => ?_⟩
          cases hc'
          exact ⟨fun _ => ⟨v, c.values_append _ v, hpos.trans heq⟩,
            (recordsPositions_continued marks htype).mpr hrecords⟩
      · rw [herr hinside hplace]
        refine iff_of_true ⟨?_, fun c' hc' => ?_⟩ ⟨hinside, fun h => absurd h hplace⟩
        · rw [error_bind, overflow]
          simp
        · cases hc'
    · rw [hout hinside]
      exact iff_of_false (fun h => h.1 rfl) fun h => hinside h.1

end Scans

/-- The scan of column `k` accesses pages of the column only, and what it records for a long string is
the number of its pages marked 0xfffe. -/
def ScansInside (tableId : Nat) (ct : ColumnarTable) (k : Nat) : Prop :=
  scanColumn tableId ct k ≠ .error .outOfRange ∧
    ∀ column, ct.columns[k]? = some column →
      RecordsPositions tableId k ct.numRows column.pages 0 column.pages ⟨.empty, 0⟩

section Columns

variable {ct : ColumnarTable} {ps : List Page} {cs : List (Option Bytes)}

theorem scansInside_iff (tableId : Nat) {k : Nat} (hcolumn : ct.columns[k]? = some ⟨.VARCHAR, ps⟩)
    (hps : VarcharPages ps cs) (hrows : cs.length ≤ ct.numRows) :
    ScansInside tableId ct k ↔ LongStringsCounted tableId k ps 0 ps := by
  rw [← @scanPages_iff _ _ ct.numRows _ _ _ hps 0 ⟨.empty, 0⟩ rfl
    (show (⟨.empty, 0⟩ : ScanCursor).rowIdx + cs.length ≤ ct.numRows by simpa using hrows)]
  have hscan : scanColumn tableId ct k ≠ .error .outOfRange ↔
      ps.zipIdx.foldlM (scanPage tableId k ct.numRows ⟨.VARCHAR, ps⟩) ⟨.empty, 0⟩ ≠
        .error .outOfRange := by
    rw [scanColumn, index_eq_ok.mpr hcolumn, ok_bind, if_neg (by simp)]
    cases ps.zipIdx.foldlM (scanPage tableId k ct.numRows ⟨.VARCHAR, ps⟩) ⟨.empty, 0⟩ with
    | error e => rw [error_bind]; simp
    | ok c => simp
  refine and_congr hscan ⟨fun h => h _ hcolumn, fun h column hcolumn' => ?_⟩
  obtain rfl := Option.some.inj (hcolumn.symm.trans hcolumn')
  exact h

/-- A long string does not fit on a page of strings. -/
theorem VarcharPage.length_le {p : Page} (hp : VarcharPage p cs) {s : Bytes} (hs : some s ∈ cs) :
    s.length ≤ pageSize - 7 := by
  have hfits := hp.fits
  have hpos : 0 < cs.length := List.length_pos_of_mem hs
  have hmem : s ∈ cs.reduceOption := List.reduceOption_mem_iff.mpr hs
  have hcount : 0 < cs.reduceOption.length := List.length_pos_of_mem hmem
  have hle := (List.sublist_flatten_of_mem hmem).length_le
  omega

/-- The pages of a long string among the pages of its column. -/
theorem VarcharPages.long_at (h : VarcharPages ps cs) {i n m : Nat} {s : Bytes}
    (hs : cs[i]? = some (some s)) (hlong : s.length > pageSize - 7)
    (hpage : (rowPages m ps)[i]? = some n) :
    ∃ pre p qs post, ps = pre ++ (p :: qs) ++ post ∧ n = m + pre.length ∧ p.numRows = 0xffff ∧
      LongString (p :: qs) s ∧ ∀ q, post.head? = some q → q.numRows ≠ 0xfffe := by
  induction h generalizing i m with
  | nil => cases hs
  | @page p cs ps rest hp _ ih =>
    rw [rowPages, hp.rowCount] at hpage
    by_cases hi : i < cs.length
    · rw [List.getElem?_append_left hi] at hs
      have := hp.length_le (List.mem_of_getElem? hs)
      omega
    · rw [List.getElem?_append_right (by omega)] at hs
      rw [List.getElem?_append_right (by simpa using hi), List.length_replicate] at hpage
      obtain ⟨pre, q, qs, post, rfl, hn, hrest⟩ := ih hs hpage
      exact ⟨p :: pre, q, qs, post, rfl, by rw [hn, List.length_cons]; omega, hrest⟩
  | @long qs s' ps rest hs' hps ih =>
    obtain ⟨first, marks, fits⟩ := id hs'
    rename_i p qs
    rw [List.cons_append, rowPages, rowCount_first first, rowPages_continued marks] at hpage
    cases i with
    | zero =>
      obtain rfl := Option.some.inj (Option.some.inj hs)
      obtain rfl := Option.some.inj hpage
      exact ⟨[], p, qs, ps, rfl, rfl, first, hs', hps.head_ne⟩
    | succ i =>
      rw [List.getElem?_append_right (by simp)] at hpage
      obtain ⟨pre, q, qs', post, rfl, hn, hrest⟩ := ih (i := i) hs (by simpa using hpage)
      refine ⟨p :: qs ++ pre, q, qs', post, by simp, ?_, hrest⟩
      rw [hn, List.length_append, List.length_cons]
      omega

end Columns

/-- The column is what one of the two writers of pages makes of the strings and NULLs `cells`. -/
inductive EncodedVarchar : List (Option Bytes) → Column → Prop
  | columnar {fresh : Nat → Nat → Page} {t : Table} {ct : ColumnarTable} {k : Nat} {column : Column} :
      t.WellTyped → toColumnar fresh t = .ok ct → ct.columns[k]? = some column →
      column.type = .VARCHAR → EncodedVarchar ((t.column k).map VarcharWriter.project) column
  | inserter {fresh : Nat → Page} {cells : List (Option Bytes)} :
      EncodedVarchar cells ⟨.VARCHAR, StringInserter.run fresh cells⟩

/-- A table of integers and strings, with NULLs and a string `s`. -/
def longTable (s : Bytes) : Table :=
  ⟨[[.int32 5, .string s], [.monostate, .monostate], [.int32 7, .string [1]]], [.INT32, .VARCHAR]⟩

section LongTable

variable (fresh : Nat → Nat → Page) {s : Bytes}

theorem longTable_wellTyped (s : Bytes) : (longTable s).WellTyped := by
  simp [longTable, Table.WellTyped, Data.HasType]

/-- A string that takes two pages. -/
theorem longPages_two (fresh : Nat → Page) (hlow : pageSize - 4 < s.length)
    (hhigh : s.length ≤ 2 * (pageSize - 4)) : ∃ a b, longPages fresh 0 true s = [a, b] ∧
      a.numRows = 0xffff ∧ b.numRows = 0xfffe := by
  have hpage := pageSize_eq
  have hrest : (s.drop (min s.length (pageSize - 4))).length = s.length - (pageSize - 4) := by
    rw [List.length_drop]
    omega
  rw [longPages, dif_neg (by omega)]
  dsimp only
  rw [longPages, dif_neg (by omega)]
  dsimp only
  rw [longPages, dif_pos (by rw [List.length_drop]; omega)]
  exact ⟨_, _, rfl, by simp [Page.numRows_setLong], by simp [Page.numRows_setLong]⟩

/-- The page of a NULL and a short string, behind some pages. -/
theorem VarcharWriter.short_page (fresh : Nat → Page) {w : VarcharWriter} {done : List (Option Bytes)}
    (h : w.Holds done []) :
    ∃ p, (((w.insertNull fresh).insert fresh [1]).finish fresh).pages = w.pages ++ [p] ∧
      VarcharPage p [none, some [1]] := by
  have hpage := pageSize_eq
  have hrows : w.numRows = 0 := h.numRows
  have hdata : w.data.length = 0 := congrArg List.length h.data
  have hoffsets : w.offsets.length = 0 := congrArg List.length h.offsets
  have hroom : 4 + w.offsets.length * 2 + w.data.length + (w.numRows / 8 + 1) ≤ pageSize := by
    simp [hrows, hdata, hoffsets]
    omega
  have hnull := insertNull_of_room fresh hroom
  have hroom' : 4 + ((w.insertNull fresh).offsets.length + 1) * 2 +
      ((w.insertNull fresh).data.length + [(1 : UInt8)].length) +
      ((w.insertNull fresh).numRows / 8 + 1) ≤ pageSize := by
    simp [hnull, hrows, hdata, hoffsets]
    omega
  have hfull : VarcharWriter.Holds ((w.insertNull fresh).insert fresh [1]) done [none, some [1]] :=
    (h.pushNull fresh hroom).push fresh (by decide) hroom'
  obtain ⟨p, hpages, hp⟩ := hfull.saved fresh
  refine ⟨p, ?_, hp⟩
  rw [finish, if_pos (by rw [hfull.numRows]; decide), hpages, insert_of_room fresh (by decide) hroom', hnull]

/-- The pages of the long string come before the one of the other rows. -/
theorem encodeVarchar_longTable (fresh : Nat → Page) (hlong : s.length > pageSize - 7) :
    ∃ p, encodeVarchar fresh (longTable s).data 1 = .ok (longPages fresh 0 true s ++ [p]) ∧
      VarcharPage p [none, some [1]] := by
  have hstart : VarcharWriter.Holds ⟨[], 0, [], [], []⟩ [] [] := ⟨.nil, rfl, rfl, rfl, .nil, by decide⟩
  obtain ⟨p, hpages, hp⟩ :=
    VarcharWriter.short_page fresh (hstart.insertLong fresh (show s.length ≠ 0 by omega))
  refine ⟨p, ?_, hp⟩
  have hfirst := VarcharWriter.insert_of_long (w := ⟨[], 0, [], [], []⟩) fresh hlong
  have hrun : encodeVarchar fresh (longTable s).data 1 =
      .ok (((VarcharWriter.insert fresh ⟨[], 0, [], [], []⟩ s).insertNull fresh).insert fresh
        [1] |>.finish fresh).pages := rfl
  rw [hrun, hfirst]
  refine congrArg Except.ok (hpages.trans ?_)
  rw [saveLongString_eq]
  rfl

theorem toColumnar_longTable (hlow : pageSize - 4 < s.length) (hhigh : s.length ≤ 2 * (pageSize - 4)) :
    ∃ ct ints a b p, toColumnar fresh (longTable s) = .ok ct ∧ ct.numRows = 3 ∧
      ct.columns = [⟨.INT32, ints⟩, ⟨.VARCHAR, [a, b, p]⟩] ∧ a.numRows = 0xffff ∧ b.numRows = 0xfffe ∧
      VarcharPage p [none, some [1]] := by
  have hpage := pageSize_eq
  obtain ⟨a, b, hlong, ha, hb⟩ := longPages_two (fresh 1) hlow hhigh
  obtain ⟨p, hstrings, hp⟩ := encodeVarchar_longTable (fresh 1) (show s.length > pageSize - 7 by omega)
  rw [hlong] at hstrings
  obtain ⟨ints, hints, -⟩ := @encodeFixed_holds (fresh 0) (longTable s).data 0 _ int32Type
    ((longTable_wellTyped s).cells rfl)
  have hrun : toColumnar fresh (longTable s) =
      (encodeFixed int32Type (fresh 0) (longTable s).data 0 >>= fun ints =>
        encodeVarchar (fresh 1) (longTable s).data 1 >>= fun strings =>
          .ok ⟨3, [⟨.INT32, ints⟩, ⟨.VARCHAR, strings⟩]⟩) := by
    unfold toColumnar
    rfl
  rw [hints, hstrings] at hrun
  exact ⟨_, ints, a, b, p, hrun, rfl, rfl, ha, hb, hp⟩

end LongTable

section Encoded

variable {cells : List (Option Bytes)} {column : Column}

theorem EncodedVarchar.holds (h : EncodedVarchar cells column) :
    column = ⟨.VARCHAR, column.pages⟩ ∧ VarcharPages column.pages cells := by
  cases h with
  | @columnar fresh t ct k _ ht hct hcolumn htype =>
    obtain ⟨ct', hct', hholds⟩ := toColumnar_holds fresh ht
    obtain rfl : ct = ct' := Except.ok.inj (hct.symm.trans hct')
    obtain ⟨-, hcells⟩ := hholds.get hcolumn
    generalize t.column k = cells at hcells
    cases hcells with
    | int32 _ | int64 _ | fp64 _ => cases htype
    | varchar hps =>
      rw [map_project_varcharCell]
      exact ⟨rfl, hps⟩
  | @inserter fresh cells => exact ⟨rfl, StringInserter.run_holds fresh cells⟩

/-- The scan stays inside a column and counts the pages of its long strings exactly if it looks ahead at
pages of the column and the pages that it counts are those of the string. -/
theorem scanColumn_inside_iff (tableId : Nat) {ct : ColumnarTable} {k : Nat}
    (h : EncodedVarchar cells column) (hcolumn : ct.columns[k]? = some column)
    (hrows : cells.length ≤ ct.numRows) :
    ScansInside tableId ct k ↔ LongStringsCounted tableId k column.pages 0 column.pages := by
  obtain ⟨htype, hps⟩ := h.holds
  rw [htype] at hcolumn
  exact scansInside_iff tableId hcolumn hps hrows

/-- A long string in the first of three rows. -/
theorem scanColumn_inside_iff_long :
    ∃ ct, toColumnar (fun _ _ => ⟨fun _ => 0⟩) (longTable (List.replicate 9000 97)) = .ok ct ∧
      ScansInside 0 ct 1 := by
  obtain ⟨ct, ints, a, b, p, hct, hrows, hcolumns, ha, hb, hp⟩ :=
    @toColumnar_longTable (fun _ _ => ⟨fun _ => 0⟩) (List.replicate 9000 97)
      (by rw [List.length_replicate]; decide) (by rw [List.length_replicate]; decide)
  have hcolumn : ct.columns[1]? = some ⟨.VARCHAR, [a, b, p]⟩ := by rw [hcolumns]; rfl
  refine ⟨ct, hct, (scanColumn_inside_iff 0 (.columnar (longTable_wellTyped _) hct hcolumn rfl) hcolumn
    (by rw [hrows]; exact Nat.le_refl 3)).mpr ?_⟩
  have hlast : p.numRows = 2 := hp.rows
  simp [LongStringsCounted, LookAheadInside, countedPos, continuations, ha, hb, hlast]

/-- A column of one long string has no other page. -/
theorem run_long (fresh : Nat → Page) {s : Bytes} (hlong : s.length > pageSize - 7) :
    StringInserter.run fresh [some s] = longPages fresh 0 true s := by
  have hat : (StringInserter.init.column).At [] none := ⟨rfl, rfl⟩
  have hsaved := @StringInserter.saveLongString_at fresh _ _ hat true s
  have hcall : StringInserter.call fresh StringInserter.init (some s) =
      { StringInserter.init with
        column := StringInserter.saveLongString fresh StringInserter.init.column true s } :=
    StringInserter.insert_of_long hlong
  rw [StringInserter.run, List.foldl_cons, List.foldl_nil, hcall, StringInserter.finalize,
    if_neg (by simp [StringInserter.init])]
  simpa using hsaved.pages

/-- There is no page to look at behind the only string of a column. -/
theorem not_lookAheadInside {qs : List Page} {s : Bytes} (hs : LongString qs s) :
    ∃ p ps, qs = p :: ps ∧ p.numRows = 0xffff ∧ ¬ LookAheadInside qs 0 := by
  obtain ⟨first, marks, -⟩ := hs
  rename_i p ps
  refine ⟨p, ps, rfl, first, ?_⟩
  rintro ⟨hlen, hbehind⟩
  have hcount : ∀ i, continuations (p :: ps) (i + 1) = ps.length - i := by
    intro i
    have hdrop : (p :: ps).drop (i + 1) = ps.drop i ++ [] := by simp
    rw [continuations_append (fun q hq => marks q (List.mem_of_mem_drop hq)) (by simp) hdrop,
      List.length_drop]
  rw [List.length_cons] at hlen hbehind
  have hfirst : continuations (p :: ps) (0 + 1) = ps.length := hcount 0
  have hsecond : continuations (p :: ps) 2 = ps.length - 1 := hcount 1
  have := hbehind (by omega)
  omega

/-- The scan of a column of one long string reads behind its last page. -/
theorem not_scansInside_long (tableId : Nat) (fresh : Nat → Page) {s : Bytes}
    (hlong : s.length > pageSize - 7) :
    ¬ ScansInside tableId ⟨1, [⟨.VARCHAR, StringInserter.run fresh [some s]⟩]⟩ 0 := by
  intro h
  have hcounted := (scansInside_iff tableId rfl (StringInserter.run_holds fresh [some s])
    (Nat.le_refl 1)).mp h
  obtain ⟨p, ps, hpages, first, hinside⟩ :=
    not_lookAheadInside (longPages_longString fresh 0 (show s.length ≠ 0 by omega))
  rw [run_long fresh hlong, hpages, LongStringsCounted, if_pos first, ← hpages] at hcounted
  exact hinside hcounted.1

theorem scanColumn_outside :
    EncodedVarchar [some (List.replicate 8186 97)]
        ⟨.VARCHAR, StringInserter.run (fun _ => ⟨fun _ => 0⟩) [some (List.replicate 8186 97)]⟩ ∧
      ¬ ScansInside 0
        ⟨1, [⟨.VARCHAR, StringInserter.run (fun _ => ⟨fun _ => 0⟩) [some (List.replicate 8186 97)]⟩]⟩ 0 :=
  ⟨.inserter, not_scansInside_long 0 _ (by rw [List.length_replicate]; decide)⟩

end Encoded

/-- The loop of `print_varchar` with the indices of the pages that it reads. -/
def printVarcharLoop (pages : List Page) (nextPageId : Nat) (value : Bytes) (reads : List Nat) :
    Bytes × List Nat :=
  if _h : nextPageId < pages.length then
    let page := pages[nextPageId]
    if page.numRows ≠ 0xfffe then
      (value, reads ++ [nextPageId])
    else
      printVarcharLoop pages (nextPageId + 1) (value ++ page.longChars) (reads ++ [nextPageId])
  else
    (value, reads)
  termination_by pages.length - nextPageId

/-- `print_varchar` with the indices of the pages that it reads. -/
def printVarcharReads (inputs : List ColumnarTable) (v : ValueT) : Result (Bytes × List Nat) := do
  let columnTable ← index inputs v.getTable
  let column ← index columnTable.columns v.getColumn
  let page ← index column.pages v.getPage
  .ok (printVarcharLoop column.pages (v.getPage + 1) page.longChars [v.getPage])

section Print

theorem printVarcharLoop_eq (pages : List Page) (nextPageId : Nat) (value : Bytes)
    (reads : List Nat) : (printVarcharLoop pages nextPageId value reads).1 =
        appendContinuations (pages.drop nextPageId) value ∧
      ∀ m ∈ (printVarcharLoop pages nextPageId value reads).2, m ∈ reads ∨ m < pages.length := by
  fun_induction printVarcharLoop pages nextPageId value reads with
  | case1 nextPageId value reads hlt page hmark =>
    refine ⟨?_, fun m hm => ?_⟩
    · rw [List.drop_eq_getElem_cons hlt, appendContinuations, if_pos hmark]
    · rcases List.mem_append.mp hm with hm | hm
      · exact .inl hm
      · exact .inr (by rwa [List.mem_singleton.mp hm])
  | case2 nextPageId value reads hlt page hmark ih =>
    refine ⟨?_, fun m hm => ?_⟩
    · rw [ih.1, List.drop_eq_getElem_cons hlt, appendContinuations, if_neg hmark]
    · rcases ih.2 m hm with hm | hm
      · rcases List.mem_append.mp hm with hm | hm
        · exact .inl hm
        · exact .inr (by rwa [List.mem_singleton.mp hm])
      · exact .inr hm
  | case3 nextPageId value reads hge =>
    refine ⟨?_, fun m hm => .inl hm⟩
    rw [List.drop_eq_nil_of_le (by omega), appendContinuations]

/-- The reads are those of `print_varchar`. -/
theorem printVarcharReads_fst (inputs : List ColumnarTable) (v : ValueT) :
    printVarchar inputs v = (printVarcharReads inputs v).map Prod.fst := by
  unfold printVarchar printVarcharReads
  cases index inputs v.getTable with
  | error e => rfl
  | ok columnTable =>
    simp only [ok_bind]
    cases index columnTable.columns v.getColumn with
    | error e => rfl
    | ok column =>
      simp only [ok_bind]
      cases index column.pages v.getPage with
      | error e => rfl
      | ok page =>
        simp only [ok_bind, Except.map]
        rw [(printVarcharLoop_eq _ _ _ _).1]

variable {cells : List (Option Bytes)} {column : Column} {inputs : List ColumnarTable}
  {ct : ColumnarTable} {v : ValueT} {i : Nat} {s : Bytes}

/-- A value that names the first page of a long string prints the string, from pages of its column. -/
theorem printVarchar_long (h : EncodedVarchar cells column) (hct : inputs[v.getTable]? = some ct)
    (hcolumn : ct.columns[v.getColumn]? = some column) (hs : cells[i]? = some (some s))
    (hlong : s.length > pageSize - 7) (hpage : (rowPages 0 column.pages)[i]? = some v.getPage) :
    (∃ page, column.pages[v.getPage]? = some page ∧ page.numRows = 0xffff) ∧
      printVarchar inputs v = .ok s ∧
      ∃ reads, printVarcharReads inputs v = .ok (s, reads) ∧ ∀ m ∈ reads, m < column.pages.length := by
  obtain ⟨-, hps⟩ := h.holds
  obtain ⟨pre, p, qs, post, hpages, hn, first, hlongString, hpost⟩ := hps.long_at hs hlong hpage
  rw [Nat.zero_add] at hn
  have hget : column.pages[v.getPage]? = some p := by
    rw [hpages, hn, List.append_assoc, List.getElem?_append_right (Nat.le_refl _)]
    simp
  have hlt := (List.getElem?_eq_some_iff.mp hget).1
  have hdrop : column.pages.drop (v.getPage + 1) = qs ++ post := by
    rw [hpages, hn, List.append_assoc, List.drop_append]
    simp
  obtain ⟨-, marks, -⟩ := hlongString
  have hvalue := appendContinuations_eq marks hpost p.longChars
  have hprint : printVarchar inputs v = .ok (p.longChars ++ qs.flatMap Page.longChars) := by
    rw [printVarchar, index_eq_ok.mpr hct, ok_bind, index_eq_ok.mpr hcolumn, ok_bind,
      index_eq_ok.mpr hget, ok_bind, hdrop, hvalue]
  obtain ⟨hloop, hreads⟩ := printVarcharLoop_eq column.pages (v.getPage + 1) p.longChars [v.getPage]
  rw [hdrop, hvalue] at hloop
  have hrun : printVarcharReads inputs v =
      .ok (printVarcharLoop column.pages (v.getPage + 1) p.longChars [v.getPage]) := by
    rw [printVarcharReads, index_eq_ok.mpr hct, ok_bind, index_eq_ok.mpr hcolumn, ok_bind,
      index_eq_ok.mpr hget, ok_bind]
  refine ⟨⟨p, hget, first⟩, hprint, _, hrun.trans (congrArg Except.ok (Prod.ext hloop rfl)),
    fun m hm => ?_⟩
  · rcases hreads m hm with hm | hm
    · rwa [List.mem_singleton.mp hm]
    · exact hm

theorem printVarchar_long_single :
    printVarchar
        [⟨1, [⟨.VARCHAR, StringInserter.run (fun _ => ⟨fun _ => 0⟩) [some (List.replicate 8186 97)]⟩]⟩]
        ⟨0⟩ =
      .ok (List.replicate 8186 97) := by
  have hall : ∀ s : Bytes, s.length > pageSize - 7 → printVarchar
      [⟨1, [⟨.VARCHAR, StringInserter.run (fun _ => ⟨fun _ => 0⟩) [some s]⟩]⟩] ⟨0⟩ = .ok s := by
    intro s hlong
    refine (printVarchar_long (i := 0) (.inserter : EncodedVarchar [some s] _) rfl rfl rfl hlong ?_).2.1
    obtain ⟨p, ps, hpages, first, -⟩ := not_lookAheadInside
      (longPages_longString (fun _ => ⟨fun _ => 0⟩) 0 (show s.length ≠ 0 by omega))
    rw [run_long _ hlong, hpages, rowPages, rowCount_first first]
    rfl
  exact hall _ (by rw [List.length_replicate]; decide)

end Print

end JoinOptimizer
