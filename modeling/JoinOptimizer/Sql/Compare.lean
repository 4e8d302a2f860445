import JoinOptimizer.Page.Order
import JoinOptimizer.Page.Encode
import JoinOptimizer.Filter.Selected

/-! `compare_withcache` of `tests/read_sql.cpp`: the result of a query against the rows that the cache has
for it. -/

namespace JoinOptimizer

open Lib

/-- `sort`. -/
def sort (table : List (List Data)) : List (List Data) := ascending (lexLess Data.less) table

/-- `compare_withcache`.  The records of the cache are not sorted; a table of `num_rows` rows has as many
records. -/
def compareWithcache (expected results : ColumnarTable) : Result Bool :=
  let numRows := results.numRows
  let numCols := results.columns.length
  if expected.numRows ≠ numRows then .ok false
  else if expected.columns.length ≠ numCols then .ok false
  else if (List.range numCols).any fun i =>
      (expected.columns[i]?.map Column.type) ≠ (results.columns[i]?.map Column.type) then .ok false
  else do
    let resultsTable ← fromColumnar results
    let expectedTable ← fromColumnar expected
    let table := sort resultsTable.data
    let booleans := filterTpRun (fun booleans first last =>
        (List.range' first (last - first)).foldl
          (fun booleans i => booleans.set i
            (if (table.getD i []).isEqv (expectedTable.data.getD i []) Data.equal then 1 else 0)) booleans)
      numRows (List.replicate numRows (0 : UInt8))
    .ok (booleans.all (· ≠ 0))

/-- Records compare as equal where they are. -/
theorem isEqv_equal {as bs : List Data} (h : ∀ a ∈ as, a.NotDouble) :
    as.isEqv bs Data.equal = decide (as = bs) := by
  induction as generalizing bs with
  | nil => cases bs <;> simp
  | cons a as ih =>
    cases bs with
    | nil => simp
    | cons b bs =>
      rw [List.isEqv_cons_cons, Data.equal_eq (h a List.mem_cons_self),
        ih fun a' ha' => h a' (List.mem_cons_of_mem _ ha')]
      simp

/-- The slices compare all records. -/
theorem filterTpRun_equal (f : Nat → Bool) (n : Nat) :
    (filterTpRun (fun booleans first last => (List.range' first (last - first)).foldl
        (fun booleans i => booleans.set i (if f i then 1 else 0)) booleans)
      n (List.replicate n (0 : UInt8))).all (· ≠ 0) = true ↔ ∀ i < n, f i = true := by
  have hloop : (List.range n).foldl (fun booleans i => booleans.set i (if f i then 1 else 0))
      (List.replicate n (0 : UInt8)) = (List.range n).map fun i => if f i then 1 else 0 := by
    simp only [List.set_eq_modify]
    refine List.ext_getElem? fun j => ?_
    rw [getElem?_foldl_modify]
    split
    · next hj => simp [hj]
    · next hj => simp [hj]
  rw [filterTpRun_loop, hloop]
  simp only [List.all_map, List.all_eq_true, List.mem_range, Function.comp_apply, decide_eq_true_eq]
  refine forall₂_congr fun i _ => ?_
  cases f i <;> simp

theorem sameTypes_iff {xs ys : List Column} (h : xs.length = ys.length) :
    ((List.range ys.length).any fun i => (xs[i]?.map Column.type) ≠ (ys[i]?.map Column.type)) = false ↔
      xs.map Column.type = ys.map Column.type := by
  rw [List.any_eq_false]
  simp only [List.mem_range, decide_eq_true_eq, not_not]
  constructor
  · intro hsame
    refine List.ext_getElem? fun i => ?_
    rw [List.getElem?_map, List.getElem?_map]
    by_cases hi : i < ys.length
    · exact hsame i hi
    · rw [List.getElem?_eq_none (by omega), List.getElem?_eq_none (by omega)]
  · intro hsame i _
    rw [← List.getElem?_map, ← List.getElem?_map, hsame]

/-- The records of a table without a column of `double`. -/
theorem notDouble_of_wellTyped {t : Table} (h : t.WellTyped) (htypes : ∀ type ∈ t.types, type ≠ .FP64) :
    ∀ record ∈ t.data, ∀ d ∈ record, d.NotDouble := by
  intro record hrecord d hd
  obtain ⟨i, hi, rfl⟩ := List.getElem_of_mem hd
  have hcell := h record hrecord
  have hlen := hcell.length_eq
  have hi' : i < t.types.length := by omega
  exact (List.forall₂_iff_get.mp hcell |>.2 i hi hi').notDouble (htypes _ (List.getElem_mem hi'))

/-- The comparison of two tables that decode. -/
theorem compareWithcache_eq {expected results : ColumnarTable} {e r : Table}
    (he : fromColumnar expected = .ok e) (hr : fromColumnar results = .ok r)
    (htypes : ∀ type ∈ e.types, type ≠ .FP64) :
    compareWithcache expected results = .ok (decide (e.types = r.types ∧ e.data = sort r.data)) := by
  obtain ⟨hwellE, htypesE, hrowsE⟩ := fromColumnar_wellTyped he
  obtain ⟨hwellR, htypesR, hrowsR⟩ := fromColumnar_wellTyped hr
  have hsort : (sort r.data).length = results.numRows := by
    rw [← hrowsR]
    exact (ascending_perm _ _).length_eq
  unfold compareWithcache
  dsimp only
  by_cases hnum : expected.numRows = results.numRows
  · rw [if_neg (not_not.mpr hnum)]
    by_cases hlen : expected.columns.length = results.columns.length
    · rw [if_neg (not_not.mpr hlen)]
      by_cases hsame : expected.columns.map Column.type = results.columns.map Column.type
      · rw [(sameTypes_iff hlen).mpr hsame, if_neg (by decide), hr, ok_bind, he, ok_bind]
        refine congrArg Except.ok (Bool.eq_iff_iff.mpr ?_)
        rw [filterTpRun_equal, decide_eq_true_eq, htypesE, htypesR, hsame]
        have hnd : ∀ record ∈ sort r.data, ∀ d ∈ record, d.NotDouble := fun record hrecord =>
          notDouble_of_wellTyped hwellR (by rwa [htypesR, ← hsame, ← htypesE]) record
            ((ascending_perm _ _).mem_iff.mp hrecord)
        constructor
        · intro hall
          refine ⟨rfl, List.ext_getElem (by omega) fun i hi hi' => ?_⟩
          have hi'' := hall i (by omega)
          rw [List.getD_eq_getElem _ _ hi', List.getD_eq_getElem _ _ hi,
            isEqv_equal (hnd _ (List.getElem_mem hi')), decide_eq_true_eq] at hi''
          exact hi''.symm
        · rintro ⟨-, heq⟩ i hi
          have hi' : i < (sort r.data).length := by omega
          rw [heq, List.getD_eq_getElem _ _ hi', isEqv_equal (hnd _ (List.getElem_mem hi'))]
          exact decide_eq_true rfl
      · have hany := (not_congr (sameTypes_iff hlen)).mpr hsame
        rw [Bool.not_eq_false] at hany
        rw [hany, if_pos rfl, htypesE, htypesR]
        simp [hsame]
    · rw [if_pos hlen]
      refine congrArg Except.ok (Eq.symm (decide_eq_false ?_))
      rintro ⟨hsame, -⟩
      have hcount := congrArg List.length hsame
      rw [htypesE, htypesR, List.length_map, List.length_map] at hcount
      exact hlen hcount
  · rw [if_pos hnum]
    refine congrArg Except.ok (Eq.symm (decide_eq_false ?_))
    rintro ⟨-, heq⟩
    have hcount := congrArg List.length heq
    omega

/-- Two tables that decode are accepted if they have the same types and records and the first one is in
ascending order. -/
theorem compareWithcache_decoded {expected results : ColumnarTable}
    (htypes : ∀ column ∈ expected.columns, column.type ≠ .FP64) {e r : Table}
    (he : fromColumnar expected = .ok e) (hr : fromColumnar results = .ok r) :
    compareWithcache expected results = .ok true ↔ e.types = r.types ∧
      (e.data.Pairwise fun a b => lexLess Data.less b a = false) ∧ e.data.Perm r.data := by
  have hfixed : ∀ type ∈ e.types, type ≠ .FP64 := by
    rw [(fromColumnar_wellTyped he).2.1]
    intro type htype
    obtain ⟨column, hcolumn, rfl⟩ := List.mem_map.mp htype
    exact htypes column hcolumn
  rw [compareWithcache_eq he hr hfixed, Except.ok.injEq, decide_eq_true_eq]
  refine and_congr_right fun hsame => ?_
  exact Data.strictTotal.lex.eq_ascending_iff
    (notDouble_of_wellTyped (fromColumnar_wellTyped hr).1 (hsame ▸ hfixed))

/-- Tables that are accepted decode. -/
theorem decodes_of_compareWithcache {expected results : ColumnarTable}
    (h : compareWithcache expected results = .ok true) :
    ∃ e r, fromColumnar expected = .ok e ∧ fromColumnar results = .ok r := by
  unfold compareWithcache at h
  dsimp only at h
  split at h
  · cases h
  · split at h
    · cases h
    · split at h
      · cases h
      · obtain ⟨r, hr, h⟩ := bind_eq_ok.mp h
        obtain ⟨e, he, -⟩ := bind_eq_ok.mp h
        exact ⟨e, r, he, hr⟩

/-- The comparison accepts exactly the results that have the types of the cache and a permutation of its
records, where the cache has them in ascending order. -/
theorem compareWithcache_iff {expected results : ColumnarTable}
    (htypes : ∀ column ∈ expected.columns, column.type ≠ .FP64) :
    compareWithcache expected results = .ok true ↔ ∃ e r, fromColumnar expected = .ok e ∧
      fromColumnar results = .ok r ∧ e.types = r.types ∧
      (e.data.Pairwise fun a b => lexLess Data.less b a = false) ∧ e.data.Perm r.data := by
  constructor
  · intro h
    obtain ⟨e, r, he, hr⟩ := decodes_of_compareWithcache h
    exact ⟨e, r, he, hr, (compareWithcache_decoded htypes he hr).mp h⟩
  · rintro ⟨e, r, he, hr, h⟩
    exact (compareWithcache_decoded htypes he hr).mpr h

/-- A result in another order is accepted; the same records in the file are not. -/
theorem compareWithcache_iff_pair : ∃ expected results,
    fromColumnar expected = .ok ⟨[[.int32 (-1)], [.monostate]], [.INT32]⟩ ∧
      fromColumnar results = .ok ⟨[[.monostate], [.int32 (-1)]], [.INT32]⟩ ∧
      compareWithcache expected results = .ok true ∧ compareWithcache results results ≠ .ok true := by
  obtain ⟨expected, -, hexpected⟩ := toColumnar_holds (fun _ _ => ⟨fun _ => 0⟩)
    (show (Table.mk [[.int32 (-1)], [.monostate]] [.INT32]).WellTyped by simp [Table.WellTyped, Data.HasType])
  obtain ⟨results, -, hresults⟩ := toColumnar_holds (fun _ _ => ⟨fun _ => 0⟩)
    (show (Table.mk [[.monostate], [.int32 (-1)]] [.INT32]).WellTyped by simp [Table.WellTyped, Data.HasType])
  have he : fromColumnar expected = _ := fromColumnar_eq hexpected (by simp)
  have hr : fromColumnar results = _ := fromColumnar_eq hresults (by simp)
  have hcolumns : ∀ {ct : ColumnarTable} {data : List (List Data)},
      fromColumnar ct = .ok ⟨data, [.INT32]⟩ → ∀ column ∈ ct.columns, column.type ≠ .FP64 := by
    intro ct data hct column hcolumn
    have hmem := List.mem_map_of_mem (f := Column.type) hcolumn
    rw [← (fromColumnar_wellTyped hct).2.1] at hmem
    rw [List.mem_singleton.mp hmem]
    decide
  refine ⟨expected, results, he, hr, (compareWithcache_iff (hcolumns he)).mpr
    ⟨_, _, he, hr, rfl, by simp [lexLess, Data.less, Data.index], List.Perm.swap _ _ _⟩, fun h => ?_⟩
  obtain ⟨e, r, he', -, -, hsorted, -⟩ := (compareWithcache_iff (hcolumns hr)).mp h
  obtain rfl := Except.ok.inj (hr.symm.trans he')
  simp [lexLess, Data.less, Data.index] at hsorted

end JoinOptimizer
