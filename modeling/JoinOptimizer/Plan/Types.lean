import JoinOptimizer.Plan.Inputs
import JoinOptimizer.Join.Run

/-! The types of the columns of a result.  A join declares them; a scan sets them page by page, so that a
column without pages is left with the first type of the enumeration. -/

namespace JoinOptimizer

open Lib PlanTree

section Scan

variable {tableId inColIdx numRows : Nat} {page : Page} {c c' : ScanCursor}

theorem scanInt32Page_type (h : scanInt32Page numRows page c = .ok c') : c'.column.type = .INT32 := by
  obtain ⟨s, hloop, hs⟩ := bind_eq_ok.mp h
  cases hs
  refine foldlM_invariant (P := fun _ s => s.2.column.type = .INT32) hloop rfl fun pre i s s' _ hs hrow => ?_
  unfold scanInt32Row at hrow
  split at hrow
  · obtain ⟨u, -, hrow⟩ := bind_eq_ok.mp hrow
    cases hrow
    exact (ColumnT.type_append _ _).trans hs
  · cases hrow
    exact (ColumnT.type_append _ _).trans hs

theorem scanVarcharPage_type {pages : List Page} {pageIdx : Nat}
    (h : scanVarcharPage tableId inColIdx numRows pages page pageIdx c = .ok c') :
    c'.column.type = .VARCHAR := by
  unfold scanVarcharPage at h
  dsimp only at h
  split at h
  · obtain ⟨nextPage, -, h⟩ := bind_eq_ok.mp h
    obtain ⟨pos, -, h⟩ := bind_eq_ok.mp h
    obtain ⟨v, -, h⟩ := bind_eq_ok.mp h
    cases h
    exact ColumnT.type_append _ _
  · split at h
    · cases h
      rfl
    · obtain ⟨s, hloop, hs⟩ := bind_eq_ok.mp h
      cases hs
      refine foldlM_invariant (P := fun _ s => s.2.2.column.type = .VARCHAR) hloop rfl
        fun pre i s s' _ hs hrow => ?_
      unfold scanVarcharRow at hrow
      dsimp only at hrow
      split at hrow
      · obtain ⟨u, -, hrow⟩ := bind_eq_ok.mp hrow
        obtain ⟨v, -, hrow⟩ := bind_eq_ok.mp hrow
        cases hrow
        exact (ColumnT.type_append _ _).trans hs
      · cases hrow
        exact (ColumnT.type_append _ _).trans hs

/-- The type that a scan leaves. -/
theorem scanColumn_type {table : ColumnarTable} {column : Column} {d : ColumnT}
    (hcolumn : table.columns[inColIdx]? = some column) (h : scanColumn tableId table inColIdx = .ok d) :
    d.type = if column.type = .VARCHAR ∧ column.pages ≠ [] then .VARCHAR else .INT32 := by
  unfold scanColumn at h
  rw [index_eq_ok.mpr hcolumn, ok_bind] at h
  split at h
  · next hint =>
    have htype : column.type = .INT32 := by
      simp only [Bool.and_eq_true, decide_eq_true_eq] at hint
      exact hint.1
    rw [htype, if_neg (by simp)]
    unfold scanNoNull at h
    split at h
    · cases h
      rfl
    · obtain ⟨s, -, hs⟩ := bind_eq_ok.mp h
      cases hs
      rfl
  · obtain ⟨s, hloop, hs⟩ := bind_eq_ok.mp h
    cases hs
    have hpages := foldlM_invariant (P := fun (pre : List (Page × Nat)) s =>
      s.column.type = if column.type = .VARCHAR ∧ pre ≠ [] then .VARCHAR else .INT32) hloop
      (by rw [if_neg (by simp)]; rfl) fun pre p s s' _ hs hpage => by
        unfold scanPage at hpage
        split at hpage
        · next htype => rw [scanInt32Page_type hpage, if_neg (by simp [htype])]
        · next htype => rw [scanVarcharPage_type hpage, if_pos (by simp [htype])]
        · next hint hvarchar =>
          cases hpage
          rw [hs, if_neg (fun h => hvarchar h.1), if_neg (fun h => hvarchar h.1)]
    rw [hpages]
    refine if_congr (and_congr_right fun _ => not_congr ?_) rfl rfl
    rw [List.zipIdx_eq_nil_iff]

end Scan

section Join

variable {hashKey : Int32 → BitVec 64} {a : JoinAlgorithm}

/-- A thread has a column for each attribute. -/
theorem JoinAlgorithm.probeWorker_length {schedule : JoinSchedule} {ht : UnchainedHashTable}
    {probeCol : ColumnT} {t : Fin numThreads} {out : List ColumnT}
    (h : a.probeWorker hashKey schedule ht probeCol t = .ok out) : out.length = a.outputAttrs.length := by
  have hmatch : ∀ {probe : Nat × Nat} {m : UInt32} {out out' : List ColumnT},
      out.length = a.outputAttrs.length → a.appendMatch probe out m = .ok out' →
      out'.length = a.outputAttrs.length := by
    intro probe m out out' hlen hrun
    rw [mapM_ok_length hrun, List.length_zip, hlen, Nat.min_self]
  refine foldlM_invariant (P := fun _ out => out.length = a.outputAttrs.length) h (by simp)
    fun pre p out out' _ hlen hpage => ?_
  obtain ⟨rows, -, hpage⟩ := bind_eq_ok.mp hpage
  refine foldlM_invariant (P := fun _ out => out.length = a.outputAttrs.length) hpage hlen
    fun pre row out out' _ hlen hrow => ?_
  obtain ⟨key, -, hrow⟩ := bind_eq_ok.mp hrow
  cases key with
  | none =>
    cases hrow
    exact hlen
  | some key =>
    obtain ⟨hits, -, hrow⟩ := bind_eq_ok.mp hrow
    exact foldlM_invariant (P := fun _ out => out.length = a.outputAttrs.length) hrow hlen
      fun pre m out out' _ hlen hrow => hmatch hlen hrow

theorem JoinAlgorithm.mergeResults_types {results threadResults : List ColumnT}
    (h : threadResults.length = results.length) :
    (JoinAlgorithm.mergeResults results threadResults).map ColumnT.type = results.map ColumnT.type := by
  unfold JoinAlgorithm.mergeResults
  refine List.ext_getElem (by simp [h]) fun i hi hi' => ?_
  rw [List.getElem_map, List.getElem_map, List.getElem_zipWith]

theorem JoinAlgorithm.foldl_mergeResults_types {n : Nat} {threadResults : List (List ColumnT)}
    (hthread : ∀ out ∈ threadResults, out.length = n) {results : List ColumnT} (hlen : results.length = n) :
    (threadResults.foldl JoinAlgorithm.mergeResults results).map ColumnT.type =
      results.map ColumnT.type := by
  induction threadResults generalizing results with
  | nil => rfl
  | cons out threadResults ih =>
    have htypes := mergeResults_types ((hthread out List.mem_cons_self).trans hlen.symm)
    have hcount := congrArg List.length htypes
    rw [List.length_map, List.length_map] at hcount
    rw [List.foldl_cons, ih (fun out' hout' => hthread out' (List.mem_cons_of_mem _ hout'))
      (hcount.trans hlen), htypes]

/-- The threads move pages only. -/
theorem JoinAlgorithm.run_types {schedule : JoinSchedule} {results cols : List ColumnT}
    (hlen : results.length = a.outputAttrs.length) (h : a.run hashKey schedule results = .ok cols) :
    cols.map ColumnT.type = results.map ColumnT.type := by
  obtain ⟨buildCol, -, h⟩ := bind_eq_ok.mp h
  obtain ⟨ht, -, h⟩ := bind_eq_ok.mp h
  obtain ⟨ht', -, h⟩ := bind_eq_ok.mp h
  obtain ⟨probeCol, -, h⟩ := bind_eq_ok.mp h
  obtain ⟨threadResults, hthreads, h⟩ := bind_eq_ok.mp h
  cases h
  have hthread : ∀ out ∈ threadResults, out.length = a.outputAttrs.length := by
    intro out hout
    obtain ⟨i, hi, rfl⟩ := List.getElem_of_mem hout
    have hi' : i < (List.finRange numThreads).length := by rw [← mapM_ok_length hthreads]; exact hi
    exact probeWorker_length (mapM_ok_getElem hthreads hi' hi)
  exact foldl_mergeResults_types hthread hlen

theorem executeHashJoin_types {schedule : JoinSchedule} {join : JoinNode}
    {leftTypes rightTypes attrs : List (Nat × DataType)} {left right cols : List ColumnT}
    (h : executeHashJoin hashKey schedule join leftTypes rightTypes attrs left right = .ok cols) :
    cols.map ColumnT.type = attrs.map Prod.snd := by
  have hresults : (attrs.map (resultColumn left right)).map ColumnT.type = attrs.map Prod.snd := by
    rw [List.map_map]
    exact List.map_congr_left fun attr _ => type_resultColumn left right attr
  obtain ⟨key, -, h⟩ := bind_eq_ok.mp h
  split at h
  · exact (JoinAlgorithm.run_types (List.length_map _) h).trans hresults
  · cases h
    exact hresults

end Join

theorem materializeColumn_type {fresh : Nat → Page} {inputs : List ColumnarTable} {c : ColumnT}
    {column : Column} (h : materializeColumn fresh inputs c = .ok column) : column.type = c.type := by
  unfold materializeColumn at h
  split at h
  · next htype =>
    obtain ⟨w, -, h⟩ := bind_eq_ok.mp h
    cases h
    exact htype.symm
  · next htype =>
    obtain ⟨w, -, h⟩ := bind_eq_ok.mp h
    cases h
    exact htype.symm
  · cases h

theorem toColumnarFromColumn_types {fresh : Nat → Nat → Page} {inputs : List ColumnarTable}
    {cols : List ColumnT} {result : ColumnarTable}
    (h : toColumnarFromColumn fresh inputs cols = .ok result) :
    result.columns.map Column.type = cols.map ColumnT.type := by
  obtain ⟨first, -, h⟩ := bind_eq_ok.mp h
  obtain ⟨columns, hcolumns, h⟩ := bind_eq_ok.mp h
  cases h
  have hlen := mapM_ok_length hcolumns
  rw [List.length_zipIdx] at hlen
  refine List.ext_getElem (by simp [hlen]) fun i hi hi' => ?_
  rw [List.length_map] at hi hi'
  have hcolumn := mapM_ok_getElem hcolumns (by simpa using hi') hi
  rw [List.getElem_map, List.getElem_map, materializeColumn_type hcolumn, List.get_eq_getElem,
    List.getElem_zipIdx]

/-- A scan at the root finds a page for each column of strings. -/
def PlanTree.KeepsTypes (plan : Plan) : PlanTree → Prop
  | .scan t attrs => ∀ attr ∈ attrs, attr.2 = .VARCHAR → OnPages plan (fun _ _ pages => pages ≠ []) t attr.1
  | .join .. => True

section Execute

variable {hashKey : Int32 → BitVec 64} {tables : List Table} {plan : Plan} {tree : PlanTree}
  {schedules : Nat → JoinSchedule} {fresh : Nat → Nat → Page} {fuel : Nat} {result : ColumnarTable}

/-- The result has the declared types exactly when a scan at the root sets them all. -/
theorem execute_types_iff (hinputs : Holding tables plan.inputs) (htree : plan.Unfolds plan.root tree)
    (hwf : tree.WellFormed (tables.map Table.types))
    (h : execute hashKey fresh plan schedules fuel = .ok result) :
    result.columns.map Column.type = tree.attrs.map Prod.snd ↔ tree.KeepsTypes plan := by
  obtain ⟨cols, hrun, h⟩ := bind_eq_ok.mp h
  rw [toColumnarFromColumn_types h]
  cases htree with
  | join hnode hleft hright =>
    obtain ⟨fuel', l, r, -, -, hjoin⟩ := executeHashJoin_of_ok hnode hleft hright hrun
    exact iff_of_true (executeHashJoin_types hjoin) trivial
  | scan hnode =>
    rename_i t attrs
    obtain ⟨hlen, table, htable, hcolumn⟩ := executeScan_column (executeScan_of_ok hnode hrun)
    have hdeclared := hwf.onScans
    -- one attribute
    have hone : ∀ (j : Nat) (hj : j < attrs.length) (hj' : j < cols.length),
        cols[j].type = attrs[j].2 ↔
          (attrs[j].2 = .VARCHAR → OnPages plan (fun _ _ pages => pages ≠ []) t attrs[j].1) := by
      intro j hj hj'
      obtain ⟨attr, hattr, hscan, -⟩ := hcolumn j _ (List.getElem?_eq_getElem hj')
      obtain rfl : attrs[j] = attr := Option.some.inj ((List.getElem?_eq_getElem hj).symm.trans hattr)
      have hdecl := hdeclared _ (List.getElem_mem hj)
      obtain ⟨ct, t', column, hct, -, hcol, htype, -⟩ := hinputs.column hdecl
      obtain rfl : table = ct := Option.some.inj (htable.symm.trans hct)
      rw [scanColumn_type hcol hscan, htype]
      have hpages : OnPages plan (fun _ _ pages => pages ≠ []) t attrs[j].1 ↔ column.pages ≠ [] := by
        constructor
        · exact fun hon => hon table column htable hcol
        · intro hne ct' column' hct' hcol'
          obtain rfl : table = ct' := Option.some.inj (htable.symm.trans hct')
          obtain rfl : column = column' := Option.some.inj (hcol.symm.trans hcol')
          exact hne
      rw [hpages]
      rcases hdecl.2 with hint | hvarchar
      · simp [hint]
      · by_cases hnil : column.pages = [] <;> simp [hvarchar, hnil]
    have hlen' : cols.length = attrs.length := hlen
    constructor
    · intro htypes attr hattr
      obtain ⟨j, hj, rfl⟩ := List.getElem_of_mem hattr
      refine (hone j hj (hlen'.symm ▸ hj)).mp ?_
      have hj' : j < (cols.map ColumnT.type).length := by
        rw [List.length_map, hlen']
        exact hj
      have hget := List.getElem_of_eq htypes hj'
      rw [List.getElem_map, List.getElem_map] at hget
      exact hget
    · intro hkeeps
      refine List.ext_getElem (by simp [hlen', PlanTree.attrs]) fun j hj hj' => ?_
      rw [List.length_map] at hj
      have hj'' : j < attrs.length := hlen' ▸ hj
      rw [List.getElem_map, List.getElem_map]
      exact (hone j hj'' hj).mpr (hkeeps _ (List.getElem_mem hj''))

end Execute

end JoinOptimizer
