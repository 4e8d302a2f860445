import JoinOptimizer.Plan.Tree
import JoinOptimizer.Join.Completed
import JoinOptimizer.Store.Scanned

/-! The results of the nodes of a plan: their columns break the same rows into the same pages, and each
value is the one that the scan of its base column made for its base row. -/

namespace JoinOptimizer

open Lib

/-- The base column `k` of table `t` encodes `n` rows. -/
def EncodesRows (plan : Plan) (n t k : Nat) : Prop :=
  ∀ table column, plan.inputs[t]? = some table → table.columns[k]? = some column → column.rowCount = n

/-- The columns `cols` hold the rows on `pages` of the result of `tree`. -/
structure Executed (plan : Plan) (tree : PlanTree) (pages : List (List tree.Row))
    (cols : List ColumnT) : Prop where
  length : cols.length = tree.attrs.length
  size : ∀ page ∈ pages, 0 < page.length ∧ page.length ≤ bufSize
  values : Spreads (tree.cell plan.scanned) pages cols

section Scan

variable {plan : Plan} {t : Nat} {attrs : List (Nat × DataType)} {cols : List ColumnT}

/-- What a completed scan says of each of its columns. -/
theorem executeScan_column (h : executeScan plan ⟨t⟩ attrs = .ok cols) :
    cols.length = attrs.length ∧ ∃ table, plan.inputs[t]? = some table ∧
      ∀ (j : Nat) c, cols[j]? = some c → ∃ attr : Nat × DataType, attrs[j]? = some attr ∧
        scanColumn t table attr.1 = .ok c ∧ plan.scannedColumn t attr.1 = some c := by
  obtain ⟨table, htable, h⟩ := bind_eq_ok.mp h
  rw [index_eq_ok] at htable
  refine ⟨mapM_ok_length h, table, htable, fun j c hc => ?_⟩
  obtain ⟨hj, rfl⟩ := List.getElem?_eq_some_iff.mp hc
  have hj' : j < attrs.length := by rw [← mapM_ok_length h]; exact hj
  have hscan := mapM_ok_getElem h hj' hj
  exact ⟨attrs[j], List.getElem?_eq_getElem hj', hscan,
    Plan.scannedColumn_eq_some.mpr ⟨table, htable, hscan⟩⟩

theorem executed_scan {n : Nat} (hn : ∀ attr ∈ attrs, EncodesRows plan n t attr.1)
    (h : executeScan plan ⟨t⟩ attrs = .ok cols) :
    Executed plan (.scan t attrs) (paged bufSize (List.range n)) cols := by
  obtain ⟨hlen, table, htable, hcols⟩ := executeScan_column h
  refine ⟨hlen, length_of_mem_paged (by decide), fun j c hc => ?_⟩
  obtain ⟨attr, hattr, hscan, hscanned⟩ := hcols j c hc
  obtain ⟨column, type, isNoNull, originalPages, vs, hcolumn, hvs, rfl, -⟩ :=
    scanColumn_ofValues hscan
  have hlen : vs.length = n := by rw [hvs, hn attr (List.mem_of_getElem? hattr) table column htable hcolumn]
  have hvalues : vs.map some = (List.range n).map fun i => vs[i]? := by
    apply List.ext_getElem
    · simp [hlen]
    · intro i hi _
      have hi' : i < vs.length := by simpa using hi
      simp [hi']
  have hcell : ∀ row : Nat, (PlanTree.scan t attrs).cell plan.scanned row j = vs[row]? := by
    intro row
    rw [PlanTree.cell_scan plan.scanned row hattr]
    unfold Plan.scanned
    rw [hscanned, Option.bind_some, ColumnT.values_ofValues]
  rw [ColumnT.grid_ofValues, ← paged_map, hvalues, paged_map]
  apply List.map_congr_left
  intro page _
  apply List.map_congr_left
  intro row _
  exact (hcell row).symm

end Scan

section Join

variable {hashKey : Int32 → BitVec 64} {schedule : JoinSchedule} {plan : Plan} {left right : PlanTree}
  {join : JoinNode} {attrs : List (Nat × DataType)} {l r cols : List ColumnT}

/-- The columns of a completed join: either it ran, or they are as they started. -/
theorem executeHashJoin_cases {leftTypes rightTypes : List (Nat × DataType)}
    (h : executeHashJoin hashKey schedule join leftTypes rightTypes attrs l r = .ok cols) :
    cols = attrs.map (resultColumn l r) ∨
      (⟨join.buildLeft, l, r, join.leftAttr, join.rightAttr, attrs⟩ : JoinAlgorithm).run hashKey
        schedule (attrs.map (resultColumn l r)) = .ok cols := by
  unfold executeHashJoin at h
  dsimp only at h
  obtain ⟨key, -, h⟩ := bind_eq_ok.mp h
  split at h
  · exact .inr h
  · cases h
    exact .inl rfl

theorem executed_join {leftPages : List (List left.Row)} {rightPages : List (List right.Row)}
    (hl : Executed plan left leftPages l) (hr : Executed plan right rightPages r)
    (h : executeHashJoin hashKey schedule join left.attrs right.attrs attrs l r = .ok cols) :
    ∃ pages, Executed plan (.join join.buildLeft left right join.leftAttr join.rightAttr attrs) pages
      cols := by
  rcases executeHashJoin_cases h with rfl | hrun
  · refine ⟨[], by simp [PlanTree.attrs], by simp, fun j c hc => ?_⟩
    obtain ⟨attr, _, rfl⟩ := List.mem_map.mp (List.mem_of_getElem? hc)
    unfold ColumnT.grid
    rw [pages_resultColumn]
    rfl
  · obtain ⟨pages, joined, rfl, hsize, hcols⟩ := JoinAlgorithm.run_completed hl.values hr.values hrun
    refine ⟨pages, by simp [PlanTree.attrs], hsize, fun j c hc => ?_⟩
    rw [List.getElem?_map, Option.map_eq_some_iff] at hc
    obtain ⟨attr, hattr, rfl⟩ := hc
    rw [(hcols attr (List.mem_of_getElem? hattr)).2]
    unfold joinValue
    rw [hl.length]
    apply List.map_congr_left
    intro page _
    apply List.map_congr_left
    intro row _
    exact (PlanTree.cell_join hattr plan.scanned row).symm

end Join

variable {hashKey : Int32 → BitVec 64} {plan : Plan} {schedules : Nat → JoinSchedule}

/-- Every node that completes: pages of 1 to 1024 rows, the same for all its columns. -/
theorem executed_of_ok {n : Nat → Nat} {nodeIdx : Nat} {tree : PlanTree}
    (htree : plan.Unfolds nodeIdx tree) (hn : tree.OnScans fun t k _ => EncodesRows plan (n t) t k)
    {fuel : Nat} {cols : List ColumnT}
    (h : executeImpl hashKey plan schedules fuel nodeIdx = .ok cols) :
    ∃ pages, Executed plan tree pages cols := by
  induction htree generalizing fuel cols with
  | scan hnode => exact ⟨_, executed_scan hn (executeScan_of_ok hnode h)⟩
  | join hnode hleft hright ihl ihr =>
    obtain ⟨fuel', l, r, hl, hr, h⟩ := executeHashJoin_of_ok hnode hleft hright h
    obtain ⟨leftPages, hl⟩ := ihl hn.1 hl
    obtain ⟨rightPages, hr⟩ := ihr hn.2 hr
    exact executed_join hl hr h

end JoinOptimizer
