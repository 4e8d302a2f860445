import JoinOptimizer.Join.Tuples
import JoinOptimizer.Plan.Inputs

/-! What holds of the result of every node of a plan: its columns are aligned, and the references of a
column lead to the pages it keeps. -/

namespace JoinOptimizer

open Lib ValueT PlanTree

section Aligned

variable {plan : Plan} {tree : PlanTree}

/-- The counts of the pages. -/
theorem Executed.count {pages : List (List tree.Row)} {cols : List ColumnT}
    (h : Executed plan tree pages cols) {c : ColumnT} (hc : c ∈ cols) {page : ColumnPage}
    (hpage : page ∈ c.pages) : 1 ≤ page.values.length ∧ page.values.length ≤ bufSize := by
  obtain ⟨j, hj⟩ := List.mem_iff_getElem?.mp hc
  have hmem : page.values.map some ∈ c.grid.map (List.map some) :=
    List.mem_map_of_mem (List.mem_map_of_mem hpage)
  rw [h.values j c hj] at hmem
  obtain ⟨rows, hrows, hsame⟩ := List.mem_map.mp hmem
  have hlen := congrArg List.length hsame
  rw [List.length_map, List.length_map] at hlen
  rw [← hlen]
  exact h.size rows hrows

variable {hashKey : Int32 → BitVec 64} {schedules : Nat → JoinSchedule} {nodeIdx : Nat}

/-- A node whose scans complete completes. -/
theorem executeImpl_total {tables : List Table} (hholding : Holding tables plan.inputs)
    (htree : plan.Unfolds nodeIdx tree) (hwf : tree.WellFormed (tables.map Table.types))
    (hfit : tree.OnScans fun t k _ => OnPages plan IndicesFit t k)
    (hscans : tree.OnScans fun t k _ => ∃ d, plan.scannedColumn t k = some d)
    (hrows : tree.Bounded (seenCell plan.inputs tables) (tableRows tables)) {fuel : Nat}
    (hfuel : tree.height ≤ fuel) :
    ∃ cols, executeImpl hashKey plan schedules fuel nodeIdx = .ok cols := by
  have hdeclared := hwf.onScans
  have hn : tree.OnScans fun t k _ => EncodesRows plan (tableRows tables t) t k :=
    hdeclared.imp fun t k type hdecl => hholding.encodesRows hdecl
  have hreads : tree.OnScans (ScanReads plan (seenCell plan.inputs tables)) := by
    refine ((hdeclared.and hfit).and hscans).imp ?_
    rintro t k type ⟨⟨hdecl, hfit⟩, d, hd⟩
    exact hholding.scanReads hdecl hfit hd
  obtain ⟨cols, pages, hrun, -⟩ := executeImpl_exact hashKey htree hwf hn hreads hrows schedules hfuel
  exact ⟨cols, hrun⟩

end Aligned

/-- What a scan of the base column gives for a base row. -/
def EagerlyScanned (plan : Plan) (t k i : Nat) (x : Int32) : Prop :=
  ∃ table records, plan.inputs[t]? = some table ∧ copyScan table [(k, .INT32)] = .ok records ∧
    records[i]? = some [.int32 x]

/-- A column without NULL holds references to the pages it keeps, where the integers of their base rows
are; any other column holds no reference. -/
structure References (plan : Plan) (tree : PlanTree) (pages : List (List tree.Row)) (j : Nat)
    (c : ColumnT) : Prop where
  refers : c.isNoNull = true → ∀ p s v, c.slot p s = .ok v → ∃ row t k i x,
    rowAt pages p s = some row ∧ tree.source j = some (t, k) ∧ tree.baseRow row j = some i ∧
      RefersTo c.originalPages v x ∧ EagerlyScanned plan t k i x
  others : c.isNoNull = false → ∀ p s v, c.slot p s = .ok v → v.isInt32NoNull = false

section References

variable {tables : List Table} {plan : Plan} {t k : Nat} {type : DataType} {d : ColumnT}

/-- The references that the scan of a column without NULL stores. -/
theorem Holding.scanned_refersTo (h : Holding tables plan.inputs)
    (hdeclared : Declared (tables.map Table.types) t k type) (hfit : OnPages plan IndicesFit t k)
    (hd : plan.scannedColumn t k = some d) (hnull : d.isNoNull = true) {i : Nat} {v : ValueT}
    (hv : d.values[i]? = some v) : ∃ x, RefersTo d.originalPages v x ∧ EagerlyScanned plan t k i x := by
  obtain ⟨ct, table, column, hct, htable, hcolumn, rfl, hcells, hrows⟩ := h.column hdeclared
  obtain ⟨ct', hct', hscan⟩ := Plan.scannedColumn_eq_some.mp hd
  obtain rfl : ct = ct' := Option.some.inj (hct.symm.trans hct')
  obtain ⟨table', htable', -, hholds⟩ := h.get hct
  obtain rfl : table = table' := Option.some.inj (htable.symm.trans htable')
  have hlen : (table.column k).length = ct.numRows := by
    rw [hrows]
    exact List.length_map _
  suffices hx : ∃ x, RefersTo d.originalPages v x ∧ (table.column k)[i]? = some (.int32 x) by
    obtain ⟨x, hrefers, hx⟩ := hx
    refine ⟨x, hrefers, ct, _, hct, copyScan_column hholds hcolumn .INT32, ?_⟩
    unfold Table.column at hx
    rw [List.getElem?_map, Option.map_eq_some_iff] at hx ⊢
    obtain ⟨record, hrecord, hx⟩ := hx
    exact ⟨record, hrecord, by rw [hx]⟩
  have hfit := hfit ct column hct hcolumn
  generalize table.column k = cells at hcells hlen
  cases hcells with
  | int64 _ => exact absurd hdeclared.2 (by simp)
  | fp64 _ => exact absurd hdeclared.2 (by simp)
  | @int32 ps cs hps =>
    rw [List.length_map] at hlen
    rw [scanColumn_int32 hcolumn hps hlen.le] at hscan
    split at hscan
    case isTrue hsome =>
      obtain ⟨vs, rfl, hrefers⟩ := scanNoNull_refersTo hfit hps hsome hscan
      rw [ColumnT.values_ofValues] at hv
      obtain ⟨hi, rfl⟩ := List.getElem?_eq_some_iff.mp hv
      have hi' : i < cs.length := by rw [← hrefers.length_eq]; exact hi
      obtain ⟨x, hx, hrefer⟩ := List.Forall₂.get hrefers hi hi'
      refine ⟨x, by rwa [ColumnT.originalPages_ofValues], ?_⟩
      rw [List.getElem?_map, List.getElem?_eq_getElem hi']
      exact congrArg (fun c => some (int32Type.cell c)) hx
    case isFalse =>
      cases hscan
      rw [ColumnT.isNoNull_ofValues] at hnull
      cases hnull
  | @varchar ps cs hps =>
    rw [List.length_map] at hlen
    obtain ⟨type, vs, -, rfl, -⟩ := scanColumn_varchar hcolumn hps hlen.le hscan
    rw [ColumnT.isNoNull_ofValues] at hnull
    cases hnull

/-- A value that stands for a cell is no reference, unless there are pages to refer to. -/
theorem noReference_of_decodeData {inputs : List ColumnarTable} {v : ValueT} {cell : Data}
    (h : decodeData inputs type [] v = .ok cell) : v.isInt32NoNull = false := by
  by_contra hmode
  rw [Bool.not_eq_false, isInt32NoNull_eq, decide_eq_true_eq] at hmode
  cases type with
  | INT64 => cases h
  | FP64 => cases h
  | INT32 =>
    obtain ⟨o, ho, -⟩ := bind_eq_ok.mp h
    simp [decodeInt32, isInt32_eq, isInt32NoNull_eq, hmode, getInt32ValueFromPage, index, bind,
      Except.bind] at ho
  | VARCHAR =>
    obtain ⟨o, ho, -⟩ := bind_eq_ok.mp h
    simp [decodeVarchar, isNull_eq, isVarchar_eq, hmode] at ho

theorem Holding.scanned_noReference (h : Holding tables plan.inputs)
    (hdeclared : Declared (tables.map Table.types) t k type) (hfit : OnPages plan IndicesFit t k)
    (hd : plan.scannedColumn t k = some d) (hnull : d.isNoNull = false) {i : Nat} {v : ValueT}
    (hv : d.values[i]? = some v) : v.isInt32NoNull = false := by
  obtain ⟨d', hd', -, hreads⟩ := h.scanReads hdeclared hfit hd
  obtain rfl : d = d' := Option.some.inj (hd.symm.trans hd')
  obtain ⟨cell, -, hdecode⟩ := hreads i v hv
  rw [scannedColumn_pages hd hnull] at hdecode
  exact noReference_of_decodeData hdecode

variable {tree : PlanTree} {hashKey : Int32 → BitVec 64} {schedules : Nat → JoinSchedule} {nodeIdx : Nat}

theorem FromSources.references {pages : List (List tree.Row)} {cols : List ColumnT}
    (h : FromSources plan tree cols) (hexecuted : Executed plan tree pages cols)
    (hholding : Holding tables plan.inputs) (hwf : tree.WellFormed (tables.map Table.types))
    (hfit : tree.OnScans fun t k _ => OnPages plan IndicesFit t k) {j : Nat} {c : ColumnT}
    (hc : cols[j]? = some c) : References plan tree pages j c := by
  obtain ⟨t, k, d, hsource, hd, hnull, hpages⟩ := h j c hc
  have hj : j < tree.attrs.length := by
    rw [← hexecuted.length]
    exact (List.getElem?_eq_some_iff.mp hc).1
  obtain ⟨t', k', hsource', hdeclared, hindices⟩ :=
    (hwf.onScans.and hfit).source hwf (List.getElem?_eq_getElem hj)
  obtain ⟨rfl, rfl⟩ : t = t' ∧ k = k' := by simpa [hsource] using hsource'
  have hslot : ∀ p s v, c.slot p s = .ok v → ∃ row i, rowAt pages p s = some row ∧
      tree.baseRow row j = some i ∧ d.values[i]? = some v := by
    intro p s v hv
    obtain ⟨row, hrow, hcell⟩ := Option.bind_eq_some_iff.mp (hexecuted.values.slot hc hv)
    unfold PlanTree.cell at hcell
    rw [hsource, Option.bind_some] at hcell
    obtain ⟨i, hi, hvalue⟩ := Option.bind_eq_some_iff.mp hcell
    unfold Plan.scanned at hvalue
    rw [hd, Option.bind_some] at hvalue
    exact ⟨row, i, hrow, hi, hvalue⟩
  constructor
  · intro hc p s v hv
    obtain ⟨row, i, hrow, hi, hvalue⟩ := hslot p s v hv
    obtain ⟨x, hrefers, hscan⟩ :=
      hholding.scanned_refersTo hdeclared hindices hd (hnull.symm.trans hc) hvalue
    exact ⟨row, t, k, i, x, hrow, hsource, hi, by rwa [hpages], hscan⟩
  · intro hc p s v hv
    obtain ⟨row, i, -, -, hvalue⟩ := hslot p s v hv
    exact hholding.scanned_noReference hdeclared hindices hd (hnull.symm.trans hc) hvalue

/-- The references in every result of a node are valid, and where its scans complete it has a result. -/
theorem executeImpl_references (hholding : Holding tables plan.inputs)
    (htree : plan.Unfolds nodeIdx tree) (hwf : tree.WellFormed (tables.map Table.types))
    (hfit : tree.OnScans fun t k _ => OnPages plan IndicesFit t k) :
    (∀ fuel cols, executeImpl hashKey plan schedules fuel nodeIdx = .ok cols →
      ∃ pages, Executed plan tree pages cols ∧
        ∀ j c, cols[j]? = some c → References plan tree pages j c) ∧
    ((tree.OnScans fun t k _ => ∃ d, plan.scannedColumn t k = some d) →
      tree.Bounded (seenCell plan.inputs tables) (tableRows tables) →
      ∀ fuel, tree.height ≤ fuel →
        ∃ cols, executeImpl hashKey plan schedules fuel nodeIdx = .ok cols) := by
  have hn : tree.OnScans fun t k _ => EncodesRows plan (tableRows tables t) t k :=
    hwf.onScans.imp fun t k type hdecl => hholding.encodesRows hdecl
  constructor
  · intro fuel cols h
    obtain ⟨pages, hexecuted⟩ := executed_of_ok htree hn h
    refine ⟨pages, hexecuted, fun j c hc => ?_⟩
    exact (fromSources_of_ok htree hwf hn h).references hexecuted hholding hwf hfit hc
  · intro hscans hrows fuel hfuel
    exact executeImpl_total hholding htree hwf hfit hscans hrows hfuel

theorem executeImpl_references_sample : ∃ inputs, Encodes [sampleLeft, sampleRight] inputs ∧
    ∃ cols pages, executeImpl (fun _ => 0) (samplePlan inputs) (fun _ => ⟨[3], [], fun _ => 2⟩) 2 2 =
        .ok cols ∧ Executed (samplePlan inputs) sampleTree pages cols ∧
      ∀ j c, cols[j]? = some c → References (samplePlan inputs) sampleTree pages j c := by
  obtain ⟨inputs, hinputs, hlimits, hrows⟩ := sample_inputs
  let hashKey : Int32 → BitVec 64 := fun _ => 0
  let schedules : Nat → JoinSchedule := fun _ => ⟨[3], [], fun _ => 2⟩
  have hfit : sampleTree.OnScans fun t k _ => OnPages (samplePlan inputs) IndicesFit t k :=
    hlimits.imp fun t k _ h ct column hct hcolumn => (h ct column hct hcolumn).indicesFit
  obtain ⟨hreferences, htotal⟩ :=
    @executeImpl_references _ (samplePlan inputs) _ hashKey schedules _ hinputs.holding
      samplePlan_unfolds (by decide) hfit
  obtain ⟨cols, hcols⟩ := htotal (sample_scans hinputs hlimits) hrows 2 (Nat.le_refl 2)
  obtain ⟨pages, hexecuted, hcolumns⟩ := hreferences 2 cols hcols
  exact ⟨inputs, hinputs, cols, pages, hcols, hexecuted, hcolumns⟩

end References

end JoinOptimizer
