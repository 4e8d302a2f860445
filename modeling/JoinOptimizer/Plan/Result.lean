import JoinOptimizer.Plan.Inputs

/-! `execute` as a whole: what its result decodes to, and exactly when that is the naive evaluation of the
plan. -/

namespace JoinOptimizer

open Lib ValueT PlanTree

section Decode

variable {plan : Plan} {types : List (List DataType)} {f : Nat → Nat → Nat → Option Data}
  {n : Nat → Nat} {tree : PlanTree} {pages : List (List tree.Row)} {cols : List ColumnT}

/-- The column that a node's column is copied to holds the cells of the rows. -/
theorem Exact.materialize (h : Exact plan f n tree pages cols) (hwf : tree.WellFormed types)
    (hscans : tree.OnScans (ScanReads plan f)) (fresh : Nat → Page) {j : Nat} {c : ColumnT}
    (hc : cols[j]? = some c) :
    ∃ column, materializeColumn fresh plan.inputs c = .ok column ∧
      column.Holds (pages.flatten.map fun row => (tree.cell f row j).getD .monostate) := by
  have hj : j < tree.attrs.length := by
    rw [← h.executed.length]
    exact (List.getElem?_eq_some_iff.mp hc).1
  have hattr : tree.attrs[j]? = some tree.attrs[j] := List.getElem?_eq_getElem hj
  have hvalues := h.executed.values.spread.values hc
  rcases h.types j c _ hc hattr with htype | ⟨htype, hnil⟩
  · obtain ⟨-, -, -, -, hkind⟩ := hwf.onScans.source hwf hattr
    rcases hkind with hint | hvarchar
    · obtain ⟨cells, hcells, hmap⟩ := mapM_ok_map (f := fun row =>
          decodeInt32 c.originalPages ((tree.cell plan.scanned row j).getD makeNull))
        (g := int32Type.cell) (k := fun row => (tree.cell f row j).getD .monostate) pages.flatten (by
          intro row hrow
          obtain ⟨v, cell, hv, hcell, hdecode⟩ := h.decode hwf hscans hc hattr hrow
          rw [hint] at hdecode
          obtain ⟨o, ho, hdecode⟩ := bind_eq_ok.mp hdecode
          cases hdecode
          rw [hv, hcell]
          exact ⟨o, ho, rfl⟩)
      rw [← hmap]
      exact materializeColumn_int32 fresh plan.inputs (htype.trans hint)
        (by rw [hvalues, List.mapM_map]; exact hcells)
    · obtain ⟨cells, hcells, hmap⟩ := mapM_ok_map (f := fun row =>
          decodeVarchar plan.inputs ((tree.cell plan.scanned row j).getD makeNull))
        (g := varcharCell) (k := fun row => (tree.cell f row j).getD .monostate) pages.flatten (by
          intro row hrow
          obtain ⟨v, cell, hv, hcell, hdecode⟩ := h.decode hwf hscans hc hattr hrow
          rw [hvarchar] at hdecode
          obtain ⟨o, ho, hdecode⟩ := bind_eq_ok.mp hdecode
          cases hdecode
          rw [hv, hcell]
          exact ⟨o, ho, rfl⟩)
      rw [← hmap]
      exact materializeColumn_varchar fresh plan.inputs (htype.trans hvarchar)
        (by rw [hvalues, List.mapM_map]; exact hcells)
  · obtain ⟨column, hrun, hholds⟩ := materializeColumn_int32 fresh plan.inputs htype
      (show c.values.mapM (decodeInt32 c.originalPages) = .ok [] by rw [hnil]; rfl)
    refine ⟨column, hrun, ?_⟩
    rw [hvalues, List.map_eq_nil_iff] at hnil
    rw [hnil]
    exact hholds

/-- The result of a plan decodes to the records of its rows. -/
theorem Exact.result (h : Exact plan f n tree pages cols) (hwf : tree.WellFormed types)
    (hscans : tree.OnScans (ScanReads plan f)) (fresh : Nat → Nat → Page) :
    ∃ result types, toColumnarFromColumn fresh plan.inputs cols = .ok result ∧
      fromColumnar result = .ok ⟨pages.flatten.map (tree.record f), types⟩ := by
  have hlen := h.executed.length
  have hpos : 0 < cols.length := by
    rw [hlen]
    exact List.length_pos_iff.mpr hwf.attrs_ne_nil
  have hcolumn : ∀ j (hj : j < cols.length), ∃ column,
      materializeColumn (fresh j) plan.inputs cols[j] = .ok column ∧
      column.Holds (pages.flatten.map fun row => (tree.cell f row j).getD .monostate) :=
    fun j hj => h.materialize hwf hscans (fresh j) (List.getElem?_eq_getElem hj)
  choose column hrun hholds using hcolumn
  let columns := List.ofFn fun j : Fin cols.length => column j j.isLt
  have hmap : (cols.zipIdx.mapM fun c => materializeColumn (fresh c.2) plan.inputs c.1) =
      .ok columns := by
    rw [mapM_eq_ok_iff, List.forall₂_iff_get]
    refine ⟨by simp [columns], fun j hj _ => ?_⟩
    have hlt : j < cols.length := by simpa using hj
    simpa [columns] using hrun j hlt
  have hrows : (cols[0].grid.map List.length).sum = pages.flatten.length := by
    have hvalues := h.executed.values.spread.values (List.getElem?_eq_getElem hpos)
    rw [← List.length_flatten]
    show cols[0].values.length = _
    rw [hvalues, List.length_map]
  refine ⟨⟨(cols[0].grid.map List.length).sum, columns⟩, columns.map Column.type, ?_, ?_⟩
  · unfold toColumnarFromColumn
    rw [index_of_lt hpos, ok_bind]
    exact bind_eq_ok.mpr ⟨columns, hmap, rfl⟩
  · apply fromColumnar_eq
    · refine ⟨by rw [hrows, List.length_map], (List.length_map ..).symm, fun j hj => ?_⟩
      have hlt : j < cols.length := by simpa [columns] using hj
      refine ⟨(List.getElem_map ..).symm, ?_⟩
      have hcells : (pages.flatten.map (tree.record f)).map (fun record => record.getD j .monostate) =
          pages.flatten.map fun row => (tree.cell f row j).getD .monostate := by
        rw [List.map_map]
        apply List.map_congr_left
        intro row _
        exact getD_record (by omega)
      simp only [hcells]
      simpa [columns] using hholds j hlt
    · intro record hrecord
      obtain ⟨row, _, rfl⟩ := List.mem_map.mp hrecord
      rw [length_record, List.length_map, List.length_ofFn, hlen]

end Decode

section Execute

variable {hashKey : Int32 → BitVec 64} {tables : List Table} {plan : Plan} {tree : PlanTree}
  {schedules : Nat → JoinSchedule} {fuel : Nat}

/-- A node completes only if the scans under it do. -/
theorem scans_of_ok {nodeIdx : Nat} (htree : plan.Unfolds nodeIdx tree) {cols : List ColumnT}
    (h : executeImpl hashKey plan schedules fuel nodeIdx = .ok cols) :
    tree.OnScans fun t k _ => ∃ d, plan.scannedColumn t k = some d := by
  induction htree generalizing fuel cols with
  | scan hnode =>
    obtain ⟨table, htable, h⟩ := bind_eq_ok.mp (executeScan_of_ok hnode h)
    intro attr hattr
    obtain ⟨j, hj⟩ := List.mem_iff_getElem?.mp hattr
    obtain ⟨d, -, hd⟩ := mapM_ok_getElem? h hj
    exact ⟨d, Plan.scannedColumn_eq_some.mpr ⟨table, index_eq_ok.mp htable, hd⟩⟩
  | join hnode hleft hright ihl ihr =>
    obtain ⟨fuel', l, r, hl, hr, -⟩ := executeHashJoin_of_ok hnode hleft hright h
    exact ⟨ihl hl, ihr hr⟩

/-- Where the scans complete, `execute` does, and its result decodes to the records that the naive
evaluation makes of the cells as the scans read them. -/
theorem execute_seen (hinputs : Holding tables plan.inputs) (htree : plan.Unfolds plan.root tree)
    (hwf : tree.WellFormed (tables.map Table.types))
    (hlimits : tree.OnScans fun t k _ => OnPages plan LimitsFit t k)
    (hrows : tree.Bounded (seenCell plan.inputs tables) (tableRows tables))
    (hscans : tree.OnScans fun t k _ => ∃ d, plan.scannedColumn t k = some d)
    (hashKey : Int32 → BitVec 64) (schedules : Nat → JoinSchedule) (fresh : Nat → Nat → Page)
    (hfuel : tree.height ≤ fuel) :
    ∃ result table, execute hashKey fresh plan schedules fuel = .ok result ∧
      fromColumnar result = .ok table ∧ table.data.Perm
        ((tree.rows (seenCell plan.inputs tables) (tableRows tables)).map
          (tree.record (seenCell plan.inputs tables))) := by
  have hdeclared := hwf.onScans
  have hn : tree.OnScans fun t k _ => EncodesRows plan (tableRows tables t) t k :=
    hdeclared.imp fun t k type hdecl => hinputs.encodesRows hdecl
  have hreads : tree.OnScans (ScanReads plan (seenCell plan.inputs tables)) := by
    refine ((hdeclared.and hlimits).and hscans).imp ?_
    rintro t k type ⟨⟨hdecl, hfit⟩, d, hd⟩
    exact hinputs.scanReads hdecl (fun ct column hct hcolumn => (hfit ct column hct hcolumn).indicesFit) hd
  obtain ⟨cols, pages, hrun, hexact⟩ := executeImpl_exact hashKey htree hwf hn hreads hrows schedules hfuel
  obtain ⟨result, types, hresult, hdecoded⟩ := hexact.result hwf hreads fresh
  refine ⟨result, _, ?_, hdecoded, hexact.rows.map _⟩
  unfold execute
  rw [hrun, ok_bind, hresult]

/-- `execute` is the naive evaluation of the plan exactly when the long strings of the scanned columns
are followed, and no row of the naive evaluation takes a key or a cell that a scan misreads. -/
theorem execute_exact_iff (hinputs : Encodes tables plan.inputs) (htree : plan.Unfolds plan.root tree)
    (hwf : tree.WellFormed (tables.map Table.types))
    (hlimits : tree.OnScans fun t k _ => OnPages plan LimitsFit t k)
    (hrows : tree.Bounded (seenCell plan.inputs tables) (tableRows tables))
    (hashKey : Int32 → BitVec 64) (schedules : Nat → JoinSchedule) (fresh : Nat → Nat → Page)
    (hfuel : tree.height ≤ fuel) :
    (∃ result table, execute hashKey fresh plan schedules fuel = .ok result ∧
      fromColumnar result = .ok table ∧ table.data.Perm (tree.naive tables)) ↔
    (tree.OnScans fun t k type => type = .VARCHAR →
      OnPages plan (fun _ _ pages => LongStringsFollowed pages) t k) ∧
    ∀ row ∈ tree.rows (tableCell tables) (tableRows tables), ∀ p ∈ tree.places row,
      ¬ MisreadAt plan.inputs tables p.1 p.2.1 p.2.2 := by
  have hholding := hinputs.holding
  have hfollowed : (tree.OnScans fun t k type => type = .VARCHAR →
      OnPages plan (fun _ _ pages => LongStringsFollowed pages) t k) ↔
      tree.OnScans fun t k _ => ∃ d, plan.scannedColumn t k = some d := by
    have hboth := hwf.onScans.and hlimits
    refine ⟨fun h => (hboth.and h).imp ?_, fun h => (hboth.and h).imp ?_⟩
    · rintro t k type ⟨⟨hdecl, hfit⟩, hfollow⟩
      exact (hholding.completes_iff hdecl hfit).mpr hfollow
    · rintro t k type ⟨⟨hdecl, hfit⟩, hd⟩
      exact (hholding.completes_iff hdecl hfit).mp hd
  have hreread := records_perm_iff (n := tableRows tables) hholding.rereads hwf
  simp only [hholding.agree_iff] at hreread
  rw [hfollowed, naive_eq hwf, ← hreread]
  constructor
  · rintro ⟨result, table, hrun, hdecoded, hperm⟩
    obtain ⟨cols, hcols, -⟩ := bind_eq_ok.mp hrun
    have hscans := scans_of_ok htree hcols
    obtain ⟨result', table', hrun', hdecoded', hperm'⟩ :=
      execute_seen hholding htree hwf hlimits hrows hscans hashKey schedules fresh hfuel
    obtain rfl : result = result' := Except.ok.inj (hrun.symm.trans hrun')
    obtain rfl : table = table' := Except.ok.inj (hdecoded.symm.trans hdecoded')
    exact ⟨hscans, hperm'.symm.trans hperm⟩
  · rintro ⟨hscans, hperm⟩
    obtain ⟨result, table, hrun, hdecoded, hperm'⟩ :=
      execute_seen hholding htree hwf hlimits hrows hscans hashKey schedules fresh hfuel
    exact ⟨result, table, hrun, hdecoded, hperm'.trans hperm⟩

/-- The sample has no strings, and its one negative integer is in no row of the result. -/
theorem execute_exact_iff_sample : ∃ inputs, Encodes [sampleLeft, sampleRight] inputs ∧
    ∃ result table, execute (fun _ => 0) (fun _ _ => ⟨fun _ => 0⟩) (samplePlan inputs)
        (fun _ => ⟨[3], [], fun _ => 2⟩) 2 = .ok result ∧
      fromColumnar result = .ok table ∧ table.data.Perm [[.int32 5, .int32 1]] := by
  obtain ⟨inputs, hinputs, hlimits, hrows⟩ := sample_inputs
  have hfollowed : sampleTree.OnScans fun t k type => type = .VARCHAR →
      OnPages (samplePlan inputs) (fun _ _ pages => LongStringsFollowed pages) t k := by
    simp [sampleTree, OnScans]
  have hsound : ∀ row ∈ sampleTree.rows (tableCell [sampleLeft, sampleRight])
      (tableRows [sampleLeft, sampleRight]), ∀ p ∈ sampleTree.places row,
        ([sampleLeft, sampleRight][p.1]?.bind fun table => (table.column p.2.1)[p.2.2]?).any
          Data.fragile = false := by decide
  have hright : ∀ row ∈ sampleTree.rows (tableCell [sampleLeft, sampleRight])
      (tableRows [sampleLeft, sampleRight]), ∀ p ∈ sampleTree.places row,
        ¬ MisreadAt (samplePlan inputs).inputs [sampleLeft, sampleRight] p.1 p.2.1 p.2.2 := by
    intro row hrow p hp hmisread
    obtain ⟨table, d, htable, hd, hfragile⟩ := misreadAt_fragile hmisread
    have hsafe := hsound row hrow p hp
    rw [htable, Option.bind_some, hd, Option.any_some, hfragile] at hsafe
    cases hsafe
  exact ⟨inputs, hinputs, (execute_exact_iff hinputs samplePlan_unfolds (by decide) hlimits hrows
    (fun _ => 0) (fun _ => ⟨[3], [], fun _ => 2⟩) (fun _ _ => ⟨fun _ => 0⟩) (Nat.le_refl 2)).mpr
      ⟨hfollowed, hright⟩⟩

/-- A negative integer in a column that has a NULL reads as NULL. -/
theorem execute_negative_beside_null :
    let table : Table := ⟨[[.int32 (-1)], [.monostate]], [.INT32]⟩
    let tree : PlanTree := .scan 0 [(0, .INT32)]
    ∃ ct, toColumnar (fun _ _ => ⟨fun _ => 0⟩) table = .ok ct ∧
      ¬ ∃ result decoded, execute (fun _ => 0) (fun _ _ => ⟨fun _ => 0⟩)
          ⟨[⟨.scan ⟨0⟩, [(0, .INT32)]⟩], [ct], 0⟩ (fun _ => ⟨[], [], fun _ => 0⟩) 1 = .ok result ∧
        fromColumnar result = .ok decoded ∧ decoded.data.Perm (tree.naive [table]) := by
  intro table tree
  have htyped : table.WellTyped := by
    simp [table, Table.WellTyped, Data.HasType]
  obtain ⟨ct, hct, hholds, hshape⟩ :=
    toColumnar_shape (fun _ _ => ⟨fun _ => 0⟩) htyped rfl
  refine ⟨ct, hct, ?_⟩
  rintro ⟨result, decoded, hrun, hdecoded, hperm⟩
  let plan : Plan := ⟨[⟨.scan ⟨0⟩, [(0, .INT32)]⟩], [ct], 0⟩
  have hholding : Holding [table] plan.inputs := .cons ⟨htyped, hholds⟩ .nil
  have htree : plan.Unfolds plan.root tree := .scan rfl
  have hlimits : tree.OnScans fun t k _ => OnPages plan LimitsFit t k := by
    intro attr hattr
    obtain rfl := List.mem_singleton.mp hattr
    exact limitsFit_of_shape rfl hshape rfl (by decide) (by decide) (by decide)
  have hscans : tree.OnScans fun t k _ => ∃ d, plan.scannedColumn t k = some d := by
    intro attr hattr
    obtain rfl := List.mem_singleton.mp hattr
    refine (hholding.completes_iff ⟨rfl, .inl rfl⟩ (hlimits _ hattr)).mpr fun hvarchar => ?_
    cases hvarchar
  obtain ⟨column, hcolumns, htype⟩ := List.map_eq_singleton_iff.mp hshape
  have hrecords : (tree.rows (seenCell plan.inputs [table]) (tableRows [table])).map
      (tree.record (seenCell plan.inputs [table])) = [[.monostate], [.monostate]] := by
    obtain ⟨numRows, columns⟩ := ct
    obtain ⟨type, pages⟩ := column
    obtain rfl : columns = [⟨type, pages⟩] := hcolumns
    obtain rfl : type = .INT32 := (Prod.mk.inj htype).1
    rfl
  obtain ⟨result', decoded', hrun', hdecoded', hperm'⟩ := execute_seen hholding htree (by decide)
    hlimits (show 2 < 2 ^ 31 by decide) hscans (fun _ => 0) (fun _ => ⟨[], [], fun _ => 0⟩)
    (fun _ _ => ⟨fun _ => 0⟩) (Nat.le_refl 1)
  obtain rfl : result = result' := Except.ok.inj (hrun.symm.trans hrun')
  obtain rfl : decoded = decoded' := Except.ok.inj (hdecoded.symm.trans hdecoded')
  rw [hrecords] at hperm'
  have hwrong : [[Data.monostate], [.monostate]].Perm (tree.naive [table]) := hperm'.symm.trans hperm
  revert hwrong
  decide

end Execute

end JoinOptimizer
