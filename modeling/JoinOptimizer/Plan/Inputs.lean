import JoinOptimizer.Plan.Exact
import JoinOptimizer.Plan.Reread

/-! Inputs that hold tables: what the scans of their columns read, and which cells they misread. -/

namespace JoinOptimizer

open Lib ValueT PlanTree

/-- The inputs hold well-typed tables. -/
def Holding (tables : List Table) (inputs : List ColumnarTable) : Prop :=
  List.Forall₂ (fun table ct => table.WellTyped ∧ ct.Holds table) tables inputs

/-- The inputs are what `to_columnar` makes of well-typed tables. -/
def Encodes (tables : List Table) (inputs : List ColumnarTable) : Prop :=
  List.Forall₂ (fun table ct => table.WellTyped ∧ ∃ fresh, toColumnar fresh table = .ok ct) tables inputs

theorem Encodes.holding {tables : List Table} {inputs : List ColumnarTable}
    (h : Encodes tables inputs) : Holding tables inputs := by
  refine h.imp fun table ct ⟨htyped, fresh, hrun⟩ => ⟨htyped, ?_⟩
  obtain ⟨ct', hct', hholds⟩ := toColumnar_holds fresh htyped
  obtain rfl : ct = ct' := Except.ok.inj (hrun.symm.trans hct')
  exact hholds

/-- The cells of the tables as the scans of the inputs read them. -/
def seenCell (inputs : List ColumnarTable) (tables : List Table) (t k i : Nat) : Option Data :=
  inputs[t]?.bind fun ct => ct.columns[k]?.bind fun column => tables[t]?.bind fun table =>
    (column.seen (table.column k))[i]?

/-- The cell of a table that the scan of the inputs misreads. -/
def MisreadAt (inputs : List ColumnarTable) (tables : List Table) (t k i : Nat) : Prop :=
  ∃ ct column table, inputs[t]? = some ct ∧ ct.columns[k]? = some column ∧ tables[t]? = some table ∧
    column.Misread (table.column k) i

/-- Only a negative integer or an empty string is misread. -/
theorem misreadAt_fragile {inputs : List ColumnarTable} {tables : List Table} {t k i : Nat}
    (h : MisreadAt inputs tables t k i) :
    ∃ table d, tables[t]? = some table ∧ (table.column k)[i]? = some d ∧ d.fragile = true := by
  obtain ⟨ct, column, table, -, -, htable, hmisread⟩ := h
  unfold Column.Misread at hmisread
  split at hmisread
  · obtain ⟨-, value, hvalue, hneg⟩ := hmisread
    exact ⟨table, .int32 value, htable, hvalue, decide_eq_true hneg⟩
  · exact ⟨table, .string [], htable, hmisread.1, rfl⟩
  · exact hmisread.elim

section Holding

variable {tables : List Table} {inputs : List ColumnarTable}

theorem Holding.get (h : Holding tables inputs) {t : Nat} {ct : ColumnarTable}
    (hct : inputs[t]? = some ct) :
    ∃ table, tables[t]? = some table ∧ table.WellTyped ∧ ct.Holds table := by
  obtain ⟨ht, rfl⟩ := List.getElem?_eq_some_iff.mp hct
  have ht' : t < tables.length := by rw [h.length_eq]; exact ht
  exact ⟨tables[t], List.getElem?_eq_getElem ht', List.Forall₂.get h ht' ht⟩

theorem Holding.get_none (h : Holding tables inputs) {t : Nat} (hct : inputs[t]? = none) :
    tables[t]? = none := by
  rw [List.getElem?_eq_none_iff] at hct ⊢
  rw [h.length_eq]
  exact hct

theorem tableCell_eq {t k i : Nat} {table : Table} (ht : tables[t]? = some table)
    (htyped : table.WellTyped) :
    tableCell tables t k i = if k < table.types.length then (table.column k)[i]? else none := by
  unfold tableCell Table.column
  rw [ht, Option.bind_some, List.getElem?_map]
  cases hrecord : table.data[i]? with
  | none => simp
  | some record =>
    have hlen := (htyped record (List.mem_of_getElem? hrecord)).length_eq
    simp only [Option.bind_some, Option.map_some, List.getD_eq_getElem?_getD]
    split
    case isTrue hk =>
      rw [List.getElem?_eq_getElem (by omega)]
      rfl
    case isFalse hk => exact List.getElem?_eq_none_iff.mpr (by omega)

/-- How the scans read a cell of a table: as it is, unless they misread it. -/
theorem Holding.reads (h : Holding tables inputs) (t k i : Nat) :
    ¬ MisreadAt inputs tables t k i ∧ seenCell inputs tables t k i = tableCell tables t k i ∨
      MisreadAt inputs tables t k i ∧ ∃ type d e, ((tables.map Table.types)[t]?.bind (·[k]?)) = some type ∧
        tableCell tables t k i = some d ∧ seenCell inputs tables t k i = some e ∧ d.LostAs type e := by
  unfold seenCell MisreadAt
  cases hct : inputs[t]? with
  | none =>
    refine .inl ⟨by simp, ?_⟩
    unfold tableCell
    rw [h.get_none hct]
    rfl
  | some ct =>
    obtain ⟨table, htable, htyped, hholds⟩ := h.get hct
    rw [tableCell_eq htable htyped]
    cases hcolumn : ct.columns[k]? with
    | none =>
      have hk : ¬ k < table.types.length := by
        rw [← hholds.width]
        exact Nat.not_lt.mpr (List.getElem?_eq_none_iff.mp hcolumn)
      exact .inl ⟨by simp [hcolumn], by simp [hk, hcolumn]⟩
    | some column =>
      obtain ⟨htype, hcells⟩ := hholds.get hcolumn
      have hk := (List.getElem?_eq_some_iff.mp htype).1
      rw [if_pos hk, htable]
      have hmisread : (∃ ct' column' table', some ct = some ct' ∧ ct'.columns[k]? = some column' ∧
          some table = some table' ∧ column'.Misread (table'.column k) i) ↔
          column.Misread (table.column k) i := by
        constructor
        · rintro ⟨ct', column', table', hct', hcolumn', htable', hmis⟩
          cases hct'
          cases htable'
          rw [hcolumn] at hcolumn'
          cases hcolumn'
          exact hmis
        · intro hmis
          exact ⟨ct, column, table, rfl, hcolumn, rfl, hmis⟩
      rw [hmisread]
      simp only [Option.bind_some, hcolumn]
      rcases hcells.reads i with ⟨hright, hsame⟩ | ⟨hmis, d, e, hd, he, hlost⟩
      · exact .inl ⟨hright, hsame⟩
      · refine .inr ⟨hmis, column.type, d, e, ?_, hd, he, hlost⟩
        rw [List.getElem?_map, htable]
        exact htype

theorem Holding.rereads (h : Holding tables inputs) :
    Rereads (tables.map Table.types) (seenCell inputs tables) (tableCell tables) := by
  intro t k type i htype
  rcases h.reads t k i with ⟨-, hsame⟩ | ⟨-, type', d, e, htype', hd, he, hlost⟩
  · exact .inl hsame
  · obtain rfl : type = type' := Option.some.inj (htype.symm.trans htype')
    exact .inr ⟨d, e, hd, he, hlost⟩

theorem Holding.agree_iff (h : Holding tables inputs) {places : List (Nat × Nat × Nat)} :
    agree (seenCell inputs tables) (tableCell tables) places = true ↔
      ∀ p ∈ places, ¬ MisreadAt inputs tables p.1 p.2.1 p.2.2 := by
  unfold agree
  rw [List.all_eq_true]
  refine forall₂_congr fun p _ => ?_
  simp only [beq_iff_eq]
  rcases h.reads p.1 p.2.1 p.2.2 with ⟨hright, hsame⟩ | ⟨hmis, type, d, e, -, hd, he, hlost⟩
  · exact ⟨fun _ => hright, fun _ => hsame⟩
  · refine ⟨fun hsame => ?_, fun hright => absurd hmis hright⟩
    rw [hd, he] at hsame
    obtain rfl := Option.some.inj hsame
    have := hlost.before
    rw [hlost.after] at this
    cases this

end Holding

section Scans

variable {tables : List Table} {plan : Plan} {t k : Nat} {type : DataType}

/-- A base column of a declared type. -/
theorem Holding.column (h : Holding tables plan.inputs)
    (hdeclared : Declared (tables.map Table.types) t k type) :
    ∃ ct table column, plan.inputs[t]? = some ct ∧ tables[t]? = some table ∧
      ct.columns[k]? = some column ∧ column.type = type ∧ column.Holds (table.column k) ∧
      ct.numRows = table.data.length := by
  obtain ⟨types, htypes, htype⟩ := Option.bind_eq_some_iff.mp hdeclared.1
  rw [List.getElem?_map, Option.map_eq_some_iff] at htypes
  obtain ⟨table, htable, rfl⟩ := htypes
  cases hct : plan.inputs[t]? with
  | none =>
    rw [h.get_none hct] at htable
    cases htable
  | some ct =>
    obtain ⟨table', htable', -, hholds⟩ := h.get hct
    obtain rfl : table = table' := Option.some.inj (htable.symm.trans htable')
    have hk : k < ct.columns.length := by
      rw [hholds.width]
      exact (List.getElem?_eq_some_iff.mp htype).1
    have hcolumn : ct.columns[k]? = some ct.columns[k] := List.getElem?_eq_getElem hk
    obtain ⟨htype', hcells⟩ := hholds.get hcolumn
    exact ⟨ct, table, _, rfl, htable, hcolumn, Option.some.inj (htype'.symm.trans htype), hcells,
      hholds.numRows⟩

theorem Holding.encodesRows (h : Holding tables plan.inputs)
    (hdeclared : Declared (tables.map Table.types) t k type) :
    EncodesRows plan (tableRows tables t) t k := by
  obtain ⟨ct, table, column, hct, htable, hcolumn, htype, hcells, -⟩ := h.column hdeclared
  intro ct' column' hct' hcolumn'
  obtain rfl : ct = ct' := Option.some.inj (hct.symm.trans hct')
  obtain rfl : column = column' := Option.some.inj (hcolumn.symm.trans hcolumn')
  rw [hcells.rowCount (by rw [htype]; exact hdeclared.2)]
  unfold tableRows Table.column
  rw [htable, List.length_map]
  rfl

/-- What holds of the pages of a base column. -/
def OnPages (plan : Plan) (P : Nat → Nat → List Page → Prop) (t k : Nat) : Prop :=
  ∀ ct column, plan.inputs[t]? = some ct → ct.columns[k]? = some column → P t k column.pages

/-- A scan that completes reads the cells of its column. -/
theorem Holding.scanReads (h : Holding tables plan.inputs)
    (hdeclared : Declared (tables.map Table.types) t k type) (hfit : OnPages plan IndicesFit t k)
    {d : ColumnT} (hd : plan.scannedColumn t k = some d) :
    ScanReads plan (seenCell plan.inputs tables) t k type := by
  obtain ⟨ct, table, column, hct, htable, hcolumn, rfl, hcells, hrows⟩ := h.column hdeclared
  obtain ⟨ct', hct', hscan⟩ := Plan.scannedColumn_eq_some.mp hd
  obtain rfl : ct = ct' := Option.some.inj (hct.symm.trans hct')
  have hfit := hfit ct column hct hcolumn
  have hseen : ∀ i, seenCell plan.inputs tables t k i = (column.seen (table.column k))[i]? := by
    intro i
    unfold seenCell
    rw [hct, Option.bind_some, hcolumn, Option.bind_some, htable, Option.bind_some]
  have hlen : (table.column k).length = ct.numRows := by
    rw [hrows]
    exact List.length_map _
  have htype : column.type = .INT32 ∨ column.type = .VARCHAR := hdeclared.2
  obtain ⟨htype', hdecode⟩ := hcells.scan_seen hcolumn hlen htype (fun _ => hct) (.inr hfit) hscan
  refine ⟨d, hd, htype', fun i v hv => ?_⟩
  rw [hseen]
  exact mapM_ok_getElem? hdecode hv

/-- Inside the limits, a scan completes exactly when the long strings of its column are followed. -/
theorem Holding.completes_iff (h : Holding tables plan.inputs)
    (hdeclared : Declared (tables.map Table.types) t k type) (hlimits : OnPages plan LimitsFit t k) :
    (∃ d, plan.scannedColumn t k = some d) ↔
      (type = .VARCHAR → OnPages plan (fun _ _ pages => LongStringsFollowed pages) t k) := by
  obtain ⟨ct, table, column, hct, htable, hcolumn, rfl, hcells, hrows⟩ := h.column hdeclared
  have hfit := hlimits ct column hct hcolumn
  have hpages : ∀ P : Nat → Nat → List Page → Prop, OnPages plan P t k ↔ P t k column.pages := by
    intro P
    refine ⟨fun hP => hP ct column hct hcolumn, fun hP ct' column' hct' hcolumn' => ?_⟩
    obtain rfl : ct = ct' := Option.some.inj (hct.symm.trans hct')
    obtain rfl : column = column' := Option.some.inj (hcolumn.symm.trans hcolumn')
    exact hP
  have hscan : (∃ d, plan.scannedColumn t k = some d) ↔ ∃ d, scanColumn t ct k = .ok d := by
    refine exists_congr fun d => ?_
    rw [Plan.scannedColumn_eq_some]
    refine ⟨fun ⟨ct', hct', hd⟩ => ?_, fun hd => ⟨ct, hct, hd⟩⟩
    obtain rfl : ct = ct' := Option.some.inj (hct.symm.trans hct')
    exact hd
  have hlen : (table.column k).length = ct.numRows := by
    rw [hrows]
    exact List.length_map _
  rw [hpages, hscan]
  generalize table.column k = cells at hcells hlen
  cases hcells with
  | int64 _ => exact absurd hdeclared.2 (by simp)
  | fp64 _ => exact absurd hdeclared.2 (by simp)
  | int32 hps =>
    rw [List.length_map] at hlen
    exact ⟨nofun, fun _ => scanInt32_total (fun _ => hfit) hcolumn hps hlen.le⟩
  | @varchar ps cs hps =>
    rw [List.length_map] at hlen
    constructor
    · rintro ⟨d, hd⟩ -
      obtain ⟨type, vs, hvarchar, -, -⟩ := scanColumn_varchar hcolumn hps hlen.le hd
      have hindices := hfit.indicesFit
      intro i p hp hmark
      exact hvarchar.followed hindices.pages hindices.table hindices.column rfl i p (Nat.zero_le i) hp hmark
    · intro hfollow
      exact scanColumn_varchar_total hcolumn hps hlen.le hfit (hfollow rfl)

end Scans

section Sample

/-- The types and the numbers of pages of the columns that `to_columnar` makes. -/
theorem toColumnar_shape (fresh : Nat → Nat → Page) {table : Table} (htyped : table.WellTyped)
    {shape : List (DataType × Nat)} (hshape : ((toColumnar fresh table).toOption.map fun ct =>
      ct.columns.map fun c => (c.type, c.pages.length)) = some shape) :
    ∃ ct, toColumnar fresh table = .ok ct ∧ ct.Holds table ∧
      ct.columns.map (fun c => (c.type, c.pages.length)) = shape := by
  obtain ⟨ct, hct, hholds⟩ := toColumnar_holds fresh htyped
  rw [hct] at hshape
  exact ⟨ct, hct, hholds, Option.some.inj hshape⟩

theorem limitsFit_of_shape {plan : Plan} {t k n : Nat} {ct : ColumnarTable} {type : DataType}
    {shape : List (DataType × Nat)} (hct : plan.inputs[t]? = some ct)
    (hshape : ct.columns.map (fun c => (c.type, c.pages.length)) = shape)
    (hk : shape[k]? = some (type, n)) (ht : t < 32) (hk' : k < 2 ^ 15) (hn : n ≤ 2 ^ 26) :
    OnPages plan LimitsFit t k := by
  intro ct' column hct' hcolumn
  obtain rfl : ct = ct' := Option.some.inj (hct.symm.trans hct')
  rw [← hshape, List.getElem?_map, hcolumn] at hk
  obtain ⟨-, rfl⟩ := Prod.mk.inj (Option.some.inj hk)
  exact ⟨ht, hk', hn⟩

/-- Two tables to join on their first columns. -/
def sampleLeft : Table := ⟨[[.int32 1, .int32 5], [.int32 (-2), .monostate]], [.INT32, .INT32]⟩

def sampleRight : Table := ⟨[[.int32 1], [.monostate]], [.INT32]⟩

def sampleTree : PlanTree :=
  .join false (.scan 0 [(1, .INT32), (0, .INT32)]) (.scan 1 [(0, .INT32)]) 1 0 [(0, .INT32), (1, .INT32)]

def samplePlan (inputs : List ColumnarTable) : Plan where
  nodes := [⟨.scan ⟨0⟩, [(1, .INT32), (0, .INT32)]⟩, ⟨.scan ⟨1⟩, [(0, .INT32)]⟩,
    ⟨.join ⟨false, 0, 1, 1, 0⟩, [(0, .INT32), (1, .INT32)]⟩]
  inputs := inputs
  root := 2

theorem samplePlan_unfolds {inputs : List ColumnarTable} : (samplePlan inputs).Unfolds 2 sampleTree :=
  .join rfl (.scan rfl) (.scan rfl)

theorem sample_inputs : ∃ inputs, Encodes [sampleLeft, sampleRight] inputs ∧
    (sampleTree.OnScans fun t k _ => OnPages (samplePlan inputs) LimitsFit t k) ∧
    sampleTree.Bounded (seenCell inputs [sampleLeft, sampleRight])
      (tableRows [sampleLeft, sampleRight]) := by
  have htypedL : sampleLeft.WellTyped := by
    simp [sampleLeft, Table.WellTyped, Data.HasType]
  have htypedR : sampleRight.WellTyped := by
    simp [sampleRight, Table.WellTyped, Data.HasType]
  obtain ⟨l, hl, -, hshapeL⟩ := toColumnar_shape (fun _ _ => ⟨fun _ => 0⟩) htypedL rfl
  obtain ⟨r, hr, -, hshapeR⟩ := toColumnar_shape (fun _ _ => ⟨fun _ => 0⟩) htypedR rfl
  refine ⟨[l, r], .cons ⟨htypedL, _, hl⟩ (.cons ⟨htypedR, _, hr⟩ .nil), ?_, ?_⟩
  · constructor
    · intro attr hattr
      rcases List.mem_cons.mp hattr with rfl | hattr
      · exact limitsFit_of_shape rfl hshapeL rfl (by decide) (by decide) (by decide)
      · obtain rfl := List.mem_singleton.mp hattr
        exact limitsFit_of_shape rfl hshapeL rfl (by decide) (by decide) (by decide)
    · intro attr hattr
      obtain rfl := List.mem_singleton.mp hattr
      exact limitsFit_of_shape rfl hshapeR rfl (by decide) (by decide) (by decide)
  · refine ⟨show 2 < 2 ^ 31 by decide, show 2 < 2 ^ 31 by decide, ?_⟩
    apply Nat.lt_of_le_of_lt (List.length_map _ |>.le.trans (List.length_filter_le _ _))
    exact show 4 < 2 ^ 31 by decide

/-- The scans under the sample plan complete: none of them reads strings. -/
theorem sample_scans {inputs : List ColumnarTable} (h : Encodes [sampleLeft, sampleRight] inputs)
    (hlimits : sampleTree.OnScans fun t k _ => OnPages (samplePlan inputs) LimitsFit t k) :
    sampleTree.OnScans fun t k _ => ∃ d, (samplePlan inputs).scannedColumn t k = some d := by
  have hwf : sampleTree.WellFormed ([sampleLeft, sampleRight].map Table.types) := by decide
  have hint : sampleTree.OnScans fun _ _ type => type = .INT32 := by
    simp [sampleTree, OnScans]
  refine ((hwf.onScans.and hlimits).and hint).imp ?_
  rintro t k type ⟨⟨hdecl, hfit⟩, rfl⟩
  have hholding : Holding [sampleLeft, sampleRight] (samplePlan inputs).inputs := h.holding
  exact (hholding.completes_iff hdecl hfit).mpr nofun

end Sample

end JoinOptimizer
