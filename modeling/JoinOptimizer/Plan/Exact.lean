import JoinOptimizer.Plan.References
import JoinOptimizer.Plan.Naive

/-! The execution of a plan: every node completes, and its rows are those of the naive evaluation over
the base cells as its scans read them. -/

namespace JoinOptimizer

open Lib ValueT JoinAlgorithm

/-- The scan of a base column completes, and its values stand for the cells `f t k`.  A column without
pages leaves the type as it was. -/
def ScanReads (plan : Plan) (f : Nat → Nat → Nat → Option Data) (t k : Nat) (type : DataType) : Prop :=
  ∃ d, plan.scannedColumn t k = some d ∧ (d.type = type ∨ d.type = .INT32 ∧ d.values = []) ∧
    ∀ (i : Nat) v, d.values[i]? = some v →
      ∃ cell, f t k i = some cell ∧ decodeData plan.inputs type d.originalPages v = .ok cell

namespace PlanTree

/-- Every intermediate result has fewer than 2^31 rows. -/
def Bounded (f : Nat → Nat → Nat → Option Data) (n : Nat → Nat) : PlanTree → Prop
  | scan t attrs => ((scan t attrs).rows f n).length < 2 ^ 31
  | join buildLeft left right leftAttr rightAttr attrs =>
      left.Bounded f n ∧ right.Bounded f n ∧
      ((join buildLeft left right leftAttr rightAttr attrs).rows f n).length < 2 ^ 31

variable {f : Nat → Nat → Nat → Option Data} {n : Nat → Nat}

theorem Bounded.length_lt {tree : PlanTree} (h : tree.Bounded f n) : (tree.rows f n).length < 2 ^ 31 := by
  cases tree with
  | scan t attrs => exact h
  | join _ left right _ _ attrs => exact h.2.2

end PlanTree

theorem Spreads.exists_value {ρ : Type} {value : ρ → Nat → Option ValueT} {pages : List (List ρ)}
    {cols : List ColumnT} (h : Spreads value pages cols) {j : Nat} {c : ColumnT}
    (hc : cols[j]? = some c) {r : ρ} (hr : r ∈ pages.flatten) :
    ∃ v, value r j = some v ∧ v ∈ c.values := by
  have hvalues : c.values.map some = pages.flatten.map fun r => value r j := by
    unfold ColumnT.values
    rw [List.map_flatten, List.map_flatten, h j c hc]
  have hmem : value r j ∈ c.values.map some := by
    rw [hvalues]
    exact List.mem_map_of_mem hr
  obtain ⟨v, hv, heq⟩ := List.mem_map.mp hmem
  exact ⟨v, heq.symm, hv⟩

theorem Spreads.spread {ρ : Type} {value : ρ → Nat → Option ValueT} {pages : List (List ρ)}
    {cols : List ColumnT} (h : Spreads value pages cols) :
    Spread (fun r j => (value r j).getD makeNull) pages cols := by
  intro j c hc
  have hgrid := congrArg (List.map (List.map fun v : Option ValueT => v.getD makeNull)) (h j c hc)
  simpa [Function.comp_def] using hgrid

/-- The columns of a node that completed hold its rows, page by page. -/
structure Exact (plan : Plan) (f : Nat → Nat → Nat → Option Data) (n : Nat → Nat) (tree : PlanTree)
    (pages : List (List tree.Row)) (cols : List ColumnT) : Prop where
  executed : Executed plan tree pages cols
  sources : FromSources plan tree cols
  rows : pages.flatten.Perm (tree.rows f n)
  count : pages.length * bufSize ≤ pages.flatten.length + numThreads * bufSize
  types : ∀ (j : Nat) (c : ColumnT) (attr : Nat × DataType), cols[j]? = some c →
    tree.attrs[j]? = some attr → c.type = attr.2 ∨ c.type = .INT32 ∧ c.values = []

namespace Exact

variable {plan : Plan} {types : List (List DataType)} {f : Nat → Nat → Nat → Option Data}
  {n : Nat → Nat} {tree : PlanTree} {pages : List (List tree.Row)} {cols : List ColumnT}

/-- The values of a row stand for its cells. -/
theorem decode (h : Exact plan f n tree pages cols) (hwf : tree.WellFormed types)
    (hscans : tree.OnScans (ScanReads plan f)) {j : Nat} {c : ColumnT} (hc : cols[j]? = some c)
    {attr : Nat × DataType} (hattr : tree.attrs[j]? = some attr) {row : tree.Row}
    (hrow : row ∈ pages.flatten) :
    ∃ v cell, tree.cell plan.scanned row j = some v ∧ tree.cell f row j = some cell ∧
      decodeData plan.inputs attr.2 c.originalPages v = .ok cell := by
  obtain ⟨v, hv, -⟩ := h.executed.values.exists_value hc hrow
  obtain ⟨t, k, hsource, d, hd, -, hreads⟩ := hscans.source hwf hattr
  obtain ⟨t', k', d', hsource', hd', -, hpages⟩ := h.sources j c hc
  obtain ⟨rfl, rfl⟩ : t = t' ∧ k = k' := by simpa [hsource] using hsource'
  obtain rfl : d = d' := by simpa [hd] using hd'
  have hcell := hv
  unfold PlanTree.cell at hcell ⊢
  rw [hsource, Option.bind_some] at hcell ⊢
  obtain ⟨i, hi, hvalue⟩ := Option.bind_eq_some_iff.mp hcell
  unfold Plan.scanned at hvalue
  rw [hd, Option.bind_some] at hvalue
  obtain ⟨cell, hcell', hdecode⟩ := hreads i v hvalue
  refine ⟨v, cell, hcell, ?_, ?_⟩
  · rw [hi, Option.bind_some]
    exact hcell'
  · rw [hpages]
    exact hdecode

theorem placesFit (h : Exact plan f n tree pages cols) (hrows : (tree.rows f n).length < 2 ^ 31) :
    PlacesFit pages := by
  have hcount := h.count
  have hlen := h.rows.length_eq
  rw [show bufSize = 1024 from rfl, show numThreads = 16 from rfl] at hcount
  exact ⟨by omega, by omega⟩

/-- The key of a row. -/
def key (f : Nat → Nat → Nat → Option Data) (tree : PlanTree) (keyCol : Nat) (row : tree.Row) :
    Option Int32 :=
  (tree.cell f row keyCol).bind int32Type.project

theorem decode_key (h : Exact plan f n tree pages cols) (hwf : tree.WellFormed types)
    (hscans : tree.OnScans (ScanReads plan f)) {keyCol : Nat} {c : ColumnT}
    (hc : cols[keyCol]? = some c) (hkey : tree.attrs[keyCol]?.map Prod.snd = some .INT32)
    {row : tree.Row} (hrow : row ∈ pages.flatten) :
    decodeInt32 c.originalPages ((tree.cell plan.scanned row keyCol).getD makeNull) =
        .ok (key f tree keyCol row) ∧
      nonNull (tree.cell f row keyCol) = (key f tree keyCol row).map Data.int32 := by
  obtain ⟨attr, hattr, htype⟩ := Option.map_eq_some_iff.mp hkey
  obtain ⟨v, cell, hv, hcell, hdecode⟩ := h.decode hwf hscans hc hattr hrow
  rw [htype] at hdecode
  obtain ⟨o, ho, hdecode⟩ := bind_eq_ok.mp hdecode
  cases hdecode
  have hproject : int32Type.project (int32Type.cell o) = o := by
    cases o with
    | none => rfl
    | some x => rfl
  unfold key
  rw [hv, hcell, Option.bind_some, hproject]
  refine ⟨ho, ?_⟩
  cases o with
  | none => rfl
  | some x => rfl

theorem operand (h : Exact plan f n tree pages cols) (hwf : tree.WellFormed types)
    (hscans : tree.OnScans (ScanReads plan f)) {keyCol : Nat}
    (hkey : tree.attrs[keyCol]?.map Prod.snd = some .INT32) :
    JoinAlgorithm.Operand (fun row j => (tree.cell plan.scanned row j).getD makeNull) pages cols keyCol
      (key f tree keyCol) where
  spread := h.executed.values.spread
  size page hpage := (h.executed.size page hpage).2
  keys := by
    have hlt : keyCol < cols.length := by
      rw [h.executed.length]
      exact PlanTree.lt_of_declared hkey
    refine ⟨cols[keyCol], List.getElem?_eq_getElem hlt, fun row hrow => ?_⟩
    exact (h.decode_key hwf hscans (List.getElem?_eq_getElem hlt) hkey hrow).1

end Exact

section Steps

variable {hashKey : Int32 → BitVec 64} {plan : Plan} {types : List (List DataType)}
  {f : Nat → Nat → Nat → Option Data} {n : Nat → Nat} {attrs : List (Nat × DataType)}

theorem exact_scan {t : Nat} (hn : ∀ attr ∈ attrs, EncodesRows plan (n t) t attr.1)
    (hwf : (PlanTree.scan t attrs).WellFormed types)
    (hscans : (PlanTree.scan t attrs).OnScans (ScanReads plan f)) :
    ∃ cols pages, executeScan plan ⟨t⟩ attrs = .ok cols ∧
      Exact plan f n (.scan t attrs) pages cols := by
  obtain ⟨attr, hattr⟩ := List.exists_mem_of_ne_nil _ hwf.1
  obtain ⟨d, hd, -⟩ := hscans attr hattr
  obtain ⟨table, htable, -⟩ := Plan.scannedColumn_eq_some.mp hd
  obtain ⟨cols, hcols⟩ := mapM_ok_of_exists (f := fun attr => scanColumn t table attr.1) attrs (by
    intro attr hattr
    obtain ⟨d, hd, -⟩ := hscans attr hattr
    obtain ⟨table', htable', hscan⟩ := Plan.scannedColumn_eq_some.mp hd
    obtain rfl : table = table' := Option.some.inj (htable.symm.trans htable')
    exact ⟨d, hscan⟩)
  have hrun : executeScan plan ⟨t⟩ attrs = .ok cols := by
    unfold executeScan
    dsimp only
    rw [index_eq_ok.mpr htable, ok_bind]
    exact hcols
  refine ⟨cols, _, hrun, executed_scan hn hrun, fromSources_scan hrun, ?_, ?_, ?_⟩
  · rw [flatten_paged]
    exact List.Perm.refl _
  · have hle := length_paged_le (show 0 < bufSize by decide) (List.range (n t))
    rw [flatten_paged]
    exact hle.trans (Nat.add_le_add_left (by decide) _)
  · intro j c attr hc hattr
    obtain ⟨-, table', htable', hcolumn⟩ := executeScan_column hrun
    obtain ⟨attr', hattr', -, hscanned⟩ := hcolumn j c hc
    obtain rfl : attr = attr' := Option.some.inj (hattr.symm.trans hattr')
    obtain ⟨d, hd, htype, -⟩ := hscans attr (List.mem_of_getElem? hattr)
    obtain rfl : c = d := Option.some.inj (hscanned.symm.trans hd)
    exact htype

theorem executeHashJoin_int32 {schedule : JoinSchedule} {join : JoinNode}
    {leftTypes rightTypes : List (Nat × DataType)} {l r : List ColumnT}
    (hkeyL : leftTypes[join.leftAttr]?.map Prod.snd = some .INT32)
    (hkeyR : rightTypes[join.rightAttr]?.map Prod.snd = some .INT32) :
    executeHashJoin hashKey schedule join leftTypes rightTypes attrs l r =
      (⟨join.buildLeft, l, r, join.leftAttr, join.rightAttr, attrs⟩ : JoinAlgorithm).run hashKey
        schedule (attrs.map (resultColumn l r)) := by
  obtain ⟨attrL, hattrL, htypeL⟩ := Option.map_eq_some_iff.mp hkeyL
  obtain ⟨attrR, hattrR, htypeR⟩ := Option.map_eq_some_iff.mp hkeyR
  unfold executeHashJoin
  dsimp only
  split
  · rw [index_eq_ok.mpr hattrL, ok_bind, htypeL]
  · rw [index_eq_ok.mpr hattrR, ok_bind, htypeR]

section Sides

variable {left right : PlanTree} {pagesL : List (List left.Row)} {pagesR : List (List right.Row)}
  {l r : List ColumnT}

/-- A value of a joined row is that of the row of its side. -/
theorem Exact.cell_joined {buildLeft : Bool} {leftAttr rightAttr j : Nat} {attr : Nat × DataType}
    (hl : Exact plan f n left pagesL l) (hr : Exact plan f n right pagesR r)
    (hattr : attrs[j]? = some attr) (hin : attr.1 < left.attrs.length + right.attrs.length)
    {x : left.Row} {y : right.Row} (hx : x ∈ pagesL.flatten) (hy : y ∈ pagesR.flatten) :
    (PlanTree.join buildLeft left right leftAttr rightAttr attrs).cell plan.scanned (some x, some y) j =
      some (if attr.1 < l.length then (left.cell plan.scanned x attr.1).getD makeNull
        else (right.cell plan.scanned y (attr.1 - l.length)).getD makeNull) := by
  have hlenL := hl.executed.length
  have hlenR := hr.executed.length
  rw [PlanTree.cell_join hattr, hlenL]
  split
  case isTrue hside =>
    have hlt : attr.1 < l.length := by omega
    obtain ⟨v, hv, -⟩ := hl.executed.values.exists_value (List.getElem?_eq_getElem hlt) hx
    rw [Option.bind_some, hv]
    rfl
  case isFalse hside =>
    have hlt : attr.1 - left.attrs.length < r.length := by omega
    obtain ⟨v, hv, -⟩ := hr.executed.values.exists_value (List.getElem?_eq_getElem hlt) hy
    rw [Option.bind_some, hv]
    rfl

/-- The keys that the join reads match where the cells do. -/
theorem Exact.equijoin_key {leftAttr rightAttr : Nat} (hl : Exact plan f n left pagesL l)
    (hr : Exact plan f n right pagesR r) (hwfL : left.WellFormed types) (hwfR : right.WellFormed types)
    (hscans : left.OnScans (ScanReads plan f) ∧ right.OnScans (ScanReads plan f))
    (hkeyL : left.attrs[leftAttr]?.map Prod.snd = some .INT32)
    (hkeyR : right.attrs[rightAttr]?.map Prod.snd = some .INT32) :
    equijoin (Exact.key f left leftAttr) (Exact.key f right rightAttr) pagesL.flatten pagesR.flatten =
      equijoin (fun row => nonNull (left.cell f row leftAttr))
        (fun row => nonNull (right.cell f row rightAttr)) pagesL.flatten pagesR.flatten := by
  obtain ⟨cL, hcL, -⟩ := (hl.operand hwfL hscans.1 hkeyL).keys
  obtain ⟨cR, hcR, -⟩ := (hr.operand hwfR hscans.2 hkeyR).keys
  apply equijoin_congr
  intro x hx y hy
  rw [(hl.decode_key hwfL hscans.1 hcL hkeyL hx).2, (hr.decode_key hwfR hscans.2 hcR hkeyR hy).2,
    Option.isSome_map, (Option.map_injective fun _ _ => Data.int32.inj).eq_iff]

end Sides

theorem exact_join {left right : PlanTree} (join : JoinNode)
    (hwf : (PlanTree.join join.buildLeft left right join.leftAttr join.rightAttr attrs).WellFormed types)
    (hscans : left.OnScans (ScanReads plan f) ∧ right.OnScans (ScanReads plan f))
    {pagesL : List (List left.Row)} {pagesR : List (List right.Row)} {l r : List ColumnT}
    (hl : Exact plan f n left pagesL l) (hr : Exact plan f n right pagesR r)
    (hrowsL : (left.rows f n).length < 2 ^ 31) (hrowsR : (right.rows f n).length < 2 ^ 31)
    (schedule : JoinSchedule) :
    ∃ cols pages, executeHashJoin hashKey schedule join left.attrs right.attrs attrs l r = .ok cols ∧
      Exact plan f n (.join join.buildLeft left right join.leftAttr join.rightAttr attrs) pages
        cols := by
  have hrange := hwf.range
  obtain ⟨hwfL, hwfR, -, hsize, hdeclared, hkeyL, hkeyR⟩ := hwf
  have hL := hl.operand hwfL hscans.1 hkeyL
  have hR := hr.operand hwfR hscans.2 hkeyR
  let a : JoinAlgorithm := ⟨join.buildLeft, l, r, join.leftAttr, join.rightAttr, attrs⟩
  have hlenL := hl.executed.length
  have hlenR := hr.executed.length
  obtain ⟨pages, joined, hrun, hperm, hpages, hcount, hcols⟩ := run_spec (a := a) hashKey hL hR
    (by show ∀ attr ∈ attrs, attr.1 < l.length + r.length; rw [hlenL, hlenR]; exact hrange)
    (by split; exacts [hl.placesFit hrowsL, hr.placesFit hrowsR]) schedule
  have hmem : ∀ x ∈ pages.flatten, x.1 ∈ pagesL.flatten ∧ x.2 ∈ pagesR.flatten := by
    rintro ⟨x, y⟩ hx
    obtain ⟨hx, hy, -⟩ := mem_equijoin.mp (hperm.mem_iff.mp hx)
    exact ⟨hx, hy⟩
  refine ⟨attrs.map joined, pages.map (List.map fun x => (some x.1, some x.2)), ?_, ?_, ?_, ?_, ?_, ?_⟩
  · rw [executeHashJoin_int32 hkeyL hkeyR]
    exact hrun
  · refine ⟨by simp [PlanTree.attrs], ?_, ?_⟩
    · intro page hpage
      obtain ⟨page', hpage', rfl⟩ := List.mem_map.mp hpage
      rw [List.length_map]
      exact hpages page' hpage'
    · intro j c hc
      rw [List.getElem?_map, Option.map_eq_some_iff] at hc
      obtain ⟨attr, hattr, rfl⟩ := hc
      rw [(hcols attr).2, List.map_map, List.map_map]
      apply List.map_congr_left
      intro page hpage
      simp only [Function.comp_apply, List.map_map]
      apply List.map_congr_left
      intro x hx
      obtain ⟨hxL, hxR⟩ := hmem x (List.mem_flatten.mpr ⟨page, hpage, hx⟩)
      have hin := hrange attr (List.mem_of_getElem? hattr)
      exact (hl.cell_joined hr hattr hin hxL hxR).symm
  · exact (fromSources_results join.buildLeft join.leftAttr join.rightAttr hl.sources hr.sources
      hlenL hlenR hsize hrange).of_sameOrigin fun attr _ => (hcols attr).1
  · rw [← List.map_flatten]
    refine (hperm.map _).trans ?_
    rw [hl.equijoin_key hr hwfL hwfR hscans hkeyL hkeyR]
    exact (equijoin_perm hl.rows hr.rows).map _
  · rw [List.length_map, ← List.map_flatten, List.length_map]
    exact hcount
  · intro j c attr hc hattr
    rw [List.getElem?_map, Option.map_eq_some_iff] at hc
    obtain ⟨attr', hattr', rfl⟩ := hc
    obtain rfl : attr = attr' := Option.some.inj (hattr.symm.trans hattr')
    exact .inl ((hcols attr).1.type.trans (type_resultColumn l r attr))

/-- Every node of a plan completes, and its columns hold the rows of the naive evaluation over the base
cells as the scans read them. -/
theorem executeImpl_exact (hashKey : Int32 → BitVec 64) {nodeIdx : Nat} {tree : PlanTree}
    (htree : plan.Unfolds nodeIdx tree) (hwf : tree.WellFormed types)
    (hn : tree.OnScans fun t k _ => EncodesRows plan (n t) t k)
    (hscans : tree.OnScans (ScanReads plan f)) (hrows : tree.Bounded f n)
    (schedules : Nat → JoinSchedule) {fuel : Nat} (hfuel : tree.height ≤ fuel) :
    ∃ cols pages, executeImpl hashKey plan schedules fuel nodeIdx = .ok cols ∧
      Exact plan f n tree pages cols := by
  induction htree generalizing fuel with
  | scan hnode =>
    obtain ⟨fuel, rfl⟩ : ∃ m, fuel = m + 1 := ⟨fuel - 1, by simp only [PlanTree.height] at hfuel; omega⟩
    rw [executeImpl_scan hnode]
    exact exact_scan hn hwf hscans
  | join hnode hleft hright ihl ihr =>
    simp only [PlanTree.height] at hfuel
    obtain ⟨fuel, rfl⟩ : ∃ m, fuel = m + 1 := ⟨fuel - 1, by omega⟩
    rw [executeImpl_join hnode hleft hright]
    obtain ⟨l, pagesL, hrunL, hl⟩ := ihl hwf.1 hn.1 hscans.1 hrows.1
      (Nat.le_trans (Nat.le_max_left _ _) (Nat.le_of_succ_le_succ hfuel))
    obtain ⟨r, pagesR, hrunR, hr⟩ := ihr hwf.2.1 hn.2 hscans.2 hrows.2.1
      (Nat.le_trans (Nat.le_max_right _ _) (Nat.le_of_succ_le_succ hfuel))
    rw [hrunL, ok_bind, hrunR, ok_bind]
    exact exact_join ⟨_, _, _, _, _⟩ hwf hscans hl hr hrows.1.length_lt hrows.2.1.length_lt _

end Steps

end JoinOptimizer
