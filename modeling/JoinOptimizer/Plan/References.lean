import JoinOptimizer.Plan.Aligned
import JoinOptimizer.Store.Seen

/-! References to the pages of base columns in the results of a plan: each result column keeps the
`original_pages` of its base column, and its references lead to the values of their base rows. -/

namespace JoinOptimizer

open Lib ValueT JoinAlgorithm

/-- A result column starts as the column that its attribute names; the wrapped index of a column on
the left lies behind the columns on the right. -/
theorem resultColumn_eq {left right : List ColumnT} {attr : Nat × DataType} {c : ColumnT}
    (hsize : left.length + right.length < 2 ^ 64) (hc : (left ++ right)[attr.1]? = some c)
    (hpages : c.isNoNull = false → c.originalPages = []) :
    resultColumn left right attr = ⟨attr.2, [], c.isNoNull, c.originalPages⟩ := by
  unfold resultColumn resultColumn.resultRight
  by_cases hside : attr.1 < left.length
  · rw [List.getElem?_append_left hside] at hc
    have hwrap : right[(attr.1 + (2 ^ 64 - left.length)) % 2 ^ 64]? = none := by
      rw [List.getElem?_eq_none_iff]
      omega
    rw [hc, hwrap]
    cases hnull : c.isNoNull with
    | true => simp [hnull]
    | false => simp [hnull, hpages hnull]
  · have hrange := (List.getElem?_eq_some_iff.mp hc).1
    rw [List.length_append] at hrange
    rw [List.getElem?_append_right (by omega)] at hc
    have hleft : left[attr.1]? = none := List.getElem?_eq_none_iff.mpr (by omega)
    have hindex : (attr.1 + (2 ^ 64 - left.length)) % 2 ^ 64 = attr.1 - left.length := by omega
    rw [hleft, hindex, hc]
    cases hnull : c.isNoNull with
    | true => simp [hnull]
    | false => simp [hnull, hpages hnull]

/-- Each column keeps the flag and the pages of its base column as the scan leaves it. -/
def FromSources (plan : Plan) (tree : PlanTree) (cols : List ColumnT) : Prop :=
  ∀ j c, cols[j]? = some c → ∃ t k d, tree.source j = some (t, k) ∧
    plan.scannedColumn t k = some d ∧ c.isNoNull = d.isNoNull ∧ c.originalPages = d.originalPages

theorem scannedColumn_pages {plan : Plan} {t k : Nat} {d : ColumnT}
    (h : plan.scannedColumn t k = some d) : d.isNoNull = false → d.originalPages = [] := by
  obtain ⟨table, -, h⟩ := Plan.scannedColumn_eq_some.mp h
  obtain ⟨_, _, _, _, _, _, _, rfl, hpages⟩ := scanColumn_ofValues h
  simpa using hpages

section Sources

variable {hashKey : Int32 → BitVec 64} {plan : Plan} {left right : PlanTree}
  {attrs : List (Nat × DataType)} {l r cols : List ColumnT}

theorem fromSources_scan {t : Nat} (h : executeScan plan ⟨t⟩ attrs = .ok cols) :
    FromSources plan (.scan t attrs) cols := by
  intro j c hc
  obtain ⟨-, table, -, hcols⟩ := executeScan_column h
  obtain ⟨attr, hattr, -, hscanned⟩ := hcols j c hc
  refine ⟨t, attr.1, c, ?_, hscanned, rfl, rfl⟩
  show attrs[j]?.map _ = _
  rw [hattr]
  rfl

/-- The columns that the results of a join start as. -/
theorem fromSources_results (buildLeft : Bool) (leftAttr rightAttr : Nat)
    (hl : FromSources plan left l) (hr : FromSources plan right r)
    (hlenL : l.length = left.attrs.length) (hlenR : r.length = right.attrs.length)
    (hsize : left.attrs.length + right.attrs.length < 2 ^ 64)
    (hrange : ∀ attr ∈ attrs, attr.1 < left.attrs.length + right.attrs.length) :
    FromSources plan (.join buildLeft left right leftAttr rightAttr attrs)
      (attrs.map (resultColumn l r)) := by
  intro j c hc
  rw [List.getElem?_map, Option.map_eq_some_iff] at hc
  obtain ⟨attr, hattr, rfl⟩ := hc
  have hin := hrange attr (List.mem_of_getElem? hattr)
  rw [PlanTree.source_join hattr]
  have hfrom : ∀ d, (l ++ r)[attr.1]? = some d → ∀ t k e, plan.scannedColumn t k = some e →
      d.isNoNull = e.isNoNull → d.originalPages = e.originalPages →
      (resultColumn l r attr).isNoNull = e.isNoNull ∧
        (resultColumn l r attr).originalPages = e.originalPages := by
    intro d hd t k e he hnull hpages
    rw [resultColumn_eq (by omega) hd (by rw [hnull, hpages]; exact scannedColumn_pages he)]
    exact ⟨hnull, hpages⟩
  split
  case isTrue hside =>
    have hlt : attr.1 < l.length := by omega
    have hget : l[attr.1]? = some l[attr.1] := List.getElem?_eq_getElem hlt
    obtain ⟨t, k, e, hsource, he, hnull, hpages⟩ := hl _ _ hget
    refine ⟨t, k, e, hsource, he, hfrom _ ?_ t k e he hnull hpages⟩
    rw [List.getElem?_append_left (by omega), hget]
  case isFalse hside =>
    have hlt : attr.1 - left.attrs.length < r.length := by omega
    have hget : r[attr.1 - left.attrs.length]? = some r[attr.1 - left.attrs.length] :=
      List.getElem?_eq_getElem hlt
    obtain ⟨t, k, e, hsource, he, hnull, hpages⟩ := hr _ _ hget
    refine ⟨t, k, e, hsource, he, hfrom _ ?_ t k e he hnull hpages⟩
    rw [List.getElem?_append_right (by omega), hlenL, hget]

theorem FromSources.of_sameOrigin {tree : PlanTree} {f g : Nat × DataType → ColumnT}
    (h : FromSources plan tree (attrs.map g)) (hfg : ∀ attr ∈ attrs, SameOrigin (f attr) (g attr)) :
    FromSources plan tree (attrs.map f) := by
  intro j c hc
  rw [List.getElem?_map, Option.map_eq_some_iff] at hc
  obtain ⟨attr, hattr, rfl⟩ := hc
  obtain ⟨t, k, d, hsource, hd, hnull, hpages⟩ := h j (g attr) (by rw [List.getElem?_map, hattr]; rfl)
  have hsame := hfg attr (List.mem_of_getElem? hattr)
  exact ⟨t, k, d, hsource, hd, hsame.isNoNull.trans hnull, hsame.originalPages.trans hpages⟩

end Sources

variable {hashKey : Int32 → BitVec 64} {plan : Plan} {schedules : Nat → JoinSchedule}

theorem fromSources_of_ok {n : Nat → Nat} {types : List (List DataType)} {nodeIdx : Nat}
    {tree : PlanTree} (htree : plan.Unfolds nodeIdx tree) (hwf : tree.WellFormed types)
    (hn : tree.OnScans fun t k _ => EncodesRows plan (n t) t k) {fuel : Nat} {cols : List ColumnT}
    (h : executeImpl hashKey plan schedules fuel nodeIdx = .ok cols) : FromSources plan tree cols := by
  induction htree generalizing fuel cols with
  | scan hnode => exact fromSources_scan (executeScan_of_ok hnode h)
  | @join _ _ _ leftAttr rightAttr buildLeft _ _ _ hnode hleft hright ihl ihr =>
    obtain ⟨fuel', l, r, hl, hr, h⟩ := executeHashJoin_of_ok hnode hleft hright h
    have hrange := hwf.range
    obtain ⟨hwfL, hwfR, -, hsize, -, -, -⟩ := hwf
    obtain ⟨leftPages, hexecL⟩ := executed_of_ok hleft hn.1 hl
    obtain ⟨rightPages, hexecR⟩ := executed_of_ok hright hn.2 hr
    have hresults := fromSources_results buildLeft leftAttr rightAttr (ihl hwfL hn.1 hl) (ihr hwfR hn.2 hr)
      hexecL.length hexecR.length hsize hrange
    rcases executeHashJoin_cases h with rfl | hrun
    · exact hresults
    · obtain ⟨pages, joined, rfl, -, hcols⟩ :=
        JoinAlgorithm.run_completed hexecL.values hexecR.values hrun
      exact hresults.of_sameOrigin fun attr hattr => (hcols attr hattr).1

end JoinOptimizer
