import JoinOptimizer.Join.Run

/-! What a completed join leaves, whatever its hash table answered: each match adds to every result
column the value at one place of the left side or at one place of the right side. -/

namespace JoinOptimizer

open Lib

/-- The columns `cols` hold the values of the rows on `pages`, where each of these rows has one. -/
def Spreads {ρ : Type} (value : ρ → Nat → Option ValueT) (pages : List (List ρ))
    (cols : List ColumnT) : Prop :=
  ∀ j c, cols[j]? = some c →
    c.grid.map (List.map some) = pages.map (List.map fun r => value r j)

theorem Spreads.slot {ρ : Type} {value : ρ → Nat → Option ValueT} {pages : List (List ρ)}
    {cols : List ColumnT} (h : Spreads value pages cols) {j : Nat} {c : ColumnT}
    (hc : cols[j]? = some c) {p s : Nat} {v : ValueT} (hv : c.slot p s = .ok v) :
    (rowAt pages p s).bind (value · j) = some v := by
  have hrow : rowAt c.grid p s = some v := rowAt_eq_some.mpr (ColumnT.slot_eq_ok.mp hv)
  have hmaps : (rowAt c.grid p s).map some = (rowAt pages p s).map fun r => value r j := by
    rw [← rowAt_map, ← rowAt_map, h j c hc]
  rw [hrow] at hmaps
  cases hr : rowAt pages p s with
  | none => simp [hr] at hmaps
  | some r => simpa [hr, eq_comm] using hmaps

/-- The value of a joined row in the column that `colIdx` names. -/
def joinValue {ρ₁ ρ₂ : Type} (leftSize : Nat) (valueL : ρ₁ → Nat → Option ValueT)
    (valueR : ρ₂ → Nat → Option ValueT) (x : Option ρ₁ × Option ρ₂) (colIdx : Nat) :
    Option ValueT :=
  if colIdx < leftSize then x.1.bind (valueL · colIdx) else x.2.bind (valueR · (colIdx - leftSize))

namespace JoinAlgorithm

variable {hashKey : Int32 → BitVec 64} {a : JoinAlgorithm} {ρ₁ ρ₂ σ : Type}

/-- The columns of one thread after rows whose output columns are `value`. -/
def Filled (a : JoinAlgorithm) (value : σ → Nat → Option ValueT) (rows : List σ)
    (out : List ColumnT) : Prop :=
  ∃ added : Nat × DataType → List ValueT,
    out = a.outputAttrs.map (fun attr => (resultColumn a.left a.right attr).appendAll (added attr)) ∧
    ∀ attr ∈ a.outputAttrs, (added attr).map some = rows.map (value · attr.1)

/-- Every match finds one row for its values. -/
def Finds (a : JoinAlgorithm) (value : σ → Nat → Option ValueT) : Prop :=
  ∀ build probe, ∃ row, ∀ attr ∈ a.outputAttrs, ∀ v,
    a.sourceValue attr.1 build probe = .ok v → value row attr.1 = some v

/-- The places of a match on either side. -/
theorem sourceValue_eq (colIdx : Nat) (build probe : Nat × Nat) :
    a.sourceValue colIdx build probe =
      let left := if a.buildLeft then build else probe
      let right := if a.buildLeft then probe else build
      if colIdx < a.left.length then index a.left colIdx >>= fun src => src.slot left.1 left.2
      else index a.right (colIdx - a.left.length) >>= fun src => src.slot right.1 right.2 := by
  unfold sourceValue
  cases a.buildLeft <;> rfl

theorem finds_of_spreads {valueL : ρ₁ → Nat → Option ValueT} {valueR : ρ₂ → Nat → Option ValueT}
    {pagesL : List (List ρ₁)} {pagesR : List (List ρ₂)} (hL : Spreads valueL pagesL a.left)
    (hR : Spreads valueR pagesR a.right) : a.Finds (joinValue a.left.length valueL valueR) := by
  intro build probe
  let left := if a.buildLeft then build else probe
  let right := if a.buildLeft then probe else build
  refine ⟨(rowAt pagesL left.1 left.2, rowAt pagesR right.1 right.2), ?_⟩
  intro attr _ v hv
  rw [sourceValue_eq] at hv
  dsimp only at hv
  unfold joinValue
  split at hv
  case isTrue hside =>
    obtain ⟨src, hsrc, hv⟩ := bind_eq_ok.mp hv
    rw [if_pos hside]
    exact hL.slot (index_eq_ok.mp hsrc) hv
  case isFalse hside =>
    obtain ⟨src, hsrc, hv⟩ := bind_eq_ok.mp hv
    rw [if_neg hside]
    exact hR.slot (index_eq_ok.mp hsrc) hv

section Loops

variable {value : σ → Nat → Option ValueT} (hfinds : a.Finds value) {out out' : List ColumnT}
  {rows : List σ}

theorem filled_nil (value : σ → Nat → Option ValueT) :
    a.Filled value [] (a.outputAttrs.map (resultColumn a.left a.right)) :=
  ⟨fun _ => [], rfl, fun _ _ => rfl⟩

include hfinds

theorem appendMatch_filled {probe : Nat × Nat} {m : UInt32} (hout : a.Filled value rows out)
    (h : a.appendMatch probe out m = .ok out') : ∃ row, a.Filled value (rows ++ [row]) out' := by
  obtain ⟨added, rfl, hadded⟩ := hout
  let place := (m.toNat / bufSize, m.toNat % bufSize)
  obtain ⟨row, hrow⟩ := hfinds place probe
  let read : Nat × DataType → ValueT := fun attr => (value row attr.1).getD .makeNull
  rw [appendMatch_map] at h
  have hread : ∀ attr ∈ a.outputAttrs, a.sourceValue attr.1 place probe = .ok (read attr) ∧
      value row attr.1 = some (read attr) := by
    intro attr hattr
    obtain ⟨i, hi, rfl⟩ := List.mem_iff_getElem.mp hattr
    have hstep := mapM_ok_getElem h hi (by rw [mapM_ok_length h]; exact hi)
    obtain ⟨v, hv, -⟩ := bind_eq_ok.mp hstep
    have hvalue := hrow _ hattr v hv
    have heq : read a.outputAttrs[i] = v := by
      show (value row a.outputAttrs[i].1).getD .makeNull = v
      rw [hvalue]
      rfl
    rw [heq]
    exact ⟨hv, hvalue⟩
  refine ⟨row, fun attr => added attr ++ [read attr], ?_, ?_⟩
  · rw [mapM_ok_of_forall fun attr hattr => by rw [(hread attr hattr).1, ok_bind]] at h
    cases h
    simp only [ColumnT.appendAll_concat]
  · intro attr hattr
    rw [List.map_append, List.map_append, hadded attr hattr]
    simp [(hread attr hattr).2]

omit hfinds in
/-- A loop whose every step adds the values of some rows. -/
theorem foldlM_filled {α : Type} {step : List ColumnT → α → Result (List ColumnT)} {xs : List α}
    (hstep : ∀ x out out' rows, a.Filled value rows out → step out x = .ok out' →
      ∃ rows', a.Filled value rows' out')
    (hout : a.Filled value rows out) (h : xs.foldlM step out = .ok out') :
    ∃ rows', a.Filled value rows' out' :=
  foldlM_invariant (P := fun _ out => ∃ rows, a.Filled value rows out) h ⟨rows, hout⟩
    fun _ x _ _ _ ⟨_, hout⟩ hrun => hstep x _ _ _ hout hrun

theorem probeRow_filled {ht : UnchainedHashTable} {probeCol : ColumnT} {p : Nat}
    {row : ValueT × Nat} (hout : a.Filled value rows out)
    (h : a.probeRow hashKey ht probeCol p out row = .ok out') :
    ∃ rows', a.Filled value rows' out' := by
  unfold probeRow at h
  obtain ⟨key, -, h⟩ := bind_eq_ok.mp h
  cases key with
  | none =>
    cases h
    exact ⟨rows, hout⟩
  | some key =>
    obtain ⟨hits, -, h⟩ := bind_eq_ok.mp h
    refine foldlM_filled (fun m out out' rows hout hrun => ?_) hout h
    obtain ⟨row, hrow⟩ := appendMatch_filled hfinds hout hrun
    exact ⟨_, hrow⟩

theorem probeWorker_filled {schedule : JoinSchedule} {ht : UnchainedHashTable}
    {probeCol : ColumnT} {t : Fin numThreads}
    (h : a.probeWorker hashKey schedule ht probeCol t = .ok out) : ∃ rows, a.Filled value rows out := by
  refine foldlM_filled (fun p out out' rows hout hrun => ?_) (filled_nil value) h
  obtain ⟨page, -, hrun⟩ := bind_eq_ok.mp hrun
  exact foldlM_filled (fun row out out' rows hout hrow => probeRow_filled hfinds hout hrow) hout hrun

end Loops

/-- A completed join: the results hold, page by page, the values of some joined rows, and each takes
over the origin of its column. -/
theorem run_completed {valueL : ρ₁ → Nat → Option ValueT} {valueR : ρ₂ → Nat → Option ValueT}
    {pagesL : List (List ρ₁)} {pagesR : List (List ρ₂)} (hL : Spreads valueL pagesL a.left)
    (hR : Spreads valueR pagesR a.right) {schedule : JoinSchedule} {cols : List ColumnT}
    (h : a.run hashKey schedule (a.outputAttrs.map (resultColumn a.left a.right)) = .ok cols) :
    ∃ (pages : List (List (Option ρ₁ × Option ρ₂))) (joined : Nat × DataType → ColumnT),
      cols = a.outputAttrs.map joined ∧
      (∀ page ∈ pages, 0 < page.length ∧ page.length ≤ bufSize) ∧
      ∀ attr ∈ a.outputAttrs, SameOrigin (joined attr) (resultColumn a.left a.right attr) ∧
        (joined attr).grid.map (List.map some) = pages.map (List.map fun x =>
          joinValue a.left.length valueL valueR x attr.1) := by
  have hfinds := finds_of_spreads hL hR
  unfold run at h
  obtain ⟨buildCol, -, h⟩ := bind_eq_ok.mp h
  obtain ⟨collected, -, h⟩ := bind_eq_ok.mp h
  obtain ⟨ht, -, h⟩ := bind_eq_ok.mp h
  obtain ⟨probeCol, -, h⟩ := bind_eq_ok.mp h
  obtain ⟨threadResults, hthreads, h⟩ := bind_eq_ok.mp h
  cases h
  have hthread : ∀ t : Fin numThreads, ∃ (rows : List (Option ρ₁ × Option ρ₂))
      (added : Nat × DataType → List ValueT),
      a.probeWorker hashKey schedule ht probeCol t =
        .ok (a.outputAttrs.map fun attr =>
          (resultColumn a.left a.right attr).appendAll (added attr)) ∧
      ∀ attr ∈ a.outputAttrs, (added attr).map some =
        rows.map (joinValue a.left.length valueL valueR · attr.1) := by
    intro t
    obtain ⟨i, hi, rfl⟩ := List.mem_iff_getElem.mp (List.mem_finRange t)
    have hrun := mapM_ok_getElem hthreads hi (by rw [mapM_ok_length hthreads]; exact hi)
    obtain ⟨rows, added, hout, hadded⟩ := probeWorker_filled hfinds hrun
    exact ⟨rows, added, by rw [hrun, hout], hadded⟩
  choose rows added hworker hadded using hthread
  rw [mapM_ok_of_forall fun t _ => hworker t] at hthreads
  cases hthreads
  rw [mergeThreads_eq]
  refine ⟨joinedPages rows, _, rfl, length_of_mem_joinedPages, fun attr hattr => ⟨⟨rfl, rfl, rfl⟩, ?_⟩⟩
  unfold joinedPages ColumnT.grid
  rw [pages_resultColumn, List.nil_append, List.map_flatMap, List.map_flatMap, List.map_flatMap]
  apply List.flatMap_congr
  intro t _
  have hgrid := ColumnT.grid_appendAll_of_pages_nil (pages_resultColumn a.left a.right attr)
    (added t attr)
  unfold ColumnT.grid at hgrid
  rw [hgrid, ← paged_map, ← paged_map, hadded t attr hattr]

end JoinAlgorithm

end JoinOptimizer
