import JoinOptimizer.Join.Run

/-! A join seen from its columns alone: the tuples of values that the columns hold row by row. -/

namespace JoinOptimizer

open Lib

/-- The columns have the same number of values on each of their pages. -/
def PageAligned (cols : List ColumnT) : Prop :=
  ∀ c ∈ cols, ∀ d ∈ cols, c.grid.map List.length = d.grid.map List.length

instance (cols : List ColumnT) : Decidable (PageAligned cols) := by
  unfold PageAligned
  infer_instance

/-- The values of all columns at one place. -/
def tupleAt (cols : List ColumnT) (p s : Nat) : List ValueT := cols.filterMap fun c => rowAt c.grid p s

/-- The tuples of the columns, page by page; the first column says where there are rows. -/
def tuplePages (cols : List ColumnT) : List (List (List ValueT)) :=
  match cols with
  | [] => []
  | c :: _ => c.grid.zipIdx.map fun x => x.1.zipIdx.map fun y => tupleAt cols x.2 y.2

def tuples (cols : List ColumnT) : List (List ValueT) := (tuplePages cols).flatten

/-- The value of a tuple in column `j`. -/
def tupleCell (t : List ValueT) (j : Nat) : ValueT := t[j]?.getD ValueT.makeNull

section Tuples

variable {cols : List ColumnT}

theorem rowAt_of_aligned (h : PageAligned cols) {c d : ColumnT} (hc : c ∈ cols) (hd : d ∈ cols)
    {p s : Nat} {v : ValueT} (hv : rowAt c.grid p s = some v) : ∃ w, rowAt d.grid p s = some w := by
  obtain ⟨page, hpage, hslot⟩ := rowAt_eq_some.mp hv
  have hlen : (c.grid.map List.length)[p]? = (d.grid.map List.length)[p]? := by rw [h c hc d hd]
  rw [List.getElem?_map, List.getElem?_map, hpage] at hlen
  cases hpage' : d.grid[p]? with
  | none => simp [hpage'] at hlen
  | some page' =>
    rw [hpage'] at hlen
    have hs := (List.getElem?_eq_some_iff.mp hslot).1
    have hlt : s < page'.length := by
      rw [← Option.some.inj hlen]
      exact hs
    exact ⟨_, rowAt_eq_some.mpr ⟨page', hpage', List.getElem?_eq_getElem hlt⟩⟩

/-- A tuple at a place with a row has the value of each column. -/
theorem getElem?_tupleAt (h : PageAligned cols) {c d : ColumnT} (hc : c ∈ cols) {p s : Nat}
    {v : ValueT} (hv : rowAt c.grid p s = some v) {j : Nat} (hd : cols[j]? = some d) :
    (tupleAt cols p s)[j]? = rowAt d.grid p s := by
  have hall : ∀ e ∈ cols, ∃ w, rowAt e.grid p s = some w := fun e he => rowAt_of_aligned h hc he hv
  unfold tupleAt
  clear h hc hv
  induction cols generalizing j with
  | nil => cases hd
  | cons e cols ih =>
    obtain ⟨w, hw⟩ := hall e (by simp)
    rw [List.filterMap_cons]
    simp only [hw]
    cases j with
    | zero =>
      cases hd
      exact hw.symm
    | succ j => exact ih hd fun e he => hall e (by simp [he])

/-- Aligned columns hold the values of their tuples. -/
theorem spread_tuplePages (h : PageAligned cols) : Spread tupleCell (tuplePages cols) cols := by
  intro j d hd
  cases cols with
  | nil => cases hd
  | cons c cols =>
    have hdmem : d ∈ c :: cols := List.mem_of_getElem? hd
    have hcmem : c ∈ c :: cols := by simp
    have hlens := h c hcmem d hdmem
    have hcell : ∀ p s v, rowAt c.grid p s = some v →
        rowAt d.grid p s = some (tupleCell (tupleAt (c :: cols) p s) j) := by
      intro p s v hv
      obtain ⟨w, hw⟩ := rowAt_of_aligned h hcmem hdmem hv
      unfold tupleCell
      rw [getElem?_tupleAt h hcmem hv hd, hw]
      rfl
    unfold tuplePages
    apply List.ext_getElem
    · simpa using (congrArg List.length hlens).symm
    · intro p hp hp'
      have hpc : p < c.grid.length := by simpa using hp'
      have hlen : c.grid[p].length = d.grid[p].length := by
        have := List.getElem_of_eq hlens (by simpa using hpc)
        simpa using this
      apply List.ext_getElem
      · simpa using hlen.symm
      · intro s hs hs'
        have hsc : s < c.grid[p].length := by omega
        have hv : rowAt c.grid p s = some c.grid[p][s] :=
          rowAt_eq_some.mpr ⟨_, List.getElem?_eq_getElem hpc, List.getElem?_eq_getElem hsc⟩
        have hw : rowAt d.grid p s = some d.grid[p][s] :=
          rowAt_eq_some.mpr ⟨_, List.getElem?_eq_getElem hp, List.getElem?_eq_getElem hs⟩
        have hval := hcell p s _ hv
        rw [hw] at hval
        simpa using Option.some.inj hval

/-- The tuples of columns that hold, each in its way, the cells of the same rows. -/
theorem tuples_map {ρ ι : Type} {attrs : List ι} (hattrs : attrs ≠ []) {col : ι → ColumnT}
    {cell : ι → ρ → ValueT} {pages : List (List ρ)}
    (hgrid : ∀ i, (col i).grid = pages.map (List.map (cell i))) :
    tuples (attrs.map col) = pages.flatten.map fun r => attrs.map fun i => cell i r := by
  obtain ⟨i, is, rfl⟩ := List.exists_cons_of_ne_nil hattrs
  have htuple : ∀ p s r, rowAt pages p s = some r →
      tupleAt ((i :: is).map col) p s = (i :: is).map fun i => cell i r := by
    intro p s r hr
    unfold tupleAt
    rw [List.filterMap_map, ← List.filterMap_eq_map]
    apply List.filterMap_congr
    intro k _
    simp only [Function.comp_apply]
    rw [hgrid, rowAt_map, hr]
    rfl
  have hpages : tuplePages ((i :: is).map col) =
      pages.map (List.map fun r => (i :: is).map fun i => cell i r) := by
    show (col i).grid.zipIdx.map _ = _
    rw [hgrid i]
    apply List.ext_getElem
    · simp
    · intro p hp hp'
      have hpp : p < pages.length := by simpa using hp'
      apply List.ext_getElem
      · simp
      · intro s hs hs'
        have hss : s < pages[p].length := by simpa using hs'
        have hrow : rowAt pages p s = some pages[p][s] :=
          rowAt_eq_some.mpr ⟨_, List.getElem?_eq_getElem hpp, List.getElem?_eq_getElem hss⟩
        simpa using htuple p s _ hrow
  unfold tuples
  rw [hpages, List.map_flatten]

end Tuples

section Exact

variable {a : JoinAlgorithm}

/-- A key column of integers, references to integers and NULLs. -/
def IntKeys (cols : List ColumnT) (keyCol : Nat) : Prop :=
  ∃ c, cols[keyCol]? = some c ∧ ∀ v ∈ c.values, v.isVarchar = false ∧
    (v.isInt32NoNull = true → ∃ x, getInt32ValueFromPage v c.originalPages = .ok x)

/-- A column without references is a key column if it has no string. -/
theorem intKeys_of_values {cols : List ColumnT} {keyCol : Nat} {c : ColumnT}
    (hc : cols[keyCol]? = some c)
    (h : ∀ v ∈ c.values, v.isVarchar = false ∧ v.isInt32NoNull = false) : IntKeys cols keyCol := by
  refine ⟨c, hc, fun v hv => ⟨(h v hv).1, fun href => ?_⟩⟩
  rw [(h v hv).2] at href
  cases href

/-- The key of a tuple. -/
def tupleKey (cols : List ColumnT) (keyCol : Nat) (t : List ValueT) : Option Int32 :=
  match cols[keyCol]? with
  | some c =>
    match decodeInt32 c.originalPages (tupleCell t keyCol) with
    | .ok key => key
    | .error _ => none
  | none => none

/-- The projection of a pair of tuples. -/
def projectPair (attrs : List (Nat × DataType)) (x : List ValueT × List ValueT) : List ValueT :=
  attrs.map fun attr => tupleCell (x.1 ++ x.2) attr.1

theorem decodeInt32_ok {originalPages : List Page} {v : ValueT} (hkind : v.isVarchar = false)
    (href : v.isInt32NoNull = true → ∃ x, getInt32ValueFromPage v originalPages = .ok x) :
    ∃ key, decodeInt32 originalPages v = .ok key := by
  unfold decodeInt32
  split
  · exact ⟨_, rfl⟩
  · split
    case isTrue h =>
      obtain ⟨x, hx⟩ := href h
      exact ⟨some x, by rw [hx]; rfl⟩
    case isFalse h1 h2 =>
      have hmode := v.mode_lt
      rw [ValueT.isInt32_eq, decide_eq_true_eq] at h1
      rw [ValueT.isInt32NoNull_eq, decide_eq_true_eq] at h2
      rw [ValueT.isVarchar_eq, decide_eq_false_iff_not] at hkind
      have hnull : v.isNull = true := by
        rw [ValueT.isNull_eq, decide_eq_true_eq]
        omega
      rw [if_pos hnull]
      exact ⟨none, rfl⟩

theorem length_of_mem_tuplePages {cols : List ColumnT} {page : List (List ValueT)}
    (h : page ∈ tuplePages cols) : page.length ≤ bufSize := by
  cases cols with
  | nil => cases h
  | cons c cols =>
    obtain ⟨⟨values, p⟩, hmem, rfl⟩ := List.mem_map.mp h
    have hvalues := List.fst_mem_of_mem_zipIdx hmem
    obtain ⟨pg, _, rfl⟩ := List.mem_map.mp hvalues
    simpa using pg.le

theorem operand_tuples {cols : List ColumnT} (h : PageAligned cols) {keyCol : Nat}
    (hkeys : IntKeys cols keyCol) :
    JoinAlgorithm.Operand tupleCell (tuplePages cols) cols keyCol (tupleKey cols keyCol) where
  spread := spread_tuplePages h
  size _ := length_of_mem_tuplePages
  keys := by
    obtain ⟨c, hc, hvalues⟩ := hkeys
    refine ⟨c, hc, fun t ht => ?_⟩
    have hv : tupleCell t keyCol ∈ c.values := by
      rw [(spread_tuplePages h).values hc]
      exact List.mem_map_of_mem ht
    obtain ⟨hkind, href⟩ := hvalues _ hv
    obtain ⟨key, hkey⟩ := decodeInt32_ok hkind href
    unfold tupleKey
    rw [hc]
    simp only [hkey]

theorem length_of_mem_tuples {cols : List ColumnT} (h : PageAligned cols) {t : List ValueT}
    (ht : t ∈ tuples cols) : t.length = cols.length := by
  cases cols with
  | nil => cases ht
  | cons c cols =>
    obtain ⟨page, hpage, ht⟩ := List.mem_flatten.mp ht
    obtain ⟨⟨values, p⟩, hmem, rfl⟩ := List.mem_map.mp hpage
    obtain ⟨⟨v, s⟩, hslot, rfl⟩ := List.mem_map.mp ht
    have hv : rowAt c.grid p s = some v := rowAt_eq_some.mpr
      ⟨values, List.mem_zipIdx_iff_getElem?.mp hmem, List.mem_zipIdx_iff_getElem?.mp hslot⟩
    have hall : ∀ e ∈ c :: cols, ∃ w, rowAt e.grid p s = some w := fun e he =>
      rowAt_of_aligned h (by simp) he hv
    show (tupleAt (c :: cols) p s).length = _
    unfold tupleAt
    generalize c :: cols = es at hall
    induction es with
    | nil => rfl
    | cons e es ih =>
      obtain ⟨w, hw⟩ := hall e (by simp)
      rw [List.filterMap_cons]
      simp only [hw, List.length_cons]
      rw [ih fun e he => hall e (by simp [he])]

/-- The join of two aligned lists of columns is exact: its results are aligned, and hold for each pair
of tuples with equal keys the projection of the pair, once. -/
theorem run_exact (hashKey : Int32 → BitVec 64) (hleft : PageAligned a.left)
    (hright : PageAligned a.right) (hleftKeys : IntKeys a.left a.leftCol)
    (hrightKeys : IntKeys a.right a.rightCol) (hattrs : a.outputAttrs ≠ [])
    (hrange : ∀ attr ∈ a.outputAttrs, attr.1 < a.left.length + a.right.length)
    (hpages : ∀ c, a.buildColumn = .ok c → c.pages.length < 2 ^ 21) (schedule : JoinSchedule) :
    ∃ cols, a.run hashKey schedule (a.outputAttrs.map (resultColumn a.left a.right)) = .ok cols ∧
      PageAligned cols ∧
      (tuples cols).Perm ((equijoin (tupleKey a.left a.leftCol) (tupleKey a.right a.rightCol)
        (tuples a.left) (tuples a.right)).map (projectPair a.outputAttrs)) := by
  have hL := operand_tuples hleft hleftKeys
  have hR := operand_tuples hright hrightKeys
  obtain ⟨cL, hcL, -⟩ := hleftKeys
  obtain ⟨cR, hcR, -⟩ := hrightKeys
  have hlenL : (tuplePages a.left).length = cL.pages.length := by
    rw [← List.length_map (f := ColumnPage.values), ← ColumnT.grid, hL.spread _ _ hcL, List.length_map]
  have hlenR : (tuplePages a.right).length = cR.pages.length := by
    rw [← List.length_map (f := ColumnPage.values), ← ColumnT.grid, hR.spread _ _ hcR, List.length_map]
  have hfits : ∀ cols : List ColumnT, (tuplePages cols).length < 2 ^ 21 →
      PlacesFit (tuplePages cols) := by
    intro cols hlen
    have hle := JoinAlgorithm.length_flatten_le fun page (hpage : page ∈ tuplePages cols) =>
      length_of_mem_tuplePages hpage
    rw [show bufSize = 1024 from rfl] at hle
    exact ⟨by omega, by omega⟩
  have hbuild : if a.buildLeft then PlacesFit (tuplePages a.left)
      else PlacesFit (tuplePages a.right) := by
    split
    case isTrue h =>
      apply hfits
      rw [hlenL]
      exact hpages cL (by rw [JoinAlgorithm.buildColumn, if_pos h, index_eq_ok, hcL])
    case isFalse h =>
      apply hfits
      rw [hlenR]
      exact hpages cR (by rw [JoinAlgorithm.buildColumn, if_neg h, index_eq_ok, hcR])
  obtain ⟨pages, joined, hrun, hperm, -, -, hcols⟩ :=
    JoinAlgorithm.run_spec hashKey hL hR hrange hbuild schedule
  have hgrid := fun attr => (hcols attr).2
  refine ⟨_, hrun, ?_, ?_⟩
  · intro c hc d hd
    obtain ⟨attr, _, rfl⟩ := List.mem_map.mp hc
    obtain ⟨attr', _, rfl⟩ := List.mem_map.mp hd
    rw [hgrid, hgrid]
    simp [Function.comp_def]
  · rw [tuples_map hattrs hgrid]
    refine (hperm.map _).trans (List.Perm.of_eq ?_)
    apply List.map_congr_left
    rintro ⟨l, r⟩ hx
    have hlen : l.length = a.left.length := length_of_mem_tuples hleft (mem_equijoin.mp hx).1
    unfold projectPair
    apply List.map_congr_left
    intro attr _
    show (if attr.1 < a.left.length then tupleCell l attr.1
      else tupleCell r (attr.1 - a.left.length)) = tupleCell (l ++ r) attr.1
    unfold tupleCell
    by_cases hside : attr.1 < a.left.length
    · rw [if_pos hside, List.getElem?_append_left (by omega)]
    · rw [if_neg hside, List.getElem?_append_right (by omega), hlen]

/-- One side has its keys in the second column and a NULL key, the other a key twice. -/
theorem run_exact_twice :
    let left := [ColumnT.ofValues .INT32 false [] [.putInt32 8, .putInt32 9],
      ColumnT.ofValues .INT32 false [] [.putInt32 5, .makeNull]]
    let right := [ColumnT.ofValues .INT32 false [] [.putInt32 5, .putInt32 7, .putInt32 5]]
    let a : JoinAlgorithm := ⟨false, left, right, 1, 0, [(0, .INT32), (2, .INT32)]⟩
    ∃ cols, a.run (fun _ => 0) ⟨[3], [], fun p => if p = 0 then 2 else 0⟩
        (a.outputAttrs.map (resultColumn a.left a.right)) = .ok cols ∧
      PageAligned cols ∧
      (tuples cols).Perm ((equijoin (tupleKey a.left a.leftCol) (tupleKey a.right a.rightCol)
        (tuples a.left) (tuples a.right)).map (projectPair a.outputAttrs)) := by
  intro left right a
  apply run_exact
  · show PageAligned left
    decide
  · show PageAligned right
    decide
  · exact intKeys_of_values rfl (by decide)
  · exact intKeys_of_values rfl (by decide)
  · decide
  · decide
  · intro c hc
    cases hc
    decide

end Exact

end JoinOptimizer
