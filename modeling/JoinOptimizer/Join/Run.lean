import JoinOptimizer.Join.Spread

/-! A join as a whole: whichever thread takes which page, the results hold each pair of rows with equal
keys once. -/

namespace JoinOptimizer

open Lib

@[simp] theorem pages_resultColumn (left right : List ColumnT) (attr : Nat × DataType) :
    (resultColumn left right attr).pages = [] := by
  unfold resultColumn resultColumn.resultRight
  split <;> (try split) <;> (try split) <;> (try split) <;> rfl

@[simp] theorem type_resultColumn (left right : List ColumnT) (attr : Nat × DataType) :
    (resultColumn left right attr).type = attr.2 := by
  unfold resultColumn resultColumn.resultRight
  split <;> (try split) <;> (try split) <;> (try split) <;> rfl

namespace JoinAlgorithm

variable {hashKey : Int32 → BitVec 64} {a : JoinAlgorithm} {β π : Type}

/-- The columns of one thread after the matches `rows`, whose output column `colIdx` is
`cellOf colIdx`. -/
def outColumns (a : JoinAlgorithm) (cellOf : Nat → β → π → ValueT) (rows : List (β × π)) :
    List ColumnT :=
  a.outputAttrs.map fun attr =>
    (resultColumn a.left a.right attr).appendAll (rows.map fun x => cellOf attr.1 x.1 x.2)

/-- One match, for output columns given by their attributes. -/
theorem appendMatch_map (F : Nat × DataType → ColumnT) (probe : Nat × Nat) (m : UInt32) :
    a.appendMatch probe (a.outputAttrs.map F) m = a.outputAttrs.mapM fun attr => (do
      let v ← a.sourceValue attr.1 (m.toNat / bufSize, m.toNat % bufSize) probe
      .ok ((F attr).append v)) := by
  have hzip : (a.outputAttrs.map F).zip a.outputAttrs =
      a.outputAttrs.map fun attr => (F attr, attr) := by
    conv_lhs => rw [← List.map_id a.outputAttrs, List.map_map, List.zip_map']
    simp
  unfold appendMatch
  rw [hzip, List.mapM_map]
  rfl

section Probe

variable {cellOf : Nat → β → π → ValueT} {pagesB : List (List β)} {pagesQ : List (List π)}

/-- The output columns can be read at the places of a build row and a probe row. -/
def Reads (a : JoinAlgorithm) (cellOf : Nat → β → π → ValueT) (pagesB : List (List β))
    (pagesQ : List (List π)) : Prop :=
  ∀ attr ∈ a.outputAttrs, ∀ b q build probe, rowAt pagesB build.1 build.2 = some b →
    rowAt pagesQ probe.1 probe.2 = some q → a.sourceValue attr.1 build probe = .ok (cellOf attr.1 b q)

theorem appendMatch_eq (hreads : a.Reads cellOf pagesB pagesQ) {m : UInt32} {b : β} {q : π}
    {probe : Nat × Nat} (hb : buildRow pagesB m = some b)
    (hq : rowAt pagesQ probe.1 probe.2 = some q) (rows : List (β × π)) :
    a.appendMatch probe (a.outColumns cellOf rows) m =
      .ok (a.outColumns cellOf (rows ++ [(b, q)])) := by
  unfold outColumns
  rw [appendMatch_map, mapM_ok_of_forall]
  intro attr hattr
  rw [hreads attr hattr b q (m.toNat / bufSize, m.toNat % bufSize) probe hb hq, ok_bind,
    List.map_append, ColumnT.appendAll_append]
  rfl

/-- The matches of one probe row. -/
theorem appendMatches_eq (hreads : a.Reads cellOf pagesB pagesQ) {hits : List UInt32} {q : π}
    {probe : Nat × Nat} (hhits : ∀ m ∈ hits, ∃ b, buildRow pagesB m = some b)
    (hq : rowAt pagesQ probe.1 probe.2 = some q) (rows : List (β × π)) :
    hits.foldlM (a.appendMatch probe) (a.outColumns cellOf rows) =
      .ok (a.outColumns cellOf (rows ++ (hits.filterMap (buildRow pagesB)).map fun b => (b, q))) := by
  induction hits generalizing rows with
  | nil => simp
  | cons m hits ih =>
    obtain ⟨b, hb⟩ := hhits m (by simp)
    rw [List.foldlM_cons, appendMatch_eq hreads hb hq, ok_bind,
      ih fun m' hm' => hhits m' (by simp [hm'])]
    simp [hb]

variable {ht : UnchainedHashTable} {hits : Int32 → List UInt32} {keyQ : π → Option Int32}
  {valueQ : π → ValueT} {probeCol : ColumnT}

/-- The pairs that the row `q` of the probe side makes. -/
def matchPairs (pagesB : List (List β)) (hits : Int32 → List UInt32) (keyQ : π → Option Int32)
    (q : π) : List (β × π) :=
  match keyQ q with
  | some k => ((hits k).filterMap (buildRow pagesB)).map fun b => (b, q)
  | none => []

/-- What the probe relies on: how its table answers, that the answers name build rows, and what its
column holds. -/
structure Probes (a : JoinAlgorithm) (hashKey : Int32 → BitVec 64) (cellOf : Nat → β → π → ValueT)
    (pagesB : List (List β)) (pagesQ : List (List π)) (ht : UnchainedHashTable)
    (hits : Int32 → List UInt32) (keyQ : π → Option Int32) (valueQ : π → ValueT)
    (probeCol : ColumnT) : Prop where
  reads : a.Reads cellOf pagesB pagesQ
  probe : ∀ k out, ht.probe hashKey k out = .ok (out ++ hits k)
  hits : ∀ k, ∀ m ∈ hits k, ∃ b, buildRow pagesB m = some b
  grid : probeCol.grid = pagesQ.map (List.map valueQ)
  size : ∀ page ∈ pagesQ, page.length ≤ bufSize
  key : ∀ q ∈ pagesQ.flatten, decodeInt32 probeCol.originalPages (valueQ q) = .ok (keyQ q)

variable (h : Probes a hashKey cellOf pagesB pagesQ ht hits keyQ valueQ probeCol)
include h

theorem probeRow_eq {q : π} {p s : Nat} (hq : rowAt pagesQ p s = some q) (rows : List (β × π)) :
    a.probeRow hashKey ht probeCol p (a.outColumns cellOf rows) (valueQ q, s) =
      .ok (a.outColumns cellOf (rows ++ matchPairs pagesB hits keyQ q)) := by
  obtain ⟨page, hpage, hslot⟩ := rowAt_eq_some.mp hq
  have hmem : page ∈ pagesQ := List.mem_of_getElem? hpage
  have hin : q ∈ pagesQ.flatten := List.mem_flatten.mpr ⟨page, hmem, List.mem_of_getElem? hslot⟩
  have hs : s < bufSize :=
    Nat.lt_of_lt_of_le (List.getElem?_eq_some_iff.mp hslot).1 (h.size page hmem)
  have hplace : (p * bufSize + s) / bufSize = p ∧ (p * bufSize + s) % bufSize = s := by
    rw [show bufSize = 1024 from rfl] at hs ⊢
    omega
  unfold probeRow matchPairs
  simp only [h.key q hin, ok_bind]
  cases hk : keyQ q with
  | none => simp
  | some k =>
    simp only [h.probe, ok_bind, List.nil_append, hplace]
    exact appendMatches_eq h.reads (h.hits k) hq rows

/-- One page of the probe column. -/
theorem probePage_eq {p : Nat} (hp : p < pagesQ.length) (rows : List (β × π)) :
    a.probePage hashKey ht probeCol (a.outColumns cellOf rows) p =
      .ok (a.outColumns cellOf (rows ++
        (placedOn (pagesQ[p]?.getD []) p).flatMap fun x => matchPairs pagesB hits keyQ x.1)) := by
  have hget : pagesQ[p]? = some pagesQ[p] := List.getElem?_eq_getElem hp
  have hindex : index probeCol.grid p = .ok (pagesQ[p].map valueQ) := by
    rw [index_eq_ok, h.grid, List.getElem?_map, hget]
    rfl
  unfold probePage
  rw [hindex, ok_bind, hget, Option.getD_some, List.zipIdx_map, List.foldlM_map]
  unfold placedOn
  rw [List.flatMap_map]
  obtain ⟨_, hrun, rfl⟩ := foldlM_total
    (f := fun out (x : π × Nat) => a.probeRow hashKey ht probeCol p out (valueQ x.1, x.2))
    (P := fun pre out => out = a.outColumns cellOf
      (rows ++ pre.flatMap fun x => matchPairs pagesB hits keyQ x.1))
    pagesQ[p].zipIdx (a.outColumns cellOf rows) (by simp) (by
      rintro pre ⟨q, s⟩ _ hmem rfl
      have hq : rowAt pagesQ p s = some q :=
        rowAt_eq_some.mpr ⟨_, hget, List.mem_zipIdx_iff_getElem?.mp hmem⟩
      refine ⟨_, probeRow_eq h hq _, ?_⟩
      rw [List.flatMap_append, List.append_assoc]
      simp)
  exact hrun

/-- The pairs that thread `t` finds. -/
def threadPairs (schedule : JoinSchedule) (pagesB : List (List β)) (pagesQ : List (List π))
    (hits : Int32 → List UInt32) (keyQ : π → Option Int32) (t : Fin numThreads) : List (β × π) :=
  (pagesOf schedule pagesQ.length t).flatMap fun p =>
    (placedOn (pagesQ[p]?.getD []) p).flatMap fun x => matchPairs pagesB hits keyQ x.1

theorem probeWorker_eq (schedule : JoinSchedule) (t : Fin numThreads) :
    a.probeWorker hashKey schedule ht probeCol t =
      .ok (a.outColumns cellOf (threadPairs schedule pagesB pagesQ hits keyQ t)) := by
  have hlen : probeCol.grid.length = pagesQ.length := by rw [h.grid, List.length_map]
  unfold probeWorker threadPairs
  rw [hlen]
  obtain ⟨_, hrun, rfl⟩ := foldlM_total
    (f := a.probePage hashKey ht probeCol)
    (P := fun pre out => out = a.outColumns cellOf (pre.flatMap fun p =>
      (placedOn (pagesQ[p]?.getD []) p).flatMap fun x => matchPairs pagesB hits keyQ x.1))
    (pagesOf schedule pagesQ.length t) (a.outputAttrs.map (resultColumn a.left a.right))
    (by simp [outColumns, ColumnT.appendAll]) (by
      rintro pre p _ hmem rfl
      have hp : p < pagesQ.length := List.mem_range.mp (List.mem_filter.mp hmem).1
      refine ⟨_, probePage_eq h hp _, ?_⟩
      simp)
  exact hrun

omit h in
/-- The threads together find the pairs of every row of the probe side. -/
theorem threadPairs_perm (schedule : JoinSchedule) :
    ((List.finRange numThreads).flatMap (threadPairs schedule pagesB pagesQ hits keyQ)).Perm
      (pagesQ.flatten.flatMap (matchPairs pagesB hits keyQ)) := by
  unfold threadPairs
  rw [← List.flatMap_assoc, ← map_fst_placed, List.flatMap_map, ← flatMap_range_placedOn]
  apply List.Perm.flatMap_right
  exact flatMap_filter_perm (List.nodup_finRange _) schedule.pageOwner _ fun p _ =>
    List.mem_finRange _

end Probe

section Merge

/-- The pages of all threads behind those of the results, column by column. -/
theorem mergeThreads_eq {ι : Type} (attrs : List (Nat × DataType)) (ts : List ι)
    (F : Nat × DataType → ColumnT) (G : ι → Nat × DataType → ColumnT) :
    (ts.map fun t => attrs.map (G t)).foldl mergeResults (attrs.map F) =
      attrs.map fun attr =>
        { F attr with pages := (F attr).pages ++ ts.flatMap fun t => (G t attr).pages } := by
  induction ts generalizing F with
  | nil => simp
  | cons t ts ih =>
    have hmerge : mergeResults (attrs.map F) (attrs.map (G t)) =
        attrs.map fun attr => { F attr with pages := (F attr).pages ++ (G t attr).pages } := by
      unfold mergeResults
      rw [List.zipWith_map, List.zipWith_self]
    rw [List.map_cons, List.foldl_cons, hmerge, ih]
    simp

end Merge

section Run

variable {cellOf : Nat → β → π → ValueT} {pagesB : List (List β)} {pagesQ : List (List π)}
  {keyB : β → Option Int32} {keyQ : π → Option Int32} {valueB : β → ValueT} {valueQ : π → ValueT}
  {buildCol probeCol : ColumnT}

theorem length_flatten_le {ρ : Type} {pages : List (List ρ)}
    (hsize : ∀ page ∈ pages, page.length ≤ bufSize) :
    pages.flatten.length ≤ pages.length * bufSize := by
  induction pages with
  | nil => simp
  | cons page pages ih =>
    have hpage := hsize page (by simp)
    have hpages := ih fun p hp => hsize p (by simp [hp])
    simp only [List.flatten_cons, List.length_append, List.length_cons, Nat.succ_mul]
    omega

/-- The result column of `attr` after a join whose threads found `threads`. -/
def joinedColumn (a : JoinAlgorithm) (cellOf : Nat → β → π → ValueT)
    (threads : Fin numThreads → List (β × π)) (attr : Nat × DataType) : ColumnT :=
  { resultColumn a.left a.right attr with
    pages := (List.finRange numThreads).flatMap fun t => ((resultColumn a.left a.right attr).appendAll
      ((threads t).map fun x => cellOf attr.1 x.1 x.2)).pages }

theorem grid_joinedColumn (cellOf : Nat → β → π → ValueT) (threads : Fin numThreads → List (β × π))
    (attr : Nat × DataType) : (a.joinedColumn cellOf threads attr).grid =
      ((List.finRange numThreads).flatMap fun t => paged bufSize (threads t)).map
        (List.map fun x => cellOf attr.1 x.1 x.2) := by
  unfold joinedColumn ColumnT.grid
  rw [List.map_flatMap, List.map_flatMap]
  apply List.flatMap_congr
  intro t _
  rw [← paged_map]
  exact ColumnT.grid_appendAll_of_pages_nil (pages_resultColumn _ _ _) _

/-- A join whose build and probe columns hold the keys of the rows on their pages. -/
theorem run_eq (hashKey : Int32 → BitVec 64) (schedule : JoinSchedule)
    (hbuild : a.buildColumn = .ok buildCol) (hprobe : a.probeColumn = .ok probeCol)
    (hgridB : buildCol.grid = pagesB.map (List.map valueB))
    (hkeyB : ∀ r ∈ pagesB.flatten, decodeInt32 buildCol.originalPages (valueB r) = .ok (keyB r))
    (hfitB : PlacesFit pagesB) (hsizeB : ∀ page ∈ pagesB, page.length ≤ bufSize)
    (hgridQ : probeCol.grid = pagesQ.map (List.map valueQ))
    (hkeyQ : ∀ r ∈ pagesQ.flatten, decodeInt32 probeCol.originalPages (valueQ r) = .ok (keyQ r))
    (hsizeQ : ∀ page ∈ pagesQ, page.length ≤ bufSize) (hreads : a.Reads cellOf pagesB pagesQ) :
    ∃ threads : Fin numThreads → List (β × π),
      a.run hashKey schedule (a.outputAttrs.map (resultColumn a.left a.right)) =
        .ok (a.outputAttrs.map (a.joinedColumn cellOf threads)) ∧
      ((List.finRange numThreads).flatMap threads).Perm (pagesQ.flatten.flatMap fun q =>
        (matching keyB (keyQ q) pagesB.flatten).map fun b => (b, q)) := by
  obtain ⟨collected, hcollect, htemp, hready⟩ : ∃ t, collectBuild buildCol .new = .ok t ∧
      t.tempKeysPos = keyedPairs keyB (placed pagesB) ∧ t.Ready :=
    ⟨_, collectBuild_eq hgridB hkeyB .new, rfl, rfl, UnchainedHashTable.ready_new.directory⟩
  have hcount : (keyedPairs keyB (placed pagesB)).length < 2 ^ 31 := by
    have h1 : (keyedPairs keyB (placed pagesB)).length ≤ (placed pagesB).length :=
      List.length_filterMap_le _ _
    have h2 : (placed pagesB).length = pagesB.flatten.length := by
      rw [← map_fst_placed, List.length_map]
    have h3 := hfitB.rows
    omega
  rw [← htemp] at hcount
  obtain ⟨ht, hbuilt, hits, hanswer, hperm⟩ := buildParallel_hits hashKey hready (Nat.le_refl _)
    hcount schedule.partitions schedule.merges
  rw [List.take_length, htemp] at hperm
  have hrows : ∀ k, ((hits k).filterMap (buildRow pagesB)).Perm
      (matching keyB (some k) pagesB.flatten) := fun k =>
    filterMap_buildRow_perm hfitB hsizeB (hperm k)
  have hfound : ∀ k, ∀ m ∈ hits k, ∃ b, buildRow pagesB m = some b := fun k m hm =>
    buildRow_of_mem hfitB hsizeB ((hperm k).subset hm)
  have h : Probes a hashKey cellOf pagesB pagesQ ht hits keyQ valueQ probeCol :=
    ⟨hreads, hanswer, hfound, hgridQ, hsizeQ, hkeyQ⟩
  refine ⟨threadPairs schedule pagesB pagesQ hits keyQ, ?_, ?_⟩
  · unfold run
    rw [hbuild, ok_bind, hcollect, ok_bind, hbuilt, ok_bind, hprobe, ok_bind,
      mapM_ok_of_forall fun t _ => probeWorker_eq h schedule t, ok_bind]
    unfold outColumns
    rw [mergeThreads_eq]
    simp only [pages_resultColumn, List.nil_append]
    rfl
  · refine (threadPairs_perm schedule).trans (List.Perm.flatMap_left _ fun q _ => ?_)
    unfold matchPairs
    cases keyQ q with
    | none => simp [matching]
    | some k => exact (hrows k).map _

end Run

section Joined

variable {ρ₁ ρ₂ : Type} {cellL : ρ₁ → Nat → ValueT} {cellR : ρ₂ → Nat → ValueT}
  {pagesL : List (List ρ₁)} {pagesR : List (List ρ₂)} {keyL : ρ₁ → Option Int32}
  {keyR : ρ₂ → Option Int32}

/-- What a join relies on at one side: its columns hold the rows on `pages`, and its key column their
keys. -/
structure Operand {ρ : Type} (cell : ρ → Nat → ValueT) (pages : List (List ρ))
    (cols : List ColumnT) (keyCol : Nat) (key : ρ → Option Int32) : Prop where
  spread : Spread cell pages cols
  size : ∀ page ∈ pages, page.length ≤ bufSize
  keys : ∃ c, cols[keyCol]? = some c ∧
    ∀ r ∈ pages.flatten, decodeInt32 c.originalPages (cell r keyCol) = .ok (key r)

/-- The cell of a joined row in the column that `colIdx` names. -/
def joinCell (leftSize : Nat) (cellL : ρ₁ → Nat → ValueT) (cellR : ρ₂ → Nat → ValueT)
    (x : ρ₁ × ρ₂) (colIdx : Nat) : ValueT :=
  if colIdx < leftSize then cellL x.1 colIdx else cellR x.2 (colIdx - leftSize)

/-- What a column of results takes over from the column it comes from, apart from its values. -/
structure SameOrigin (c d : ColumnT) : Prop where
  type : c.type = d.type
  isNoNull : c.isNoNull = d.isNoNull
  originalPages : c.originalPages = d.originalPages

theorem sourceValue_left (hL : Spread cellL pagesL a.left) (hbuild : a.buildLeft = true)
    (hR : Spread cellR pagesR a.right) {colIdx : Nat}
    (hrange : colIdx < a.left.length + a.right.length) {l : ρ₁} {r : ρ₂} {build probe : Nat × Nat}
    (hl : rowAt pagesL build.1 build.2 = some l) (hr : rowAt pagesR probe.1 probe.2 = some r) :
    a.sourceValue colIdx build probe = .ok (joinCell a.left.length cellL cellR (l, r) colIdx) := by
  unfold sourceValue joinCell
  by_cases hside : colIdx < a.left.length
  · rw [if_pos hside, if_pos hside, index_of_lt hside, ok_bind, if_pos hbuild]
    exact hL.slot (List.getElem?_eq_getElem hside) hl
  · have hlt : colIdx - a.left.length < a.right.length := by omega
    rw [if_neg hside, if_neg hside, index_of_lt hlt, ok_bind, if_pos hbuild]
    exact hR.slot (List.getElem?_eq_getElem hlt) hr

theorem sourceValue_right (hL : Spread cellL pagesL a.left) (hbuild : ¬ a.buildLeft = true)
    (hR : Spread cellR pagesR a.right) {colIdx : Nat}
    (hrange : colIdx < a.left.length + a.right.length) {l : ρ₁} {r : ρ₂} {build probe : Nat × Nat}
    (hl : rowAt pagesL probe.1 probe.2 = some l) (hr : rowAt pagesR build.1 build.2 = some r) :
    a.sourceValue colIdx build probe = .ok (joinCell a.left.length cellL cellR (l, r) colIdx) := by
  unfold sourceValue joinCell
  by_cases hside : colIdx < a.left.length
  · rw [if_pos hside, if_pos hside, index_of_lt hside, ok_bind, if_neg hbuild]
    exact hL.slot (List.getElem?_eq_getElem hside) hl
  · have hlt : colIdx - a.left.length < a.right.length := by omega
    rw [if_neg hside, if_neg hside, index_of_lt hlt, ok_bind, if_neg hbuild]
    exact hR.slot (List.getElem?_eq_getElem hlt) hr

/-- The pages of the joined rows, a thread's behind those of the threads before it. -/
def joinedPages {ρ : Type} (threads : Fin numThreads → List ρ) : List (List ρ) :=
  (List.finRange numThreads).flatMap fun t => paged bufSize (threads t)

theorem flatten_joinedPages {ρ : Type} (threads : Fin numThreads → List ρ) :
    (joinedPages threads).flatten = (List.finRange numThreads).flatMap threads := by
  unfold joinedPages
  rw [List.flatten_eq_flatMap, List.flatMap_assoc]
  apply List.flatMap_congr
  intro t _
  rw [← List.flatten_eq_flatMap, flatten_paged]

theorem length_of_mem_joinedPages {ρ : Type} {threads : Fin numThreads → List ρ} :
    ∀ page ∈ joinedPages threads, 0 < page.length ∧ page.length ≤ bufSize := by
  intro page hpage
  obtain ⟨t, _, hpage⟩ := List.mem_flatMap.mp hpage
  exact length_of_mem_paged (by decide) page hpage

theorem length_joinedPages_le {ρ : Type} (threads : Fin numThreads → List ρ) :
    (joinedPages threads).length * bufSize ≤
      (joinedPages threads).flatten.length + numThreads * bufSize := by
  rw [flatten_joinedPages]
  unfold joinedPages
  have hthreads : ∀ ts : List (Fin numThreads),
      (ts.flatMap fun t => paged bufSize (threads t)).length * bufSize ≤
        (ts.flatMap threads).length + ts.length * bufSize := by
    intro ts
    induction ts with
    | nil => simp
    | cons t ts ih =>
      have hpages := length_paged_le (show 0 < bufSize by decide) (threads t)
      simp only [List.flatMap_cons, List.length_append, List.length_cons, Nat.add_mul, Nat.one_mul]
      omega
  simpa using hthreads (List.finRange numThreads)

/-- The join of two operands: one page after the other, the results hold the cells of each pair of
rows with equal keys, each pair once. -/
theorem run_spec (hashKey : Int32 → BitVec 64) (hL : Operand cellL pagesL a.left a.leftCol keyL)
    (hR : Operand cellR pagesR a.right a.rightCol keyR)
    (hrange : ∀ attr ∈ a.outputAttrs, attr.1 < a.left.length + a.right.length)
    (hfit : if a.buildLeft then PlacesFit pagesL else PlacesFit pagesR) (schedule : JoinSchedule) :
    ∃ (pages : List (List (ρ₁ × ρ₂))) (joined : Nat × DataType → ColumnT),
      a.run hashKey schedule (a.outputAttrs.map (resultColumn a.left a.right)) =
        .ok (a.outputAttrs.map joined) ∧
      pages.flatten.Perm (equijoin keyL keyR pagesL.flatten pagesR.flatten) ∧
      (∀ page ∈ pages, 0 < page.length ∧ page.length ≤ bufSize) ∧
      pages.length * bufSize ≤ pages.flatten.length + numThreads * bufSize ∧
      ∀ attr, SameOrigin (joined attr) (resultColumn a.left a.right attr) ∧
        (joined attr).grid =
          pages.map (List.map fun x => joinCell a.left.length cellL cellR x attr.1) := by
  obtain ⟨cL, hcL, hkeyL⟩ := hL.keys
  obtain ⟨cR, hcR, hkeyR⟩ := hR.keys
  by_cases hbuild : a.buildLeft = true
  · have hreads : a.Reads (fun c l r => joinCell a.left.length cellL cellR (l, r) c) pagesL pagesR :=
      fun attr hattr l r build probe hl hr =>
        sourceValue_left hL.spread hbuild hR.spread (hrange attr hattr) hl hr
    obtain ⟨threads, hrun, hperm⟩ := run_eq hashKey schedule
      (by rw [buildColumn, if_pos hbuild, index_eq_ok, hcL])
      (by rw [probeColumn, if_pos hbuild, index_eq_ok, hcR])
      (hL.spread _ _ hcL) hkeyL (by simpa [hbuild] using hfit) hL.size
      (hR.spread _ _ hcR) hkeyR hR.size hreads
    refine ⟨joinedPages threads, _, hrun, ?_, length_of_mem_joinedPages,
      length_joinedPages_le _, fun attr => ⟨?_, ?_⟩⟩
    · rw [flatten_joinedPages]
      exact hperm.trans (equijoin_perm_right _ _).symm
    · exact ⟨rfl, rfl, rfl⟩
    · exact grid_joinedColumn _ threads attr
  · have hreads : a.Reads (fun c r l => joinCell a.left.length cellL cellR (l, r) c) pagesR pagesL :=
      fun attr hattr r l build probe hr hl =>
        sourceValue_right hL.spread hbuild hR.spread (hrange attr hattr) hl hr
    obtain ⟨threads, hrun, hperm⟩ := run_eq hashKey schedule
      (by rw [buildColumn, if_neg hbuild, index_eq_ok, hcR])
      (by rw [probeColumn, if_neg hbuild, index_eq_ok, hcL])
      (hR.spread _ _ hcR) hkeyR (by simpa [hbuild] using hfit) hR.size
      (hL.spread _ _ hcL) hkeyL hL.size hreads
    refine ⟨joinedPages fun t => (threads t).map Prod.swap, _, hrun, ?_, length_of_mem_joinedPages,
      length_joinedPages_le _, fun attr => ⟨?_, ?_⟩⟩
    · rw [flatten_joinedPages, ← List.map_flatMap]
      refine (hperm.map Prod.swap).trans (List.Perm.trans ?_ (equijoin_perm_left _ _).symm)
      rw [List.map_flatMap]
      simp [Function.comp_def]
    · exact ⟨rfl, rfl, rfl⟩
    · rw [grid_joinedColumn]
      unfold joinedPages
      rw [List.map_flatMap, List.map_flatMap]
      apply List.flatMap_congr
      intro t _
      rw [paged_map, List.map_map]
      congr 1
      funext page
      simp [Function.comp_def]

end Joined

end JoinAlgorithm

end JoinOptimizer
