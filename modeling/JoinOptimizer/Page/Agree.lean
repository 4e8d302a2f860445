import JoinOptimizer.Page.Encode
import JoinOptimizer.Page.Inserter
import JoinOptimizer.Lib.Packing

/-! The two writers of pages compared.  Each closes a page by a test of its own, `to_columnar` by the
size of the next value and the inserter by four bytes; wherever the tests give one answer the pages are
the same. -/

namespace JoinOptimizer

open Lib

variable {α : Type} {T : FixedType α}

/-- The rows of a page under construction and the test of `to_columnar` for one more. -/
def encoderPacking (T : FixedType α) : Packing (Option α) where
  room cur c := T.size + (cur.reduceOption.length + c.toList.length) * T.size +
    (cur.length / 8 + 1) ≤ pageSize
  solitary _ := false

/-- The test of `ColumnInserter`. -/
def inserterPacking (T : FixedType α) : Packing (Option α) where
  room cur c := T.size + cur.reduceOption.length * T.size + c.toList.length * 4 + cur.length / 8 +
    1 ≤ pageSize
  solitary _ := false

theorem encoder_room_nil (c : Option α) : (encoderPacking T).room [] c = true := by
  have hsize := T.size_le
  have hpage := pageSize_eq
  simp only [encoderPacking, List.reduceOption_nil, List.length_nil]
  cases c <;> simp <;> omega

/-- Where there is room for the whole value, the inserter finds room too. -/
theorem inserter_room_of_encoder {cur : List (Option α)} {c : Option α}
    (h : (encoderPacking T).room cur c = true) : (inserterPacking T).room cur c = true := by
  have hsize := T.size_ge
  simp only [encoderPacking, inserterPacking, decide_eq_true_eq] at h ⊢
  cases c with
  | none =>
    simp only [Option.toList_none, List.length_nil] at h ⊢
    omega
  | some v =>
    simp only [Option.toList_some, List.length_singleton, Nat.add_mul, Nat.one_mul] at h ⊢
    omega

/-- The tests differ for values longer than four bytes only, and on a page whose values and bitmap
leave four to seven bytes. -/
theorem room_eq_iff (cur : List (Option α)) (c : Option α) :
    (encoderPacking T).room cur c = (inserterPacking T).room cur c ↔
      (c.isSome → ¬ (pageSize < T.size + (cur.reduceOption.length + 1) * T.size +
          (cur.length / 8 + 1) ∧
        T.size + cur.reduceOption.length * T.size + 4 + (cur.length / 8 + 1) ≤ pageSize)) := by
  have hsize := T.size_ge
  rw [Bool.eq_iff_iff]
  simp only [encoderPacking, inserterPacking, decide_eq_true_eq]
  cases c with
  | none => simp; omega
  | some v =>
    simp only [Option.toList_some, List.length_singleton, Nat.add_mul, Nat.one_mul,
      Option.isSome_some, true_implies]
    omega

theorem sameRoom_of_size (hsize : T.size = 4) (cur cells : List (Option α)) :
    (encoderPacking T).SameRoom (inserterPacking T) cur cells := by
  induction cells generalizing cur with
  | nil => exact True.intro
  | cons c cells ih =>
    have hroom : (encoderPacking T).room cur c = (inserterPacking T).room cur c := by
      rw [room_eq_iff, hsize]
      omega
    rw [Packing.SameRoom, if_neg (by simp [encoderPacking])]
    refine ⟨hroom, ?_⟩
    split
    · exact ih _
    · exact ih _

/-- What is the same on two pages of a fixed-size type: the counts, the values and the NULL bits. -/
structure Page.SameFixed (T : FixedType α) (p q : Page) : Prop where
  rows : p.numRows = q.numRows
  nonNull : p.numNonNull = q.numNonNull
  values : p.read T.size (p.numNonNull * T.size) = q.read T.size (p.numNonNull * T.size)
  bits : ∀ i < p.numRows,
    getBitmap p (bitmapBegin p.numRows) i = getBitmap q (bitmapBegin p.numRows) i

theorem FixedPage.same {p q : Page} {cs : List (Option α)} (hp : FixedPage T p cs)
    (hq : FixedPage T q cs) : p.SameFixed T q := by
  refine ⟨hp.rows.trans hq.rows.symm, hp.nonNull.trans hq.nonNull.symm, ?_, fun i hi => ?_⟩
  · rw [hp.nonNull, hp.values, hq.values]
  · rw [hp.rows] at hi ⊢
    rw [hp.bits i hi, hq.bits i hi]

/-- Pages of the same cells are the same as soon as they break in the same rows. -/
theorem FixedPages.same {ps qs : List Page} {cs : List (Option α)} (hp : FixedPages T ps cs)
    (hq : FixedPages T qs cs) (hrows : ps.map Page.numRows = qs.map Page.numRows) :
    List.Forall₂ (Page.SameFixed T) ps qs := by
  induction hp generalizing qs with
  | nil =>
    rw [List.map_nil, eq_comm, List.map_eq_nil_iff] at hrows
    rw [hrows]
    exact .nil
  | @page p cs ps rest hp _ ih =>
    generalize hcells : cs ++ rest = cells at hq
    cases hq with
    | nil => simp at hrows
    | @page q cs' qs rest' hq hqs =>
      rw [List.map_cons, List.map_cons, List.cons.injEq] at hrows
      obtain ⟨hfirst, hrest⟩ := hrows
      rw [hp.rows, hq.rows] at hfirst
      obtain ⟨rfl, rfl⟩ := List.append_inj hcells hfirst
      exact .cons (hp.same hq) (ih hqs hrest)

section Encoder

variable (fresh : Nat → Page)

/-- The locals of `to_columnar` hold the closed pages `s.1` and the page `s.2` under construction. -/
structure FixedWriter.Packed (T : FixedType α) (w : FixedWriter α)
    (s : List (List (Option α)) × List (Option α)) : Prop where
  holds : FixedWriter.Holds T w s.1.flatten s.2
  rows : w.pages.map Page.numRows = s.1.map List.length

variable {w : FixedWriter α} {s : List (List (Option α)) × List (Option α)}

theorem FixedWriter.Packed.savePage (h : w.Packed T s) :
    (w.savePage T fresh).Packed T (s.1 ++ [s.2], []) := by
  obtain ⟨p, hpages, hp⟩ := h.holds.saved fresh
  refine ⟨?_, ?_⟩
  · simpa using h.holds.savePage fresh
  · rw [hpages, List.map_append, List.map_append, h.rows, List.map_singleton, hp.rows]
    rfl

theorem FixedWriter.Packed.insert (h : w.Packed T s) (value : α) :
    (w.insert T fresh value).Packed T ((encoderPacking T).place s (some value)) := by
  have hdata : w.data.length = s.2.reduceOption.length := by rw [h.holds.data]
  have hpage := pageSize_eq
  have hsize := T.size_le
  have hroom : (encoderPacking T).room s.2 (some value) = decide
      (T.size + (w.data.length + 1) * T.size + (w.numRows / 8 + 1) ≤ pageSize) := by
    simp [encoderPacking, hdata, h.holds.numRows]
  by_cases hfit : T.size + (w.data.length + 1) * T.size + (w.numRows / 8 + 1) ≤ pageSize
  · rw [Packing.place_of_room rfl (by rw [hroom, decide_eq_true hfit])]
    refine ⟨h.holds.push fresh hfit, ?_⟩
    rw [insert_of_room fresh hfit]
    exact h.rows
  · have hsaved := h.savePage fresh
    have hfit' : T.size + ((w.savePage T fresh).data.length + 1) * T.size +
        ((w.savePage T fresh).numRows / 8 + 1) ≤ pageSize := by
      simp only [FixedWriter.savePage, List.length_nil]
      omega
    rw [Packing.place_of_full rfl (by rw [hroom, decide_eq_false hfit]),
      insert_of_full fresh (by omega)]
    refine ⟨hsaved.holds.push fresh hfit', ?_⟩
    rw [insert_of_room fresh hfit']
    exact hsaved.rows

theorem FixedWriter.Packed.insertNull (h : w.Packed T s) :
    (w.insertNull T fresh).Packed T ((encoderPacking T).place s none) := by
  have hdata : w.data.length = s.2.reduceOption.length := by rw [h.holds.data]
  have hpage := pageSize_eq
  have hsize := T.size_le
  have hroom : (encoderPacking T).room s.2 none = decide
      (T.size + w.data.length * T.size + (w.numRows / 8 + 1) ≤ pageSize) := by
    simp [encoderPacking, hdata, h.holds.numRows]
  by_cases hfit : T.size + w.data.length * T.size + (w.numRows / 8 + 1) ≤ pageSize
  · rw [Packing.place_of_room rfl (by rw [hroom, decide_eq_true hfit])]
    refine ⟨h.holds.pushNull fresh hfit, ?_⟩
    rw [insertNull_of_room fresh hfit]
    exact h.rows
  · have hsaved := h.savePage fresh
    have hfit' : T.size + (w.savePage T fresh).data.length * T.size +
        ((w.savePage T fresh).numRows / 8 + 1) ≤ pageSize := by
      simp only [FixedWriter.savePage, List.length_nil]
      omega
    rw [Packing.place_of_full rfl (by rw [hroom, decide_eq_false hfit]),
      insertNull_of_full fresh (by omega)]
    refine ⟨hsaved.holds.pushNull fresh hfit', ?_⟩
    rw [insertNull_of_room fresh hfit']
    exact hsaved.rows

theorem FixedWriter.Packed.visit (h : w.Packed T s) {d : Data} (hd : d.HasType T.type) :
    (w.visit T fresh d).Packed T ((encoderPacking T).place s (T.project d)) := by
  by_cases hnull : d = .monostate
  · rw [FixedWriter.visit, if_pos hnull, hnull, T.project_monostate]
    exact h.insertNull fresh
  · obtain ⟨v, rfl⟩ := T.inject_project d hd hnull
    rw [FixedWriter.visit, if_neg hnull, T.project_inject]
    exact h.insert fresh v

theorem FixedWriter.Packed.finish (h : w.Packed T s) :
    (w.finish T fresh).pages.map Page.numRows = (s.1 ++ Packing.close s.2).map List.length := by
  rw [FixedWriter.finish]
  have hrows := h.holds.numRows
  split
  · next hne =>
    have hcur : s.2 ≠ [] := by
      intro hnil
      rw [hnil] at hrows
      exact hne hrows
    rw [Packing.close_of_ne_nil hcur]
    exact (h.savePage fresh).rows
  · next hzero =>
    have hnil : s.2 = [] := List.eq_nil_of_length_eq_zero (by omega)
    rw [hnil, h.rows]
    simp [Packing.close]

/-- The pages of a column break where the test of `to_columnar` breaks its cells. -/
theorem encodeFixed_rows {data : List (List Data)} {colIdx : Nat}
    (h : ∀ record ∈ data, ∃ d, record[colIdx]? = some d ∧ d.HasType T.type) {pages : List Page}
    (hpages : encodeFixed T fresh data colIdx = .ok pages) :
    pages.map Page.numRows = ((encoderPacking T).boxes []
      (data.map fun record => T.project (record.getD colIdx .monostate))).map List.length := by
  have hstart : FixedWriter.Packed T ⟨[], 0, [], []⟩ ([], []) :=
    ⟨⟨.nil, rfl, rfl, .nil, by have := T.size_le; have := pageSize_eq; simp; omega⟩, rfl⟩
  obtain ⟨w, hrun, hw⟩ := foldlM_total
    (f := fun w record => do .ok (w.visit T fresh (← index record colIdx)))
    (P := fun pre w => FixedWriter.Packed T w
      ((pre.map fun record => T.project (record.getD colIdx .monostate)).foldl
        (encoderPacking T).place ([], [])))
    data ⟨[], 0, [], []⟩ hstart fun pre record w hmem hw => by
      obtain ⟨d, hget, hd⟩ := h record hmem
      rw [index_eq_ok.mpr hget]
      refine ⟨_, rfl, ?_⟩
      have hcell : record.getD colIdx .monostate = d := by
        rw [List.getD_eq_getElem?_getD, hget]
        rfl
      rw [List.map_append, List.foldl_append, List.map_singleton, List.foldl_cons, List.foldl_nil,
        hcell]
      exact hw.visit fresh hd
  rw [encodeFixed, hrun, ok_bind] at hpages
  cases hpages
  rw [hw.finish fresh, Packing.foldl_place, List.nil_append]

/-- No page of a column is empty. -/
theorem encodeFixed_nonempty {data : List (List Data)} {colIdx : Nat}
    (h : ∀ record ∈ data, ∃ d, record[colIdx]? = some d ∧ d.HasType T.type) {pages : List Page}
    (hpages : encodeFixed T fresh data colIdx = .ok pages) : ∀ p ∈ pages, p.numRows ≠ 0 := by
  intro p hp
  have hmem := List.mem_map_of_mem (f := Page.numRows) hp
  rw [encodeFixed_rows fresh h hpages] at hmem
  obtain ⟨box, hbox, hlen⟩ := List.mem_map.mp hmem
  rw [← hlen]
  intro hzero
  exact Packing.ne_nil_of_mem_boxes encoder_room_nil hbox (List.eq_nil_of_length_eq_zero hzero)

end Encoder

namespace ColumnInserter

variable {fresh : Nat → Page} {w : ColumnInserter} {s : List (List (Option α)) × List (Option α)}

/-- The inserter has finished the pages `s.1` and has the rows `s.2` on the next one.  Nothing is said
about the values: the bitmap may lie over the last of them. -/
structure Packed (T : FixedType α) (w : ColumnInserter)
    (s : List (List (Option α)) × List (Option α)) : Prop where
  column : ∃ saved last, w.column.At saved last ∧ saved.map Page.numRows = s.1.map List.length ∧
    (s.2 = [] → last = none)
  numRows : w.numRows = s.2.length
  dataEnd : w.dataEnd = T.size + s.2.reduceOption.length * T.size
  length : w.bitmap.length = pageSize
  fits : 4 + s.2.reduceOption.length * T.size + (s.2.length + 7) / 8 ≤ pageSize

theorem packed_init (T : FixedType α) : Packed T (init T) ([], []) := by
  refine ⟨⟨[], none, ⟨rfl, rfl⟩, rfl, fun _ => rfl⟩, rfl, ?_, ?_, by simp [pageSize_eq]⟩
  · simp [init, dataBegin_eq]
  · simp [init]

theorem Packed.savePage (h : Packed T w s) :
    Packed T (w.savePage T fresh) (s.1 ++ [s.2], []) := by
  have hpage := pageSize_eq
  have hfits := h.fits
  obtain ⟨saved, last, hat, hrows, -⟩ := h.column
  refine ⟨⟨_, none, hat.updateNext _, ?_, fun _ => rfl⟩, rfl, ?_, h.length, by simp [pageSize_eq]⟩
  · rw [List.map_append, List.map_append, hrows, List.map_singleton, List.map_singleton, h.numRows]
    congr 2
    refine (Block.word_write_disjoint _ (by omega)).trans ?_
    exact Page.numRows_setHeader _ (by omega)
  · simp [ColumnInserter.savePage, dataBegin_eq]

theorem Packed.push (h : Packed T w s) {value : α}
    (hroom : w.dataEnd + 4 + w.numRows / 8 + 1 ≤ pageSize) :
    Packed T (w.insert T fresh value) (s.1, s.2 ++ [some value]) := by
  have hpage := pageSize_eq
  have hfits := h.fits
  obtain ⟨saved, last, hat, hrows, -⟩ := h.column
  rw [insert_of_room hroom]
  rw [h.dataEnd, h.numRows] at hroom
  have hnew : (s.2 ++ [some value]).reduceOption.length = s.2.reduceOption.length + 1 := by
    simp [List.reduceOption_append]
  refine ⟨⟨saved, _, hat.update _, hrows, by simp⟩, ?_, ?_, by simp [h.length], ?_⟩
  · simp only [h.numRows, List.length_append, List.length_singleton]
    omega
  · simp only [hnew, h.dataEnd, Nat.add_mul]
    omega
  · simp only [hnew, List.length_append, List.length_singleton, Nat.add_mul]
    omega

theorem Packed.pushNull (h : Packed T w s) (hroom : w.dataEnd + w.numRows / 8 + 1 ≤ pageSize) :
    Packed T (w.insertNull T fresh) (s.1, s.2 ++ [none]) := by
  have hpage := pageSize_eq
  have hfits := h.fits
  have hsize := T.size_ge
  obtain ⟨saved, last, hat, hrows, -⟩ := h.column
  rw [insertNull_of_room hroom]
  rw [h.dataEnd, h.numRows] at hroom
  have hnew : (s.2 ++ [none]).reduceOption = s.2.reduceOption := by
    simp [List.reduceOption_append]
  refine ⟨⟨saved, last, hat, hrows, by simp⟩, ?_, by rw [hnew, h.dataEnd], by simp [h.length], ?_⟩
  · simp only [h.numRows, List.length_append, List.length_singleton]
    omega
  · simp only [hnew, List.length_append, List.length_singleton]
    omega

theorem Packed.call (h : Packed T w s) (c : Option α) :
    Packed T (w.call T fresh c) ((inserterPacking T).place s c) := by
  have hpage := pageSize_eq
  have hsize := T.size_le
  have hsaved : Packed T (w.savePage T fresh) (s.1 ++ [s.2], []) := h.savePage
  have hroom : (inserterPacking T).room s.2 c =
      decide (w.dataEnd + c.toList.length * 4 + w.numRows / 8 + 1 ≤ pageSize) := by
    rw [h.dataEnd, h.numRows]
    rfl
  cases c with
  | none =>
    simp only [Option.toList_none, List.length_nil, Nat.zero_mul, Nat.add_zero] at hroom
    rw [ColumnInserter.call]
    by_cases hfit : w.dataEnd + w.numRows / 8 + 1 ≤ pageSize
    · rw [Packing.place_of_room rfl (by rw [hroom, decide_eq_true hfit])]
      exact h.pushNull hfit
    · rw [Packing.place_of_full rfl (by rw [hroom, decide_eq_false hfit]),
        insertNull_of_full (by omega)]
      apply hsaved.pushNull
      simp only [ColumnInserter.savePage, dataBegin_eq]
      omega
  | some value =>
    simp only [Option.toList_some, List.length_singleton, Nat.one_mul] at hroom
    rw [ColumnInserter.call]
    by_cases hfit : w.dataEnd + 4 + w.numRows / 8 + 1 ≤ pageSize
    · rw [Packing.place_of_room rfl (by rw [hroom, decide_eq_true hfit])]
      exact h.push hfit
    · rw [Packing.place_of_full rfl (by rw [hroom, decide_eq_false hfit]), insert_of_full (by omega)]
      apply hsaved.push
      simp only [ColumnInserter.savePage, dataBegin_eq]
      omega

theorem Packed.finalize (h : Packed T w s) :
    (w.finalize T fresh).column.pages.map Page.numRows =
      (s.1 ++ Packing.close s.2).map List.length := by
  have hclosed {w : ColumnInserter} {done : List (List (Option α))} (h : Packed T w (done, [])) :
      w.column.pages.map Page.numRows = done.map List.length := by
    obtain ⟨saved, last, hat, hrows, hnone⟩ := h.column
    rw [hat.pages, hnone rfl, Option.toList_none, List.append_nil]
    exact hrows
  have hrows := h.numRows
  rw [ColumnInserter.finalize]
  split
  · next hne =>
    have hcur : s.2 ≠ [] := by
      intro hnil
      rw [hnil] at hrows
      exact hne hrows
    rw [Packing.close_of_ne_nil hcur]
    exact hclosed h.savePage
  · next hzero =>
    obtain ⟨done, cur⟩ := s
    obtain rfl : cur = [] := List.eq_nil_of_length_eq_zero (by simpa [hrows] using hzero)
    rw [Packing.close, List.append_nil]
    exact hclosed h

/-- The pages of an inserter break where its test breaks the calls. -/
theorem run_rows (fresh : Nat → Page) (calls : List (Option α)) :
    (run T fresh calls).map Page.numRows =
      ((inserterPacking T).boxes [] calls).map List.length := by
  have hcalls : Packed T (calls.foldl (call T fresh) (init T))
      (calls.foldl (inserterPacking T).place ([], [])) :=
    List.foldl_rel (packed_init T) fun c _ _ _ h => h.call c
  rw [run, hcalls.finalize, Packing.foldl_place, List.nil_append]

/-- Calls for which the inserter's test leaves room for the whole value are written to pages that hold
them. -/
theorem run_holds_of_sameRoom (fresh : Nat → Page) {calls : List (Option α)}
    (hsame : (encoderPacking T).SameRoom (inserterPacking T) [] calls) :
    FixedPages T (run T fresh calls) calls := by
  have hpage := pageSize_eq
  have hsize := T.size_le
  have hcalls : ∀ (calls : List (Option α)) (w : ColumnInserter) (done cur : List (Option α)),
      Holds T fresh w done cur → (encoderPacking T).SameRoom (inserterPacking T) cur calls →
      ∃ done' cur', done' ++ cur' = done ++ cur ++ calls ∧
        Holds T fresh (calls.foldl (call T fresh) w) done' cur' := by
    intro calls
    induction calls with
    | nil => exact fun w done cur h _ => ⟨done, cur, by simp, h⟩
    | cons c calls ih =>
      intro w done cur h hsame
      rw [Packing.SameRoom, if_neg (by simp [encoderPacking])] at hsame
      obtain ⟨hroom, hrest⟩ := hsame
      have hencoder : (encoderPacking T).room cur c = decide
          (w.dataEnd + c.toList.length * T.size + w.numRows / 8 + 1 ≤ pageSize) := by
        rw [encoderPacking, h.dataEnd, h.numRows, decide_eq_decide, Nat.add_mul]
        omega
      have hinserter : (inserterPacking T).room cur c = decide
          (w.dataEnd + c.toList.length * 4 + w.numRows / 8 + 1 ≤ pageSize) := by
        rw [h.dataEnd, h.numRows]
        rfl
      by_cases hfit : (encoderPacking T).room cur c = true
      · rw [if_pos hfit] at hrest
        rw [hencoder, decide_eq_true_eq] at hfit
        have hnext : Holds T fresh (call T fresh w c) done (cur ++ [c]) := by
          cases c with
          | none => exact h.pushNull (by simpa using hfit)
          | some value => exact h.push (by simpa using hfit)
        obtain ⟨done', cur', heq, h'⟩ := ih _ _ _ hnext hrest
        exact ⟨done', cur', by rw [heq]; simp, h'⟩
      · rw [if_neg hfit] at hrest
        rw [hroom, hinserter, decide_eq_true_eq] at hfit
        have hnext : Holds T fresh (call T fresh w c) (done ++ cur) [c] := by
          cases c with
          | none =>
            rw [call, insertNull_of_full (by simpa using hfit)]
            apply h.savePage.pushNull
            simp only [ColumnInserter.savePage, dataBegin_eq]
            omega
          | some value =>
            rw [call, insert_of_full (by simpa using hfit)]
            apply h.savePage.push
            simp only [ColumnInserter.savePage, dataBegin_eq]
            omega
        obtain ⟨done', cur', heq, h'⟩ := ih _ _ _ hnext hrest
        exact ⟨done', cur', by rw [heq]; simp, h'⟩
  obtain ⟨done, cur, heq, h⟩ := hcalls calls _ _ _ (holds_init T fresh) hsame
  have hpages := h.finalize
  rw [heq] at hpages
  exact hpages

end ColumnInserter

/-- The pages that two writers make of one column: the same page by page, and the values of none run
into its bitmap. -/
structure FixedAgree (T : FixedType α) (ps qs : List Page) : Prop where
  same : List.Forall₂ (Page.SameFixed T) ps qs
  inside : ∀ p ∈ ps ++ qs, p.FixedInside T.size

theorem encodeFixed_agrees_iff (fresh fresh' : Nat → Page) {data : List (List Data)} {colIdx : Nat}
    (h : ∀ record ∈ data, ∃ d, record[colIdx]? = some d ∧ d.HasType T.type) {pages : List Page}
    (hpages : encodeFixed T fresh data colIdx = .ok pages) {cells : List (Option α)}
    (hcells : cells = data.map fun record => T.project (record.getD colIdx .monostate)) :
    FixedAgree T pages (ColumnInserter.run T fresh' cells) ↔
      (encoderPacking T).SameRoom (inserterPacking T) [] cells := by
  have hrows := encodeFixed_rows fresh h hpages
  have hrows' := ColumnInserter.run_rows (T := T) fresh' cells
  rw [← hcells] at hrows
  have hboxes := Packing.boxes_eq_iff (P := encoderPacking T) (Q := inserterPacking T) rfl
    (fun _ _ => inserter_room_of_encoder) [] cells
  constructor
  · intro hagree
    refine hboxes.mp (Packing.boxes_eq_of_length ?_)
    rw [← hrows, ← hrows', ← List.forall₂_eq_eq_eq, List.forall₂_map_left_iff,
      List.forall₂_map_right_iff]
    exact hagree.same.imp fun _ _ hpq => hpq.rows
  · intro hsame
    obtain ⟨pages', hrun, hholds⟩ := encodeFixed_holds fresh h
    rw [hpages] at hrun
    cases hrun
    rw [← hcells] at hholds
    have hholds' := ColumnInserter.run_holds_of_sameRoom fresh' hsame
    refine ⟨hholds.same hholds' ?_, fun p hp => ?_⟩
    · rw [hrows, hrows', hboxes.mpr hsame]
    · rcases List.mem_append.mp hp with hp | hp
      · exact hholds.inside p hp
      · exact hholds'.inside p hp

/-- What is the same on two pages of strings: the counts, and the offsets, characters and NULL bits or,
where the counts mark a part of a long string, its characters. -/
structure Page.SameVarchar (p q : Page) : Prop where
  rows : p.numRows = q.numRows
  nonNull : p.numNonNull = q.numNonNull
  offsets : p.numRows < 0xfffe → ∀ k < p.numNonNull, p.u16 (4 + k * 2) = q.u16 (4 + k * 2)
  chars : p.numRows < 0xfffe → p.read (4 + p.numNonNull * 2) p.charsLength =
    q.read (4 + p.numNonNull * 2) p.charsLength
  bits : p.numRows < 0xfffe → ∀ i < p.numRows,
    getBitmap p (bitmapBegin p.numRows) i = getBitmap q (bitmapBegin p.numRows) i
  long : ¬ p.numRows < 0xfffe → p.longChars = q.longChars

theorem VarcharPage.charsLength {p : Page} {cs : List (Option Bytes)} (hp : VarcharPage p cs) :
    p.charsLength = cs.reduceOption.flatten.length := by
  rw [Page.charsLength, hp.nonNull]
  split
  · next hzero => rw [List.eq_nil_of_length_eq_zero hzero]; rfl
  · next hne =>
    rw [hp.offsets _ (by omega), Nat.sub_add_cancel (by omega), List.take_length]

theorem VarcharPage.same {p q : Page} {cs : List (Option Bytes)} (hp : VarcharPage p cs)
    (hq : VarcharPage q cs) : p.SameVarchar q := by
  have hlt := hp.numRows_lt
  refine ⟨hp.rows.trans hq.rows.symm, hp.nonNull.trans hq.nonNull.symm, fun _ k hk => ?_,
    fun _ => ?_, fun _ i hi => ?_, fun hmark => absurd hlt hmark⟩
  · rw [hp.nonNull] at hk
    rw [hp.offsets k hk, hq.offsets k hk]
  · rw [hp.nonNull, hp.charsLength, hp.chars, hq.chars]
  · rw [hp.rows] at hi ⊢
    rw [hp.bits i hi, hq.bits i hi]

/-- A long string is cut in the same places on whatever pages it is written to. -/
theorem longPages_same (fresh fresh' : Nat → Page) (n n' : Nat) (firstPage : Bool) (data : Bytes) :
    List.Forall₂ Page.SameVarchar (longPages fresh n firstPage data)
      (longPages fresh' n' firstPage data) := by
  fun_induction longPages fresh n firstPage data generalizing n' with
  | case1 n firstPage data hzero =>
    rw [longPages, dif_pos hzero]
    exact .nil
  | case2 n firstPage data hne pageDataLen ih =>
    rw [longPages.eq_def fresh' n', dif_neg hne]
    refine .cons ?_ (ih (n' + 1))
    have hfit : 4 + (data.take pageDataLen).length ≤ pageSize := by
      have := pageSize_eq
      simp only [List.length_take, pageDataLen]
      omega
    have hmark : (if firstPage then 0xffff else 0xfffe) < 65536 := by split <;> decide
    have hlarge : ¬ (if firstPage then 0xffff else 0xfffe) < 0xfffe := by split <;> decide
    have hlong {P : Prop} (p : Page)
        (h : (p.setLong (if firstPage then 0xffff else 0xfffe)
          (data.take pageDataLen)).numRows < 0xfffe) : P := by
      rw [Page.numRows_setLong _ hmark] at h
      exact absurd h hlarge
    refine ⟨?_, ?_, fun h => hlong _ h, fun h => hlong _ h, fun h => hlong _ h, fun _ => ?_⟩
    · rw [Page.numRows_setLong _ hmark, Page.numRows_setLong _ hmark]
    · rw [Page.numNonNull_setLong _ hfit, Page.numNonNull_setLong _ hfit]
    · rw [Page.longChars_setLong _ hfit, Page.longChars_setLong _ hfit]

theorem PageCursor.At.take {c : PageCursor} {saved : List Page} {last : Option Page}
    (h : c.At saved last) : c.pages.take c.lastPageIdx = saved := by
  rw [h.pages, h.lastPageIdx, List.take_left]

/-- The two writers of strings in step: they have finished the same pages, with the same cells on the
next one. -/
structure InStep (fresh' : Nat → Page) (w : VarcharWriter) (w' : StringInserter)
    (done cur : List (Option Bytes)) : Prop where
  writer : w.Holds done cur
  inserter : w'.Holds fresh' done cur
  pages : List.Forall₂ Page.SameVarchar w.pages (w'.column.pages.take w'.column.lastPageIdx)

namespace InStep

variable (fresh : Nat → Page) {fresh' : Nat → Page} {w : VarcharWriter} {w' : StringInserter}
  {done cur : List (Option Bytes)}

theorem savePage (h : InStep fresh' w w' done cur) :
    InStep fresh' (w.savePage fresh) (w'.savePage fresh') (done ++ cur) [] := by
  obtain ⟨p, hpages, hp⟩ := h.writer.saved fresh
  obtain ⟨saved, last, hat, -, hoffsets, -⟩ := h.inserter.column
  obtain ⟨q, hat', hq⟩ := h.inserter.saved hat hoffsets
  refine ⟨h.writer.savePage fresh, h.inserter.savePage, ?_⟩
  have hsame := h.pages
  rw [hat.take] at hsame
  rw [hpages, hat'.take]
  exact List.rel_append hsame (.cons (hp.same hq) .nil)

/-- The tests of the two writers read the same numbers. -/
theorem sizes (h : InStep fresh' w w' done cur) : w'.offsetEnd = 4 + w.offsets.length * 2 ∧
    w'.dataSize = w.data.length ∧ w'.numRows = w.numRows := by
  refine ⟨?_, ?_, h.inserter.numRows.trans h.writer.numRows.symm⟩
  · rw [h.inserter.offsetEnd, h.writer.offsets]
    simp [endOffsets]
  · rw [h.inserter.dataSize, h.writer.data]

theorem push (h : InStep fresh' w w' done cur) {value : Bytes}
    (hshort : ¬ value.length > pageSize - 7)
    (hroom : 4 + (w.offsets.length + 1) * 2 + (w.data.length + value.length) +
      (w.numRows / 8 + 1) ≤ pageSize) :
    InStep fresh' (w.insert fresh value) (w'.insert fresh' value) done (cur ++ [some value]) := by
  obtain ⟨hoffsets, hdata, hrows⟩ := h.sizes
  have hroom' : w'.offsetEnd + 2 + w'.dataSize + value.length + w'.numRows / 8 + 1 ≤ pageSize := by
    rw [hrows]
    omega
  refine ⟨h.writer.push fresh hshort hroom, h.inserter.push hshort hroom', ?_⟩
  obtain ⟨saved, last, hat, -⟩ := h.inserter.column
  have hsame := h.pages
  rw [hat.take] at hsame
  rw [VarcharWriter.insert_of_room fresh hshort hroom,
    StringInserter.insert_of_room hshort hroom', (hat.update _).take]
  exact hsame

theorem pushNull (h : InStep fresh' w w' done cur)
    (hroom : 4 + w.offsets.length * 2 + w.data.length + (w.numRows / 8 + 1) ≤ pageSize) :
    InStep fresh' (w.insertNull fresh) (w'.insertNull fresh') done (cur ++ [none]) := by
  obtain ⟨hoffsets, hdata, hrows⟩ := h.sizes
  have hroom' : w'.offsetEnd + w'.dataSize + w'.numRows / 8 + 1 ≤ pageSize := by
    rw [hrows]
    omega
  refine ⟨h.writer.pushNull fresh hroom, h.inserter.pushNull hroom', ?_⟩
  rw [VarcharWriter.insertNull_of_room fresh hroom, StringInserter.insertNull_of_room hroom']
  exact h.pages

theorem insertLong (h : InStep fresh' w w' done []) {value : Bytes} (hvalue : value.length ≠ 0) :
    InStep fresh' { w with pages := saveLongString fresh w.pages true value }
      { w' with column := StringInserter.saveLongString fresh' w'.column true value }
      (done ++ [some value]) [] := by
  refine ⟨h.writer.insertLong fresh hvalue, h.inserter.insertLong hvalue, ?_⟩
  obtain ⟨saved, last, hat, -, -, hnone⟩ := h.inserter.column
  rw [hnone rfl] at hat
  have hsame := h.pages
  rw [hat.take] at hsame
  rw [saveLongString_eq, (StringInserter.saveLongString_at hat true value).take]
  exact List.rel_append hsame (longPages_same fresh fresh' _ _ true value)

theorem insert (h : InStep fresh' w w' done cur) (value : Bytes) :
    ∃ done' cur', done' ++ cur' = done ++ cur ++ [some value] ∧
      InStep fresh' (w.insert fresh value) (w'.insert fresh' value) done' cur' := by
  have hpage := pageSize_eq
  obtain ⟨hoffsets, hdata, hrows⟩ := h.sizes
  by_cases hlong : value.length > pageSize - 7
  · refine ⟨done ++ cur ++ [some value], [], by simp, ?_⟩
    rw [VarcharWriter.insert_of_long fresh hlong, StringInserter.insert_of_long hlong, hrows]
    by_cases hzero : w.numRows > 0
    · simp only [if_pos hzero]
      exact (h.savePage fresh).insertLong fresh (by omega)
    · have hnil : cur = [] :=
        List.eq_nil_of_length_eq_zero (by rw [← h.writer.numRows]; omega)
      subst hnil
      simp only [if_neg hzero, List.append_nil]
      exact h.insertLong fresh (by omega)
  · by_cases hroom : 4 + (w.offsets.length + 1) * 2 + (w.data.length + value.length) +
        (w.numRows / 8 + 1) ≤ pageSize
    · exact ⟨done, cur ++ [some value], by simp, h.push fresh hlong hroom⟩
    · refine ⟨done ++ cur, [some value], rfl, ?_⟩
      rw [VarcharWriter.insert_of_full fresh hlong (by omega),
        StringInserter.insert_of_full hlong (by rw [hrows]; omega)]
      refine (h.savePage fresh).push fresh hlong ?_
      simp only [VarcharWriter.savePage, List.length_nil]
      omega

theorem insertNull (h : InStep fresh' w w' done cur) :
    ∃ done' cur', done' ++ cur' = done ++ cur ++ [none] ∧
      InStep fresh' (w.insertNull fresh) (w'.insertNull fresh') done' cur' := by
  obtain ⟨hoffsets, hdata, hrows⟩ := h.sizes
  by_cases hroom : 4 + w.offsets.length * 2 + w.data.length + (w.numRows / 8 + 1) ≤ pageSize
  · exact ⟨done, cur ++ [none], by simp, h.pushNull fresh hroom⟩
  · refine ⟨done ++ cur, [none], rfl, ?_⟩
    rw [VarcharWriter.insertNull_of_full fresh (by omega),
      StringInserter.insertNull_of_full (by rw [hrows]; omega)]
    refine (h.savePage fresh).pushNull fresh ?_
    simp only [VarcharWriter.savePage, List.length_nil]
    decide

theorem visit (h : InStep fresh' w w' done cur) {d : Data} (hd : d.HasType .VARCHAR) :
    ∃ u done' cur', w.visit fresh d = .ok u ∧
      done' ++ cur' = done ++ cur ++ [VarcharWriter.project d] ∧
      InStep fresh' u (w'.call fresh' (VarcharWriter.project d)) done' cur' := by
  cases d with
  | string value =>
    obtain ⟨done', cur', heq, h'⟩ := h.insert fresh value
    exact ⟨_, done', cur', rfl, heq, h'⟩
  | monostate =>
    obtain ⟨done', cur', heq, h'⟩ := h.insertNull fresh
    exact ⟨_, done', cur', rfl, heq, h'⟩
  | int32 | int64 | fp64 => exact absurd hd (by simp [Data.HasType])

theorem finish (h : InStep fresh' w w' done cur) : List.Forall₂ Page.SameVarchar
    (w.finish fresh).pages (w'.finalize fresh').column.pages := by
  have hclosed {w : VarcharWriter} {w' : StringInserter} {cells : List (Option Bytes)}
      (h : InStep fresh' w w' cells []) :
      List.Forall₂ Page.SameVarchar w.pages w'.column.pages := by
    obtain ⟨saved, last, hat, -, -, hnone⟩ := h.inserter.column
    have hsame := h.pages
    rw [hat.take] at hsame
    rwa [hat.pages, hnone rfl, Option.toList_none, List.append_nil]
  obtain ⟨-, -, hrows⟩ := h.sizes
  rw [VarcharWriter.finish, StringInserter.finalize, hrows]
  split
  · exact hclosed (h.savePage fresh)
  · next hzero =>
    have hnil : cur = [] :=
      List.eq_nil_of_length_eq_zero (by rw [← h.writer.numRows]; omega)
    subst hnil
    exact hclosed h

end InStep

theorem encodeVarchar_agrees (fresh fresh' : Nat → Page) {data : List (List Data)} {colIdx : Nat}
    (h : ∀ record ∈ data, ∃ d, record[colIdx]? = some d ∧ d.HasType .VARCHAR) {pages : List Page}
    (hpages : encodeVarchar fresh data colIdx = .ok pages) :
    List.Forall₂ Page.SameVarchar pages (StringInserter.run fresh'
      (data.map fun record => VarcharWriter.project (record.getD colIdx .monostate))) := by
  have hstart : InStep fresh' ⟨[], 0, [], [], []⟩ StringInserter.init [] [] :=
    ⟨⟨.nil, rfl, rfl, rfl, .nil, by decide⟩, StringInserter.holds_init fresh', .nil⟩
  obtain ⟨w, hrun, done, cur, hw⟩ := foldlM_total
    (f := fun w record => do w.visit fresh (← index record colIdx))
    (P := fun pre w => ∃ done cur, InStep fresh' w
      ((pre.map fun record => VarcharWriter.project (record.getD colIdx .monostate)).foldl
        (StringInserter.call fresh') StringInserter.init) done cur)
    data ⟨[], 0, [], [], []⟩ ⟨[], [], hstart⟩ fun pre record w hmem hP => by
      obtain ⟨done, cur, hw⟩ := hP
      obtain ⟨d, hget, hd⟩ := h record hmem
      obtain ⟨u, done', cur', hvisit, -, hu⟩ := hw.visit fresh hd
      rw [index_eq_ok.mpr hget]
      refine ⟨u, hvisit, done', cur', ?_⟩
      have hcell : record.getD colIdx .monostate = d := by
        rw [List.getD_eq_getElem?_getD, hget]
        rfl
      rw [List.map_append, List.foldl_append, List.map_singleton, List.foldl_cons, List.foldl_nil,
        hcell]
      exact hu
  rw [encodeVarchar, hrun, ok_bind] at hpages
  cases hpages
  exact hw.finish fresh

/-- The pages that `ColumnInserter` of the type makes of the cells of a column. -/
def insertedPages (fresh : Nat → Page) (type : DataType) (cells : List Data) : List Page :=
  match type with
  | .INT32 => ColumnInserter.run int32Type fresh (cells.map int32Type.project)
  | .INT64 => ColumnInserter.run int64Type fresh (cells.map int64Type.project)
  | .FP64 => ColumnInserter.run fp64Type fresh (cells.map fp64Type.project)
  | .VARCHAR => StringInserter.run fresh (cells.map VarcharWriter.project)

/-- The pages of a column of the type are the same page by page, and no value of them lies under a
bitmap. -/
def PagesAgree (type : DataType) (ps qs : List Page) : Prop :=
  match type with
  | .INT32 => FixedAgree int32Type ps qs
  | .INT64 => FixedAgree int64Type ps qs
  | .FP64 => FixedAgree fp64Type ps qs
  | .VARCHAR => List.Forall₂ Page.SameVarchar ps qs ∧ ∀ p ∈ ps ++ qs, p.VarcharInside

/-- No value of eight bytes comes to a page that has room for four of them and not for eight. -/
def RoomAgrees (type : DataType) (cells : List Data) : Prop :=
  match type with
  | .INT64 => (encoderPacking int64Type).SameRoom (inserterPacking int64Type) []
      (cells.map int64Type.project)
  | .FP64 => (encoderPacking fp64Type).SameRoom (inserterPacking fp64Type) []
      (cells.map fp64Type.project)
  | _ => True

section Tables

variable {t : Table} {ct : ColumnarTable} {i : Nat} {type : DataType}

/-- The cells of a column of a well-typed table. -/
theorem Table.WellTyped.cells (ht : t.WellTyped) (htype : t.types[i]? = some type) :
    ∀ record ∈ t.data, ∃ d, record[i]? = some d ∧ d.HasType type := by
  intro record hrecord
  have hrec := ht record hrecord
  obtain ⟨hi, rfl⟩ := List.getElem?_eq_some_iff.mp htype
  have hlt : i < record.length := by rw [hrec.length_eq]; exact hi
  exact ⟨record[i], List.getElem?_eq_getElem hlt, hrec.get hlt hi⟩

/-- A column of an encoded table is what its encoder made. -/
theorem toColumnar_column {fresh : Nat → Nat → Page} (hct : toColumnar fresh t = .ok ct)
    (htype : t.types[i]? = some type) : ∃ column, ct.columns[i]? = some column ∧
      encodeColumn (fresh i) t.data i type = .ok column := by
  obtain ⟨columns, hcolumns, hct⟩ := bind_eq_ok.mp hct
  cases hct
  have hzip : t.types.zipIdx[i]? = some (type, i) := by simp [htype]
  exact mapM_ok_getElem? hcolumns hzip

theorem encodeColumn_agrees_iff (fresh fresh' : Nat → Page) {data : List (List Data)}
    (h : ∀ record ∈ data, ∃ d, record[i]? = some d ∧ d.HasType type) {column : Column}
    (hcolumn : encodeColumn fresh data i type = .ok column) :
    PagesAgree type column.pages
        (insertedPages fresh' type (data.map fun record => record.getD i .monostate)) ↔
      RoomAgrees type (data.map fun record => record.getD i .monostate) := by
  cases type with
  | INT32 =>
    obtain ⟨pages, hpages, hc⟩ := bind_eq_ok.mp hcolumn
    cases hc
    have hagree := encodeFixed_agrees_iff (T := int32Type) fresh fresh' h hpages
      (List.map_map (l := data) (f := fun record => record.getD i .monostate)
        (g := int32Type.project))
    exact iff_of_true (hagree.mpr (sameRoom_of_size rfl _ _)) True.intro
  | INT64 =>
    obtain ⟨pages, hpages, hc⟩ := bind_eq_ok.mp hcolumn
    cases hc
    exact encodeFixed_agrees_iff (T := int64Type) fresh fresh' h hpages List.map_map
  | FP64 =>
    obtain ⟨pages, hpages, hc⟩ := bind_eq_ok.mp hcolumn
    cases hc
    exact encodeFixed_agrees_iff (T := fp64Type) fresh fresh' h hpages List.map_map
  | VARCHAR =>
    obtain ⟨pages, hpages, hc⟩ := bind_eq_ok.mp hcolumn
    cases hc
    obtain ⟨pages', hrun, hholds⟩ := encodeVarchar_holds fresh h
    have hsame := encodeVarchar_agrees fresh fresh' h hpages
    have hholds' := StringInserter.run_holds fresh'
      (data.map fun record => VarcharWriter.project (record.getD i .monostate))
    rw [hpages] at hrun
    cases hrun
    refine iff_of_true ⟨?_, fun p hp => ?_⟩ True.intro
    · rw [insertedPages, List.map_map]
      exact hsame
    · rw [insertedPages, List.map_map] at hp
      rcases List.mem_append.mp hp with hp | hp
      · exact hholds.inside p hp
      · exact hholds'.inside p hp

/-- The pages of `to_columnar` and of `ColumnInserter` agree exactly if the tests for a full page agree
wherever a value comes. -/
theorem toColumnar_agrees_iff (fresh : Nat → Nat → Page) (fresh' : Nat → Page) (ht : t.WellTyped)
    (htype : t.types[i]? = some type) :
    ∃ ct column, toColumnar fresh t = .ok ct ∧ ct.columns[i]? = some column ∧
      (PagesAgree type column.pages
          (insertedPages fresh' type (t.data.map fun record => record.getD i .monostate)) ↔
        RoomAgrees type (t.data.map fun record => record.getD i .monostate)) := by
  obtain ⟨ct, hct, -⟩ := toColumnar_holds fresh ht
  obtain ⟨column, hcolumn, hencode⟩ := toColumnar_column hct htype
  exact ⟨ct, column, hct, hcolumn, encodeColumn_agrees_iff (fresh i) fresh' (ht.cells htype) hencode⟩

theorem toColumnar_agrees_iff_null :
    ∃ ct column, toColumnar (fun _ _ => ⟨fun _ => 0⟩) ⟨[[.int64 7], [.monostate]], [.INT64]⟩ = .ok ct ∧
      ct.columns[0]? = some column ∧
      (PagesAgree .INT64 column.pages (insertedPages (fun _ => ⟨fun _ => 1⟩) .INT64
          [.int64 7, .monostate]) ↔ RoomAgrees .INT64 [.int64 7, .monostate]) :=
  toColumnar_agrees_iff (t := ⟨[[.int64 7], [.monostate]], [.INT64]⟩) _ _
    (by simp [Table.WellTyped, Data.HasType]) rfl

end Tables

/-- Values and then NULLs that leave room for the bitmap but not for one more value of eight bytes. -/
theorem not_sameRoom_crowded {n m : Nat} (v : Int64)
    (hlow : 8176 ≤ n * 8 + (n + m) / 8) (hhigh : n * 8 + (n + m) / 8 ≤ 8179) :
    ¬ (encoderPacking int64Type).SameRoom (inserterPacking int64Type) []
      (List.replicate n (some v) ++ (List.replicate m none ++ [some v])) := by
  have hsize : int64Type.size = 8 := rfl
  have hpage := pageSize_eq
  have hreduce : ∀ n m, (List.replicate n (some v) ++ List.replicate m none).reduceOption =
      List.replicate n v := by
    intro n m
    simp [List.reduceOption]
  have hreduce' : ∀ n, (List.replicate n (some v)).reduceOption = List.replicate n v := by
    intro n
    simpa using hreduce n 0
  rw [Packing.sameRoom_append (fun _ _ => rfl), Packing.sameRoom_append (fun _ _ => rfl)]
  · rw [List.nil_append, Packing.SameRoom, if_neg (by simp [encoderPacking]), room_eq_iff, hreduce,
      hsize]
    simp only [List.length_append, List.length_replicate, Option.isSome_some, true_implies]
    omega
  · intro pre a post h
    obtain ⟨hlen, hpre, hpost⟩ := List.replicate_eq_append_iff.mp h
    rw [List.length_cons] at hlen
    have hroom : (encoderPacking int64Type).room
        ([] ++ List.replicate n (some v) ++ pre) a = true := by
      obtain rfl : a = none := (List.eq_replicate_iff.mp hpost).2 a (by simp)
      rw [hpre, List.nil_append]
      simp only [encoderPacking, hreduce, hsize, List.length_append, List.length_replicate,
        Option.toList_none, List.length_nil, decide_eq_true_eq]
      omega
    exact ⟨hroom, inserter_room_of_encoder hroom⟩
  · intro pre a post h
    obtain ⟨hlen, hpre, hpost⟩ := List.replicate_eq_append_iff.mp h
    rw [List.length_cons] at hlen
    have hroom : (encoderPacking int64Type).room ([] ++ pre) a = true := by
      obtain rfl : a = some v := (List.eq_replicate_iff.mp hpost).2 a (by simp)
      rw [hpre, List.nil_append]
      simp only [encoderPacking, hreduce', hsize, List.length_replicate, Option.toList_some,
        List.length_singleton, decide_eq_true_eq]
      omega
    exact ⟨hroom, inserter_room_of_encoder hroom⟩

/-- 1006 values, 18 NULLs and one more value: 8056 bytes of values and 128 of the bitmap leave eight,
one of which the bitmap needs for the new row. -/
def crowdedCells : List Data :=
  List.replicate 1006 (.int64 0) ++ (List.replicate 18 .monostate ++ [.int64 0])

/-- The two writers disagree on a column of values of eight bytes. -/
theorem toColumnar_disagrees : ∃ ct column,
    toColumnar (fun _ _ => ⟨fun _ => 0⟩) ⟨crowdedCells.map fun d => [d], [.INT64]⟩ = .ok ct ∧
      ct.columns[0]? = some column ∧
      ¬ PagesAgree .INT64 column.pages (insertedPages (fun _ => ⟨fun _ => 0⟩) .INT64 crowdedCells) := by
  have hcells : ∀ d ∈ crowdedCells, d.HasType .INT64 := by
    intro d hd
    rw [crowdedCells, List.mem_append, List.mem_append] at hd
    rcases hd with hd | hd | hd
    · rw [List.eq_of_mem_replicate hd]
      exact True.intro
    · rw [List.eq_of_mem_replicate hd]
      exact True.intro
    · rw [List.mem_singleton.mp hd]
      exact True.intro
  have ht : Table.WellTyped ⟨crowdedCells.map fun d => [d], [.INT64]⟩ := by
    intro record hrecord
    obtain ⟨d, hd, rfl⟩ := List.mem_map.mp hrecord
    exact .cons (hcells d hd) .nil
  obtain ⟨ct, hct, -⟩ := toColumnar_holds (fun _ _ => ⟨fun _ => 0⟩) ht
  obtain ⟨column, hcolumn, hencode⟩ := toColumnar_column (i := 0) hct rfl
  refine ⟨ct, column, hct, hcolumn, fun hagree => ?_⟩
  have hsame : (crowdedCells.map fun d => [d]).map (fun record => record.getD 0 .monostate) =
      crowdedCells := by
    rw [List.map_map]
    exact List.map_id'' (fun _ => rfl) _
  have hiff := encodeColumn_agrees_iff (fun _ => ⟨fun _ => 0⟩) (fun _ => ⟨fun _ => 0⟩)
    (ht.cells (i := 0) rfl) hencode
  rw [hsame] at hiff
  have hroom := hiff.mp hagree
  rw [RoomAgrees, crowdedCells, List.map_append, List.map_append, List.map_replicate,
    List.map_replicate] at hroom
  exact not_sameRoom_crowded (n := 1006) (m := 18) 0 (by decide) (by decide) hroom

end JoinOptimizer
