import JoinOptimizer.Page.Decode

/-! `ColumnInserter` of `include/plan.h`: the writer of the pages of a result column, one call for
each row.  As in the encoder, the bytes of a new page are an argument. -/

namespace JoinOptimizer

open Lib

/-- The pages of the column that an inserter fills, and its `last_page_idx`. -/
structure PageCursor where
  pages : List Page
  lastPageIdx : Nat
  le : lastPageIdx ≤ pages.length

namespace PageCursor

/-- A write to the page that `get_page` returns: the page at `last_page_idx`, made first if the column
ends before it. -/
def update (fresh : Nat → Page) (c : PageCursor) (f : Page → Page) : PageCursor where
  pages :=
    if c.lastPageIdx = c.pages.length then c.pages ++ [f (fresh c.pages.length)]
    else c.pages.modify c.lastPageIdx f
  lastPageIdx := c.lastPageIdx
  le := by
    have := c.le
    split <;> simp <;> omega

/-- A write to the page that `get_page` returns, and `++last_page_idx`. -/
def updateNext (fresh : Nat → Page) (c : PageCursor) (f : Page → Page) : PageCursor where
  pages := (c.update fresh f).pages
  lastPageIdx := c.lastPageIdx + 1
  le := by
    have := c.le
    simp only [update]
    split <;> simp <;> omega

/-- The cursor stands behind the pages `saved`, before at most one more page. -/
structure At (c : PageCursor) (saved : List Page) (last : Option Page) : Prop where
  pages : c.pages = saved ++ last.toList
  lastPageIdx : c.lastPageIdx = saved.length

variable {fresh : Nat → Page} {c : PageCursor} {saved : List Page} {last : Option Page}

theorem At.update (h : c.At saved last) (f : Page → Page) :
    (c.update fresh f).At saved (some (f (last.getD (fresh saved.length)))) := by
  refine ⟨?_, h.lastPageIdx⟩
  simp only [PageCursor.update, h.pages, h.lastPageIdx]
  cases last with
  | none => simp
  | some p => simp [List.modify_eq_take_cons_drop]

theorem At.updateNext (h : c.At saved last) (f : Page → Page) :
    (c.updateNext fresh f).At (saved ++ [f (last.getD (fresh saved.length))]) none := by
  refine ⟨?_, ?_⟩
  · rw [Option.toList_none, List.append_nil]
    exact (h.update f).pages
  · simp [PageCursor.updateNext, h.lastPageIdx]

end PageCursor

/-- `template <class T> struct ColumnInserter`. -/
structure ColumnInserter where
  column : PageCursor
  numRows : Nat
  dataEnd : Nat
  bitmap : Bytes

namespace ColumnInserter

variable {α : Type}

/-- `data_begin()`. -/
def dataBegin (T : FixedType α) : Nat := if T.size < 4 then 4 else T.size

/-- An inserter of a fresh column. -/
def init (T : FixedType α) : ColumnInserter where
  column := ⟨[], 0, Nat.le_refl 0⟩
  numRows := 0
  dataEnd := dataBegin T
  bitmap := List.replicate pageSize 0

def savePage (T : FixedType α) (fresh : Nat → Page) (w : ColumnInserter) : ColumnInserter :=
  let bitmapSize := (w.numRows + 7) / 8
  { w with
    column := w.column.updateNext fresh fun page =>
      (page.setHeader w.numRows ((w.dataEnd - dataBegin T) / T.size)).write
        (pageSize - bitmapSize) (w.bitmap.take bitmapSize)
    numRows := 0
    dataEnd := dataBegin T }

def insert (T : FixedType α) (fresh : Nat → Page) (w : ColumnInserter) (value : α) :
    ColumnInserter :=
  let w := if w.dataEnd + 4 + w.numRows / 8 + 1 > pageSize then w.savePage T fresh else w
  { column := w.column.update fresh fun page => page.write w.dataEnd (T.bytes value)
    dataEnd := w.dataEnd + T.size
    bitmap := setFlag w.bitmap w.numRows
    numRows := (w.numRows + 1) % 65536 }

def insertNull (T : FixedType α) (fresh : Nat → Page) (w : ColumnInserter) : ColumnInserter :=
  let w := if w.dataEnd + w.numRows / 8 + 1 > pageSize then w.savePage T fresh else w
  { w with
    bitmap := clearFlag w.bitmap w.numRows
    numRows := (w.numRows + 1) % 65536 }

def finalize (T : FixedType α) (fresh : Nat → Page) (w : ColumnInserter) : ColumnInserter :=
  if w.numRows ≠ 0 then w.savePage T fresh else w

/-- One call: `insert(value)` or `insert_null()`. -/
def call (T : FixedType α) (fresh : Nat → Page) (w : ColumnInserter) : Option α → ColumnInserter
  | some value => w.insert T fresh value
  | none => w.insertNull T fresh

/-- The pages of a fresh column after the calls and `finalize()`. -/
def run (T : FixedType α) (fresh : Nat → Page) (calls : List (Option α)) : List Page :=
  ((calls.foldl (call T fresh) (init T)).finalize T fresh).column.pages

/-- The pages behind the cursor hold the cells `done`; the page at it, if there is one, the values
among the cells `cur`. -/
structure Holds (T : FixedType α) (fresh : Nat → Page) (w : ColumnInserter)
    (done cur : List (Option α)) : Prop where
  column : ∃ saved last, w.column.At saved last ∧ FixedPages T saved done ∧
    (last.getD (fresh saved.length)).read T.size (cur.reduceOption.length * T.size) =
      cur.reduceOption.flatMap T.bytes ∧
    (cur = [] → last = none)
  numRows : w.numRows = cur.length
  dataEnd : w.dataEnd = T.size + cur.reduceOption.length * T.size
  length : w.bitmap.length = pageSize
  flags : HoldsFlags w.bitmap (cur.map Option.isSome)
  fits : T.size + cur.reduceOption.length * T.size + (cur.length + 7) / 8 ≤ pageSize

theorem dataBegin_eq (T : FixedType α) : dataBegin T = T.size := by
  have := T.size_ge
  rw [dataBegin, if_neg (by omega)]

variable {T : FixedType α} {fresh : Nat → Page} {w : ColumnInserter}
  {done cur : List (Option α)}

theorem Holds.length_lt (h : Holds T fresh w done cur) : cur.length < 65535 := by
  have := h.fits
  have := T.size_ge
  have := pageSize_eq
  omega

theorem holds_init (T : FixedType α) (fresh : Nat → Page) : Holds T fresh (init T) [] [] := by
  have := T.size_le
  have := pageSize_eq
  refine ⟨⟨[], none, ⟨rfl, rfl⟩, .nil, by simp [Block.read], fun _ => rfl⟩, rfl, ?_, ?_, .nil _, ?_⟩
  · simp [init, dataBegin_eq]
  · simp [init]
  · simp
    omega

theorem Holds.savePage (h : Holds T fresh w done cur) :
    Holds T fresh (w.savePage T fresh) (done ++ cur) [] := by
  have hfits := h.fits
  have hsize := T.size_ge
  have hsize' := T.size_le
  have hpage := pageSize_eq
  have hlt := h.length_lt
  have hnn : cur.reduceOption.length ≤ cur.length := List.reduceOption_length_le _
  obtain ⟨saved, last, hat, hpages, hvalues, -⟩ := h.column
  have hcount : (w.dataEnd - dataBegin T) / T.size = cur.reduceOption.length := by
    rw [dataBegin_eq, h.dataEnd, Nat.add_sub_cancel_left, Nat.mul_div_cancel _ (by omega)]
  have hbits : (w.bitmap.take ((w.numRows + 7) / 8)).length = (cur.length + 7) / 8 := by
    rw [List.length_take, h.numRows, h.length]
    omega
  have hflags : HoldsFlags (w.bitmap.take ((w.numRows + 7) / 8)) (cur.map Option.isSome) :=
    h.flags.take (by rw [List.length_map, h.numRows])
  refine ⟨⟨_, none, hat.updateNext _, hpages.snoc ?_, by simp [Block.read], fun _ => rfl⟩,
    rfl, ?_, h.length, .nil _, by simp; omega⟩
  · have hsame : (w.numRows + 7) / 8 = (w.bitmap.take ((w.numRows + 7) / 8)).length := by
      rw [hbits, h.numRows]
    rw [hcount]
    conv in pageSize - _ => rw [hsame]
    refine FixedPage.of_bitmap ?_ ?_ ?_ hbits hflags hfits
    · rw [h.numRows]
      exact Page.numRows_setHeader _ (by omega)
    · exact Page.numNonNull_setHeader _ (by omega)
    · rw [Page.read_setHeader _ (by omega), hvalues]
  · simp [ColumnInserter.savePage, dataBegin_eq]

theorem insert_of_room {value : α} (hroom : w.dataEnd + 4 + w.numRows / 8 + 1 ≤ pageSize) :
    w.insert T fresh value =
      { column := w.column.update fresh fun page => page.write w.dataEnd (T.bytes value)
        dataEnd := w.dataEnd + T.size
        bitmap := setFlag w.bitmap w.numRows
        numRows := (w.numRows + 1) % 65536 } := by
  rw [ColumnInserter.insert, if_neg (by omega)]

theorem insert_of_full {value : α} (hfull : w.dataEnd + 4 + w.numRows / 8 + 1 > pageSize) :
    w.insert T fresh value = (w.savePage T fresh).insert T fresh value := by
  have hsize := T.size_le
  have hpage := pageSize_eq
  rw [ColumnInserter.insert, if_pos hfull, insert_of_room]
  simp only [ColumnInserter.savePage, dataBegin_eq]
  omega

theorem insertNull_of_room (hroom : w.dataEnd + w.numRows / 8 + 1 ≤ pageSize) :
    w.insertNull T fresh = { w with
      bitmap := clearFlag w.bitmap w.numRows
      numRows := (w.numRows + 1) % 65536 } := by
  rw [ColumnInserter.insertNull, if_neg (by omega)]

theorem insertNull_of_full (hfull : w.dataEnd + w.numRows / 8 + 1 > pageSize) :
    w.insertNull T fresh = (w.savePage T fresh).insertNull T fresh := by
  have hsize := T.size_le
  have hpage := pageSize_eq
  rw [ColumnInserter.insertNull, if_pos hfull, insertNull_of_room]
  simp only [ColumnInserter.savePage, dataBegin_eq]
  omega

/-- A value that has room for all of its bytes. -/
theorem Holds.push (h : Holds T fresh w done cur) {value : α}
    (hroom : w.dataEnd + T.size + w.numRows / 8 + 1 ≤ pageSize) :
    Holds T fresh (w.insert T fresh value) done (cur ++ [some value]) := by
  have hpage := pageSize_eq
  have hsize := T.size_ge
  have hlt := h.length_lt
  have hbytes := T.length_bytes value
  obtain ⟨saved, last, hat, hpages, hvalues, -⟩ := h.column
  have hlen := length_flatMap_uniform T.length_bytes cur.reduceOption
  rw [insert_of_room (by omega)]
  rw [h.dataEnd, h.numRows] at hroom
  refine ⟨⟨saved, _, hat.update _, hpages, ?_, by simp⟩, ?_, ?_, ?_, ?_, ?_⟩
  · have hread := Block.read_write_append (by rwa [hlen])
      (show T.size + (cur.reduceOption.flatMap T.bytes).length + (T.bytes value).length ≤ pageSize
        by omega)
    have hnew : (cur ++ [some value]).reduceOption.flatMap T.bytes =
        cur.reduceOption.flatMap T.bytes ++ T.bytes value := by
      simp [List.reduceOption_append]
    rw [← length_flatMap_uniform T.length_bytes, hnew, h.dataEnd, ← hlen]
    exact hread
  · simp only [h.numRows, List.length_append, List.length_singleton]
    omega
  · simp only [h.dataEnd, List.reduceOption_append, List.reduceOption_singleton,
      Option.toList_some, List.length_append, List.length_singleton, Nat.add_mul]
    omega
  · simp [h.length]
  · simpa [h.numRows] using h.flags.push_set (by rw [List.length_map, h.length]; omega)
  · simp only [List.reduceOption_append, List.reduceOption_singleton, Option.toList_some,
      List.length_append, List.length_singleton, Nat.add_mul]
    omega

theorem Holds.pushNull (h : Holds T fresh w done cur)
    (hroom : w.dataEnd + w.numRows / 8 + 1 ≤ pageSize) :
    Holds T fresh (w.insertNull T fresh) done (cur ++ [none]) := by
  have hpage := pageSize_eq
  have hlt := h.length_lt
  obtain ⟨saved, last, hat, hpages, hvalues, hnone⟩ := h.column
  rw [insertNull_of_room hroom]
  rw [h.dataEnd, h.numRows] at hroom
  refine ⟨⟨saved, last, hat, hpages, ?_, by simp⟩, ?_, ?_, ?_, ?_, ?_⟩
  · simpa [List.reduceOption_append] using hvalues
  · simp only [h.numRows, List.length_append, List.length_singleton]
    omega
  · simpa [List.reduceOption_append] using h.dataEnd
  · simp [h.length]
  · simpa [h.numRows] using h.flags.push_clear
  · simp only [List.reduceOption_append, List.reduceOption_singleton, Option.toList_none,
      List.append_nil, List.length_append, List.length_singleton]
    omega

theorem Holds.insert (h : Holds T fresh w done cur) (hsize : T.size ≤ 4) (value : α) :
    ∃ done' cur', done' ++ cur' = done ++ cur ++ [some value] ∧
      Holds T fresh (w.insert T fresh value) done' cur' := by
  by_cases hroom : w.dataEnd + 4 + w.numRows / 8 + 1 ≤ pageSize
  · exact ⟨done, cur ++ [some value], by simp, h.push (by omega)⟩
  · refine ⟨done ++ cur, [some value], rfl, ?_⟩
    rw [insert_of_full (by omega)]
    apply h.savePage.push
    have := pageSize_eq
    simp only [ColumnInserter.savePage, dataBegin_eq]
    omega

theorem Holds.insertNull (h : Holds T fresh w done cur) :
    ∃ done' cur', done' ++ cur' = done ++ cur ++ [none] ∧
      Holds T fresh (w.insertNull T fresh) done' cur' := by
  by_cases hroom : w.dataEnd + w.numRows / 8 + 1 ≤ pageSize
  · exact ⟨done, cur ++ [none], by simp, h.pushNull hroom⟩
  · refine ⟨done ++ cur, [none], rfl, ?_⟩
    rw [insertNull_of_full (by omega)]
    apply h.savePage.pushNull
    have := T.size_le
    have := pageSize_eq
    simp only [ColumnInserter.savePage, dataBegin_eq]
    omega

theorem Holds.finalize (h : Holds T fresh w done cur) :
    FixedPages T (w.finalize T fresh).column.pages (done ++ cur) := by
  have hclosed {w : ColumnInserter} {cells : List (Option α)} (h : Holds T fresh w cells []) :
      FixedPages T w.column.pages cells := by
    obtain ⟨saved, last, hat, hpages, -, hnone⟩ := h.column
    rw [hat.pages, hnone rfl, Option.toList_none, List.append_nil]
    exact hpages
  rw [ColumnInserter.finalize]
  split
  · exact hclosed h.savePage
  · next hzero =>
    have hnil : cur = [] := List.eq_nil_of_length_eq_zero (by rw [← h.numRows]; omega)
    subst hnil
    rw [List.append_nil]
    exact hclosed h

/-- The check for a full page leaves four bytes for a value: types of that size are written to pages
that hold the calls in order. -/
theorem run_holds (hsize : T.size ≤ 4) (fresh : Nat → Page) (calls : List (Option α)) :
    FixedPages T (run T fresh calls) calls := by
  have hstep : ∀ (w : ColumnInserter) (done cur : List (Option α)) (c : Option α),
      Holds T fresh w done cur → ∃ done' cur', done' ++ cur' = done ++ cur ++ [c] ∧
        Holds T fresh (call T fresh w c) done' cur' := by
    intro w done cur c h
    cases c with
    | none => exact h.insertNull
    | some value => exact h.insert hsize value
  obtain ⟨done, cur, heq, h⟩ := foldl_writes hstep calls (holds_init T fresh)
  have hpages := h.finalize
  rw [heq] at hpages
  exact hpages

end ColumnInserter

/-- `template <> struct ColumnInserter<std::string>`. -/
structure StringInserter where
  column : PageCursor
  numRows : Nat
  dataSize : Nat
  offsetEnd : Nat
  data : Block pageSize
  bitmap : Bytes

namespace StringInserter

/-- An inserter of a fresh column. -/
def init : StringInserter where
  column := ⟨[], 0, Nat.le_refl 0⟩
  numRows := 0
  dataSize := 0
  offsetEnd := 4
  data := ⟨fun _ => 0⟩
  bitmap := List.replicate pageSize 0

/-- The loop of `save_long_string`; `value` is the string from `offset` on. -/
def saveLongString (fresh : Nat → Page) (column : PageCursor) (firstPage : Bool) (value : Bytes) :
    PageCursor :=
  if _h : value.length = 0 then
    column
  else
    let pageDataLen := min value.length (pageSize - 4)
    let column := column.updateNext fresh fun page =>
      page.setLong (if firstPage then 0xffff else 0xfffe) (value.take pageDataLen)
    saveLongString fresh column false (value.drop pageDataLen)
  termination_by value.length
  decreasing_by
    have := pageSize_eq
    simp only [List.length_drop]
    omega

def savePage (fresh : Nat → Page) (w : StringInserter) : StringInserter :=
  let bitmapSize := (w.numRows + 7) / 8
  { w with
    column := w.column.updateNext fresh fun page =>
      ((page.setHeader w.numRows ((w.offsetEnd - 4) / 2)).write w.offsetEnd
        (w.data.read 0 w.dataSize)).write (pageSize - bitmapSize) (w.bitmap.take bitmapSize)
    numRows := 0
    dataSize := 0
    offsetEnd := 4 }

def insert (fresh : Nat → Page) (w : StringInserter) (value : Bytes) : StringInserter :=
  if value.length > pageSize - 7 then
    let w := if w.numRows > 0 then w.savePage fresh else w
    { w with column := saveLongString fresh w.column true value }
  else
    let w := if w.offsetEnd + 2 + w.dataSize + value.length + w.numRows / 8 + 1 > pageSize then
      w.savePage fresh else w
    let dataSize := (w.dataSize + value.length) % 65536
    { column := w.column.update fresh fun page => page.setU16 w.offsetEnd dataSize
      data := w.data.write w.dataSize value
      dataSize := dataSize
      offsetEnd := w.offsetEnd + 2
      bitmap := setFlag w.bitmap w.numRows
      numRows := (w.numRows + 1) % 65536 }

def insertNull (fresh : Nat → Page) (w : StringInserter) : StringInserter :=
  let w := if w.offsetEnd + w.dataSize + w.numRows / 8 + 1 > pageSize then w.savePage fresh else w
  { w with
    bitmap := clearFlag w.bitmap w.numRows
    numRows := (w.numRows + 1) % 65536 }

def finalize (fresh : Nat → Page) (w : StringInserter) : StringInserter :=
  if w.numRows ≠ 0 then w.savePage fresh else w

/-- One call: `insert(value)` or `insert_null()`. -/
def call (fresh : Nat → Page) (w : StringInserter) : Option Bytes → StringInserter
  | some value => w.insert fresh value
  | none => w.insertNull fresh

/-- The pages of a fresh column after the calls and `finalize()`. -/
def run (fresh : Nat → Page) (calls : List (Option Bytes)) : List Page :=
  ((calls.foldl (call fresh) init).finalize fresh).column.pages

/-- The pages behind the cursor hold the cells `done`; of the cells `cur`, the page at it has the end
offsets, `data` the characters and `bitmap` the flags. -/
structure Holds (fresh : Nat → Page) (w : StringInserter) (done cur : List (Option Bytes)) :
    Prop where
  column : ∃ saved last, w.column.At saved last ∧ VarcharPages saved done ∧
    (∀ k < cur.reduceOption.length, (last.getD (fresh saved.length)).u16 (4 + k * 2) =
      (cur.reduceOption.take (k + 1)).flatten.length) ∧
    (cur = [] → last = none)
  numRows : w.numRows = cur.length
  dataSize : w.dataSize = cur.reduceOption.flatten.length
  offsetEnd : w.offsetEnd = 4 + cur.reduceOption.length * 2
  data : w.data.read 0 cur.reduceOption.flatten.length = cur.reduceOption.flatten
  length : w.bitmap.length = pageSize
  flags : HoldsFlags w.bitmap (cur.map Option.isSome)
  fits : 4 + cur.reduceOption.length * 2 + cur.reduceOption.flatten.length +
    (cur.length + 7) / 8 ≤ pageSize

variable {fresh : Nat → Page} {w : StringInserter} {done cur : List (Option Bytes)}

theorem Holds.length_lt (h : Holds fresh w done cur) : cur.length < 65535 := by
  have := h.fits
  have := pageSize_eq
  omega

theorem holds_init (fresh : Nat → Page) : Holds fresh init [] [] := by
  refine ⟨⟨[], none, ⟨rfl, rfl⟩, .nil, by simp, fun _ => rfl⟩, rfl, rfl, rfl, rfl, ?_, .nil _,
    by decide⟩
  simp [init]

/-- The page that `save_page` finishes holds the cells of the page under construction. -/
theorem Holds.saved (h : Holds fresh w done cur) {saved : List Page} {last : Option Page}
    (hat : w.column.At saved last)
    (hoffsets : ∀ k < cur.reduceOption.length, (last.getD (fresh saved.length)).u16 (4 + k * 2) =
      (cur.reduceOption.take (k + 1)).flatten.length) :
    ∃ p, (w.savePage fresh).column.At (saved ++ [p]) none ∧ VarcharPage p cur := by
  have hfits := h.fits
  have hpage := pageSize_eq
  have hlt := h.length_lt
  have hnn : cur.reduceOption.length ≤ cur.length := List.reduceOption_length_le _
  have hcount : (w.offsetEnd - 4) / 2 = cur.reduceOption.length := by
    rw [h.offsetEnd]
    omega
  have hbits : (w.bitmap.take ((w.numRows + 7) / 8)).length = (cur.length + 7) / 8 := by
    rw [List.length_take, h.numRows, h.length]
    omega
  have hsame : (w.numRows + 7) / 8 = (w.bitmap.take ((w.numRows + 7) / 8)).length := by
    rw [hbits, h.numRows]
  have hflags : HoldsFlags (w.bitmap.take ((w.numRows + 7) / 8)) (cur.map Option.isSome) :=
    h.flags.take (by rw [List.length_map, h.numRows])
  refine ⟨_, hat.updateNext _, ?_⟩
  rw [hcount, h.dataSize, h.data, h.offsetEnd]
  conv in pageSize - _ => rw [hsame]
  refine VarcharPage.of_bitmap ?_ ?_ (fun k hk => ?_) ?_ hbits hflags hfits
  · rw [h.numRows]
    exact (Block.word_write_disjoint _ (by omega)).trans (Page.numRows_setHeader _ (by omega))
  · exact (Block.word_write_disjoint _ (by omega)).trans (Page.numNonNull_setHeader _ (by omega))
  · rw [← hoffsets k hk]
    refine (Block.word_write_disjoint _ (by omega)).trans ?_
    rw [Block.word, Page.read_setHeader _ (by omega)]
    rfl
  · exact Block.read_write_same _ (by omega)

theorem Holds.savePage (h : Holds fresh w done cur) :
    Holds fresh (w.savePage fresh) (done ++ cur) [] := by
  obtain ⟨saved, last, hat, hpages, hoffsets, -⟩ := h.column
  obtain ⟨p, hat', hp⟩ := h.saved hat hoffsets
  exact ⟨⟨_, none, hat', hpages.snoc hp, by simp, fun _ => rfl⟩,
    rfl, rfl, rfl, rfl, h.length, .nil _, by decide⟩

theorem saveLongString_at {column : PageCursor} {saved : List Page} (hat : column.At saved none)
    (firstPage : Bool) (value : Bytes) :
    (saveLongString fresh column firstPage value).At
      (saved ++ longPages fresh saved.length firstPage value) none := by
  fun_induction saveLongString fresh column firstPage value generalizing saved with
  | case1 column firstPage value hzero =>
    rw [longPages, dif_pos hzero, List.append_nil]
    exact hat
  | case2 column firstPage value hne pageDataLen column' =>
    rename_i ih
    have hnext := ih (hat.updateNext _)
    rw [longPages, dif_neg hne]
    simpa using hnext

theorem Holds.insertLong (h : Holds fresh w done []) {value : Bytes} (hvalue : value.length ≠ 0) :
    Holds fresh { w with column := saveLongString fresh w.column true value }
      (done ++ [some value]) [] := by
  obtain ⟨saved, last, hat, hpages, -, hnone⟩ := h.column
  rw [hnone rfl] at hat
  refine ⟨⟨_, none, saveLongString_at hat true value, ?_, by simp, fun _ => rfl⟩, h.numRows,
    h.dataSize, h.offsetEnd, h.data, h.length, h.flags, h.fits⟩
  exact hpages.snoc_long (longPages_longString fresh _ hvalue)

section Insert

variable {value : Bytes}

theorem insert_of_long (hlong : value.length > pageSize - 7) :
    w.insert fresh value =
      let w := if w.numRows > 0 then w.savePage fresh else w
      { w with column := saveLongString fresh w.column true value } := by
  rw [StringInserter.insert, if_pos hlong]

theorem insert_of_room (hshort : ¬ value.length > pageSize - 7)
    (hroom : w.offsetEnd + 2 + w.dataSize + value.length + w.numRows / 8 + 1 ≤ pageSize) :
    w.insert fresh value =
      { column := w.column.update fresh fun page =>
          page.setU16 w.offsetEnd ((w.dataSize + value.length) % 65536)
        data := w.data.write w.dataSize value
        dataSize := (w.dataSize + value.length) % 65536
        offsetEnd := w.offsetEnd + 2
        bitmap := setFlag w.bitmap w.numRows
        numRows := (w.numRows + 1) % 65536 } := by
  rw [StringInserter.insert, if_neg hshort, if_neg (by omega)]

theorem insert_of_full (hshort : ¬ value.length > pageSize - 7)
    (hfull : w.offsetEnd + 2 + w.dataSize + value.length + w.numRows / 8 + 1 > pageSize) :
    w.insert fresh value = (w.savePage fresh).insert fresh value := by
  have hpage := pageSize_eq
  rw [StringInserter.insert, if_neg hshort, if_pos hfull, insert_of_room hshort]
  simp only [StringInserter.savePage]
  omega

theorem insertNull_of_room (hroom : w.offsetEnd + w.dataSize + w.numRows / 8 + 1 ≤ pageSize) :
    w.insertNull fresh = { w with
      bitmap := clearFlag w.bitmap w.numRows
      numRows := (w.numRows + 1) % 65536 } := by
  rw [StringInserter.insertNull, if_neg (by omega)]

theorem insertNull_of_full (hfull : w.offsetEnd + w.dataSize + w.numRows / 8 + 1 > pageSize) :
    w.insertNull fresh = (w.savePage fresh).insertNull fresh := by
  rw [StringInserter.insertNull, if_pos hfull, insertNull_of_room]
  simp only [StringInserter.savePage]
  decide

theorem Holds.push (h : Holds fresh w done cur) (hshort : ¬ value.length > pageSize - 7)
    (hroom : w.offsetEnd + 2 + w.dataSize + value.length + w.numRows / 8 + 1 ≤ pageSize) :
    Holds fresh (w.insert fresh value) done (cur ++ [some value]) := by
  have hpage := pageSize_eq
  have hlt := h.length_lt
  obtain ⟨saved, last, hat, hpages, hoffsets, -⟩ := h.column
  have hnew : (cur ++ [some value]).reduceOption = cur.reduceOption ++ [value] := by
    simp [List.reduceOption_append]
  have hflat : (cur.reduceOption ++ [value]).flatten = cur.reduceOption.flatten ++ value := by
    simp
  rw [insert_of_room hshort hroom]
  rw [h.offsetEnd, h.dataSize, h.numRows] at hroom
  have hsize : (w.dataSize + value.length) % 65536 =
      cur.reduceOption.flatten.length + value.length := by
    rw [h.dataSize, Nat.mod_eq_of_lt (by omega)]
  refine ⟨⟨saved, _, hat.update _, hpages, fun k hk => ?_, by simp⟩, ?_, ?_, ?_, ?_, ?_, ?_, ?_⟩
  · rw [hnew, List.length_append, List.length_singleton] at hk
    rw [hnew, hsize, h.offsetEnd, Option.getD_some]
    by_cases hlast : k = cur.reduceOption.length
    · subst hlast
      refine (Block.word_writeWord_same _ (by omega)).trans ?_
      rw [List.take_of_length_le (by simp), hflat, List.length_append]
      exact Nat.mod_eq_of_lt (by omega)
    · rw [List.take_append_of_le_length (by omega), ← hoffsets k (by omega)]
      exact Block.word_writeWord_disjoint _ (by omega)
  · simp only [h.numRows, List.length_append, List.length_singleton]
    omega
  · rw [hsize, hnew, hflat, List.length_append]
  · simp only [h.offsetEnd, hnew, List.length_append, List.length_singleton]
    omega
  · rw [hnew, hflat, h.dataSize]
    have hread := Block.read_write_append h.data
      (show 0 + cur.reduceOption.flatten.length + value.length ≤ pageSize by omega)
    rwa [Nat.zero_add] at hread
  · simp [h.length]
  · simpa [h.numRows] using h.flags.push_set (by rw [List.length_map, h.length]; omega)
  · rw [hnew, hflat, List.length_append, List.length_append, List.length_append,
      List.length_singleton, List.length_singleton]
    omega

theorem Holds.pushNull (h : Holds fresh w done cur)
    (hroom : w.offsetEnd + w.dataSize + w.numRows / 8 + 1 ≤ pageSize) :
    Holds fresh (w.insertNull fresh) done (cur ++ [none]) := by
  have hpage := pageSize_eq
  have hlt := h.length_lt
  have hnew : (cur ++ [none]).reduceOption = cur.reduceOption := by
    simp [List.reduceOption_append]
  obtain ⟨saved, last, hat, hpages, hoffsets, -⟩ := h.column
  rw [insertNull_of_room hroom]
  rw [h.offsetEnd, h.dataSize, h.numRows] at hroom
  refine ⟨⟨saved, last, hat, hpages, by rwa [hnew], by simp⟩, ?_, by rw [hnew, h.dataSize],
    by rw [hnew, h.offsetEnd], by rw [hnew, h.data], ?_, ?_, ?_⟩
  · simp only [h.numRows, List.length_append, List.length_singleton]
    omega
  · simp [h.length]
  · simpa [h.numRows] using h.flags.push_clear
  · rw [hnew, List.length_append, List.length_singleton]
    omega

theorem Holds.insert (h : Holds fresh w done cur) (value : Bytes) :
    ∃ done' cur', done' ++ cur' = done ++ cur ++ [some value] ∧
      Holds fresh (w.insert fresh value) done' cur' := by
  have hpage := pageSize_eq
  by_cases hlong : value.length > pageSize - 7
  · rw [insert_of_long hlong]
    split
    · exact ⟨done ++ cur ++ [some value], [], by simp, h.savePage.insertLong (by omega)⟩
    · next hzero =>
      have hnil : cur = [] := List.eq_nil_of_length_eq_zero (by rw [← h.numRows]; omega)
      subst hnil
      exact ⟨done ++ [some value], [], by simp, h.insertLong (by omega)⟩
  · by_cases hroom : w.offsetEnd + 2 + w.dataSize + value.length + w.numRows / 8 + 1 ≤ pageSize
    · exact ⟨done, cur ++ [some value], by simp, h.push hlong hroom⟩
    · refine ⟨done ++ cur, [some value], rfl, ?_⟩
      rw [insert_of_full hlong (by omega)]
      apply h.savePage.push hlong
      simp only [StringInserter.savePage]
      omega

theorem Holds.insertNull (h : Holds fresh w done cur) :
    ∃ done' cur', done' ++ cur' = done ++ cur ++ [none] ∧
      Holds fresh (w.insertNull fresh) done' cur' := by
  by_cases hroom : w.offsetEnd + w.dataSize + w.numRows / 8 + 1 ≤ pageSize
  · exact ⟨done, cur ++ [none], by simp, h.pushNull hroom⟩
  · refine ⟨done ++ cur, [none], rfl, ?_⟩
    rw [insertNull_of_full (by omega)]
    apply h.savePage.pushNull
    simp only [StringInserter.savePage]
    decide

end Insert

theorem Holds.finalize (h : Holds fresh w done cur) :
    VarcharPages (w.finalize fresh).column.pages (done ++ cur) := by
  have hclosed {w : StringInserter} {cells : List (Option Bytes)} (h : Holds fresh w cells []) :
      VarcharPages w.column.pages cells := by
    obtain ⟨saved, last, hat, hpages, -, hnone⟩ := h.column
    rw [hat.pages, hnone rfl, Option.toList_none, List.append_nil]
    exact hpages
  rw [StringInserter.finalize]
  split
  · exact hclosed h.savePage
  · next hzero =>
    have hnil : cur = [] := List.eq_nil_of_length_eq_zero (by rw [← h.numRows]; omega)
    subst hnil
    rw [List.append_nil]
    exact hclosed h

theorem run_holds (fresh : Nat → Page) (calls : List (Option Bytes)) :
    VarcharPages (run fresh calls) calls := by
  have hstep : ∀ (w : StringInserter) (done cur : List (Option Bytes)) (c : Option Bytes),
      Holds fresh w done cur → ∃ done' cur', done' ++ cur' = done ++ cur ++ [c] ∧
        Holds fresh (call fresh w c) done' cur' := by
    intro w done cur c h
    cases c with
    | none => exact h.insertNull
    | some value => exact h.insert value
  obtain ⟨done, cur, heq, h⟩ := foldl_writes hstep calls (holds_init fresh)
  have hpages := h.finalize
  rw [heq] at hpages
  exact hpages

end StringInserter

/-- For the two types of result columns the pages that an inserter fills decode to the calls, and
every region of every page has its own bytes. -/
theorem decodeColumn_inserted (fresh : Nat → Page) :
    (∀ calls : List (Option Int32),
      decodeColumn calls.length ⟨.INT32, ColumnInserter.run int32Type fresh calls⟩ =
          .ok (calls.map int32Type.cell) ∧
        ∀ p ∈ ColumnInserter.run int32Type fresh calls, p.FixedInside int32Type.size) ∧
    (∀ calls : List (Option Bytes),
      decodeColumn calls.length ⟨.VARCHAR, StringInserter.run fresh calls⟩ =
          .ok (calls.map varcharCell) ∧
        ∀ p ∈ StringInserter.run fresh calls, p.VarcharInside) := by
  constructor
  · intro calls
    have hpages := ColumnInserter.run_holds (T := int32Type) (Nat.le_refl 4) fresh calls
    have hdecode := decodeColumn_eq (.int32 hpages)
    rw [List.length_map] at hdecode
    exact ⟨hdecode, hpages.inside⟩
  · intro calls
    have hpages := StringInserter.run_holds fresh calls
    have hdecode := decodeColumn_eq (.varchar hpages)
    rw [List.length_map] at hdecode
    exact ⟨hdecode, hpages.inside⟩

end JoinOptimizer
