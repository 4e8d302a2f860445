import JoinOptimizer.Page.Decode

/-! The encoder of pages in `src/build_table.cpp`: `Table::to_columnar`.  The bytes of a new page are
not initialised, so every function here takes them as an argument. -/

namespace JoinOptimizer

open Lib

/-- `while (bitmap.size() < idx / 8 + 1) bitmap.emplace_back(0)`. -/
def growBitmap (bitmap : Bytes) (idx : Nat) : Bytes :=
  bitmap ++ List.replicate (idx / 8 + 1 - bitmap.length) 0

/-- `set_bitmap`. -/
def setBitmap (bitmap : Bytes) (idx : Nat) : Bytes := setFlag (growBitmap bitmap idx) idx

/-- `unset_bitmap`. -/
def unsetBitmap (bitmap : Bytes) (idx : Nat) : Bytes := clearFlag (growBitmap bitmap idx) idx

/-- The bitmap of a page under construction: as many bytes as its rows need. -/
structure RowBitmap (bitmap : Bytes) (rows : List Bool) : Prop where
  length : bitmap.length = (rows.length + 7) / 8
  flags : HoldsFlags bitmap rows

namespace RowBitmap

variable {bitmap : Bytes} {rows : List Bool}

theorem nil : RowBitmap [] [] := ⟨rfl, .nil _⟩

theorem length_grow (h : RowBitmap bitmap rows) :
    (growBitmap bitmap rows.length).length = (rows.length + 1 + 7) / 8 := by
  have := h.length
  simp only [growBitmap, List.length_append, List.length_replicate]
  omega

theorem set (h : RowBitmap bitmap rows) :
    RowBitmap (setBitmap bitmap rows.length) (rows ++ [true]) := by
  have hlen := h.length_grow
  refine ⟨by simpa [setBitmap] using hlen, ?_⟩
  exact (h.flags.append_zeros _).push_set (by rw [← growBitmap]; omega)

theorem unset (h : RowBitmap bitmap rows) :
    RowBitmap (unsetBitmap bitmap rows.length) (rows ++ [false]) := by
  refine ⟨by simpa [unsetBitmap] using h.length_grow, ?_⟩
  exact (h.flags.append_zeros _).push_clear

end RowBitmap

/-- The locals of `to_columnar` for a column of a fixed-size type. -/
structure FixedWriter (α : Type) where
  pages : List Page
  numRows : Nat
  data : List α
  bitmap : Bytes

namespace FixedWriter

variable {α : Type}

def savePage (T : FixedType α) (fresh : Nat → Page) (w : FixedWriter α) : FixedWriter α where
  pages := w.pages ++
    [(((fresh w.pages.length).setHeader w.numRows w.data.length).write T.size
      (w.data.flatMap T.bytes)).write (pageSize - w.bitmap.length) w.bitmap]
  numRows := 0
  data := []
  bitmap := []

/-- A row whose cell has the column's type. -/
def insert (T : FixedType α) (fresh : Nat → Page) (w : FixedWriter α) (value : α) :
    FixedWriter α :=
  let w := if T.size + (w.data.length + 1) * T.size + (w.numRows / 8 + 1) > pageSize then
    w.savePage T fresh else w
  { w with
    numRows := (w.numRows + 1) % 65536
    data := w.data ++ [value]
    bitmap := setBitmap w.bitmap w.numRows }

/-- A row whose cell is NULL. -/
def insertNull (T : FixedType α) (fresh : Nat → Page) (w : FixedWriter α) : FixedWriter α :=
  let w := if T.size + w.data.length * T.size + (w.numRows / 8 + 1) > pageSize then
    w.savePage T fresh else w
  { w with
    numRows := (w.numRows + 1) % 65536
    bitmap := unsetBitmap w.bitmap w.numRows }

/-- The visitor of a cell; a cell of another type is passed over. -/
def visit (T : FixedType α) (fresh : Nat → Page) (w : FixedWriter α) (d : Data) : FixedWriter α :=
  if d = .monostate then
    w.insertNull T fresh
  else
    match T.project d with
    | some value => w.insert T fresh value
    | none => w

def finish (T : FixedType α) (fresh : Nat → Page) (w : FixedWriter α) : FixedWriter α :=
  if w.numRows ≠ 0 then w.savePage T fresh else w

/-- The pages saved hold the cells `done`, and the locals the cells `cur` of the next page. -/
structure Holds (T : FixedType α) (w : FixedWriter α) (done cur : List (Option α)) : Prop where
  pages : FixedPages T w.pages done
  numRows : w.numRows = cur.length
  data : w.data = cur.reduceOption
  bitmap : RowBitmap w.bitmap (cur.map Option.isSome)
  fits : T.size + cur.reduceOption.length * T.size + (cur.length + 7) / 8 ≤ pageSize

variable {T : FixedType α} {w : FixedWriter α} {done cur : List (Option α)} (fresh : Nat → Page)

theorem Holds.length_lt (h : Holds T w done cur) : cur.length < 65535 := by
  have := h.fits
  have := T.size_ge
  have := pageSize_eq
  omega

/-- The page that `save_page` adds holds the cells of the page under construction. -/
theorem Holds.saved (h : Holds T w done cur) :
    ∃ p, (w.savePage T fresh).pages = w.pages ++ [p] ∧ FixedPage T p cur := by
  have hfits := h.fits
  have hsize := T.size_ge
  have hpage := pageSize_eq
  have hlt := h.length_lt
  have hbitmap := h.bitmap.length
  rw [List.length_map] at hbitmap
  have hbytes := length_flatMap_uniform T.length_bytes cur.reduceOption
  have hnn : cur.reduceOption.length ≤ cur.length := List.reduceOption_length_le _
  refine ⟨_, rfl, ?_⟩
  rw [h.numRows, h.data]
  refine FixedPage.of_bitmap ?_ ?_ ?_ hbitmap h.bitmap.flags hfits
  · apply Eq.trans (Block.word_write_disjoint _ (by omega))
    exact Page.numRows_setHeader _ (by omega)
  · apply Eq.trans (Block.word_write_disjoint _ (by omega))
    exact Page.numNonNull_setHeader _ (by omega)
  · rw [← hbytes]
    exact Block.read_write_same _ (by omega)

theorem Holds.savePage (h : Holds T w done cur) :
    Holds T (w.savePage T fresh) (done ++ cur) [] := by
  have hsize := T.size_le
  have hpage := pageSize_eq
  obtain ⟨p, hpages, hp⟩ := h.saved fresh
  refine ⟨?_, rfl, rfl, .nil, by simp; omega⟩
  rw [hpages]
  exact h.pages.snoc hp

theorem insert_of_room {value : α}
    (hroom : T.size + (w.data.length + 1) * T.size + (w.numRows / 8 + 1) ≤ pageSize) :
    w.insert T fresh value = { w with
      numRows := (w.numRows + 1) % 65536
      data := w.data ++ [value]
      bitmap := setBitmap w.bitmap w.numRows } := by
  rw [FixedWriter.insert, if_neg (by omega)]

theorem insert_of_full {value : α}
    (hfull : T.size + (w.data.length + 1) * T.size + (w.numRows / 8 + 1) > pageSize) :
    w.insert T fresh value = (w.savePage T fresh).insert T fresh value := by
  have hsize := T.size_le
  have hpage := pageSize_eq
  rw [FixedWriter.insert, if_pos hfull, insert_of_room]
  simp only [FixedWriter.savePage, List.length_nil]
  omega

theorem insertNull_of_room
    (hroom : T.size + w.data.length * T.size + (w.numRows / 8 + 1) ≤ pageSize) :
    w.insertNull T fresh = { w with
      numRows := (w.numRows + 1) % 65536
      bitmap := unsetBitmap w.bitmap w.numRows } := by
  rw [FixedWriter.insertNull, if_neg (by omega)]

theorem insertNull_of_full
    (hfull : T.size + w.data.length * T.size + (w.numRows / 8 + 1) > pageSize) :
    w.insertNull T fresh = (w.savePage T fresh).insertNull T fresh := by
  have hsize := T.size_le
  have hpage := pageSize_eq
  rw [FixedWriter.insertNull, if_pos hfull, insertNull_of_room]
  simp only [FixedWriter.savePage, List.length_nil]
  omega

theorem Holds.push (h : Holds T w done cur) {value : α}
    (hroom : T.size + (w.data.length + 1) * T.size + (w.numRows / 8 + 1) ≤ pageSize) :
    Holds T (w.insert T fresh value) done (cur ++ [some value]) := by
  have hlt := h.length_lt
  rw [insert_of_room fresh hroom]
  rw [h.data, h.numRows] at hroom
  refine ⟨h.pages, ?_, ?_, ?_, ?_⟩
  · simp only [h.numRows, List.length_append, List.length_singleton]
    omega
  · simp [h.data, List.reduceOption_append]
  · simpa [h.numRows] using h.bitmap.set
  · simp only [List.reduceOption_append, List.length_append, List.reduceOption_singleton,
      Option.toList_some, List.length_singleton]
    omega

theorem Holds.pushNull (h : Holds T w done cur)
    (hroom : T.size + w.data.length * T.size + (w.numRows / 8 + 1) ≤ pageSize) :
    Holds T (w.insertNull T fresh) done (cur ++ [none]) := by
  have hlt := h.length_lt
  rw [insertNull_of_room fresh hroom]
  rw [h.data, h.numRows] at hroom
  refine ⟨h.pages, ?_, ?_, ?_, ?_⟩
  · simp only [h.numRows, List.length_append, List.length_singleton]
    omega
  · simp [h.data, List.reduceOption_append]
  · simpa [h.numRows] using h.bitmap.unset
  · simp only [List.reduceOption_append, List.length_append, List.reduceOption_singleton,
      Option.toList_none, List.length_nil, List.length_singleton, Nat.add_zero]
    omega

/-- A row goes to the page under construction if it fits there, and else to the next one. -/
theorem Holds.insert (h : Holds T w done cur) (value : α) :
    ∃ done' cur', done' ++ cur' = done ++ cur ++ [some value] ∧
      Holds T (w.insert T fresh value) done' cur' := by
  by_cases hroom : T.size + (w.data.length + 1) * T.size + (w.numRows / 8 + 1) ≤ pageSize
  · exact ⟨done, cur ++ [some value], by simp, h.push fresh hroom⟩
  · refine ⟨done ++ cur, [some value], rfl, ?_⟩
    rw [insert_of_full fresh (by omega)]
    refine (h.savePage fresh).push fresh ?_
    have := T.size_le
    have := pageSize_eq
    simp only [FixedWriter.savePage, List.length_nil]
    omega

theorem Holds.insertNull (h : Holds T w done cur) :
    ∃ done' cur', done' ++ cur' = done ++ cur ++ [none] ∧
      Holds T (w.insertNull T fresh) done' cur' := by
  by_cases hroom : T.size + w.data.length * T.size + (w.numRows / 8 + 1) ≤ pageSize
  · exact ⟨done, cur ++ [none], by simp, h.pushNull fresh hroom⟩
  · refine ⟨done ++ cur, [none], rfl, ?_⟩
    rw [insertNull_of_full fresh (by omega)]
    refine (h.savePage fresh).pushNull fresh ?_
    have := T.size_le
    have := pageSize_eq
    simp only [FixedWriter.savePage, List.length_nil]
    omega

theorem Holds.visit (h : Holds T w done cur) {d : Data} (hd : d.HasType T.type) :
    ∃ done' cur', done' ++ cur' = done ++ cur ++ [T.project d] ∧
      Holds T (w.visit T fresh d) done' cur' := by
  rw [FixedWriter.visit]
  split
  · next hnull =>
    rw [hnull, T.project_monostate]
    exact h.insertNull fresh
  · next hvalue =>
    obtain ⟨v, rfl⟩ := T.inject_project d hd hvalue
    rw [T.project_inject]
    exact h.insert fresh v

theorem Holds.finish (h : Holds T w done cur) :
    FixedPages T (w.finish T fresh).pages (done ++ cur) := by
  rw [FixedWriter.finish]
  split
  · exact (h.savePage fresh).pages
  · next hzero =>
    have hnil : cur = [] := List.eq_nil_of_length_eq_zero (by rw [← h.numRows]; omega)
    rw [hnil, List.append_nil]
    exact h.pages

end FixedWriter

/-- The locals of `to_columnar` for a column of strings. -/
structure VarcharWriter where
  pages : List Page
  numRows : Nat
  data : Bytes
  offsets : List Nat
  bitmap : Bytes

/-- The loop of `save_long_string`; `data` is the string from `offset` on. -/
def saveLongString (fresh : Nat → Page) (pages : List Page) (firstPage : Bool) (data : Bytes) :
    List Page :=
  if _h : data.length = 0 then
    pages
  else
    let pageDataLen := min data.length (pageSize - 4)
    let page := (fresh pages.length).setLong (if firstPage then 0xffff else 0xfffe)
      (data.take pageDataLen)
    saveLongString fresh (pages ++ [page]) false (data.drop pageDataLen)
  termination_by data.length
  decreasing_by
    have := pageSize_eq
    simp only [List.length_drop]
    omega

namespace VarcharWriter

def savePage (fresh : Nat → Page) (w : VarcharWriter) : VarcharWriter where
  pages := w.pages ++
    [((((fresh w.pages.length).setHeader w.numRows w.offsets.length).write 4
      (w.offsets.flatMap (leBytes 2))).write (4 + w.offsets.length * 2) w.data).write
      (pageSize - w.bitmap.length) w.bitmap]
  numRows := 0
  data := []
  offsets := []
  bitmap := []

def insert (fresh : Nat → Page) (w : VarcharWriter) (value : Bytes) : VarcharWriter :=
  if value.length > pageSize - 7 then
    let w := if w.numRows > 0 then w.savePage fresh else w
    { w with pages := saveLongString fresh w.pages true value }
  else
    let w := if 4 + (w.offsets.length + 1) * 2 + (w.data.length + value.length) +
        (w.numRows / 8 + 1) > pageSize then
      w.savePage fresh else w
    { w with
      numRows := (w.numRows + 1) % 65536
      data := w.data ++ value
      offsets := w.offsets ++ [(w.data ++ value).length % 65536]
      bitmap := setBitmap w.bitmap w.numRows }

def insertNull (fresh : Nat → Page) (w : VarcharWriter) : VarcharWriter :=
  let w := if 4 + w.offsets.length * 2 + w.data.length + (w.numRows / 8 + 1) > pageSize then
    w.savePage fresh else w
  { w with
    numRows := (w.numRows + 1) % 65536
    bitmap := unsetBitmap w.bitmap w.numRows }

def visit (fresh : Nat → Page) (w : VarcharWriter) : Data → Result VarcharWriter
  | .string value => .ok (w.insert fresh value)
  | .monostate => .ok (w.insertNull fresh)
  | _ => .error (.runtimeError "not string or null")

def finish (fresh : Nat → Page) (w : VarcharWriter) : VarcharWriter :=
  if w.numRows ≠ 0 then w.savePage fresh else w

/-- The pages saved hold the cells `done`, and the locals the cells `cur` of the next page. -/
structure Holds (w : VarcharWriter) (done cur : List (Option Bytes)) : Prop where
  pages : VarcharPages w.pages done
  numRows : w.numRows = cur.length
  data : w.data = cur.reduceOption.flatten
  offsets : w.offsets = endOffsets cur.reduceOption
  bitmap : RowBitmap w.bitmap (cur.map Option.isSome)
  fits : 4 + cur.reduceOption.length * 2 + cur.reduceOption.flatten.length +
    (cur.length + 7) / 8 ≤ pageSize

variable {w : VarcharWriter} {done cur : List (Option Bytes)} (fresh : Nat → Page)

theorem Holds.length_lt (h : Holds w done cur) : cur.length < 65535 := by
  have := h.fits
  have := pageSize_eq
  omega

/-- The page that `save_page` adds holds the cells of the page under construction. -/
theorem Holds.saved (h : Holds w done cur) :
    ∃ p, (w.savePage fresh).pages = w.pages ++ [p] ∧ VarcharPage p cur := by
  have hfits := h.fits
  have hpage := pageSize_eq
  have hlt := h.length_lt
  have hbitmap := h.bitmap.length
  rw [List.length_map] at hbitmap
  have hnn : cur.reduceOption.length ≤ cur.length := List.reduceOption_length_le _
  have hoffsets : (endOffsets cur.reduceOption).length = cur.reduceOption.length := by
    simp [endOffsets]
  have hbytes := length_flatMap_uniform (length_leBytes 2) (endOffsets cur.reduceOption)
  refine ⟨_, rfl, ?_⟩
  rw [h.numRows, h.data, h.offsets]
  refine VarcharPage.of_bitmap ?_ ?_ (fun k hk => ?_) ?_ hbitmap h.bitmap.flags hfits
  · apply Eq.trans (Block.word_write_disjoint _ (by omega))
    apply Eq.trans (Block.word_write_disjoint _ (by omega))
    exact Page.numRows_setHeader _ (by omega)
  · apply Eq.trans (Block.word_write_disjoint _ (by omega))
    apply Eq.trans (Block.word_write_disjoint _ (by omega))
    exact (Page.numNonNull_setHeader _ (by omega)).trans hoffsets
  · have hk' : k < (endOffsets cur.reduceOption).length := by omega
    have hend : (endOffsets cur.reduceOption)[k] =
        (cur.reduceOption.take (k + 1)).flatten.length := by simp [endOffsets]
    have hle := VarcharPage.start_le cur (k + 1)
    rw [← hend]
    refine Page.u16_of_read ?_ hk' (by rw [hend, ← VarcharPage.start]; omega)
    rw [← hbytes]
    apply Eq.trans (Block.read_write_disjoint _ (by omega))
    exact Block.read_write_same _ (by omega)
  · rw [hoffsets]
    exact Block.read_write_same _ (by omega)

theorem Holds.savePage (h : Holds w done cur) : Holds (w.savePage fresh) (done ++ cur) [] := by
  obtain ⟨p, hpages, hp⟩ := h.saved fresh
  refine ⟨?_, rfl, rfl, rfl, .nil, by decide⟩
  rw [hpages]
  exact h.pages.snoc hp

end VarcharWriter

theorem saveLongString_eq (fresh : Nat → Page) (pages : List Page) (firstPage : Bool)
    (data : Bytes) : saveLongString fresh pages firstPage data =
      pages ++ longPages fresh pages.length firstPage data := by
  fun_induction saveLongString fresh pages firstPage data with
  | case1 pages firstPage data hzero => rw [longPages, dif_pos hzero, List.append_nil]
  | case2 pages firstPage data hne pageDataLen page ih =>
    rw [longPages, dif_neg hne, ih]
    simp [page, pageDataLen]

namespace VarcharWriter

variable {w : VarcharWriter} {done cur : List (Option Bytes)} (fresh : Nat → Page)

theorem Holds.insertLong (h : Holds w done []) {value : Bytes} (hvalue : value.length ≠ 0) :
    Holds { w with pages := saveLongString fresh w.pages true value } (done ++ [some value]) [] := by
  refine ⟨?_, h.numRows, h.data, h.offsets, h.bitmap, h.fits⟩
  rw [saveLongString_eq]
  exact h.pages.snoc_long (longPages_longString fresh _ hvalue)

section Insert

variable {value : Bytes}

theorem insert_of_long (hlong : value.length > pageSize - 7) :
    w.insert fresh value =
      let w := if w.numRows > 0 then w.savePage fresh else w
      { w with pages := saveLongString fresh w.pages true value } := by
  rw [VarcharWriter.insert, if_pos hlong]

theorem insert_of_room (hshort : ¬ value.length > pageSize - 7)
    (hroom : 4 + (w.offsets.length + 1) * 2 + (w.data.length + value.length) +
      (w.numRows / 8 + 1) ≤ pageSize) :
    w.insert fresh value = { w with
      numRows := (w.numRows + 1) % 65536
      data := w.data ++ value
      offsets := w.offsets ++ [(w.data ++ value).length % 65536]
      bitmap := setBitmap w.bitmap w.numRows } := by
  rw [VarcharWriter.insert, if_neg hshort, if_neg (by omega)]

theorem insert_of_full (hshort : ¬ value.length > pageSize - 7)
    (hfull : 4 + (w.offsets.length + 1) * 2 + (w.data.length + value.length) +
      (w.numRows / 8 + 1) > pageSize) :
    w.insert fresh value = (w.savePage fresh).insert fresh value := by
  have hpage := pageSize_eq
  rw [VarcharWriter.insert, if_neg hshort, if_pos hfull, insert_of_room fresh hshort]
  simp only [VarcharWriter.savePage, List.length_nil]
  omega

theorem insertNull_of_room
    (hroom : 4 + w.offsets.length * 2 + w.data.length + (w.numRows / 8 + 1) ≤ pageSize) :
    w.insertNull fresh = { w with
      numRows := (w.numRows + 1) % 65536
      bitmap := unsetBitmap w.bitmap w.numRows } := by
  rw [VarcharWriter.insertNull, if_neg (by omega)]

theorem insertNull_of_full
    (hfull : 4 + w.offsets.length * 2 + w.data.length + (w.numRows / 8 + 1) > pageSize) :
    w.insertNull fresh = (w.savePage fresh).insertNull fresh := by
  rw [VarcharWriter.insertNull, if_pos hfull, insertNull_of_room]
  simp only [VarcharWriter.savePage, List.length_nil]
  decide

theorem Holds.push (h : Holds w done cur) (hshort : ¬ value.length > pageSize - 7)
    (hroom : 4 + (w.offsets.length + 1) * 2 + (w.data.length + value.length) +
      (w.numRows / 8 + 1) ≤ pageSize) :
    Holds (w.insert fresh value) done (cur ++ [some value]) := by
  have hpage := pageSize_eq
  have hlt := h.length_lt
  have hoffsets : w.offsets.length = cur.reduceOption.length := by simp [h.offsets, endOffsets]
  have hdata : w.data.length = cur.reduceOption.flatten.length := by rw [h.data]
  have hrows := h.numRows
  rw [insert_of_room fresh hshort hroom]
  refine ⟨h.pages, ?_, ?_, ?_, ?_, ?_⟩
  · simp only [hrows, List.length_append, List.length_singleton]
    omega
  · simp [h.data, List.reduceOption_append]
  · simp only [List.reduceOption_append, List.reduceOption_singleton, Option.toList_some,
      endOffsets_snoc, h.offsets, List.length_append, hdata]
    rw [Nat.mod_eq_of_lt (by omega)]
  · simpa [h.numRows] using h.bitmap.set
  · simp only [List.reduceOption_append, List.length_append, List.reduceOption_singleton,
      Option.toList_some, List.length_singleton, List.flatten_append, List.flatten_singleton]
    omega

theorem Holds.pushNull (h : Holds w done cur)
    (hroom : 4 + w.offsets.length * 2 + w.data.length + (w.numRows / 8 + 1) ≤ pageSize) :
    Holds (w.insertNull fresh) done (cur ++ [none]) := by
  have hpage := pageSize_eq
  have hlt := h.length_lt
  have hoffsets : w.offsets.length = cur.reduceOption.length := by simp [h.offsets, endOffsets]
  have hdata : w.data.length = cur.reduceOption.flatten.length := by rw [h.data]
  have hrows := h.numRows
  rw [insertNull_of_room fresh hroom]
  refine ⟨h.pages, ?_, ?_, ?_, ?_, ?_⟩
  · simp only [hrows, List.length_append, List.length_singleton]
    omega
  · simp [h.data, List.reduceOption_append]
  · simp [h.offsets, List.reduceOption_append]
  · simpa [h.numRows] using h.bitmap.unset
  · simp only [List.reduceOption_append, List.length_append, List.reduceOption_singleton,
      Option.toList_none, List.length_singleton, List.append_nil]
    omega

theorem Holds.insert (h : Holds w done cur) (value : Bytes) :
    ∃ done' cur', done' ++ cur' = done ++ cur ++ [some value] ∧
      Holds (w.insert fresh value) done' cur' := by
  have hpage := pageSize_eq
  by_cases hlong : value.length > pageSize - 7
  · rw [insert_of_long fresh hlong]
    split
    · exact ⟨done ++ cur ++ [some value], [], by simp, (h.savePage fresh).insertLong fresh (by omega)⟩
    · next hzero =>
      have hnil : cur = [] := List.eq_nil_of_length_eq_zero (by rw [← h.numRows]; omega)
      subst hnil
      exact ⟨done ++ [some value], [], by simp, h.insertLong fresh (by omega)⟩
  · by_cases hroom : 4 + (w.offsets.length + 1) * 2 + (w.data.length + value.length) +
        (w.numRows / 8 + 1) ≤ pageSize
    · exact ⟨done, cur ++ [some value], by simp, h.push fresh hlong hroom⟩
    · refine ⟨done ++ cur, [some value], rfl, ?_⟩
      rw [insert_of_full fresh hlong (by omega)]
      refine (h.savePage fresh).push fresh hlong ?_
      simp only [VarcharWriter.savePage, List.length_nil]
      omega

theorem Holds.insertNull (h : Holds w done cur) :
    ∃ done' cur', done' ++ cur' = done ++ cur ++ [none] ∧
      Holds (w.insertNull fresh) done' cur' := by
  by_cases hroom : 4 + w.offsets.length * 2 + w.data.length + (w.numRows / 8 + 1) ≤ pageSize
  · exact ⟨done, cur ++ [none], by simp, h.pushNull fresh hroom⟩
  · refine ⟨done ++ cur, [none], rfl, ?_⟩
    rw [insertNull_of_full fresh (by omega)]
    refine (h.savePage fresh).pushNull fresh ?_
    simp only [VarcharWriter.savePage, List.length_nil]
    decide

end Insert

/-- The string of a cell. -/
def project : Data → Option Bytes
  | .string value => some value
  | _ => none

theorem Holds.visit (h : Holds w done cur) {d : Data} (hd : d.HasType .VARCHAR) :
    ∃ w' done' cur', w.visit fresh d = .ok w' ∧
      done' ++ cur' = done ++ cur ++ [project d] ∧ Holds w' done' cur' := by
  cases d with
  | string value =>
    obtain ⟨done', cur', heq, h'⟩ := h.insert fresh value
    exact ⟨_, done', cur', rfl, heq, h'⟩
  | monostate =>
    obtain ⟨done', cur', heq, h'⟩ := h.insertNull fresh
    exact ⟨_, done', cur', rfl, heq, h'⟩
  | int32 | int64 | fp64 => exact absurd hd (by simp [Data.HasType])

theorem Holds.finish (h : Holds w done cur) :
    VarcharPages (w.finish fresh).pages (done ++ cur) := by
  rw [VarcharWriter.finish]
  split
  · exact (h.savePage fresh).pages
  · next hzero =>
    have hnil : cur = [] := List.eq_nil_of_length_eq_zero (by rw [← h.numRows]; omega)
    rw [hnil, List.append_nil]
    exact h.pages

end VarcharWriter

section Short

variable {w : VarcharWriter} {done cur : List (Option Bytes)} (fresh : Nat → Page)

/-- None of the pages saved is a page of a long string. -/
def VarcharWriter.Short (w : VarcharWriter) : Prop := ∀ p ∈ w.pages, p.numRows < 0xfffe

theorem VarcharWriter.Holds.savePage_short (h : w.Holds done cur) (hshort : w.Short) :
    (w.savePage fresh).Short := by
  obtain ⟨q, hpages, hq⟩ := h.saved fresh
  intro p hp
  rw [hpages] at hp
  rcases List.mem_append.mp hp with hp | hp
  · exact hshort p hp
  · rw [List.mem_singleton.mp hp]
    exact hq.numRows_lt

theorem VarcharWriter.Holds.finish_short (h : w.Holds done cur) (hshort : w.Short) :
    (w.finish fresh).Short := by
  rw [VarcharWriter.finish]
  split
  · exact h.savePage_short fresh hshort
  · exact hshort

theorem VarcharWriter.Holds.visit_short (h : w.Holds done cur) (hshort : w.Short) {d : Data}
    (hd : ∀ s, d = .string s → s.length ≤ pageSize - 7) {w' : VarcharWriter}
    (hvisit : w.visit fresh d = .ok w') : w'.Short := by
  have hsaved := h.savePage_short fresh hshort
  cases d with
  | string value =>
    cases hvisit
    have hvalue := hd value rfl
    rw [VarcharWriter.insert, if_neg (by omega)]
    split
    · exact hsaved
    · exact hshort
  | monostate =>
    cases hvisit
    rw [VarcharWriter.insertNull]
    split
    · exact hsaved
    · exact hshort
  | int32 | int64 | fp64 => cases hvisit

end Short

/-- The pages of a column of a fixed-size type. -/
def encodeFixed {α : Type} (T : FixedType α) (fresh : Nat → Page) (data : List (List Data))
    (colIdx : Nat) : Result (List Page) := do
  let w ← data.foldlM (fun w record => do .ok (w.visit T fresh (← index record colIdx)))
    (⟨[], 0, [], []⟩ : FixedWriter α)
  .ok (w.finish T fresh).pages

/-- The pages of a column of strings. -/
def encodeVarchar (fresh : Nat → Page) (data : List (List Data)) (colIdx : Nat) :
    Result (List Page) := do
  let w ← data.foldlM (fun w record => do w.visit fresh (← index record colIdx))
    (⟨[], 0, [], [], []⟩ : VarcharWriter)
  .ok (w.finish fresh).pages

/-- The body of the loop of `to_columnar` over the types of a table. -/
def encodeColumn (fresh : Nat → Page) (data : List (List Data)) (colIdx : Nat)
    (type : DataType) : Result Column := do
  let pages ← match type with
    | .INT32 => encodeFixed int32Type fresh data colIdx
    | .INT64 => encodeFixed int64Type fresh data colIdx
    | .FP64 => encodeFixed fp64Type fresh data colIdx
    | .VARCHAR => encodeVarchar fresh data colIdx
  .ok ⟨type, pages⟩

/-- `Table::to_columnar`; `fresh i` are the bytes that the new pages of column `i` start with. -/
def toColumnar (fresh : Nat → Nat → Page) (t : Table) : Result ColumnarTable := do
  let columns ← t.types.zipIdx.mapM fun (type, colIdx) =>
    encodeColumn (fresh colIdx) t.data colIdx type
  .ok ⟨t.data.length, columns⟩

section Columns

variable (fresh : Nat → Page) {data : List (List Data)} {colIdx : Nat}

theorem encodeFixed_holds {α : Type} {T : FixedType α}
    (h : ∀ record ∈ data, ∃ d, record[colIdx]? = some d ∧ d.HasType T.type) :
    ∃ pages, encodeFixed T fresh data colIdx = .ok pages ∧
      FixedPages T pages (data.map fun record => T.project (record.getD colIdx .monostate)) := by
  have hstart : FixedWriter.Holds T ⟨[], 0, [], []⟩ [] [] :=
    ⟨.nil, rfl, rfl, .nil, by have := T.size_le; have := pageSize_eq; simp; omega⟩
  obtain ⟨w, hrun, done, cur, heq, hw⟩ := foldlM_total
    (f := fun w record => do .ok (w.visit T fresh (← index record colIdx)))
    (P := fun pre w => ∃ done cur,
      done ++ cur = pre.map (fun record => T.project (record.getD colIdx .monostate)) ∧
        FixedWriter.Holds T w done cur)
    data ⟨[], 0, [], []⟩ ⟨[], [], rfl, hstart⟩ fun pre record w hmem hP => by
      obtain ⟨done, cur, heq, hw⟩ := hP
      obtain ⟨d, hget, hd⟩ := h record hmem
      obtain ⟨done', cur', heq', hw'⟩ := hw.visit fresh hd
      rw [index_eq_ok.mpr hget]
      refine ⟨_, rfl, done', cur', ?_, hw'⟩
      simp [heq', heq, List.getD_eq_getElem?_getD, hget]
  refine ⟨_, by rw [encodeFixed, hrun, ok_bind], ?_⟩
  rw [← heq]
  exact hw.finish fresh

theorem encodeVarchar_holds
    (h : ∀ record ∈ data, ∃ d, record[colIdx]? = some d ∧ d.HasType .VARCHAR) :
    ∃ pages, encodeVarchar fresh data colIdx = .ok pages ∧
      VarcharPages pages
        (data.map fun record => VarcharWriter.project (record.getD colIdx .monostate)) := by
  have hstart : VarcharWriter.Holds ⟨[], 0, [], [], []⟩ [] [] :=
    ⟨.nil, rfl, rfl, rfl, .nil, by decide⟩
  obtain ⟨w, hrun, done, cur, heq, hw⟩ := foldlM_total
    (f := fun w record => do w.visit fresh (← index record colIdx))
    (P := fun pre w => ∃ done cur,
      done ++ cur =
          pre.map (fun record => VarcharWriter.project (record.getD colIdx .monostate)) ∧
        VarcharWriter.Holds w done cur)
    data ⟨[], 0, [], [], []⟩ ⟨[], [], rfl, hstart⟩ fun pre record w hmem hP => by
      obtain ⟨done, cur, heq, hw⟩ := hP
      obtain ⟨d, hget, hd⟩ := h record hmem
      obtain ⟨w', done', cur', hvisit, heq', hw'⟩ := hw.visit fresh hd
      rw [index_eq_ok.mpr hget]
      refine ⟨w', hvisit, done', cur', ?_, hw'⟩
      simp [heq', heq, List.getD_eq_getElem?_getD, hget]
  refine ⟨_, by rw [encodeVarchar, hrun, ok_bind], ?_⟩
  rw [← heq]
  exact hw.finish fresh

/-- Strings that fit on a page make no page of a long string. -/
theorem encodeVarchar_short
    (h : ∀ record ∈ data, ∃ d, record[colIdx]? = some d ∧ d.HasType .VARCHAR)
    (hshort : ∀ record ∈ data, ∀ s, record[colIdx]? = some (.string s) → s.length ≤ pageSize - 7)
    {pages : List Page} (hpages : encodeVarchar fresh data colIdx = .ok pages) :
    ∀ p ∈ pages, p.numRows < 0xfffe := by
  have hstart : VarcharWriter.Holds ⟨[], 0, [], [], []⟩ [] [] :=
    ⟨.nil, rfl, rfl, rfl, .nil, by decide⟩
  obtain ⟨w, hrun, ⟨done, cur, hw⟩, hwshort⟩ := foldlM_total
    (f := fun w record => do w.visit fresh (← index record colIdx))
    (P := fun _ w => (∃ done cur, VarcharWriter.Holds w done cur) ∧ w.Short)
    data ⟨[], 0, [], [], []⟩ ⟨⟨[], [], hstart⟩, by simp [VarcharWriter.Short]⟩
    fun pre record w hmem hP => by
      obtain ⟨⟨done, cur, hw⟩, hwshort⟩ := hP
      obtain ⟨d, hget, hd⟩ := h record hmem
      obtain ⟨w', done', cur', hvisit, -, hw'⟩ := hw.visit fresh hd
      rw [index_eq_ok.mpr hget]
      refine ⟨w', hvisit, ⟨done', cur', hw'⟩, hw.visit_short fresh hwshort ?_ hvisit⟩
      rintro s rfl
      exact hshort record hmem s hget
  rw [encodeVarchar, hrun, ok_bind] at hpages
  cases hpages
  exact hw.finish_short fresh hwshort

/-- The encoder of a column fails on no cell of the column's type, and its pages hold the cells. -/
theorem encodeColumn_holds {type : DataType}
    (h : ∀ record ∈ data, ∃ d, record[colIdx]? = some d ∧ d.HasType type) :
    ∃ pages, encodeColumn fresh data colIdx type = .ok ⟨type, pages⟩ ∧
      Column.Holds ⟨type, pages⟩ (data.map fun record => record.getD colIdx .monostate) := by
  have hcell {record} (hrecord : record ∈ data) :
      (record.getD colIdx .monostate).HasType type := by
    obtain ⟨d, hget, hd⟩ := h record hrecord
    rwa [List.getD_eq_getElem?_getD, hget]
  have hcells {α : Type} (cell : α → Data) (project : Data → α)
      (hinv : ∀ d, d.HasType type → cell (project d) = d) :
      (data.map fun record => project (record.getD colIdx .monostate)).map cell =
        data.map fun record => record.getD colIdx .monostate := by
    rw [List.map_map]
    exact List.map_congr_left fun record hrecord => hinv _ (hcell hrecord)
  cases type with
  | INT32 =>
    obtain ⟨pages, hrun, hpages⟩ := encodeFixed_holds fresh (T := int32Type) h
    refine ⟨pages, by rw [encodeColumn, hrun, ok_bind], ?_⟩
    rw [← hcells int32Type.cell int32Type.project fun d hd => int32Type.cell_project hd]
    exact .int32 hpages
  | INT64 =>
    obtain ⟨pages, hrun, hpages⟩ := encodeFixed_holds fresh (T := int64Type) h
    refine ⟨pages, by rw [encodeColumn, hrun, ok_bind], ?_⟩
    rw [← hcells int64Type.cell int64Type.project fun d hd => int64Type.cell_project hd]
    exact .int64 hpages
  | FP64 =>
    obtain ⟨pages, hrun, hpages⟩ := encodeFixed_holds fresh (T := fp64Type) h
    refine ⟨pages, by rw [encodeColumn, hrun, ok_bind], ?_⟩
    rw [← hcells fp64Type.cell fp64Type.project fun d hd => fp64Type.cell_project hd]
    exact .fp64 hpages
  | VARCHAR =>
    obtain ⟨pages, hrun, hpages⟩ := encodeVarchar_holds fresh h
    refine ⟨pages, by rw [encodeColumn, hrun, ok_bind], ?_⟩
    rw [← hcells varcharCell VarcharWriter.project fun d hd => by cases d <;> simp_all
      [Data.HasType, varcharCell, VarcharWriter.project]]
    exact .varchar hpages

end Columns

theorem toColumnar_holds (fresh : Nat → Nat → Page) {t : Table} (h : t.WellTyped) :
    ∃ ct, toColumnar fresh t = .ok ct ∧ ct.Holds t := by
  have hcolumn (i : Nat) (hi : i < t.types.length) :
      ∃ pages, encodeColumn (fresh i) t.data i t.types[i] = .ok ⟨t.types[i], pages⟩ ∧
        Column.Holds ⟨t.types[i], pages⟩ (t.data.map fun record => record.getD i .monostate) := by
    refine encodeColumn_holds (fresh i) fun record hrecord => ?_
    have hrec := h record hrecord
    have hlt : i < record.length := by rw [hrec.length_eq]; exact hi
    exact ⟨record[i], List.getElem?_eq_getElem hlt, hrec.get hlt hi⟩
  choose pages hrun hholds using hcolumn
  let columns : List Column :=
    List.ofFn fun i : Fin t.types.length => ⟨t.types[i], pages i i.isLt⟩
  have hmap : (t.types.zipIdx.mapM fun (type, colIdx) =>
      encodeColumn (fresh colIdx) t.data colIdx type) = .ok columns := by
    rw [mapM_eq_ok_iff, List.forall₂_iff_get]
    refine ⟨by simp [columns], fun i hi hi' => ?_⟩
    have hlt : i < t.types.length := by simpa using hi
    simpa [columns] using hrun i hlt
  refine ⟨⟨t.data.length, columns⟩, by rw [toColumnar, hmap, ok_bind], rfl, by simp [columns], ?_⟩
  intro i hi
  have hlt : i < t.types.length := by simpa [columns] using hi
  exact ⟨by simp [columns], by simpa [columns] using hholds i hlt⟩

/-- Decoding the pages of a table gives the table back. -/
theorem fromColumnar_toColumnar (fresh : Nat → Nat → Page) (t : Table) (h : t.WellTyped) :
    (toColumnar fresh t >>= fromColumnar) = .ok t := by
  obtain ⟨ct, hct, hholds⟩ := toColumnar_holds fresh h
  rw [hct, ok_bind]
  exact fromColumnar_eq hholds fun record hrecord => (h record hrecord).length_eq

theorem fromColumnar_toColumnar_mixed :
    (toColumnar (fun _ _ => ⟨fun _ => 0xaa⟩)
        ⟨[[.int32 (-1), .string []], [.monostate, .string [65]]],
          [.INT32, .VARCHAR]⟩ >>= fromColumnar) =
      .ok ⟨[[.int32 (-1), .string []], [.monostate, .string [65]]],
        [.INT32, .VARCHAR]⟩ :=
  fromColumnar_toColumnar _ _ (by simp [Table.WellTyped, Data.HasType])

end JoinOptimizer
