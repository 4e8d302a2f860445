import JoinOptimizer.Data
import JoinOptimizer.Lib.Sparse

/-! What the bytes of pages say: the cells of a page of values of a fixed size, of a page of
strings, of the pages of a long string, and of a whole column. -/

namespace JoinOptimizer

open Lib

/-- A run of bytes written over a page's bitmap. -/
theorem getBitmap_write (p : Page) {bs : Bytes} {i : Nat} (hi : i / 8 < bs.length)
    (hfit : bs.length ≤ pageSize) :
    getBitmap (p.write (pageSize - bs.length) bs) (pageSize - bs.length) i = flag bs i := by
  rw [getBitmap, flag, Block.byte_write, if_pos (by omega), Nat.add_sub_cancel_left]

/-- The header that `save_page` writes. -/
def Page.setHeader (p : Page) (numRows numNonNull : Nat) : Page :=
  (p.setU16 0 numRows).setU16 2 numNonNull

theorem Page.numRows_setHeader (p : Page) {r n : Nat} (h : r < 65536) :
    (p.setHeader r n).numRows = r := by
  have hsame : (p.setU16 0 r).word 0 2 = r % 256 ^ 2 :=
    Block.word_writeWord_same p (by decide)
  rw [numRows, u16, setHeader, setU16, Block.word_writeWord_disjoint _ (by omega), hsame]
  exact Nat.mod_eq_of_lt h

theorem Page.numNonNull_setHeader (p : Page) {r n : Nat} (h : n < 65536) :
    (p.setHeader r n).numNonNull = n := by
  have hsame : ((p.setU16 0 r).setU16 2 n).word 2 2 = n % 256 ^ 2 :=
    Block.word_writeWord_same _ (by decide)
  rw [numNonNull, u16, setHeader, hsame]
  exact Nat.mod_eq_of_lt h

theorem Page.read_setHeader (p : Page) {r n off len : Nat} (h : 4 ≤ off) :
    (p.setHeader r n).read off len = p.read off len := by
  rw [setHeader, setU16, setU16, Block.read_writeWord_disjoint _ (by omega),
    Block.read_writeWord_disjoint _ (by omega)]

/-- The characters on one page of a long string. -/
def Page.longChars (p : Page) : Bytes := p.read 4 p.numNonNull

/-- A page of a long string: its marker, and the characters behind their number. -/
def Page.setLong (p : Page) (mark : Nat) (chars : Bytes) : Page :=
  (p.setHeader mark chars.length).write 4 chars

theorem Page.numRows_setLong (p : Page) {mark : Nat} (h : mark < 65536) (chars : Bytes) :
    (p.setLong mark chars).numRows = mark :=
  (Block.word_write_disjoint _ (by omega)).trans (numRows_setHeader p h)

theorem Page.numNonNull_setLong (p : Page) {mark : Nat} {chars : Bytes}
    (h : 4 + chars.length ≤ pageSize) : (p.setLong mark chars).numNonNull = chars.length := by
  have := pageSize_eq
  exact (Block.word_write_disjoint _ (by omega)).trans (numNonNull_setHeader p (by omega))

theorem Page.longChars_setLong (p : Page) {mark : Nat} {chars : Bytes}
    (h : 4 + chars.length ≤ pageSize) : (p.setLong mark chars).longChars = chars := by
  rw [longChars, numNonNull_setLong p h]
  exact Block.read_write_same _ h

/-- The end offsets of strings that lie behind each other. -/
def endOffsets (strings : List Bytes) : List Nat :=
  (List.range strings.length).map fun k => (strings.take (k + 1)).flatten.length

theorem endOffsets_snoc (strings : List Bytes) (s : Bytes) :
    endOffsets (strings ++ [s]) =
      endOffsets strings ++ [strings.flatten.length + s.length] := by
  rw [endOffsets, endOffsets, List.length_append, List.length_singleton, List.range_succ,
    List.map_append]
  congr 1
  · refine List.map_congr_left fun k hk => ?_
    have hlt := List.mem_range.mp hk
    rw [List.take_append_of_le_length (by omega)]
  · rw [List.map_singleton, List.take_of_length_le (by simp), List.flatten_append]
    simp

/-- An offset read back from the bytes of all offsets. -/
theorem Page.u16_of_read {p : Page} {off : Nat} {offsets : List Nat}
    (h : p.read off (offsets.length * 2) = offsets.flatMap (leBytes 2)) {k : Nat}
    (hk : k < offsets.length) (hlt : offsets[k] < 65536) : p.u16 (off + k * 2) = offsets[k] := by
  have hlen := length_flatMap_uniform (length_leBytes 2) offsets
  rw [← hlen] at h
  rw [u16, Block.word, Block.read_sub h (by omega), slice_flatMap_uniform (length_leBytes 2) _ hk,
    leWord_leBytes]
  exact Nat.mod_eq_of_lt hlt

/-- The page `p` holds the cells `cs` of the fixed-size type `T`: the counts in the header, the
non-NULL values packed behind it, and a bitmap at the end of the page that tells which rows they
are. -/
structure FixedPage {α : Type} (T : FixedType α) (p : Page) (cs : List (Option α)) : Prop where
  rows : p.numRows = cs.length
  nonNull : p.numNonNull = cs.reduceOption.length
  values : p.read T.size (cs.reduceOption.length * T.size) = cs.reduceOption.flatMap T.bytes
  bits : ∀ i (h : i < cs.length), getBitmap p (bitmapBegin cs.length) i = cs[i].isSome
  fits : T.size + cs.reduceOption.length * T.size + (cs.length + 7) / 8 ≤ pageSize

namespace FixedPage

variable {α : Type} {T : FixedType α} {p : Page} {cs : List (Option α)}

/-- The `j`-th packed value. -/
theorem value (h : FixedPage T p cs) {j : Nat} (hj : j < cs.reduceOption.length) :
    T.ofBytes (p.read (T.size + j * T.size) T.size) = cs.reduceOption[j] := by
  have hlen := length_flatMap_uniform T.length_bytes cs.reduceOption
  have hmul := Nat.mul_le_mul_right T.size (show j + 1 ≤ cs.reduceOption.length from hj)
  rw [Nat.add_mul, Nat.one_mul] at hmul
  have hvalues := h.values
  rw [← hlen] at hvalues
  rw [Block.read_sub hvalues (by omega), slice_flatMap_uniform T.length_bytes _ hj,
    T.ofBytes_bytes]

/-- A row count never reaches the markers of a long string. -/
theorem length_lt (h : FixedPage T p cs) : cs.length < 0xfffe := by
  have := h.fits
  have := T.size_ge
  have := pageSize_eq
  omega

/-- A page with its header and values in place is whole once its bitmap is copied to its end. -/
theorem of_bitmap {bitmap : Bytes} (hrows : p.numRows = cs.length)
    (hnonNull : p.numNonNull = cs.reduceOption.length)
    (hvalues : p.read T.size (cs.reduceOption.length * T.size) = cs.reduceOption.flatMap T.bytes)
    (hlen : bitmap.length = (cs.length + 7) / 8)
    (hflags : HoldsFlags bitmap (cs.map Option.isSome))
    (hfits : T.size + cs.reduceOption.length * T.size + (cs.length + 7) / 8 ≤ pageSize) :
    FixedPage T (p.write (pageSize - bitmap.length) bitmap) cs := by
  have hsize := T.size_ge
  refine ⟨?_, ?_, ?_, fun i hi => ?_, hfits⟩
  · rw [← hrows]
    exact Block.word_write_disjoint p (by omega)
  · rw [← hnonNull]
    exact Block.word_write_disjoint p (by omega)
  · rw [← hvalues]
    exact Block.read_write_disjoint p (by omega)
  · have hflag := hflags i (by simpa using hi)
    rw [List.getElem_map] at hflag
    rw [bitmapBegin, ← hlen, getBitmap_write p (by omega) (by omega), hflag]

end FixedPage

/-- The page `p` holds the strings and NULLs `cs`: the counts in the header, the end offset of each
string, the characters, and the bitmap. -/
structure VarcharPage (p : Page) (cs : List (Option Bytes)) : Prop where
  rows : p.numRows = cs.length
  nonNull : p.numNonNull = cs.reduceOption.length
  offsets : ∀ k < cs.reduceOption.length,
    p.u16 (4 + k * 2) = (cs.reduceOption.take (k + 1)).flatten.length
  chars : p.read (4 + cs.reduceOption.length * 2) cs.reduceOption.flatten.length =
    cs.reduceOption.flatten
  bits : ∀ i (h : i < cs.length), getBitmap p (bitmapBegin cs.length) i = cs[i].isSome
  fits : 4 + cs.reduceOption.length * 2 + cs.reduceOption.flatten.length + (cs.length + 7) / 8 ≤
    pageSize

namespace VarcharPage

variable {p : Page} {cs : List (Option Bytes)}

theorem length_lt (h : VarcharPage p cs) : cs.length < 0xfffe := by
  have := h.fits
  have := pageSize_eq
  omega

theorem numRows_lt (h : VarcharPage p cs) : p.numRows < 0xfffe := by
  rw [h.rows]
  exact h.length_lt

theorem of_bitmap {bitmap : Bytes} (hrows : p.numRows = cs.length)
    (hnonNull : p.numNonNull = cs.reduceOption.length)
    (hoffsets : ∀ k < cs.reduceOption.length,
      p.u16 (4 + k * 2) = (cs.reduceOption.take (k + 1)).flatten.length)
    (hchars : p.read (4 + cs.reduceOption.length * 2) cs.reduceOption.flatten.length =
      cs.reduceOption.flatten)
    (hlen : bitmap.length = (cs.length + 7) / 8)
    (hflags : HoldsFlags bitmap (cs.map Option.isSome))
    (hfits : 4 + cs.reduceOption.length * 2 + cs.reduceOption.flatten.length +
      (cs.length + 7) / 8 ≤ pageSize) :
    VarcharPage (p.write (pageSize - bitmap.length) bitmap) cs := by
  refine ⟨?_, ?_, fun k hk => ?_, ?_, fun i hi => ?_, hfits⟩
  · rw [← hrows]
    exact Block.word_write_disjoint p (by omega)
  · rw [← hnonNull]
    exact Block.word_write_disjoint p (by omega)
  · rw [← hoffsets k hk]
    exact Block.word_write_disjoint p (by omega)
  · refine Eq.trans ?_ hchars
    exact Block.read_write_disjoint p (by omega)
  · have hflag := hflags i (by simpa using hi)
    rw [List.getElem_map] at hflag
    rw [bitmapBegin, ← hlen, getBitmap_write p (by omega) (by omega), hflag]

/-- Where the `j`-th string starts. -/
def start (cs : List (Option Bytes)) (j : Nat) : Nat := (cs.reduceOption.take j).flatten.length

/-- The `j`-th string ends where it starts and its length further. -/
theorem start_succ {j : Nat} (hj : j < cs.reduceOption.length) :
    start cs (j + 1) = start cs j + cs.reduceOption[j].length := by
  rw [start, List.take_succ_eq_append_getElem hj, List.flatten_append]
  simp [start]

theorem start_mono (cs : List (Option Bytes)) {i j : Nat} (hij : i ≤ j) : start cs i ≤ start cs j := by
  have h : cs.reduceOption.take i = (cs.reduceOption.take j).take i := by
    rw [List.take_take, Nat.min_eq_left hij]
  rw [start, start, h]
  conv_rhs => rw [← List.take_append_drop i (cs.reduceOption.take j)]
  rw [List.flatten_append, List.length_append]
  omega

theorem start_le (cs : List (Option Bytes)) (j : Nat) : start cs j ≤ cs.reduceOption.flatten.length := by
  rw [start]
  conv_rhs => rw [← List.take_append_drop j cs.reduceOption]
  rw [List.flatten_append, List.length_append]
  omega

/-- The characters between the start and the end offset of the `j`-th string. -/
theorem string (h : VarcharPage p cs) {j : Nat} (hj : j < cs.reduceOption.length) :
    p.read (4 + cs.reduceOption.length * 2 + start cs j) (cs.reduceOption[j]).length =
      cs.reduceOption[j] := by
  have hend := start_succ hj
  have hle := start_le cs (j + 1)
  rw [Block.read_sub h.chars (by omega)]
  exact slice_flatten _ hj

end VarcharPage

/-- The pages `ps` hold the long string `s`: one page marked 0xffff and then pages marked 0xfffe, each
with a part of the string. -/
inductive LongString : List Page → Bytes → Prop
  | mk {p : Page} {ps : List Page} (first : p.numRows = 0xffff)
      (rest : ∀ q ∈ ps, q.numRows = 0xfffe) (fits : ∀ q ∈ p :: ps, 4 + q.numNonNull ≤ pageSize) :
      LongString (p :: ps) ((p :: ps).flatMap Page.longChars)

/-- The pages that a long string is cut into: 0xffff on the first if it is the first of its string,
0xfffe on the others; the first of them is page `n` of its column. -/
def longPages (fresh : Nat → Page) (n : Nat) (firstPage : Bool) (data : Bytes) : List Page :=
  if _h : data.length = 0 then
    []
  else
    let pageDataLen := min data.length (pageSize - 4)
    (fresh n).setLong (if firstPage then 0xffff else 0xfffe) (data.take pageDataLen) ::
      longPages fresh (n + 1) false (data.drop pageDataLen)
  termination_by data.length
  decreasing_by
    have := pageSize_eq
    simp only [List.length_drop]
    omega

theorem longPages_spec (fresh : Nat → Page) (n : Nat) (firstPage : Bool) (data : Bytes) :
    (longPages fresh n firstPage data).flatMap Page.longChars = data ∧
      (∀ q ∈ longPages fresh n firstPage data, 4 + q.numNonNull ≤ pageSize) ∧
      (firstPage = false → ∀ q ∈ longPages fresh n firstPage data, q.numRows = 0xfffe) := by
  fun_induction longPages fresh n firstPage data with
  | case1 n firstPage data hzero =>
    exact ⟨(List.eq_nil_of_length_eq_zero hzero).symm, by simp, by simp⟩
  | case2 n firstPage data hne pageDataLen ih =>
    obtain ⟨hchars, hfits, hmarks⟩ := ih
    have hfit : 4 + (data.take pageDataLen).length ≤ pageSize := by
      have := pageSize_eq
      simp only [List.length_take, pageDataLen]
      omega
    refine ⟨?_, ?_, ?_⟩
    · rw [List.flatMap_cons, hchars, Page.longChars_setLong _ hfit, List.take_append_drop]
    · intro q hq
      rcases List.mem_cons.mp hq with rfl | hq
      · rw [Page.numNonNull_setLong _ hfit]
        exact hfit
      · exact hfits q hq
    · intro hfirst q hq
      rcases List.mem_cons.mp hq with rfl | hq
      · simp [hfirst, Page.numRows_setLong]
      · exact hmarks rfl q hq

theorem longPages_longString (fresh : Nat → Page) (n : Nat) {data : Bytes}
    (hdata : data.length ≠ 0) : LongString (longPages fresh n true data) data := by
  obtain ⟨hchars, hfits, -⟩ := longPages_spec fresh n true data
  have hrest := (longPages_spec fresh (n + 1) false
    (data.drop (min data.length (pageSize - 4)))).2.2 rfl
  rw [longPages, dif_neg hdata] at hchars hfits ⊢
  have hlong := LongString.mk (by simp [Page.numRows_setLong]) hrest hfits
  rwa [hchars] at hlong

/-- The pages of a column of a fixed-size type and the cells they hold. -/
inductive FixedPages {α : Type} (T : FixedType α) : List Page → List (Option α) → Prop
  | nil : FixedPages T [] []
  | page {p : Page} {cs : List (Option α)} {ps : List Page} {rest : List (Option α)} :
      FixedPage T p cs → FixedPages T ps rest → FixedPages T (p :: ps) (cs ++ rest)

/-- The pages of a column of strings and the cells they hold. -/
inductive VarcharPages : List Page → List (Option Bytes) → Prop
  | nil : VarcharPages [] []
  | page {p : Page} {cs : List (Option Bytes)} {ps : List Page} {rest : List (Option Bytes)} :
      VarcharPage p cs → VarcharPages ps rest → VarcharPages (p :: ps) (cs ++ rest)
  | long {qs : List Page} {s : Bytes} {ps : List Page} {rest : List (Option Bytes)} :
      LongString qs s → VarcharPages ps rest → VarcharPages (qs ++ ps) (some s :: rest)

/-- The header, the values and the bitmap of a page lie in it side by side. -/
def Page.FixedInside (size : Nat) (p : Page) : Prop :=
  4 ≤ size ∧ size + p.numNonNull * size + (p.numRows + 7) / 8 ≤ pageSize

/-- The end offset of the last string of a page. -/
def Page.charsLength (p : Page) : Nat :=
  if p.numNonNull = 0 then 0 else p.u16 (4 + (p.numNonNull - 1) * 2)

/-- The header, the offsets, the characters and the bitmap of a page of strings lie in it side by
side; the pages of a long string have only the header and characters. -/
def Page.VarcharInside (p : Page) : Prop :=
  if p.numRows < 0xfffe then
    4 + p.numNonNull * 2 + p.charsLength + (p.numRows + 7) / 8 ≤ pageSize
  else
    4 + p.numNonNull ≤ pageSize

theorem FixedPages.inside {α : Type} {T : FixedType α} {ps : List Page} {cs : List (Option α)}
    (h : FixedPages T ps cs) : ∀ p ∈ ps, p.FixedInside T.size := by
  induction h with
  | nil => simp
  | page hp _ ih =>
    intro q hq
    rcases List.mem_cons.mp hq with rfl | hq
    · refine ⟨T.size_ge, ?_⟩
      rw [hp.rows, hp.nonNull]
      exact hp.fits
    · exact ih q hq

theorem VarcharPage.inside {p : Page} {cs : List (Option Bytes)} (h : VarcharPage p cs) :
    p.VarcharInside := by
  have hfits := h.fits
  have hchars : p.charsLength ≤ cs.reduceOption.flatten.length := by
    rw [Page.charsLength, h.nonNull]
    split
    · omega
    · next hne =>
      rw [h.offsets _ (by omega)]
      exact VarcharPage.start_le cs _
  rw [Page.VarcharInside, if_pos h.numRows_lt, h.rows, h.nonNull]
  omega

theorem VarcharPages.inside {ps : List Page} {cs : List (Option Bytes)} (h : VarcharPages ps cs) :
    ∀ p ∈ ps, p.VarcharInside := by
  induction h with
  | nil => simp
  | page hp _ ih =>
    intro q hq
    rcases List.mem_cons.mp hq with rfl | hq
    · exact hp.inside
    · exact ih q hq
  | long hs _ ih =>
    intro q hq
    rcases List.mem_append.mp hq with hq | hq
    · obtain ⟨first, rest, fits⟩ := hs
      have hmark : ¬ q.numRows < 0xfffe := by
        rcases List.mem_cons.mp hq with rfl | hq
        · omega
        · have := rest q hq
          omega
      rw [Page.VarcharInside, if_neg hmark]
      exact fits q hq
    · exact ih q hq

theorem FixedPages.append {α : Type} {T : FixedType α} {ps qs : List Page}
    {as bs : List (Option α)} (h : FixedPages T ps as) (h' : FixedPages T qs bs) :
    FixedPages T (ps ++ qs) (as ++ bs) := by
  induction h with
  | nil => exact h'
  | page hp _ ih =>
    rw [List.cons_append, List.append_assoc]
    exact .page hp ih

theorem FixedPages.snoc {α : Type} {T : FixedType α} {ps : List Page} {as : List (Option α)}
    {p : Page} {cs : List (Option α)} (h : FixedPages T ps as) (hp : FixedPage T p cs) :
    FixedPages T (ps ++ [p]) (as ++ cs) := by
  have := h.append (.page hp .nil)
  rwa [List.append_nil] at this

theorem VarcharPages.eq_nil {ps : List Page} {cs : List (Option Bytes)} (h : VarcharPages ps cs)
    (hps : ps = []) : cs = [] := by
  cases h with
  | nil => rfl
  | page _ _ => exact absurd hps (by simp)
  | long hs _ =>
    obtain ⟨-, -, -⟩ := hs
    exact absurd hps (by simp)

theorem VarcharPages.append {ps qs : List Page} {as bs : List (Option Bytes)}
    (h : VarcharPages ps as) (h' : VarcharPages qs bs) :
    VarcharPages (ps ++ qs) (as ++ bs) := by
  induction h with
  | nil => exact h'
  | page hp _ ih =>
    rw [List.cons_append, List.append_assoc]
    exact .page hp ih
  | long hs _ ih =>
    rw [List.append_assoc, List.cons_append]
    exact .long hs ih

theorem VarcharPages.snoc {ps : List Page} {as : List (Option Bytes)} {p : Page}
    {cs : List (Option Bytes)} (h : VarcharPages ps as) (hp : VarcharPage p cs) :
    VarcharPages (ps ++ [p]) (as ++ cs) := by
  have := h.append (.page hp .nil)
  rwa [List.append_nil] at this

theorem VarcharPages.snoc_long {ps qs : List Page} {as : List (Option Bytes)} {s : Bytes}
    (h : VarcharPages ps as) (hs : LongString qs s) :
    VarcharPages (ps ++ qs) (as ++ [some s]) := by
  have := h.append (.long hs .nil)
  rwa [List.append_nil] at this

/-- A cell of a fixed-size type. -/
def FixedType.cell {α : Type} (T : FixedType α) : Option α → Data
  | some v => T.inject v
  | none => .monostate

theorem FixedType.cell_project {α : Type} {T : FixedType α} {d : Data} (h : d.HasType T.type) :
    T.cell (T.project d) = d := by
  by_cases hd : d = .monostate
  · rw [hd, T.project_monostate, cell]
  · obtain ⟨v, rfl⟩ := T.inject_project d h hd
    rw [T.project_inject, cell]

/-- A cell of a column of strings. -/
def varcharCell : Option Bytes → Data
  | some s => .string s
  | none => .monostate

/-- The column `c` holds the cells `cells`. -/
inductive Column.Holds : Column → List Data → Prop
  | int32 {ps : List Page} {cs : List (Option Int32)} : FixedPages int32Type ps cs →
      Holds ⟨.INT32, ps⟩ (cs.map int32Type.cell)
  | int64 {ps : List Page} {cs : List (Option Int64)} : FixedPages int64Type ps cs →
      Holds ⟨.INT64, ps⟩ (cs.map int64Type.cell)
  | fp64 {ps : List Page} {cs : List (Option UInt64)} : FixedPages fp64Type ps cs →
      Holds ⟨.FP64, ps⟩ (cs.map fp64Type.cell)
  | varchar {ps : List Page} {cs : List (Option Bytes)} : VarcharPages ps cs →
      Holds ⟨.VARCHAR, ps⟩ (cs.map varcharCell)

end JoinOptimizer
