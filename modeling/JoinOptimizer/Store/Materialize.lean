import JoinOptimizer.Page.Inserter
import JoinOptimizer.Store.Column
import JoinOptimizer.Lib.Search
import Mathlib.Order.Bounds.Basic

/-! `to_columnar_from_column` of `src/column_store.cpp` with `print_varchar` of `src/late.cpp`: the
values of a column are looked up where they point to and inserted into pages. -/

namespace JoinOptimizer

open Lib ValueT

/-- The loop of `print_varchar` over the pages behind the first one. -/
def appendContinuations : List Page → Bytes → Bytes
  | [], value => value
  | page :: pages, value =>
    if page.numRows ≠ 0xfffe then value
    else appendContinuations pages (value ++ page.longChars)

/-- `print_varchar`. -/
def printVarchar (inputs : List ColumnarTable) (v : ValueT) : Result Bytes := do
  let columnTable ← index inputs v.getTable
  let column ← index columnTable.columns v.getColumn
  let page ← index column.pages v.getPage
  .ok (appendContinuations (column.pages.drop (v.getPage + 1)) page.longChars)

/-- `offset_begin[mid]`. -/
def offsetBegin (page : Page) (mid : Int) : Nat := page.u16 (4 + mid.toNat * 2)

/-- The string that starts at `pos` on a page: it ends at the first end offset above `pos`. -/
def stringAt (page : Page) (pos : Nat) : Bytes :=
  let length := searchAbove (offsetBegin page) pos (fun offset => offset - pos) 0
    (page.numNonNull - 1) 0
  page.read (4 + page.numNonNull * 2 + pos) length

/-- `offset_begin[mid]`, as far as it is one of the `num_non_null` offsets and lies on the page. -/
def readOffset (page : Page) (mid : Int) : Result Nat :=
  if 0 ≤ mid ∧ mid < page.numNonNull ∧ 4 + mid * 2 + 2 ≤ pageSize then .ok (offsetBegin page mid)
  else .error .outOfRange

/-- `length` after the search of `to_columnar_from_column`. -/
def lengthAt (page : Page) (posUint : UInt16) : Result Nat :=
  searchAboveM (readOffset page) posUint.toNat (fun offset => offset - posUint.toNat) 0
    (page.numNonNull - 1) 0

/-- The string that a value of `to_columnar_from_column` stands for. -/
def resolveVarchar (inputs : List ColumnarTable) (v : ValueT) : Result Bytes := do
  let table ← index inputs v.getTable
  let srcColumn ← index table.columns v.getColumn
  let page ← index srcColumn.pages v.getPage
  if page.numRows = 0xffff then
    printVarchar inputs v
  else
    .ok (stringAt page v.getPos)

/-- The row of a result column of integers; a value of another kind adds none. -/
def insertInt32 (fresh : Nat → Page) (originalPages : List Page) (w : ColumnInserter)
    (v : ValueT) : Result ColumnInserter := do
  if v.isNull then
    .ok (w.insertNull int32Type fresh)
  else if v.isInt32 then
    .ok (w.insert int32Type fresh v.getInt32)
  else if v.isInt32NoNull then
    let value ← getInt32ValueFromPage v originalPages
    .ok (w.insert int32Type fresh value)
  else
    .ok w

/-- The row of a result column of strings. -/
def insertVarchar (fresh : Nat → Page) (inputs : List ColumnarTable) (w : StringInserter)
    (v : ValueT) : Result StringInserter := do
  if v.isNull then
    .ok (w.insertNull fresh)
  else if v.isVarchar then
    let value ← resolveVarchar inputs v
    .ok (w.insert fresh value)
  else
    .ok w

/-- The body of the loop of `to_columnar_from_column`. -/
def materializeColumn (fresh : Nat → Page) (inputs : List ColumnarTable) (c : ColumnT) :
    Result Column := do
  match c.type with
  | .INT32 =>
    let w ← c.values.foldlM (insertInt32 fresh c.originalPages) (ColumnInserter.init int32Type)
    .ok ⟨.INT32, (w.finalize int32Type fresh).column.pages⟩
  | .VARCHAR =>
    let w ← c.values.foldlM (insertVarchar fresh inputs) StringInserter.init
    .ok ⟨.VARCHAR, (w.finalize fresh).column.pages⟩
  | _ => .error (.runtimeError "OTHER TYPE FOUND!!")

/-- `to_columnar_from_column`. -/
def toColumnarFromColumn (fresh : Nat → Nat → Page) (inputs : List ColumnarTable)
    (columnVec : List ColumnT) : Result ColumnarTable := do
  let first ← index columnVec 0
  let columns ← columnVec.zipIdx.mapM fun (c, i) => materializeColumn (fresh i) inputs c
  .ok ⟨(first.grid.map List.length).sum, columns⟩

/-- The integer or NULL that a value of an INT32 column stands for. -/
def decodeInt32 (originalPages : List Page) (v : ValueT) : Result (Option Int32) := do
  if v.isInt32 then
    .ok (some v.getInt32)
  else if v.isInt32NoNull then
    let value ← getInt32ValueFromPage v originalPages
    .ok (some value)
  else if v.isNull then
    .ok none
  else
    .error (.runtimeError "wrong type of field")

/-- The string or NULL that a value of a VARCHAR column stands for. -/
def decodeVarchar (inputs : List ColumnarTable) (v : ValueT) : Result (Option Bytes) := do
  if v.isNull then
    .ok none
  else if v.isVarchar then
    let value ← resolveVarchar inputs v
    .ok (some value)
  else
    .error (.runtimeError "wrong type of field")

/-- What a value of a column of the type stands for. -/
def decodeData (inputs : List ColumnarTable) (type : DataType) (originalPages : List Page)
    (v : ValueT) : Result Data := do
  match type with
  | .INT32 => .ok (int32Type.cell (← decodeInt32 originalPages v))
  | .VARCHAR => .ok (varcharCell (← decodeVarchar inputs v))
  | _ => .error (.runtimeError "OTHER TYPE FOUND!!")

section EndOffsets

variable {page : Page} (hnum : page.numNonNull ≤ 4094)
include hnum

/-- On a page with room for its offsets the search stays inside them. -/
theorem lengthAt_eq (posUint : UInt16) :
    lengthAt page posUint = .ok (searchAbove (offsetBegin page) posUint.toNat
      (fun offset => offset - posUint.toNat) 0 (page.numNonNull - 1) 0) := by
  refine searchAboveM_eq fun i hlow hhigh => ?_
  rw [readOffset, if_pos ⟨hlow, by omega, by rw [pageSize_eq]; omega⟩]

/-- The search completes and leaves the distance to the smallest end offset above the position, or 0
where there is none. -/
theorem lengthAt_least
    (hmono : ∀ i j : Nat, i ≤ j → j < page.numNonNull → offsetBegin page i ≤ offsetBegin page j)
    (posUint : UInt16) :
    ∃ length, lengthAt page posUint = .ok length ∧
      (∀ offset, IsLeast {offset | posUint.toNat < offset ∧
        ∃ i : Nat, i < page.numNonNull ∧ offsetBegin page i = offset} offset →
        length = offset - posUint.toNat) ∧
      ((∀ i : Nat, i < page.numNonNull → offsetBegin page i ≤ posUint.toNat) → length = 0) := by
  obtain ⟨k, hk, hbelow, habove⟩ := exists_first_above hmono posUint.toNat
  have hsearch : searchAbove (offsetBegin page) posUint.toNat (fun offset => offset - posUint.toNat) 0
      (page.numNonNull - 1) 0 =
        if k < page.numNonNull then offsetBegin page k - posUint.toNat else 0 := by
    refine searchAbove_eq (k := (k : Int)) (n := page.numNonNull) ?_ ?_ ?_ (by omega) (by omega)
      (by omega) (by omega) ?_
    · intro i h0 hi
      obtain ⟨i, rfl⟩ := Int.eq_ofNat_of_zero_le h0
      exact hbelow i (by omega)
    · intro i hi hin
      obtain ⟨i, rfl⟩ := Int.eq_ofNat_of_zero_le (by omega : 0 ≤ i)
      exact habove i (by omega) (by omega)
    · intro hlt
      rw [if_pos (by omega)]
    · intro heq
      rw [if_neg (by omega)]
  refine ⟨_, lengthAt_eq hnum posUint, fun offset hleast => ?_, fun hnone => ?_⟩
  · obtain ⟨⟨hgt, i, hi, hoffset⟩, hlower⟩ := hleast
    have hki : k ≤ i := by
      by_contra hlt
      have := hbelow i (by omega)
      omega
    have hle := hlower ⟨habove k (Nat.le_refl k) (by omega), k, by omega, rfl⟩
    have hge := hmono k i hki hi
    rw [hsearch, if_pos (by omega)]
    omega
  · rw [hsearch, if_neg]
    intro hlt
    have := habove k (Nat.le_refl k) hlt
    have := hnone k hlt
    omega

end EndOffsets

/-- A page of two strings, the first of three bytes and the second of five. -/
def twoOffsets : Page := Page.setU16 (Page.setU16 (Page.setU16 ⟨fun _ => 0⟩ 2 2) 4 3) 6 8

theorem lengthAt_least_two : ∃ length, lengthAt twoOffsets 3 = .ok length ∧
    (∀ offset, IsLeast {offset | (3 : UInt16).toNat < offset ∧
      ∃ i : Nat, i < twoOffsets.numNonNull ∧ offsetBegin twoOffsets i = offset} offset →
      length = offset - (3 : UInt16).toNat) ∧
    ((∀ i : Nat, i < twoOffsets.numNonNull → offsetBegin twoOffsets i ≤ (3 : UInt16).toNat) →
      length = 0) := by
  have hmono : ∀ j < twoOffsets.numNonNull, ∀ i ≤ j,
      offsetBegin twoOffsets i ≤ offsetBegin twoOffsets j := by decide +kernel
  exact lengthAt_least (by decide +kernel) (fun i j hij hj => hmono j hj i hij) 3

theorem insertInt32_eq {fresh : Nat → Page} {originalPages : List Page} {v : ValueT}
    {cell : Option Int32} (h : decodeInt32 originalPages v = .ok cell) (w : ColumnInserter) :
    insertInt32 fresh originalPages w v = .ok (w.call int32Type fresh cell) := by
  simp only [decodeInt32, insertInt32, isInt32_eq, isInt32NoNull_eq, isNull_eq,
    decide_eq_true_eq] at h ⊢
  by_cases h1 : v.mode = 1
  · simp only [h1, if_true] at h ⊢
    cases h
    rfl
  · by_cases h2 : v.mode = 2
    · simp only [h2, if_true] at h ⊢
      obtain ⟨value, hvalue, h⟩ := bind_eq_ok.mp h
      cases h
      rw [hvalue]
      rfl
    · by_cases h3 : v.mode = 3
      · simp only [h3, if_true] at h ⊢
        cases h
        rfl
      · simp [h1, h2, h3] at h

theorem insertVarchar_eq {fresh : Nat → Page} {inputs : List ColumnarTable} {v : ValueT}
    {cell : Option Bytes} (h : decodeVarchar inputs v = .ok cell) (w : StringInserter) :
    insertVarchar fresh inputs w v = .ok (w.call fresh cell) := by
  rw [decodeVarchar] at h
  rw [insertVarchar]
  split at h
  · next hnull =>
    cases h
    rw [if_pos hnull]
    rfl
  · next hnull =>
    rw [if_neg hnull]
    split at h
    · next hvarchar =>
      obtain ⟨value, hvalue, h⟩ := bind_eq_ok.mp h
      cases h
      rw [if_pos hvarchar, hvalue]
      rfl
    · cases h

/-- A loop that inserts what each value stands for makes the calls for the cells. -/
theorem foldlM_insert {β γ : Type} {insert : γ → ValueT → Result γ} {call : γ → β → γ}
    {decode : ValueT → Result β}
    (h : ∀ v cell, decode v = .ok cell → ∀ w, insert w v = .ok (call w cell)) {vs : List ValueT}
    {cells : List β} (hcells : vs.mapM decode = .ok cells) (w : γ) :
    vs.foldlM insert w = .ok (cells.foldl call w) := by
  rw [mapM_eq_ok_iff] at hcells
  induction hcells generalizing w with
  | nil => rfl
  | cons hv _ ih =>
    rw [List.foldlM_cons, h _ _ hv, ok_bind, ih]
    rfl

theorem materializeColumn_int32 (fresh : Nat → Page) (inputs : List ColumnarTable) {c : ColumnT}
    (htype : c.type = .INT32) {cells : List (Option Int32)}
    (hcells : c.values.mapM (decodeInt32 c.originalPages) = .ok cells) :
    ∃ column, materializeColumn fresh inputs c = .ok column ∧
      column.Holds (cells.map int32Type.cell) := by
  refine ⟨⟨.INT32, ColumnInserter.run int32Type fresh cells⟩, ?_,
    .int32 (ColumnInserter.run_holds (Nat.le_refl 4) fresh cells)⟩
  rw [materializeColumn, htype]
  simp only
  rw [foldlM_insert (fun _ _ hv w => insertInt32_eq hv w) hcells]
  rfl

theorem materializeColumn_varchar (fresh : Nat → Page) (inputs : List ColumnarTable) {c : ColumnT}
    (htype : c.type = .VARCHAR) {cells : List (Option Bytes)}
    (hcells : c.values.mapM (decodeVarchar inputs) = .ok cells) :
    ∃ column, materializeColumn fresh inputs c = .ok column ∧
      column.Holds (cells.map varcharCell) := by
  refine ⟨⟨.VARCHAR, StringInserter.run fresh cells⟩, ?_,
    .varchar (StringInserter.run_holds fresh cells)⟩
  rw [materializeColumn, htype]
  simp only
  rw [foldlM_insert (fun _ _ hv w => insertVarchar_eq hv w) hcells]
  rfl

end JoinOptimizer
