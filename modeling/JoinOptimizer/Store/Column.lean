import JoinOptimizer.Value
import JoinOptimizer.Lib.Paged

/-! `ColumnPage` and `column_t` of `include/column_store.h`: the columns of intermediate results. -/

namespace JoinOptimizer

open Lib

/-- `ColumnPage::BUF_SIZE`. -/
def bufSize : Nat := 1024

/-- `struct ColumnPage`: the first `count` slots of its buffer.  A slot behind them belongs to no row,
and a read of it counts as a fault. -/
structure ColumnPage where
  values : List ValueT
  le : values.length ≤ bufSize

namespace ColumnPage

def empty : ColumnPage := ⟨[], Nat.zero_le _⟩

def single (v : ValueT) : ColumnPage := ⟨[v], show 1 ≤ bufSize by decide⟩

def push (page : ColumnPage) (h : page.values.length ≠ bufSize) (v : ValueT) : ColumnPage where
  values := page.values ++ [v]
  le := by
    have := page.le
    rw [List.length_append, List.length_singleton]
    omega

end ColumnPage

/-- `struct column_t`. -/
structure ColumnT where
  type : DataType
  pages : List ColumnPage
  isNoNull : Bool
  originalPages : List Page

namespace ColumnT

/-- A new column; its `type` is the zero of the enumeration. -/
def empty : ColumnT := ⟨.INT32, [], false, []⟩

/-- `column_t::append`. -/
def append (c : ColumnT) (v : ValueT) : ColumnT :=
  match c.pages.getLast? with
  | none => { c with pages := c.pages ++ [.single v] }
  | some page =>
    if h : page.values.length = bufSize then
      { c with pages := c.pages ++ [.single v] }
    else
      { c with pages := c.pages.dropLast ++ [page.push h v] }

def appendAll (c : ColumnT) (vs : List ValueT) : ColumnT := vs.foldl append c

/-- The values of the column, page by page. -/
def grid (c : ColumnT) : List (List ValueT) := c.pages.map ColumnPage.values

/-- The values of the column. -/
def values (c : ColumnT) : List ValueT := c.grid.flatten

/-- `pages[page]->value_buffer[slot]`. -/
def slot (c : ColumnT) (page slot : Nat) : Result ValueT := do
  index (← index c.pages page).values slot

@[simp] theorem type_append (c : ColumnT) (v : ValueT) : (c.append v).type = c.type := by
  unfold append
  split
  · rfl
  · split <;> rfl

@[simp] theorem isNoNull_append (c : ColumnT) (v : ValueT) :
    (c.append v).isNoNull = c.isNoNull := by
  unfold append
  split
  · rfl
  · split <;> rfl

@[simp] theorem originalPages_append (c : ColumnT) (v : ValueT) :
    (c.append v).originalPages = c.originalPages := by
  unfold append
  split
  · rfl
  · split <;> rfl

theorem grid_append (c : ColumnT) (v : ValueT) : (c.append v).grid = pushPage bufSize c.grid v := by
  unfold append grid pushPage
  rw [List.getLast?_map]
  cases hlast : c.pages.getLast? with
  | none =>
    have hnil : c.pages = [] := List.getLast?_eq_none_iff.mp hlast
    simp [hnil, ColumnPage.single]
  | some page =>
    by_cases hfull : page.values.length = bufSize
    · simp [hfull, ColumnPage.single]
    · simp [hfull, ColumnPage.push]

theorem appendAll_cons (c : ColumnT) (v : ValueT) (vs : List ValueT) :
    c.appendAll (v :: vs) = (c.append v).appendAll vs := rfl

theorem appendAll_append (c : ColumnT) (vs ws : List ValueT) :
    c.appendAll (vs ++ ws) = (c.appendAll vs).appendAll ws := List.foldl_append

theorem appendAll_concat (c : ColumnT) (vs : List ValueT) (v : ValueT) :
    c.appendAll (vs ++ [v]) = (c.appendAll vs).append v := appendAll_append c vs [v]

theorem grid_appendAll (c : ColumnT) (vs : List ValueT) :
    (c.appendAll vs).grid = pushPages bufSize c.grid vs := by
  induction vs generalizing c with
  | nil => rfl
  | cons v vs ih =>
    rw [appendAll_cons, ih, grid_append]
    rfl

@[simp] theorem type_appendAll (c : ColumnT) (vs : List ValueT) :
    (c.appendAll vs).type = c.type := by
  induction vs generalizing c with
  | nil => rfl
  | cons v vs ih => rw [appendAll_cons, ih, type_append]

@[simp] theorem isNoNull_appendAll (c : ColumnT) (vs : List ValueT) :
    (c.appendAll vs).isNoNull = c.isNoNull := by
  induction vs generalizing c with
  | nil => rfl
  | cons v vs ih => rw [appendAll_cons, ih, isNoNull_append]

@[simp] theorem originalPages_appendAll (c : ColumnT) (vs : List ValueT) :
    (c.appendAll vs).originalPages = c.originalPages := by
  induction vs generalizing c with
  | nil => rfl
  | cons v vs ih => rw [appendAll_cons, ih, originalPages_append]

theorem grid_appendAll_of_pages_nil {c : ColumnT} (h : c.pages = []) (vs : List ValueT) :
    (c.appendAll vs).grid = paged bufSize vs := by
  rw [grid_appendAll, grid, h]
  rfl

/-- A column filled by `append`. -/
def ofValues (type : DataType) (isNoNull : Bool) (originalPages : List Page)
    (vs : List ValueT) : ColumnT :=
  appendAll ⟨type, [], isNoNull, originalPages⟩ vs

section OfValues

variable {type : DataType} {isNoNull : Bool} {originalPages : List Page} {vs : List ValueT}

@[simp] theorem grid_ofValues :
    (ofValues type isNoNull originalPages vs).grid = paged bufSize vs :=
  grid_appendAll_of_pages_nil rfl vs

@[simp] theorem values_ofValues : (ofValues type isNoNull originalPages vs).values = vs := by
  rw [values, grid_ofValues, flatten_paged]

@[simp] theorem type_ofValues : (ofValues type isNoNull originalPages vs).type = type := by
  simp [ofValues]

@[simp] theorem isNoNull_ofValues :
    (ofValues type isNoNull originalPages vs).isNoNull = isNoNull := by
  simp [ofValues]

@[simp] theorem originalPages_ofValues :
    (ofValues type isNoNull originalPages vs).originalPages = originalPages := by
  simp [ofValues]

theorem append_ofValues (v : ValueT) : (ofValues type isNoNull originalPages vs).append v =
    ofValues type isNoNull originalPages (vs ++ [v]) := (appendAll_concat _ vs v).symm

end OfValues

/-- Two columns with the same values on the same pages. -/
theorem eq_of_grid {c d : ColumnT} (htype : c.type = d.type) (hgrid : c.grid = d.grid)
    (hnull : c.isNoNull = d.isNoNull) (hpages : c.originalPages = d.originalPages) : c = d := by
  have hinj : Function.Injective ColumnPage.values := by
    rintro ⟨vs, _⟩ ⟨ws, _⟩ rfl
    rfl
  have hpages' : c.pages = d.pages := List.map_injective_iff.mpr hinj hgrid
  cases c
  cases d
  simp_all

theorem slot_eq_ok {c : ColumnT} {p s : Nat} {v : ValueT} :
    c.slot p s = .ok v ↔ ∃ page, c.grid[p]? = some page ∧ page[s]? = some v := by
  rw [slot, bind_eq_ok]
  simp only [index_eq_ok, grid, List.getElem?_map, Option.map_eq_some_iff]
  constructor
  · rintro ⟨page, hpage, hv⟩
    exact ⟨page.values, ⟨page, hpage, rfl⟩, hv⟩
  · rintro ⟨_, ⟨page, hpage, rfl⟩, hv⟩
    exact ⟨page, hpage, hv⟩

end ColumnT

end JoinOptimizer
