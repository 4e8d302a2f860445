import JoinOptimizer.Plan.Tree
import JoinOptimizer.Lib.Equijoin

/-! What a plan means: the naive evaluation over tables, and the rows of base tables that each row of
its result is made of. -/

namespace JoinOptimizer

open Lib

/-- The key of a cell: NULL is no key. -/
def nonNull (d : Option Data) : Option Data := d.filter (· ≠ .monostate)

namespace PlanTree

/-- The naive evaluation: a scan is the projection of its table, and a join every pair of rows whose
keys are not NULL and equal, projected. -/
def naive (tables : List Table) : PlanTree → List (List Data)
  | scan t attrs => (tables[t]?.elim [] Table.data).map fun record =>
      attrs.map fun attr => record.getD attr.1 .monostate
  | join _ left right leftAttr rightAttr attrs =>
      (equijoin (fun record => nonNull record[leftAttr]?) (fun record => nonNull record[rightAttr]?)
        (left.naive tables) (right.naive tables)).map fun x =>
          attrs.map fun attr => (x.1 ++ x.2).getD attr.1 .monostate

section Rows

variable (f : Nat → Nat → Nat → Option Data) (n : Nat → Nat)

/-- The rows of the result over base tables of `n t` rows whose cells are `f t k i`. -/
def rows : (tree : PlanTree) → List tree.Row
  | scan t _ => List.range (n t)
  | join _ left right leftAttr rightAttr _ =>
      (equijoin (fun row => nonNull (left.cell f row leftAttr))
        (fun row => nonNull (right.cell f row rightAttr)) left.rows right.rows).map fun x =>
          (some x.1, some x.2)

/-- The cells of a row of the result. -/
def record (tree : PlanTree) (row : tree.Row) : List Data :=
  (List.range tree.attrs.length).map fun j => (tree.cell f row j).getD .monostate

variable {f n}

theorem getD_record {tree : PlanTree} {row : tree.Row} {j : Nat} (hj : j < tree.attrs.length) :
    (tree.record f row).getD j .monostate = (tree.cell f row j).getD .monostate := by
  unfold record
  simp [hj]

theorem length_record (tree : PlanTree) (row : tree.Row) :
    (tree.record f row).length = tree.attrs.length := by
  unfold record
  simp

theorem key_record {tree : PlanTree} {row : tree.Row} {j : Nat} (hj : j < tree.attrs.length) :
    nonNull (tree.record f row)[j]? = nonNull (tree.cell f row j) := by
  unfold record nonNull
  rw [List.getElem?_map, List.getElem?_range hj, Option.map_some]
  cases tree.cell f row j with
  | none => rfl
  | some d => rfl

theorem record_join {buildLeft : Bool} {left right : PlanTree} {leftAttr rightAttr : Nat}
    {attrs : List (Nat × DataType)}
    (hrange : ∀ attr ∈ attrs, attr.1 < left.attrs.length + right.attrs.length) (l : left.Row)
    (r : right.Row) :
    (join buildLeft left right leftAttr rightAttr attrs).record f (some l, some r) =
      attrs.map fun attr => (left.record f l ++ right.record f r).getD attr.1 .monostate := by
  apply List.ext_getElem
  · rw [length_record, List.length_map]
    rfl
  · intro j hj hj'
    have hlt : j < attrs.length := by simpa using hj'
    have hattr : attrs[j]? = some attrs[j] := List.getElem?_eq_getElem hlt
    have hin := hrange attrs[j] (List.getElem_mem hlt)
    have hget : ((join buildLeft left right leftAttr rightAttr attrs).record f
        (some l, some r))[j] = ((join buildLeft left right leftAttr rightAttr attrs).cell f
          (some l, some r) j).getD .monostate := by
      simp only [record, List.getElem_map, List.getElem_range]
    rw [hget, List.getElem_map, cell_join hattr]
    by_cases hside : attrs[j].1 < left.attrs.length
    · have hlt : attrs[j].1 < (left.record f l).length := by rw [length_record]; exact hside
      rw [if_pos hside, List.getD_eq_getElem?_getD, List.getElem?_append_left hlt,
        ← List.getD_eq_getElem?_getD, getD_record hside]
      rfl
    · have hle : (left.record f l).length ≤ attrs[j].1 := by rw [length_record]; omega
      rw [if_neg hside, List.getD_eq_getElem?_getD, List.getElem?_append_right hle,
        ← List.getD_eq_getElem?_getD, length_record, getD_record (by omega)]
      rfl

end Rows

/-- The cells of the tables. -/
def tableCell (tables : List Table) (t k i : Nat) : Option Data :=
  tables[t]?.bind fun table => table.data[i]?.bind fun record => record[k]?

/-- The numbers of rows of the tables. -/
def tableRows (tables : List Table) (t : Nat) : Nat := (tables[t]?.elim [] Table.data).length

/-- The naive evaluation makes the records of the rows. -/
theorem naive_eq {tables : List Table} {types : List (List DataType)} {tree : PlanTree}
    (h : tree.WellFormed types) :
    tree.naive tables =
      (tree.rows (tableCell tables) (tableRows tables)).map (tree.record (tableCell tables)) := by
  induction tree with
  | scan t attrs =>
    unfold naive rows tableRows
    cases htable : tables[t]? with
    | none => rfl
    | some table =>
      apply List.ext_getElem
      · simp
      · intro i hi hi'
        have hlt : i < table.data.length := by simpa using hi
        apply List.ext_getElem
        · simp [length_record, PlanTree.attrs]
        · intro j hj hj'
          have hlt' : j < attrs.length := by simpa using hj
          have hcell : (scan t attrs).cell (tableCell tables) i j =
              table.data[i][attrs[j].1]? := by
            rw [cell_scan _ i (List.getElem?_eq_getElem hlt')]
            unfold tableCell
            rw [htable, Option.bind_some, List.getElem?_eq_getElem hlt, Option.bind_some]
          simp [record, hcell, List.getD_eq_getElem?_getD]
  | join _ left right leftAttr rightAttr attrs ihl ihr =>
    have hrange := h.range
    obtain ⟨hl, hr, -, -, -, hkeyL, hkeyR⟩ := h
    have hleft := lt_of_declared hkeyL
    have hright := lt_of_declared hkeyR
    unfold naive rows
    rw [ihl hl, ihr hr, equijoin_map, List.map_map]
    refine Eq.trans ?_ (List.map_map).symm
    have hkeys : equijoin ((fun record => nonNull record[leftAttr]?) ∘ left.record (tableCell tables))
        ((fun record => nonNull record[rightAttr]?) ∘ right.record (tableCell tables))
        (left.rows (tableCell tables) (tableRows tables))
        (right.rows (tableCell tables) (tableRows tables)) =
        equijoin (fun row => nonNull (left.cell (tableCell tables) row leftAttr))
          (fun row => nonNull (right.cell (tableCell tables) row rightAttr))
          (left.rows (tableCell tables) (tableRows tables))
          (right.rows (tableCell tables) (tableRows tables)) := by
      apply equijoin_congr
      intro l _ r _
      simp only [Function.comp_apply, key_record hleft, key_record hright]
    rw [hkeys]
    apply List.map_congr_left
    intro x _
    exact (record_join hrange x.1 x.2).symm

end PlanTree

end JoinOptimizer
