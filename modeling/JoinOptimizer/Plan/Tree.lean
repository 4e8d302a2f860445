import JoinOptimizer.Plan.Execute

/-! Plans whose nodes form a tree, the rows of their results as combinations of the rows of base
tables, and the base column that each result column comes from. -/

namespace JoinOptimizer

open Lib

/-- A plan unfolded from one of its nodes. -/
inductive PlanTree
  | scan (baseTableId : Nat) (attrs : List (Nat × DataType))
  | join (buildLeft : Bool) (left right : PlanTree) (leftAttr rightAttr : Nat)
      (attrs : List (Nat × DataType))
  deriving DecidableEq

namespace PlanTree

/-- The output attributes of the root. -/
def attrs : PlanTree → List (Nat × DataType)
  | scan _ attrs => attrs
  | join _ _ _ _ _ attrs => attrs

def height : PlanTree → Nat
  | scan _ _ => 1
  | join _ left right _ _ _ => max left.height right.height + 1

/-- A row of the result: the number of a base row, or a row of either side.  A side is missing where
the hash table named a place without a row. -/
@[reducible] def Row : PlanTree → Type
  | scan _ _ => Nat
  | join _ left right _ _ _ => Option left.Row × Option right.Row

/-- The table and the column that column `j` of the result comes from. -/
def source : PlanTree → Nat → Option (Nat × Nat)
  | scan t attrs, j => attrs[j]?.map fun attr => (t, attr.1)
  | join _ left right _ _ attrs, j => attrs[j]?.bind fun attr =>
    if attr.1 < left.attrs.length then left.source attr.1
    else right.source (attr.1 - left.attrs.length)

/-- The base row that column `j` of a result row comes from. -/
def baseRow : (tree : PlanTree) → tree.Row → Nat → Option Nat
  | scan _ _, row, _ => some row
  | join _ left right _ _ attrs, row, j => attrs[j]?.bind fun attr =>
    if attr.1 < left.attrs.length then row.1.bind (left.baseRow · attr.1)
    else row.2.bind (right.baseRow · (attr.1 - left.attrs.length))

/-- What `f` says of the base cell that column `j` of a result row comes from. -/
def cell {α : Type} (tree : PlanTree) (f : Nat → Nat → Nat → Option α) (row : tree.Row) (j : Nat) :
    Option α :=
  (tree.source j).bind fun place => (tree.baseRow row j).bind (f place.1 place.2)

theorem cell_scan {α : Type} (f : Nat → Nat → Nat → Option α) {t : Nat}
    {attrs : List (Nat × DataType)} (row : Nat) {j : Nat} {attr : Nat × DataType}
    (hattr : attrs[j]? = some attr) : (scan t attrs).cell f row j = f t attr.1 row := by
  show (attrs[j]?.map fun attr => (t, attr.1)).bind _ = _
  rw [hattr]
  rfl

section Join

variable {buildLeft : Bool} {left right : PlanTree} {leftAttr rightAttr : Nat}
  {attrs : List (Nat × DataType)} {j : Nat} {attr : Nat × DataType} (hattr : attrs[j]? = some attr)
include hattr

theorem source_join : (join buildLeft left right leftAttr rightAttr attrs).source j =
    if attr.1 < left.attrs.length then left.source attr.1
    else right.source (attr.1 - left.attrs.length) := by
  show attrs[j]?.bind _ = _
  rw [hattr]
  rfl

theorem baseRow_join (row : Option left.Row × Option right.Row) :
    (join buildLeft left right leftAttr rightAttr attrs).baseRow row j =
      if attr.1 < left.attrs.length then row.1.bind (left.baseRow · attr.1)
      else row.2.bind (right.baseRow · (attr.1 - left.attrs.length)) := by
  show attrs[j]?.bind _ = _
  rw [hattr]
  rfl

theorem cell_join {α : Type} (f : Nat → Nat → Nat → Option α)
    (row : Option left.Row × Option right.Row) :
    (join buildLeft left right leftAttr rightAttr attrs).cell f row j =
      if attr.1 < left.attrs.length then row.1.bind (left.cell f · attr.1)
      else row.2.bind (right.cell f · (attr.1 - left.attrs.length)) := by
  unfold cell
  rw [source_join hattr, baseRow_join hattr row]
  split
  · cases row.1 <;> cases left.source attr.1 <;> rfl
  · cases row.2 <;> cases right.source (attr.1 - left.attrs.length) <;> rfl

end Join

/-- The declared types of the nodes fit the inputs: every attribute names a column of its type, INT32
or VARCHAR, and the attributes of a join are INT32.  The columns of a join are fewer than a `size_t`
can count. -/
def WellFormed (types : List (List DataType)) : PlanTree → Prop
  | scan t attrs => attrs ≠ [] ∧ ∀ attr ∈ attrs,
      (types[t]?.bind (·[attr.1]?)) = some attr.2 ∧ (attr.2 = .INT32 ∨ attr.2 = .VARCHAR)
  | join _ left right leftAttr rightAttr attrs =>
      left.WellFormed types ∧ right.WellFormed types ∧ attrs ≠ [] ∧
      left.attrs.length + right.attrs.length < 2 ^ 64 ∧
      (∀ attr ∈ attrs, (left.attrs ++ right.attrs)[attr.1]?.map Prod.snd = some attr.2) ∧
      left.attrs[leftAttr]?.map Prod.snd = some .INT32 ∧
      right.attrs[rightAttr]?.map Prod.snd = some .INT32

instance (types : List (List DataType)) : (tree : PlanTree) → Decidable (tree.WellFormed types)
  | scan t attrs => by
    unfold WellFormed
    infer_instance
  | join _ left right leftAttr rightAttr attrs => by
    have := instDecidableWellFormed types left
    have := instDecidableWellFormed types right
    unfold WellFormed
    infer_instance

variable {types : List (List DataType)}

theorem lt_of_declared {attrs : List (Nat × DataType)} {i : Nat} {type : DataType}
    (h : attrs[i]?.map Prod.snd = some type) : i < attrs.length := by
  obtain ⟨attr, hattr, -⟩ := Option.map_eq_some_iff.mp h
  exact (List.getElem?_eq_some_iff.mp hattr).1

theorem WellFormed.attrs_ne_nil {tree : PlanTree} (h : tree.WellFormed types) : tree.attrs ≠ [] := by
  cases tree with
  | scan t attrs => exact h.1
  | join _ left right _ _ attrs => exact h.2.2.1

theorem WellFormed.range {buildLeft : Bool} {left right : PlanTree} {leftAttr rightAttr : Nat}
    {attrs : List (Nat × DataType)}
    (h : (join buildLeft left right leftAttr rightAttr attrs).WellFormed types) :
    ∀ attr ∈ attrs, attr.1 < left.attrs.length + right.attrs.length := by
  obtain ⟨-, -, -, -, hdeclared, -, -⟩ := h
  intro attr hattr
  rw [← List.length_append]
  exact lt_of_declared (hdeclared attr hattr)

/-- `P` holds of every base column that is scanned, with its declared type. -/
def OnScans (P : Nat → Nat → DataType → Prop) : PlanTree → Prop
  | scan t attrs => ∀ attr ∈ attrs, P t attr.1 attr.2
  | join _ left right _ _ _ => left.OnScans P ∧ right.OnScans P

theorem OnScans.imp {P Q : Nat → Nat → DataType → Prop} {tree : PlanTree} (h : tree.OnScans P)
    (hPQ : ∀ t k type, P t k type → Q t k type) : tree.OnScans Q := by
  induction tree with
  | scan t attrs => exact fun attr hattr => hPQ _ _ _ (h attr hattr)
  | join _ left right _ _ attrs ihl ihr => exact ⟨ihl h.1, ihr h.2⟩

theorem OnScans.and {P Q : Nat → Nat → DataType → Prop} {tree : PlanTree} (hP : tree.OnScans P)
    (hQ : tree.OnScans Q) : tree.OnScans fun t k type => P t k type ∧ Q t k type := by
  induction tree with
  | scan t attrs => exact fun attr hattr => ⟨hP attr hattr, hQ attr hattr⟩
  | join _ left right _ _ attrs ihl ihr => exact ⟨ihl hP.1 hQ.1, ihr hP.2 hQ.2⟩

theorem OnScans.source {P : Nat → Nat → DataType → Prop} {tree : PlanTree} (h : tree.OnScans P)
    (hwf : tree.WellFormed types) {j : Nat} {attr : Nat × DataType}
    (hattr : tree.attrs[j]? = some attr) :
    ∃ t k, tree.source j = some (t, k) ∧ P t k attr.2 := by
  induction tree generalizing j attr with
  | scan t attrs =>
    have hattr : attrs[j]? = some attr := hattr
    refine ⟨t, attr.1, ?_, h attr (List.mem_of_getElem? hattr)⟩
    show attrs[j]?.map _ = _
    rw [hattr]
    rfl
  | join _ left right _ _ attrs ihl ihr =>
    obtain ⟨hl, hr, -, -, hdeclared, -, -⟩ := hwf
    have hattr : attrs[j]? = some attr := hattr
    have hsame := hdeclared attr (List.mem_of_getElem? hattr)
    rw [source_join hattr]
    obtain ⟨attr', hattr', htype⟩ := Option.map_eq_some_iff.mp hsame
    rw [← htype]
    split
    case isTrue hside =>
      rw [List.getElem?_append_left hside] at hattr'
      exact ihl h.1 hl hattr'
    case isFalse hside =>
      rw [List.getElem?_append_right (by omega)] at hattr'
      exact ihr h.2 hr hattr'

/-- A base column has its declared type, INT32 or VARCHAR. -/
def Declared (types : List (List DataType)) (t k : Nat) (type : DataType) : Prop :=
  (types[t]?.bind (·[k]?)) = some type ∧ (type = .INT32 ∨ type = .VARCHAR)

theorem WellFormed.onScans {tree : PlanTree} (h : tree.WellFormed types) :
    tree.OnScans (Declared types) := by
  induction tree with
  | scan t attrs => exact h.2
  | join _ left right _ _ attrs ihl ihr => exact ⟨ihl h.1, ihr h.2.1⟩

end PlanTree

namespace Plan

/-- The types of the columns of the inputs. -/
def types (plan : Plan) : List (List DataType) :=
  plan.inputs.map fun table => table.columns.map Column.type

/-- Node `nodeIdx` of the plan and the nodes under it form the tree `tree`. -/
inductive Unfolds (plan : Plan) : Nat → PlanTree → Prop
  | scan {nodeIdx baseTableId : Nat} {attrs : List (Nat × DataType)} :
      plan.nodes[nodeIdx]? = some ⟨.scan ⟨baseTableId⟩, attrs⟩ →
      Unfolds plan nodeIdx (.scan baseTableId attrs)
  | join {nodeIdx l r leftAttr rightAttr : Nat} {buildLeft : Bool} {left right : PlanTree}
      {attrs : List (Nat × DataType)} :
      plan.nodes[nodeIdx]? = some ⟨.join ⟨buildLeft, l, r, leftAttr, rightAttr⟩, attrs⟩ →
      Unfolds plan l left → Unfolds plan r right →
      Unfolds plan nodeIdx (.join buildLeft left right leftAttr rightAttr attrs)

/-- The column that the scan of a base column makes. -/
def scannedColumn (plan : Plan) (t k : Nat) : Option ColumnT :=
  plan.inputs[t]?.bind fun table => (scanColumn t table k).toOption

/-- The value that the scan of a base column makes for a row. -/
def scanned (plan : Plan) (t k i : Nat) : Option ValueT :=
  (plan.scannedColumn t k).bind fun c => c.values[i]?

variable {plan : Plan} {nodeIdx : Nat} {tree : PlanTree}

theorem scannedColumn_eq_some {t k : Nat} {c : ColumnT} : plan.scannedColumn t k = some c ↔
    ∃ table, plan.inputs[t]? = some table ∧ scanColumn t table k = .ok c := by
  unfold scannedColumn
  rw [Option.bind_eq_some_iff]
  refine exists_congr fun table => and_congr_right fun _ => ?_
  cases scanColumn t table k with
  | error e => exact ⟨nofun, nofun⟩
  | ok d => exact ⟨fun h => congrArg _ (Option.some.inj h), fun h => congrArg _ (Except.ok.inj h)⟩

theorem Unfolds.node (h : plan.Unfolds nodeIdx tree) :
    ∃ data, plan.nodes[nodeIdx]? = some ⟨data, tree.attrs⟩ := by
  cases h with
  | scan hnode => exact ⟨_, hnode⟩
  | join hnode _ _ => exact ⟨_, hnode⟩

end Plan

section Equations

variable {hashKey : Int32 → BitVec 64} {plan : Plan} {schedules : Nat → JoinSchedule}
  {fuel nodeIdx : Nat} {attrs : List (Nat × DataType)}

theorem executeImpl_scan {scan : ScanNode} (hnode : plan.nodes[nodeIdx]? = some ⟨.scan scan, attrs⟩) :
    executeImpl hashKey plan schedules (fuel + 1) nodeIdx = executeScan plan scan attrs := by
  unfold executeImpl
  rw [index_eq_ok.mpr hnode, ok_bind]

theorem executeImpl_join {join : JoinNode} {left right : PlanTree}
    (hnode : plan.nodes[nodeIdx]? = some ⟨.join join, attrs⟩) (hleft : plan.Unfolds join.left left)
    (hright : plan.Unfolds join.right right) :
    executeImpl hashKey plan schedules (fuel + 1) nodeIdx =
      executeImpl hashKey plan schedules fuel join.left >>= fun l =>
        executeImpl hashKey plan schedules fuel join.right >>= fun r =>
          executeHashJoin hashKey (schedules nodeIdx) join left.attrs right.attrs attrs l r := by
  obtain ⟨_, hl⟩ := hleft.node
  obtain ⟨_, hr⟩ := hright.node
  rw [executeImpl]
  simp only [index_eq_ok.mpr hnode, index_eq_ok.mpr hl, index_eq_ok.mpr hr, ok_bind]

/-- A scan node that completes. -/
theorem executeScan_of_ok {scan : ScanNode} (hnode : plan.nodes[nodeIdx]? = some ⟨.scan scan, attrs⟩)
    {cols : List ColumnT} (h : executeImpl hashKey plan schedules fuel nodeIdx = .ok cols) :
    executeScan plan scan attrs = .ok cols := by
  cases fuel with
  | zero => cases h
  | succ fuel => rwa [executeImpl_scan hnode] at h

/-- A join node that completes: its children do. -/
theorem executeHashJoin_of_ok {join : JoinNode} {left right : PlanTree}
    (hnode : plan.nodes[nodeIdx]? = some ⟨.join join, attrs⟩) (hleft : plan.Unfolds join.left left)
    (hright : plan.Unfolds join.right right) {cols : List ColumnT}
    (h : executeImpl hashKey plan schedules fuel nodeIdx = .ok cols) :
    ∃ fuel' l r, executeImpl hashKey plan schedules fuel' join.left = .ok l ∧
      executeImpl hashKey plan schedules fuel' join.right = .ok r ∧
      executeHashJoin hashKey (schedules nodeIdx) join left.attrs right.attrs attrs l r = .ok cols := by
  cases fuel with
  | zero => cases h
  | succ fuel =>
    rw [executeImpl_join hnode hleft hright] at h
    obtain ⟨l, hl, h⟩ := bind_eq_ok.mp h
    obtain ⟨r, hr, h⟩ := bind_eq_ok.mp h
    exact ⟨fuel, l, r, hl, hr, h⟩

end Equations

end JoinOptimizer
