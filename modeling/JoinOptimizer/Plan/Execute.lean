import JoinOptimizer.Store.Scan
import JoinOptimizer.Join.Algorithm

/-! `Plan` of `include/plan.h` and its execution in `src/execute.cpp`.  A node names the nodes under it
by their index, so `execute_impl` has fuel here. -/

namespace JoinOptimizer

open Lib

structure ScanNode where
  baseTableId : Nat
  deriving DecidableEq

structure JoinNode where
  buildLeft : Bool
  left : Nat
  right : Nat
  leftAttr : Nat
  rightAttr : Nat
  deriving DecidableEq

/-- `std::variant<ScanNode, JoinNode>`. -/
inductive NodeData
  | scan (scan : ScanNode)
  | join (join : JoinNode)
  deriving DecidableEq

structure PlanNode where
  data : NodeData
  outputAttrs : List (Nat × DataType)
  deriving DecidableEq

structure Plan where
  nodes : List PlanNode
  inputs : List ColumnarTable
  root : Nat

/-- `execute_scan`. -/
def executeScan (plan : Plan) (scan : ScanNode) (outputAttrs : List (Nat × DataType)) :
    Result (List ColumnT) := do
  let tableId := scan.baseTableId
  let input ← index plan.inputs tableId
  columnTCopyScan tableId input outputAttrs

/-- `execute_hash_join` behind the execution of its two sides.  The `switch` runs the join for the
declared type of the key on the build side, and only `run<int32_t>` does anything. -/
def executeHashJoin (hashKey : Int32 → BitVec 64) (schedule : JoinSchedule) (join : JoinNode)
    (leftTypes rightTypes outputAttrs : List (Nat × DataType)) (left right : List ColumnT) :
    Result (List ColumnT) := do
  let results := outputAttrs.map (resultColumn left right)
  let joinAlgorithm : JoinAlgorithm :=
    { buildLeft := join.buildLeft, left, right, leftCol := join.leftAttr,
      rightCol := join.rightAttr, outputAttrs }
  let key ← (if join.buildLeft then index leftTypes join.leftAttr
    else index rightTypes join.rightAttr)
  match key.2 with
  | .INT32 => joinAlgorithm.run hashKey schedule results
  | _ => .ok results

/-- `execute_impl`; `schedules` are the schedules of the threads at each node. -/
def executeImpl (hashKey : Int32 → BitVec 64) (plan : Plan) (schedules : Nat → JoinSchedule) :
    Nat → Nat → Result (List ColumnT)
  | 0, _ => .error .outOfFuel
  | fuel + 1, nodeIdx => do
    let node ← index plan.nodes nodeIdx
    match node.data with
    | .scan scan => executeScan plan scan node.outputAttrs
    | .join join => do
      let leftNode ← index plan.nodes join.left
      let rightNode ← index plan.nodes join.right
      let left ← executeImpl hashKey plan schedules fuel join.left
      let right ← executeImpl hashKey plan schedules fuel join.right
      executeHashJoin hashKey (schedules nodeIdx) join leftNode.outputAttrs rightNode.outputAttrs
        node.outputAttrs left right

/-- `execute`. -/
def execute (hashKey : Int32 → BitVec 64) (fresh : Nat → Nat → Page) (plan : Plan)
    (schedules : Nat → JoinSchedule) (fuel : Nat) : Result ColumnarTable := do
  let ret ← executeImpl hashKey plan schedules fuel plan.root
  toColumnarFromColumn fresh plan.inputs ret

end JoinOptimizer
