import JoinOptimizer.Sql.Enforced

/-! `load_join_pipeline` whatever loads the tables of the scans, a file of the cache or `from_csv`, and
what its recursion asks of each node that it adds. -/

namespace JoinOptimizer

open Lib

/-- The columns that a join compares. -/
structure JoinCondition where
  left : TableEntity × String
  right : TableEntity × String
  deriving DecidableEq

/-- What is asked of a node: its columns and, of a join, the condition. -/
structure Request where
  requiredAttrs : OutputAttrs
  condition : Option JoinCondition
  deriving DecidableEq

/-- What loads the table of a scan, whose attributes are given.  The number is that of the new input, since
`from_csv` keeps what earlier calls have read. -/
abbrev LoadTable := Nat → TableEntity → List Attribute → Result ColumnarTable

namespace Pipeline

variable (pipeline : Pipeline)

/-- The condition of a join, and what is asked of either side. -/
def splitJoin (pleft pright : Operator) (requiredAttrs : OutputAttrs) :
    Result (JoinCondition × OutputAttrs × OutputAttrs) := do
  let leftEntities ← pipeline.extractEntities pleft
  let rightEntities ← pipeline.extractEntities pright
  match pipeline.joinCondition leftEntities rightEntities with
  | none => .error (.runtimeError "Cannot find join condition")
  | some (leftEntity, rightEntity, leftColumn, rightColumn) => do
    let (leftRequired, rightRequired) ← splitRequired leftEntities rightEntities requiredAttrs
    .ok (⟨(leftEntity, leftColumn), (rightEntity, rightColumn)⟩,
      addKey leftRequired leftEntity leftColumn, addKey rightRequired rightEntity rightColumn)

/-- What `recurse` asks of the nodes, in the order in which it adds them. -/
def requests : Operator → OutputAttrs → Result (List Request)
  | .other child, requiredAttrs => requests child requiredAttrs
  | .hashJoin _ pleft pright, requiredAttrs => do
    let (condition, leftRequired, rightRequired) ← pipeline.splitJoin pleft pright requiredAttrs
    let left ← requests pleft leftRequired
    let right ← requests pright rightRequired
    .ok (left ++ right ++ [⟨requiredAttrs, some condition⟩])
  | .scan _ _, requiredAttrs => .ok [⟨requiredAttrs, none⟩]
  | .failed fault, _ => .error fault

section Load

variable (load : LoadTable)

/-- The scan of a table that `load` loads. -/
def recurseScanWith (tableAlias relationName : Option String) (requiredAttrs : OutputAttrs)
    (plan : Plan) : Result (Nat × OutputColumns × Plan) := do
  let entity ← pipeline.scanEntity tableAlias relationName
  match pipeline.parsed.scope.schema.lookup entity.table with
  | none => .error (.runtimeError ("Cannot find attributes for table: " ++ entity.table))
  | some attributes => do
    let table ← load plan.inputs.length entity attributes
    let (newInputId, plan) := plan.newInput table
    let columns := attributes.map fun attr => (entity, attr.name, attr.type)
    let outputAttrs ← requiredAttrs.mapM (resolve columns)
    let (newNodeId, plan) := plan.newScanNode newInputId outputAttrs
    .ok (newNodeId, outputColumns requiredAttrs outputAttrs, plan)

/-- `recurse` with the tables that `load` loads. -/
def recurseWith : Operator → OutputAttrs → Plan → Result (Nat × OutputColumns × Plan)
  | .other child, requiredAttrs, plan => recurseWith child requiredAttrs plan
  | .hashJoin buildLeft pleft pright, requiredAttrs, plan => do
    let (condition, leftRequired, rightRequired) ← pipeline.splitJoin pleft pright requiredAttrs
    let (left, leftColumns, plan) ← recurseWith pleft leftRequired plan
    let (right, rightColumns, plan) ← recurseWith pright rightRequired plan
    match findColumn leftColumns condition.left.1 condition.left.2,
        findColumn rightColumns condition.right.1 condition.right.2 with
    | some leftAttr, some rightAttr => do
      let outputAttrs ← requiredAttrs.mapM (resolve (leftColumns ++ rightColumns))
      let (newNodeId, plan) :=
        plan.newJoinNode { buildLeft, left, right, leftAttr, rightAttr } outputAttrs
      .ok (newNodeId, outputColumns requiredAttrs outputAttrs, plan)
    | _, _ => .error (.runtimeError "Join conditions are not set properly")
  | .scan tableAlias relationName, requiredAttrs, plan =>
    pipeline.recurseScanWith load tableAlias relationName requiredAttrs plan
  | .failed fault, _, _ => .error fault

/-- `load_join_pipeline` with the tables that `load` loads. -/
def loadJoinPipelineWith (node : PlanJson) : Result Plan := do
  let (root, _, plan) ← pipeline.recurseWith load node.operator pipeline.parsed.outputAttrs ⟨[], [], 0⟩
  .ok { plan with root }

end Load

/-- The table that is in the cache for a scan. -/
def cacheTable : LoadTable := fun _ entity _ => do
  let file ← pipeline.cacheFile entity
  match pipeline.cache file with
  | none => .error (.runtimeError ("Table file does not exist: " ++ file.filename))
  | some table => .ok table

variable {pipeline}

theorem recurseScan_eq (tableAlias relationName : Option String) (requiredAttrs : OutputAttrs)
    (plan : Plan) : pipeline.recurseScan tableAlias relationName requiredAttrs plan =
      pipeline.recurseScanWith pipeline.cacheTable tableAlias relationName requiredAttrs plan := by
  unfold recurseScan recurseScanWith cacheTable
  congr 1
  funext entity
  cases pipeline.parsed.scope.schema.lookup entity.table with
  | none => rfl
  | some attributes =>
    cases pipeline.cacheFile entity with
    | error fault => rfl
    | ok file =>
      simp only [ok_bind]
      cases pipeline.cache file <;> rfl

theorem recurse_eq (op : Operator) (requiredAttrs : OutputAttrs) (plan : Plan) :
    pipeline.recurse op requiredAttrs plan =
      pipeline.recurseWith pipeline.cacheTable op requiredAttrs plan := by
  induction op generalizing requiredAttrs plan with
  | other child ih => exact ih requiredAttrs plan
  | scan tableAlias relationName => exact recurseScan_eq tableAlias relationName requiredAttrs plan
  | failed fault => rfl
  | hashJoin buildLeft pleft pright ihl ihr =>
    unfold recurse recurseWith splitJoin
    rw [funext₂ ihl, funext₂ ihr]
    cases pipeline.extractEntities pleft with
    | error fault => rfl
    | ok leftEntities =>
      cases pipeline.extractEntities pright with
      | error fault => rfl
      | ok rightEntities =>
        simp only [ok_bind]
        cases pipeline.joinCondition leftEntities rightEntities with
        | none => rfl
        | some condition =>
          dsimp only
          cases splitRequired leftEntities rightEntities requiredAttrs with
          | error fault => rfl
          | ok required => rfl

theorem loadJoinPipeline_eq (node : PlanJson) :
    pipeline.loadJoinPipeline node = pipeline.loadJoinPipelineWith pipeline.cacheTable node := by
  unfold loadJoinPipeline loadJoinPipelineWith
  rw [recurse_eq]

end Pipeline

end JoinOptimizer
