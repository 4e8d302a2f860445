import JoinOptimizer.Sql.JoinGraph
import JoinOptimizer.Plan.Combinations
import JoinOptimizer.Filter.PrettyPrint

/-! `load_join_pipeline` of `tests/read_sql.cpp`: the plan of a query from the tree of a plan in JSON. -/

namespace JoinOptimizer

open Lib

/-- A node of a plan in JSON with the members that are read. -/
inductive PlanJson
  | node (nodeType : String) (tableAlias relationName : Option String) (plans : List PlanJson)

/-- What a node is read as; `failed` where the reading of the node fails. -/
inductive Operator
  | other (child : Operator)
  | hashJoin (buildLeft : Bool) (left right : Operator)
  | scan (tableAlias relationName : Option String)
  | failed (fault : Fault)

def otherOperators : List String := ["Aggregate", "Gather"]

def joinTypes : List String := ["Nested Loop", "Hash Join", "Merge Join"]

def scanTypes : List String := ["Seq Scan", "Index Only Scan"]

/-- The tests on the types of a node and its children that `extract_entities` and `recurse` make. -/
def PlanJson.operator : PlanJson → Operator
  | .node nodeType tableAlias relationName plans =>
    if nodeType ∈ otherOperators then
      match plans with
      | child :: _ => .other child.operator
      | [] => .failed .outOfRange
    else if nodeType ∈ joinTypes then
      if nodeType ≠ "Hash Join" then .failed (.runtimeError "Not Hash Join")
      else
        match plans with
        | left@(.node leftType _ _ leftPlans) :: right@(.node rightType _ _ rightPlans) :: _ =>
          if leftType = "Hash" ∧ rightType ≠ "Hash" then
            match leftPlans with
            | child :: _ => .hashJoin true child.operator right.operator
            | [] => .failed .outOfRange
          else if leftType ≠ "Hash" ∧ rightType = "Hash" then
            match rightPlans with
            | child :: _ => .hashJoin false left.operator child.operator
            | [] => .failed .outOfRange
          else
            .failed (.runtimeError "Hash Join should have at least one Hash child")
        | _ => .failed .outOfRange
    else if nodeType ∈ scanTypes then .scan tableAlias relationName
    else .failed (.runtimeError ("Not supported node type: " ++ nodeType))

example : (PlanJson.node "Gather" none none
    [.node "Hash Join" none none [.node "Seq Scan" (some "a") none [],
      .node "Hash" none none [.node "Seq Scan" (some "b") none []]]]).operator =
    .other (.hashJoin false (.scan (some "a") none) (.scan (some "b") none)) := by
  simp [PlanJson.operator, otherOperators, joinTypes, scanTypes]

/-- The file of a table under a filter. -/
structure CacheFile where
  table : String
  fnvhash : UInt64
  deriving DecidableEq

def CacheFile.filename (file : CacheFile) : String :=
  "cache/" ++ file.table ++ "_" ++ toString file.fnvhash ++ ".tbl"

/-- `FNVHash::hash`. -/
def fnvHash (key : Bytes) : UInt64 :=
  key.foldl (fun h p => (h ^^^ p.toUInt64) * 1099511628211) 14695981039346656037

/-- The columns of a node: their tables, names and types. -/
abbrev OutputColumns := List (TableEntity × String × DataType)

/-- What `load_join_pipeline` reads besides the tree, with the order of the hash maps, the text of a
`double` and the files in the cache. -/
structure Pipeline where
  parsed : ParsedSQL
  order : HashOrder
  formatDouble : UInt64 → Bytes
  cache : CacheFile → Option ColumnarTable

namespace Plan

/-- `new_join_node`. -/
def newJoinNode (plan : Plan) (join : JoinNode) (outputAttrs : List (Nat × DataType)) : Nat × Plan :=
  (plan.nodes.length, { plan with nodes := plan.nodes ++ [⟨.join join, outputAttrs⟩] })

/-- `new_scan_node`. -/
def newScanNode (plan : Plan) (baseTableId : Nat) (outputAttrs : List (Nat × DataType)) : Nat × Plan :=
  (plan.nodes.length, { plan with nodes := plan.nodes ++ [⟨.scan ⟨baseTableId⟩, outputAttrs⟩] })

/-- `new_input`. -/
def newInput (plan : Plan) (input : ColumnarTable) : Nat × Plan :=
  (plan.inputs.length, { plan with inputs := plan.inputs ++ [input] })

end Plan

/-- The column of `required` among the columns, and its type. -/
def resolve (columns : OutputColumns) (required : TableEntity × String) : Result (Nat × DataType) :=
  match columns.findIdx? fun c => c.1 = required.1 ∧ c.2.1 = required.2 with
  | some idx => do
    let column ← index columns idx
    .ok (idx, column.2.2)
  | none => .error (.runtimeError ("Cannot found the required attr: " ++ required.1.format ++ "." ++
      required.2 ++ " in children's output"))

/-- The columns that a node is to have, with the types of its attributes. -/
def outputColumns (required : OutputAttrs) (attrs : List (Nat × DataType)) : OutputColumns :=
  List.zipWith (fun r attr => (r.1, r.2, attr.2)) required attrs

/-- The position of a column among the columns of a child. -/
def findColumn (columns : OutputColumns) (entity : TableEntity) (column : String) : Option Nat :=
  columns.findIdx? fun c => c.1 = entity ∧ c.2.1 = column

/-- The required attributes of either side. -/
def splitRequired (leftEntities rightEntities : List TableEntity) :
    OutputAttrs → Result (OutputAttrs × OutputAttrs)
  | [] => .ok ([], [])
  | required :: rest =>
    if required.1 ∈ leftEntities then do
      let (left, right) ← splitRequired leftEntities rightEntities rest
      .ok (required :: left, right)
    else if required.1 ∈ rightEntities then do
      let (left, right) ← splitRequired leftEntities rightEntities rest
      .ok (left, required :: right)
    else
      .error (.runtimeError
        "Required attributes cannot be found in neither left child nor right child.")

/-- The attributes of a side with the one of the join condition, if that is not among them. -/
def addKey (required : OutputAttrs) (entity : TableEntity) (column : String) : OutputAttrs :=
  if (entity, column) ∈ required then required else required ++ [(entity, column)]

namespace Pipeline

variable (pipeline : Pipeline)

/-- `extract_entities`. -/
def extractEntities : Operator → Result (List TableEntity)
  | .other child => extractEntities child
  | .hashJoin _ left right => do
    let leftEntities ← extractEntities left
    let rightEntities ← extractEntities right
    .ok (leftEntities ++ rightEntities.filter (· ∉ leftEntities))
  | .scan none _ => .error (.runtimeError "No \"Alias\" in scan node")
  | .scan (some tableAlias) _ =>
    match pipeline.parsed.scope.names.aliasMap.lookup tableAlias with
    | some entity => .ok [entity]
    | none => .error (.runtimeError ("Cannot find alias: " ++ tableAlias))
  | .failed fault => .error fault

/-- The last condition between a table of the left side and one of the right side that the loops over
the join graph find. -/
def joinCondition (leftEntities rightEntities : List TableEntity) :
    Option (TableEntity × TableEntity × (String × String)) :=
  (pipeline.order.entities leftEntities).foldl (fun found entity =>
    match pipeline.parsed.joinGraph.lookup entity with
    | some adjacent => (pipeline.order.adjacent adjacent).foldl (fun found adj =>
        if adj.1 ∈ rightEntities then some (entity, adj) else found) found
    | none => found) none

/-- The table of a scan. -/
def scanEntity : Option String → Option String → Result TableEntity
  | some tableAlias, _ =>
    match pipeline.parsed.scope.names.aliasMap.lookup tableAlias with
    | some entity => .ok entity
    | none => .error (.runtimeError ("Cannot find alias: " ++ tableAlias))
  | none, some relationName =>
    match pipeline.parsed.scope.names.tableCounts.lookup relationName with
    | some count =>
      if count = 1 then .ok ⟨relationName, 0⟩
      else .error (.runtimeError ("Table " ++ relationName ++ " is used at least twice"))
    | none => .error (.runtimeError ("Cannot find table: " ++ relationName))
  | none, none =>
    .error (.runtimeError "Neither \"Alias\" nor \"Relation Name\" exists in scan node")

/-- The cache file of a table: its name goes with the text of the filter. -/
def cacheFile (entity : TableEntity) : Result CacheFile :=
  match pipeline.parsed.filters.lookup entity with
  | none => .ok ⟨entity.table, fnvHash (ascii "No filter".toList)⟩
  | some filter =>
    match filter.statement? with
    | some stmt => .ok ⟨entity.table, fnvHash (stmt.prettyPrint pipeline.formatDouble 0)⟩
    | none => .error .outOfRange

/-- The scan of a table. -/
def recurseScan (tableAlias relationName : Option String) (requiredAttrs : OutputAttrs) (plan : Plan) :
    Result (Nat × OutputColumns × Plan) := do
  let entity ← pipeline.scanEntity tableAlias relationName
  match pipeline.parsed.scope.schema.lookup entity.table with
  | none => .error (.runtimeError ("Cannot find attributes for table: " ++ entity.table))
  | some attributes => do
    let file ← pipeline.cacheFile entity
    match pipeline.cache file with
    | none => .error (.runtimeError ("Table file does not exist: " ++ file.filename))
    | some table => do
      let (newInputId, plan) := plan.newInput table
      let columns := attributes.map fun attr => (entity, attr.name, attr.type)
      let outputAttrs ← requiredAttrs.mapM (resolve columns)
      let (newNodeId, plan) := plan.newScanNode newInputId outputAttrs
      .ok (newNodeId, outputColumns requiredAttrs outputAttrs, plan)

/-- `recurse`. -/
def recurse : Operator → OutputAttrs → Plan → Result (Nat × OutputColumns × Plan)
  | .other child, requiredAttrs, plan => recurse child requiredAttrs plan
  | .hashJoin buildLeft pleft pright, requiredAttrs, plan => do
    let leftEntities ← pipeline.extractEntities pleft
    let rightEntities ← pipeline.extractEntities pright
    match pipeline.joinCondition leftEntities rightEntities with
    | none => .error (.runtimeError "Cannot find join condition")
    | some (leftEntity, rightEntity, leftColumn, rightColumn) => do
      let (leftRequired, rightRequired) ← splitRequired leftEntities rightEntities requiredAttrs
      let (left, leftColumns, plan) ←
        recurse pleft (addKey leftRequired leftEntity leftColumn) plan
      let (right, rightColumns, plan) ←
        recurse pright (addKey rightRequired rightEntity rightColumn) plan
      match findColumn leftColumns leftEntity leftColumn,
          findColumn rightColumns rightEntity rightColumn with
      | some leftAttr, some rightAttr => do
        let outputAttrs ← requiredAttrs.mapM (resolve (leftColumns ++ rightColumns))
        let (newNodeId, plan) :=
          plan.newJoinNode { buildLeft, left, right, leftAttr, rightAttr } outputAttrs
        .ok (newNodeId, outputColumns requiredAttrs outputAttrs, plan)
      | _, _ => .error (.runtimeError "Join conditions are not set properly")
  | .scan tableAlias relationName, requiredAttrs, plan =>
    pipeline.recurseScan tableAlias relationName requiredAttrs plan
  | .failed fault, _, _ => .error fault

/-- `load_join_pipeline`. -/
def loadJoinPipeline (node : PlanJson) : Result Plan := do
  let (root, _, plan) ← pipeline.recurse node.operator pipeline.parsed.outputAttrs ⟨[], [], 0⟩
  .ok { plan with root }

end Pipeline

end JoinOptimizer
