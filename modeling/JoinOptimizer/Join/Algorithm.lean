import JoinOptimizer.Store.Materialize
import JoinOptimizer.HashTable.Build

/-! `JoinAlgorithm` of `src/execute.cpp`: the build over one key column and the parallel probe with
the other.  Only `run<int32_t>` has a body. -/

namespace JoinOptimizer

open Lib

/-- The order in which the threads of one join do their work: the schedules of `build_parallel`, and
the thread that the atomic counter hands each page to. -/
structure JoinSchedule where
  partitions : List (Fin numThreads)
  merges : List (Fin numThreads)
  pageOwner : Nat → Fin numThreads

/-- `struct JoinAlgorithm`, less the reference to the results. -/
structure JoinAlgorithm where
  buildLeft : Bool
  left : List ColumnT
  right : List ColumnT
  leftCol : Nat
  rightCol : Nat
  outputAttrs : List (Nat × DataType)

/-- A column of results before its first value: `is_no_null` and `original_pages` follow the column
that `col_idx` names.  The second index wraps around where `col_idx` names a column on the left. -/
def resultColumn (left right : List ColumnT) (attr : Nat × DataType) : ColumnT :=
  match left[attr.1]? with
  | some c =>
    if c.isNoNull then ⟨attr.2, [], true, c.originalPages⟩ else resultRight
  | none => resultRight
where
  resultRight : ColumnT :=
    match right[(attr.1 + (2 ^ 64 - left.length)) % 2 ^ 64]? with
    | some c => if c.isNoNull then ⟨attr.2, [], true, c.originalPages⟩ else ⟨attr.2, [], false, []⟩
    | none => ⟨attr.2, [], false, []⟩

namespace JoinAlgorithm

variable (hashKey : Int32 → BitVec 64)

/-- One row of `collect_build`. -/
def collectRow (col : ColumnT) (p : Nat) (ht : UnchainedHashTable) (row : ValueT × Nat) :
    Result UnchainedHashTable := do
  match ← decodeInt32 col.originalPages row.1 with
  | some key => .ok (ht.insertTempKey key (UInt32.ofNat (p * bufSize + row.2)))
  | none => .ok ht

/-- `collect_build`. -/
def collectBuild (col : ColumnT) (ht : UnchainedHashTable) : Result UnchainedHashTable :=
  col.grid.zipIdx.foldlM
    (fun ht (page, p) => page.zipIdx.foldlM (collectRow col p) ht) ht

variable (a : JoinAlgorithm)

/-- The value of output column `colIdx` for a match of the slots `build` and `probe`. -/
def sourceValue (colIdx : Nat) (build probe : Nat × Nat) : Result ValueT := do
  if colIdx < a.left.length then
    let src ← index a.left colIdx
    if a.buildLeft then src.slot build.1 build.2 else src.slot probe.1 probe.2
  else
    let src ← index a.right (colIdx - a.left.length)
    if a.buildLeft then src.slot probe.1 probe.2 else src.slot build.1 build.2

/-- The loop over the output columns for one match. -/
def appendMatch (probe : Nat × Nat) (out : List ColumnT) (buildPos : UInt32) :
    Result (List ColumnT) :=
  (out.zip a.outputAttrs).mapM fun (c, colIdx, _) => do
    let pidx := buildPos.toNat / bufSize
    let posidx := buildPos.toNat % bufSize
    .ok (c.append (← a.sourceValue colIdx (pidx, posidx) probe))

/-- One row of a probe page. -/
def probeRow (ht : UnchainedHashTable) (probeCol : ColumnT) (p : Nat) (out : List ColumnT)
    (row : ValueT × Nat) : Result (List ColumnT) := do
  match ← decodeInt32 probeCol.originalPages row.1 with
  | some key => do
    let hits ← ht.probe hashKey key []
    let probePos := p * bufSize + row.2
    hits.foldlM (a.appendMatch (probePos / bufSize, probePos % bufSize)) out
  | none => .ok out

def probePage (ht : UnchainedHashTable) (probeCol : ColumnT) (out : List ColumnT) (p : Nat) :
    Result (List ColumnT) := do
  (← index probeCol.grid p).zipIdx.foldlM (a.probeRow hashKey ht probeCol p) out

/-- The pages that the counter hands to thread `t`, in order. -/
def pagesOf (schedule : JoinSchedule) (pages : Nat) (t : Fin numThreads) : List Nat :=
  (List.range pages).filter (schedule.pageOwner · = t)

/-- `probe_worker` of thread `t` with its `thread_results`. -/
def probeWorker (schedule : JoinSchedule) (ht : UnchainedHashTable) (probeCol : ColumnT)
    (t : Fin numThreads) : Result (List ColumnT) :=
  (pagesOf schedule probeCol.grid.length t).foldlM
    (a.probePage hashKey ht probeCol)
    (a.outputAttrs.map (resultColumn a.left a.right))

/-- The pages of a thread move behind those of the results. -/
def mergeResults (results threadResults : List ColumnT) : List ColumnT :=
  List.zipWith (fun r c => { r with pages := r.pages ++ c.pages }) results threadResults

/-- The column that `collect_build` reads. -/
def buildColumn : Result ColumnT :=
  if a.buildLeft then index a.left a.leftCol else index a.right a.rightCol

/-- The column whose pages the threads share out. -/
def probeColumn : Result ColumnT :=
  if a.buildLeft then index a.right a.rightCol else index a.left a.leftCol

/-- `run<int32_t>`. -/
def run (schedule : JoinSchedule) (results : List ColumnT) : Result (List ColumnT) := do
  let ht ← collectBuild (← a.buildColumn) .new
  let ht ← ht.buildParallel hashKey schedule.partitions schedule.merges ht.tempKeysPos.length
  let probeCol ← a.probeColumn
  let threadResults ← (List.finRange numThreads).mapM (a.probeWorker hashKey schedule ht probeCol)
  .ok (threadResults.foldl mergeResults results)

end JoinAlgorithm

end JoinOptimizer
