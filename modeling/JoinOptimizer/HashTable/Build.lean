import JoinOptimizer.Data
import JoinOptimizer.Lib.Workers
import JoinOptimizer.Lib.Chain

/-! The hash table of the join (`include/Uhashtable.h`, `src/Uhashtable.cpp`): the serial and the
parallel build, and the probe.  The hash of a key is a parameter. -/

namespace JoinOptimizer

open Lib

/-- `NUM_THREADS`. -/
abbrev numThreads : Nat := 16

/-- `NUM_PARTITIONS`. -/
abbrev numPartitions : Nat := 16

/-- `PARTITION_BITS`. -/
def partitionBits : Nat := 4

/-- `CHUNK_SIZE`. -/
def chunkSize : Nat := 64 * 2048

/-- `ENTRIES_PER_CHUNK`; an `HTEntry` has eight bytes. -/
def entriesPerChunk : Nat := chunkSize / 8

structure HTEntry where
  key : Int32
  keyPos : UInt32
  deriving DecidableEq, Repr

/-- `struct Chunk`; `data` is the prefix of the array that `count` delimits. -/
abbrev Chunk := Node HTEntry

def Chunk.isFull (c : Chunk) : Bool := c.data.length == entriesPerChunk

def Chunk.insert (c : Chunk) (e : HTEntry) : Result Chunk :=
  if c.data.length < entriesPerChunk then .ok { c with data := c.data ++ [e] }
  else .error .outOfRange

structure Partitions where
  chunkList : Option Nat
  totalCount : Nat

/-- `DIRECTORY_SIZE`. -/
@[irreducible] def directorySize : Nat := 2 ^ 16

structure UnchainedHashTable where
  tempKeysPos : List (Int32 × UInt32)
  entries : List HTEntry
  directory : List (BitVec 64)
  dirSize : Nat

namespace UnchainedHashTable

/-- The constructor. -/
def new : UnchainedHashTable :=
  { tempKeysPos := [], entries := [], directory := List.replicate directorySize 0,
    dirSize := directorySize }

def insertTempKey (t : UnchainedHashTable) (key : Int32) (keyPos : UInt32) : UnchainedHashTable :=
  { t with tempKeysPos := t.tempKeysPos ++ [(key, keyPos)] }

end UnchainedHashTable

def dirHashId (hash : BitVec 64) : BitVec 16 := (hash >>> (64 - 16)).setWidth 16

def makeDirectoryEntry (pointer : BitVec 64) (bloom : BitVec 16) : BitVec 64 :=
  (pointer <<< 16) ||| bloom.setWidth 64

def extractPointer (entry : BitVec 64) : Nat := (entry >>> 16).toNat

def extractBloom (entry : BitVec 64) : BitVec 16 := (entry &&& 0xFFFF#64).setWidth 16

/-- `1u << ((key >> shift) & 0xF)`. -/
def bloomBit (key : Int32) (shift : Nat) : BitVec 16 :=
  (1#32 <<< (key.toBitVec.sshiftRight shift &&& 0xF#32)).setWidth 16

/-- `bloom_mask`. -/
def bloomMask (key : Int32) : BitVec 16 :=
  bloomBit key 0 ||| bloomBit key 4 ||| bloomBit key 8 ||| bloomBit key 12

def bloomFilter (entries : List HTEntry) (start stop : Nat) : Result (BitVec 16) :=
  (List.range' start (stop - start)).foldlM (fun filter i => do
    let key := (← index entries i).key
    .ok (filter ||| bloomBit key 0 ||| bloomBit key 4 ||| bloomBit key 8 ||| bloomBit key 12)) 0

/-- One round of the loop that both builds end with: a slot whose pointer is `count` takes the word of
the next slot that has another pointer.  The state is `directory` and `next`. -/
def fillSlot (count : Nat) (s : List (BitVec 64) × BitVec 64) (p : Nat) :
    Result (List (BitVec 64) × BitVec 64) := do
  let (directory, next) := s
  let entry ← index directory p
  if extractPointer entry = count then .ok (directory.set p next, next) else .ok (directory, entry)

def fillEmpty (dirSize count : Nat) (directory : List (BitVec 64)) : Result (List (BitVec 64)) := do
  let (directory, _) ← (List.range dirSize).reverse.foldlM (fillSlot count)
    (directory, makeDirectoryEntry (BitVec.ofNat 64 count) 0)
  .ok directory

section Serial

/-- The `TempVec` of `build`. -/
structure TempVec where
  dirHashId : BitVec 16
  entry : HTEntry

variable (hashKey : Int32 → BitVec 64)

/-- The position after the entries from `idx` on whose slot is `p`. -/
def runEnd (tmp : List TempVec) (count : Nat) (p : BitVec 16) : Nat → Nat → Result Nat
  | 0, _ => .error .outOfFuel
  | fuel + 1, idx =>
    if idx < count then do
      let v ← index tmp idx
      if v.dirHashId = p then runEnd tmp count p fuel (idx + 1) else .ok idx
    else .ok idx

/-- The loop of `build` over the runs of entries with one slot. -/
def buildRuns (tmp : List TempVec) (entries : List HTEntry) (count : Nat) :
    Nat → Nat → List (BitVec 64) → Result (List (BitVec 64))
  | 0, _, _ => .error .outOfFuel
  | fuel + 1, idx, directory =>
    if idx < count then do
      let p := (← index tmp idx).dirHashId
      let stop ← runEnd tmp count p (count + 1) idx
      let bloom ← bloomFilter entries idx stop
      let _ ← index directory p.toNat
      buildRuns tmp entries count fuel stop
        (directory.set p.toNat (makeDirectoryEntry (BitVec.ofNat 64 idx) bloom))
    else .ok directory

/-- `build`, with `sort` for the call of `std::sort`. -/
def UnchainedHashTable.build (sort : List TempVec → List TempVec) (t : UnchainedHashTable)
    (count : Nat) : Result UnchainedHashTable := do
  let tmp ← (List.range count).mapM fun i => do
    let (key, row) ← index t.tempKeysPos i
    .ok { dirHashId := dirHashId (hashKey key), entry := { key := key, keyPos := row } : TempVec }
  let tmp := sort tmp
  let entries ← (List.range count).mapM fun i => do
    .ok (← index tmp i).entry
  let directory := t.directory.map fun _ => makeDirectoryEntry (BitVec.ofNat 64 count) 0
  let directory ← buildRuns tmp entries count (count + 1) 0 directory
  let directory ← fillEmpty t.dirSize count directory
  .ok { t with entries := entries, directory := directory }

end Serial

section Parallel

variable (hashKey : Int32 → BitVec 64) {T P : Nat}

def getPartition (key : Int32) : Nat := (hashKey key >>> (64 - partitionBits)).toNat

/-- Where a list of chunks hangs: `thread_data[t].partitions[q]` or `global_partitions[q]`. -/
inductive ListRef (T P : Nat)
  | thread (t : Fin T) (q : Fin P)
  | global (q : Fin P)
  deriving DecidableEq

/-- What the workers of `build_parallel` share: the chunks and the arrays of `Partitions`. -/
structure ChunkLists (T P : Nat) where
  heap : Heap HTEntry
  partitions : ListRef T P → Partitions

def ChunkLists.new : ChunkLists T P := { heap := [], partitions := fun _ => ⟨none, 0⟩ }

/-- An index into an array of `n` elements. -/
def checkIndex (n i : Nat) : Result (Fin n) :=
  if h : i < n then .ok ⟨i, h⟩ else .error .outOfRange

def deref (heap : Heap HTEntry) (p : Nat) : Result Chunk :=
  match heap.get p with
  | some c => .ok c
  | none => .error .outOfRange

/-- The conversion of a `size_t` to an `int`. -/
def toInt (n : Nat) : Int := (n : Int).bmod (2 ^ 32)

/-- The `int`s from `start` to `stop`. -/
def intRange (start stop : Int) : List Int :=
  (List.range (stop - start).toNat).map fun i => start + Int.ofNat i

/-- The chunk of a list that takes the next entry, new if there is none with room. -/
def openChunk (heap : Heap HTEntry) (chunkList : Option Nat) : Result (Heap HTEntry × Nat) := do
  let (heap, first) := match chunkList with
    | none => (heap.new ⟨[], none⟩, heap.length)
    | some first => (heap, first)
  let current ← deref heap first
  .ok (if Chunk.isFull current then (heap.new ⟨[], some first⟩, heap.length) else (heap, first))

/-- One round of the loop of `partition_worker`. -/
def partitionEntry (temp : List (Int32 × UInt32)) (t : Fin T) (i : Int) (s : ChunkLists T P) :
    Result (ChunkLists T P) := do
  let (key, pos) ← index temp (i % 2 ^ 64).toNat
  let q ← checkIndex P (getPartition hashKey key)
  let part := s.partitions (.thread t q)
  let (heap, first) ← openChunk s.heap part.chunkList
  let current ← Chunk.insert (← deref heap first) { key := key, keyPos := pos }
  .ok { heap := heap.put first current,
        partitions := Function.update s.partitions (.thread t q)
          { chunkList := some first, totalCount := part.totalCount + 1 } }

/-- The address of the last chunk of a list. -/
def lastChunk (heap : Heap HTEntry) : Nat → Nat → Result Nat
  | 0, _ => .error .outOfFuel
  | fuel + 1, p => do
    match (← deref heap p).next with
    | none => .ok p
    | some next => lastChunk heap fuel next

/-- The list that starts at `first` behind the list of a global partition: the heap and the first
chunk of the whole. -/
def appendChunks (heap : Heap HTEntry) (chunkList : Option Nat) (first : Nat) :
    Result (Heap HTEntry × Nat) :=
  match chunkList with
  | none => .ok (heap, first)
  | some head => do
    let last ← lastChunk heap (heap.length + 1) head
    let chunk ← deref heap last
    .ok (heap.put last { chunk with next := some first }, head)

/-- One round of the inner loop of `merge_worker`, for partition `i` and thread `j`. -/
def mergeList (i : Fin P) (j : Fin T) (s : ChunkLists T P) : Result (ChunkLists T P) := do
  let globalPart := s.partitions (.global i)
  let threadPart := s.partitions (.thread j i)
  match threadPart.chunkList with
  | none => .ok s
  | some first =>
    let (heap, head) ← appendChunks s.heap globalPart.chunkList first
    let totalCount := globalPart.totalCount + threadPart.totalCount
    .ok { heap := heap,
          partitions := Function.update
            (Function.update s.partitions (.thread j i) { chunkList := none, totalCount := 0 })
            (.global i) { chunkList := some head, totalCount } }

/-- `start` before round `i` of the loop that starts the partition workers. -/
def sliceStart (T count : Nat) : Nat → Nat
  | 0 => 0
  | i + 1 => sliceStart T count i + (count / T + if i < count % T then 1 else 0)

/-- The rounds of partition worker `t`. -/
def partitionJobs (T count : Nat) (t : Fin T) : List Int :=
  intRange (toInt (sliceStart T count t)) (toInt (sliceStart T count (t + 1)))

/-- The first partition of merge worker `i`. -/
def mergeStart (T P i : Nat) : Nat :=
  if i < P % T then i * (P / T + 1) else i * (P / T) + P % T

/-- The number of partitions of merge worker `i`. -/
def mergeCount (T P i : Nat) : Nat := if i < P % T then P / T + 1 else P / T

/-- The rounds of merge worker `t`, each a partition and a thread. -/
def mergeJobs (T P : Nat) (t : Fin T) : List (Nat × Fin T) :=
  (List.range' (mergeStart T P t) (mergeCount T P t)).flatMap fun i =>
    (List.finRange T).map fun j => (i, j)

/-- The loop that starts the merge workers: round `i` fills `merge_args[i]`, and `merge_args` has an
element for each partition. -/
def startMergeWorkers (T P : Nat) : Result Unit :=
  (List.range T).forM fun i => do let _ ← checkIndex P i

/-- The first two phases of `build_parallel`.  A schedule says how the threads of a phase
interleave. -/
def partitionAndMerge (T P : Nat) (partitionSchedule mergeSchedule : List (Fin T))
    (temp : List (Int32 × UInt32)) (count : Nat) : Result (ChunkLists T P) := do
  let s ← (interleave (List.finRange T) partitionSchedule (partitionJobs T count)).foldlM
    (fun s (t, i) => partitionEntry hashKey temp t i s) ChunkLists.new
  startMergeWorkers T P
  (interleave (List.finRange T) mergeSchedule (mergeJobs T P)).foldlM
    (fun s (_, i, j) => do mergeList (← checkIndex P i) j s) s

/-- `while (chunk != nullptr)`: the rounds of `f` for the entries of a list of chunks. -/
def forChunks {σ : Type} (f : σ → HTEntry → Result σ) (heap : Heap HTEntry) :
    Nat → Option Nat → σ → Result σ
  | _, none, s => .ok s
  | 0, some _, _ => .error .outOfFuel
  | fuel + 1, some p, s => do
    let chunk ← deref heap p
    let s ← chunk.data.foldlM f s
    forChunks f heap fuel chunk.next s

/-- The loops over the chunks of all global partitions. -/
def forPartitions {σ : Type} (f : σ → HTEntry → Result σ) (s : ChunkLists T P) (a : σ) : Result σ :=
  (List.finRange P).foldlM
    (fun a q => forChunks f s.heap s.heap.length (s.partitions (.global q)).chunkList a) a

def slotOf (e : HTEntry) : Nat := (dirHashId (hashKey e.key)).toNat

/-- The first loop of phase 3 over the entries; the state is `counts` and `directory`. -/
def countEntry (s : List Nat × List (BitVec 64)) (e : HTEntry) :
    Result (List Nat × List (BitVec 64)) := do
  let slot := slotOf hashKey e
  let n ← index s.1 slot
  let word ← index s.2 slot
  .ok (s.1.set slot (n + 1), s.2.set slot (word ||| (bloomMask e.key).setWidth 64))

/-- The loop of phase 3 over the slots; the state is `counts`, `directory` and `pos`. -/
def placeSlot (s : List Nat × List (BitVec 64) × Nat) (i : Nat) :
    Result (List Nat × List (BitVec 64) × Nat) := do
  let (counts, directory, pos) := s
  let bloom := extractBloom (← index directory i)
  let n ← index counts i
  .ok (counts.set i 0, directory.set i (makeDirectoryEntry (BitVec.ofNat 64 pos) bloom), pos + n)

/-- The second loop of phase 3 over the entries; the state is `counts` and `entries`. -/
def placeEntry (directory : List (BitVec 64)) (s : List Nat × List HTEntry) (e : HTEntry) :
    Result (List Nat × List HTEntry) := do
  let slot := slotOf hashKey e
  let start := extractPointer (← index directory slot)
  let n ← index s.1 slot
  let _ ← index s.2 (start + n)
  .ok (s.1.set slot (n + 1), s.2.set (start + n) e)

/-- `std::vector::resize`. -/
def resize {α : Type} (xs : List α) (n : Nat) (a : α) : List α :=
  xs.take n ++ List.replicate (n - xs.length) a

/-- Phase 3 of `build_parallel`: the entries and the directory. -/
def buildDirectory (lists : ChunkLists T P) (t : UnchainedHashTable) (count : Nat) :
    Result UnchainedHashTable := do
  let directory := t.directory.map fun _ => makeDirectoryEntry (BitVec.ofNat 64 count) 0
  let (counts, directory) ← forPartitions (countEntry hashKey) lists
    (List.replicate t.dirSize 0, directory)
  let entries := resize t.entries count ⟨0, 0⟩
  let (counts, directory, _) ← (List.range t.dirSize).foldlM placeSlot (counts, directory, 0)
  let (_, entries) ← forPartitions (placeEntry hashKey directory) lists (counts, entries)
  let directory ← fillEmpty t.dirSize count directory
  .ok { t with entries := entries, directory := directory }

/-- `while (chunk)`: a list of chunks is deleted. -/
def deleteChunks : Nat → Heap HTEntry → Option Nat → Result (Heap HTEntry)
  | _, heap, none => .ok heap
  | 0, _, some _ => .error .outOfFuel
  | fuel + 1, heap, some p => do
    let next := (← deref heap p).next
    deleteChunks fuel (heap.delete p) next

/-- The chunks that `build_parallel` deletes: those of the global partitions, and those that the
destructor of each `ThreadLocalData` still finds. -/
def deleteLists (lists : ChunkLists T P) : Result (Heap HTEntry) := do
  let roots := (List.finRange P).map ListRef.global ++
    (List.finRange T).flatMap fun t => (List.finRange P).map (ListRef.thread t)
  roots.foldlM
    (fun heap r => deleteChunks heap.length heap (lists.partitions r).chunkList) lists.heap

def UnchainedHashTable.buildParallel (partitionSchedule mergeSchedule : List (Fin numThreads))
    (t : UnchainedHashTable) (count : Nat) : Result UnchainedHashTable := do
  let lists ← partitionAndMerge hashKey numThreads numPartitions partitionSchedule mergeSchedule
    t.tempKeysPos count
  let built ← buildDirectory hashKey lists t count
  let _ ← deleteLists lists
  .ok built

end Parallel

section Probe

variable (hashKey : Int32 → BitVec 64)

/-- `end` in `probe`. -/
def UnchainedHashTable.slotEnd (t : UnchainedHashTable) (p : Nat) : Result Nat :=
  if p = t.dirSize - 1 then .ok t.entries.length
  else do .ok (extractPointer (← index t.directory (p + 1)))

def UnchainedHashTable.probe (t : UnchainedHashTable) (probeKey : Int32) (out : List UInt32) :
    Result (List UInt32) := do
  let p := (dirHashId (hashKey probeKey)).toNat
  let entry ← index t.directory p
  let pointer := extractPointer entry
  let bloom := extractBloom entry
  if pointer ≥ t.entries.length then .ok out
  else if bloom &&& bloomMask probeKey ≠ bloomMask probeKey then .ok out
  else do
    let stop ← t.slotEnd p
    (List.range' pointer (stop - pointer)).foldlM (fun out i => do
      let e ← index t.entries i
      if e.key = probeKey then .ok (out ++ [e.keyPos]) else .ok out) out

end Probe

end JoinOptimizer
