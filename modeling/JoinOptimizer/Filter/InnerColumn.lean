import JoinOptimizer.Filter.Statement

/-! `InnerColumn` of `include/inner_column.h`, and the evaluation of filters on whole columns in
`src/statement.cpp`. -/

namespace JoinOptimizer

open Lib

/-- The workers of `filter_tp`. -/
def filterThreads : Nat := 12

/-- `FilterThreadPool::begin_idx`. -/
def beginIdx (numThreads numTasks threadId : Nat) : Nat :=
  threadId * (numTasks / numThreads) + min threadId (numTasks % numThreads)

/-- `filter_tp.run`: the slices of the workers.  They share no index, so that their order plays no part. -/
def filterTpRun {σ : Type} (task : σ → Nat → Nat → σ) (numTasks : Nat) (s : σ) : σ :=
  (List.range filterThreads).foldl
    (fun s threadId =>
      let first := beginIdx filterThreads numTasks threadId
      let last := beginIdx filterThreads numTasks (threadId + 1)
      if first < last then task s first last else s) s

/-- `InnerColumn<T>` for a type of numbers. -/
structure InnerColumn (α : Type) where
  data : List α
  bitmap : List UInt8

namespace InnerColumn

variable {α : Type}

def empty : InnerColumn α := ⟨[], []⟩

/-- `bitmap_push_back`, behind the push to `data`. -/
def bitmapPushBack (c : InnerColumn α) (notNull : Bool) : InnerColumn α :=
  if (c.data.length + 7) / 8 > c.bitmap.length then
    { c with bitmap := c.bitmap ++ [if notNull then 0x01 else 0x00] }
  else if notNull then
    { c with bitmap := setFlag c.bitmap (c.data.length - 1) }
  else
    { c with bitmap := clearFlag c.bitmap (c.data.length - 1) }

def pushBack (c : InnerColumn α) (value : α) : InnerColumn α :=
  bitmapPushBack { c with data := c.data ++ [value] } true

def pushBackNull [Inhabited α] (c : InnerColumn α) : InnerColumn α :=
  bitmapPushBack { c with data := c.data ++ [default] } false

/-- One iteration of a comparison over a slice: the bit of row `i` of the slice is added to the output. -/
def selectRow (p : α → Bool) (c : InnerColumn α) (byteBegin : Nat) (output : List UInt8) (i : Nat) :
    List UInt8 :=
  output.modify (byteBegin + i / 8) fun byte =>
    byte ||| (c.bitmap.getD (byteBegin + i / 8) 0 &&& bitMask (i % 8) &&&
      ((if (c.data[byteBegin * 8 + i]?).any p then 1 else 0) <<< UInt8.ofNat (i % 8)))

/-- The comparison `p` on all rows. -/
def select (c : InnerColumn α) (p : α → Bool) : List UInt8 :=
  filterTpRun
    (fun output byteBegin byteEnd =>
      (List.range (min (byteEnd * 8) c.data.length - byteBegin * 8)).foldl (selectRow p c byteBegin) output)
    ((c.data.length + 7) / 8) (List.replicate c.bitmap.length 0)

variable [BEq α] [LT α] [DecidableLT α] [LE α] [DecidableLE α]

def less (c : InnerColumn α) (rhs : α) : List UInt8 := c.select fun v => v < rhs

def greater (c : InnerColumn α) (rhs : α) : List UInt8 := c.select fun v => v > rhs

def lessEqual (c : InnerColumn α) (rhs : α) : List UInt8 := c.select fun v => v ≤ rhs

def greaterEqual (c : InnerColumn α) (rhs : α) : List UInt8 := c.select fun v => v ≥ rhs

def equal (c : InnerColumn α) (rhs : α) : List UInt8 := c.select fun v => v == rhs

def notEqual (c : InnerColumn α) (rhs : α) : List UInt8 := c.select fun v => v != rhs

end InnerColumn

/-- `InnerColumn<std::string>`. -/
structure InnerStrings where
  data : Bytes
  offsets : List Nat
  bitmap : List UInt8
  row : Nat

namespace InnerStrings

def empty : InnerStrings := ⟨[], [], [], 0⟩

def bitmapPushBack (c : InnerStrings) (notNull : Bool) : InnerStrings :=
  if c.row / 8 + 1 > c.bitmap.length then
    { c with bitmap := c.bitmap ++ [if notNull then 0x01 else 0x00], row := c.row + 1 }
  else if notNull then
    { c with bitmap := setFlag c.bitmap c.row, row := c.row + 1 }
  else
    { c with bitmap := clearFlag c.bitmap c.row, row := c.row + 1 }

def pushBack (c : InnerStrings) (value : Bytes) : InnerStrings :=
  bitmapPushBack { c with data := c.data ++ value, offsets := c.offsets ++ [(c.data ++ value).length] } true

def pushBackNull (c : InnerStrings) : InnerStrings :=
  bitmapPushBack { c with offsets := c.offsets ++ [c.data.length] } false

/-- The string between the offsets of row `i`. -/
def value (c : InnerStrings) (i : Nat) : Bytes :=
  let first := if i = 0 then 0 else c.offsets.getD (i - 1) 0
  let last := c.offsets.getD i 0
  (c.data.drop first).take (last - first)

/-- One iteration of the inner loop; behind the last row the loop is left. -/
def selectBit (p : Bytes → Bool) (c : InnerStrings) (byteIdx : Nat) (ret : List UInt8) (bitIdx : Nat) :
    List UInt8 :=
  let i := byteIdx * 8 + bitIdx
  if i ≥ c.row then ret
  else
    let nonNull := testBit (c.bitmap.getD byteIdx 0) bitIdx
    ret.modify byteIdx fun byte =>
      byte ||| ((if nonNull && p (c.value i) then 1 else 0) <<< UInt8.ofNat bitIdx)

def select (c : InnerStrings) (p : Bytes → Bool) : List UInt8 :=
  filterTpRun
    (fun ret byteBegin byteEnd =>
      (List.range' byteBegin (byteEnd - byteBegin)).foldl
        (fun ret byteIdx => (List.range 8).foldl (selectBit p c byteIdx) ret) ret)
    ((c.row + 7) / 8) (List.replicate c.bitmap.length 0)

def less (c : InnerStrings) (rhs : Bytes) : List UInt8 := c.select fun v => v < rhs

def greater (c : InnerStrings) (rhs : Bytes) : List UInt8 := c.select fun v => v > rhs

def lessEqual (c : InnerStrings) (rhs : Bytes) : List UInt8 := c.select fun v => v ≤ rhs

def greaterEqual (c : InnerStrings) (rhs : Bytes) : List UInt8 := c.select fun v => v ≥ rhs

def equal (c : InnerStrings) (rhs : Bytes) : List UInt8 := c.select fun v => v == rhs

def notEqual (c : InnerStrings) (rhs : Bytes) : List UInt8 := c.select fun v => v != rhs

def like (re2 : RE2) (c : InnerStrings) (rhs : Bytes) : List UInt8 :=
  c.select fun v => Comparison.likeMatch re2 v rhs

def notLike (re2 : RE2) (c : InnerStrings) (rhs : Bytes) : List UInt8 :=
  c.select fun v => !Comparison.likeMatch re2 v rhs

end InnerStrings

/-- `InnerColumnBase`, by its type. -/
inductive InnerColumnBase
  | int32 (column : InnerColumn Int32)
  | int64 (column : InnerColumn Int64)
  | fp64 (column : InnerColumn UInt64)
  | varchar (column : InnerStrings)

namespace InnerColumnBase

def bitmap : InnerColumnBase → List UInt8
  | int32 column => column.bitmap
  | int64 column => column.bitmap
  | fp64 column => column.bitmap
  | varchar column => column.bitmap

end InnerColumnBase

/-- `bitmap_not`. -/
def bitmapNot (bitmap : List UInt8) : List UInt8 :=
  filterTpRun (fun bitmap first last =>
      (List.range' first (last - first)).foldl (fun bitmap i => bitmap.modify i (~~~ ·)) bitmap)
    bitmap.length bitmap

/-- The loops of `bitmap_and` and `bitmap_or`; the sizes are asserted to be the same. -/
def bitmapZip (f : UInt8 → UInt8 → UInt8) (lhs rhs : List UInt8) : Result (List UInt8) :=
  if lhs.length = rhs.length then
    .ok (filterTpRun (fun ret first last =>
        (List.range' first (last - first)).foldl
          (fun ret i => ret.set i (f (lhs.getD i 0) (rhs.getD i 0))) ret)
      lhs.length (List.replicate lhs.length 0))
  else .error (.runtimeError "lhs.size() == rhs.size()")

def bitmapAnd (lhs rhs : List UInt8) : Result (List UInt8) := bitmapZip (· &&& ·) lhs rhs

def bitmapOr (lhs rhs : List UInt8) : Result (List UInt8) := bitmapZip (· ||| ·) lhs rhs

namespace Comparison

/-- The `switch` over the comparisons of a column of numbers. -/
def selectNum {α : Type} [BEq α] [LT α] [DecidableLT α] [LE α] [DecidableLE α] (op : Op)
    (column : InnerColumn α) (compValue : α) : Result (List UInt8) :=
  match op with
  | .EQ => .ok (column.equal compValue)
  | .NEQ => .ok (column.notEqual compValue)
  | .LT => .ok (column.less compValue)
  | .GT => .ok (column.greater compValue)
  | .LEQ => .ok (column.lessEqual compValue)
  | .GEQ => .ok (column.greaterEqual compValue)
  | _ => .error (.runtimeError "unreachable")

/-- The same for columns of `double`. -/
def selectDouble (op : Op) (column : InnerColumn UInt64) (bits : UInt64) : Result (List UInt8) :=
  let rhs := Double.ofBits bits
  match op with
  | .EQ => .ok (column.select fun v => (Double.ofBits v).eq rhs)
  | .NEQ => .ok (column.select fun v => !(Double.ofBits v).eq rhs)
  | .LT => .ok (column.select fun v => (Double.ofBits v).lt rhs)
  | .GT => .ok (column.select fun v => rhs.lt (Double.ofBits v))
  | .LEQ => .ok (column.select fun v => (Double.ofBits v).le rhs)
  | .GEQ => .ok (column.select fun v => rhs.le (Double.ofBits v))
  | _ => .error (.runtimeError "unreachable")

/-- `Comparison::eval` on columns; `std::get` fails where the literal is of another kind. -/
def evalTable (re2 : RE2) (c : Comparison) (table : List InnerColumnBase) : Result (List UInt8) := do
  let base ← index table c.column
  if c.op = .IS_NULL then .ok (bitmapNot base.bitmap)
  else if c.op = .IS_NOT_NULL then .ok base.bitmap
  else
    match base, c.value with
    | .int32 column, .int64 value => selectNum c.op column value.toInt32
    | .int64 column, .int64 value => selectNum c.op column value
    | .fp64 column, .fp64 bits => selectDouble c.op column bits
    | .varchar column, .string compValue =>
      match c.op with
      | .EQ => .ok (column.equal compValue)
      | .NEQ => .ok (column.notEqual compValue)
      | .LT => .ok (column.less compValue)
      | .GT => .ok (column.greater compValue)
      | .LEQ => .ok (column.lessEqual compValue)
      | .GEQ => .ok (column.greaterEqual compValue)
      | .LIKE => .ok (column.like re2 compValue)
      | .NOT_LIKE => .ok (column.notLike re2 compValue)
      | _ => .error (.runtimeError "unreachable")
    | _, _ => .error (.runtimeError "bad_variant_access")

end Comparison

/-- `eval` on columns. -/
def Statement.evalTable (re2 : RE2) (table : List InnerColumnBase) : Statement → Result (List UInt8)
  | .comparison c => c.evalTable re2 table
  | .makeAnd l r => do
    let lhs ← l.evalTable re2 table
    let rhs ← r.evalTable re2 table
    bitmapAnd lhs rhs
  | .makeOr l r => do
    let lhs ← l.evalTable re2 table
    let rhs ← r.evalTable re2 table
    bitmapOr lhs rhs
  | .makeNot child => do
    let bitmap ← child.evalTable re2 table
    .ok (bitmapNot bitmap)

end JoinOptimizer
