import JoinOptimizer.Lib.Bytes
import JoinOptimizer.Lib.Bits
import JoinOptimizer.Lib.Loops

/-! The data of the engine: cells and their types (`include/statement.h`, `include/attribute.h`),
pages, columns and tables (`include/plan.h`, `include/table.h`), and the ways in which a function
can fail. -/

namespace JoinOptimizer

open Lib

/-- How a function fails: a `std::runtime_error`, an access outside the object it names, a `resize` for
which there is no memory (`std::bad_alloc` or `std::length_error`), or a loop that has not ended within the
steps that its model allows. -/
inductive Fault
  | runtimeError (what : String)
  | outOfRange
  | outOfMemory
  | outOfFuel
  deriving DecidableEq, Repr

abbrev Result := Except Fault

/-- `xs[i]`. -/
def index {α : Type} (xs : List α) (i : Nat) : Result α :=
  match xs[i]? with
  | some a => .ok a
  | none => .error .outOfRange

theorem index_eq_ok {α : Type} {xs : List α} {i : Nat} {a : α} :
    index xs i = .ok a ↔ xs[i]? = some a := by
  unfold index
  split <;> simp_all

theorem index_of_lt {α : Type} {xs : List α} {i : Nat} (h : i < xs.length) :
    index xs i = .ok xs[i] := by
  rw [index_eq_ok, List.getElem?_eq_getElem h]

/-- `enum class DataType`. -/
inductive DataType
  | INT32
  | INT64
  | FP64
  | VARCHAR
  deriving DecidableEq, Repr

/-- The bytes of a `std::string`. -/
abbrev Bytes := List UInt8

/-- `std::variant<int32_t, int64_t, double, std::string, std::monostate>`; a `double` is the word of
its bits. -/
inductive Data
  | int32 (value : Int32)
  | int64 (value : Int64)
  | fp64 (bits : UInt64)
  | string (value : Bytes)
  | monostate
  deriving DecidableEq, Repr

/-- A cell is NULL or of the type of its column. -/
def Data.HasType : Data → DataType → Prop
  | .int32 _, .INT32 | .int64 _, .INT64 | .fp64 _, .FP64 | .string _, .VARCHAR => True
  | .monostate, _ => True
  | _, _ => False

instance (d : Data) (t : DataType) : Decidable (d.HasType t) := by
  cases d <;> cases t <;> (unfold Data.HasType; infer_instance)

/-- `PAGE_SIZE`. -/
def pageSize : Nat := 8192

theorem pageSize_eq : pageSize = 8192 := rfl

/-- `struct Page`. -/
abbrev Page := Block pageSize

/-- `*reinterpret_cast<uint16_t*>(page + off)`. -/
def Page.u16 (p : Page) (off : Nat) : Nat := p.word off 2

/-- `*reinterpret_cast<uint16_t*>(page + off) = v`. -/
def Page.setU16 (p : Page) (off v : Nat) : Page := p.writeWord off 2 v

/-- The number of rows in the header of a page; 0xffff and 0xfffe mark the pages of a long
string. -/
def Page.numRows (p : Page) : Nat := p.u16 0

/-- The number of non-NULL rows in the header of a page. -/
def Page.numNonNull (p : Page) : Nat := p.u16 2

/-- `get_bitmap(page + base, idx)`. -/
def getBitmap (p : Page) (base idx : Nat) : Bool := testBit (p.byte (base + idx / 8)) (idx % 8)

/-- The offset of the NULL bitmap of a page of `numRows` rows. -/
def bitmapBegin (numRows : Nat) : Nat := pageSize - (numRows + 7) / 8

/-- A column of pages; the mapping a page may lie in plays no part here. -/
structure Column where
  type : DataType
  pages : List Page

/-- `struct ColumnarTable`. -/
structure ColumnarTable where
  numRows : Nat
  columns : List Column

/-- `struct Table`. -/
structure Table where
  data : List (List Data)
  types : List DataType
  deriving DecidableEq

/-- Every record has one cell for each column, NULL or of the column's type. -/
def Table.WellTyped (t : Table) : Prop :=
  ∀ record ∈ t.data, List.Forall₂ Data.HasType record t.types

/-- A type of fixed size: how a page holds its values and how a cell does. -/
structure FixedType (α : Type) where
  type : DataType
  size : Nat
  bytes : α → Bytes
  ofBytes : Bytes → α
  inject : α → Data
  project : Data → Option α
  length_bytes : ∀ v, (bytes v).length = size
  ofBytes_bytes : ∀ v, ofBytes (bytes v) = v
  project_inject : ∀ v, project (inject v) = some v
  inject_project : ∀ d, d.HasType type → d ≠ .monostate → ∃ v, d = inject v
  project_monostate : project .monostate = none
  size_ge : 4 ≤ size
  size_le : size ≤ 8

/-- `int32_t`. -/
def int32Type : FixedType Int32 where
  type := .INT32
  size := 4
  bytes v := leBytes 4 v.toUInt32.toNat
  ofBytes bs := (UInt32.ofNat (leWord bs)).toInt32
  inject := .int32
  project | .int32 v => some v | _ => none
  length_bytes v := length_leBytes 4 _
  ofBytes_bytes v := by
    have hlt : v.toUInt32.toNat < 256 ^ 4 := v.toUInt32.toNat_lt
    rw [leWord_leBytes, Nat.mod_eq_of_lt hlt, UInt32.ofNat_toNat, Int32.toInt32_toUInt32]
  project_inject _ := rfl
  inject_project d hd hn := by cases d <;> simp_all [Data.HasType]
  project_monostate := rfl
  size_ge := by decide
  size_le := by decide

/-- `int64_t`. -/
def int64Type : FixedType Int64 where
  type := .INT64
  size := 8
  bytes v := leBytes 8 v.toUInt64.toNat
  ofBytes bs := (UInt64.ofNat (leWord bs)).toInt64
  inject := .int64
  project | .int64 v => some v | _ => none
  length_bytes v := length_leBytes 8 _
  ofBytes_bytes v := by
    have hlt : v.toUInt64.toNat < 256 ^ 8 := v.toUInt64.toNat_lt
    rw [leWord_leBytes, Nat.mod_eq_of_lt hlt, UInt64.ofNat_toNat, Int64.toInt64_toUInt64]
  project_inject _ := rfl
  inject_project d hd hn := by cases d <;> simp_all [Data.HasType]
  project_monostate := rfl
  size_ge := by decide
  size_le := by decide

/-- `double`, as the word of its bits. -/
def fp64Type : FixedType UInt64 where
  type := .FP64
  size := 8
  bytes v := leBytes 8 v.toNat
  ofBytes bs := UInt64.ofNat (leWord bs)
  inject := .fp64
  project | .fp64 v => some v | _ => none
  length_bytes v := length_leBytes 8 _
  ofBytes_bytes v := by
    have hlt : v.toNat < 256 ^ 8 := v.toNat_lt
    rw [leWord_leBytes, Nat.mod_eq_of_lt hlt, UInt64.ofNat_toNat]
  project_inject _ := rfl
  inject_project d hd hn := by cases d <;> simp_all [Data.HasType]
  project_monostate := rfl
  size_ge := by decide
  size_le := by decide

end JoinOptimizer
