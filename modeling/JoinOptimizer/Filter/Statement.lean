import JoinOptimizer.Data
import JoinOptimizer.Lib.Double

/-! The filters of `include/statement.h` and their evaluation on a record in `src/statement.cpp`.  RE2 is
not part of the repository: `re2` compiles a regular expression to its full match, or to nothing where it
is not valid. -/

namespace JoinOptimizer

open Lib

/-- `std::variant<int64_t, double, std::string, std::monostate>`; a `double` is the word of its bits. -/
inductive Literal
  | int64 (value : Int64)
  | fp64 (bits : UInt64)
  | string (value : Bytes)
  | monostate
  deriving DecidableEq

/-- `Comparison::Op`. -/
inductive Op
  | EQ
  | NEQ
  | LT
  | GT
  | LEQ
  | GEQ
  | LIKE
  | NOT_LIKE
  | IS_NULL
  | IS_NOT_NULL
  deriving DecidableEq

structure Comparison where
  column : Nat
  op : Op
  value : Literal
  deriving DecidableEq

/-- `Statement`, with the operations that `makeAnd`, `makeOr` and `makeNot` build. -/
inductive Statement
  | comparison (c : Comparison)
  | makeAnd (l r : Statement)
  | makeOr (l r : Statement)
  | makeNot (child : Statement)
  deriving DecidableEq

/-- The compiler of regular expressions. -/
abbrev RE2 := Bytes → Option (Bytes → Bool)

namespace Comparison

/-- The characters that stand for more than themselves in a regular expression. -/
def special : Bytes := [92, 46, 94, 36, 124, 63, 42, 43, 40, 41, 91, 93, 123, 125]

/-- The regular expression of a pattern. -/
def likeRegex (pattern : Bytes) : Bytes :=
  pattern.flatMap fun c =>
    if c = 37 then [46, 42]
    else if c = 95 then [46]
    else if c ∈ special then [92, c]
    else [c]

/-- `like_match`, whose cache keeps what was compiled before. -/
def likeMatch (re2 : RE2) (str pattern : Bytes) : Bool :=
  match re2 (likeRegex pattern) with
  | none => false
  | some fullMatch => fullMatch str

/-- `get_numeric_value` of a cell. -/
def numericOfData : Data → Option Double
  | .int32 value => some (.ofInt value.toInt)
  | .int64 value => some (.ofInt value.toInt)
  | .fp64 bits => some (.ofBits bits)
  | _ => none

/-- `get_numeric_value` of a literal. -/
def numericOfLiteral : Literal → Option Double
  | .int64 value => some (.ofInt value.toInt)
  | .fp64 bits => some (.ofBits bits)
  | _ => none

/-- The `switch` over the six comparisons of numbers. -/
def compareNum (op : Op) (a b : Double) : Bool :=
  match op with
  | .EQ => a.eq b
  | .NEQ => !a.eq b
  | .LT => a.lt b
  | .GT => b.lt a
  | .LEQ => a.le b
  | .GEQ => b.le a
  | _ => false

/-- The `switch` over the six comparisons of strings. -/
def compareStr (op : Op) (a b : Bytes) : Bool :=
  match op with
  | .EQ => a == b
  | .NEQ => a != b
  | .LT => a < b
  | .GT => a > b
  | .LEQ => a ≤ b
  | .GEQ => a ≥ b
  | _ => false

/-- `Comparison::eval` on a record. -/
def evalData (re2 : RE2) (c : Comparison) (recordData : Data) : Bool :=
  match c.op with
  | .IS_NULL => recordData == .monostate
  | .IS_NOT_NULL => !(recordData == .monostate)
  | .LIKE =>
    match recordData, c.value with
    | .string recordStr, .string compStr => likeMatch re2 recordStr compStr
    | _, _ => false
  | .NOT_LIKE =>
    match recordData, c.value with
    | .string recordStr, .string compStr => !likeMatch re2 recordStr compStr
    | _, _ => false
  | op =>
    match numericOfData recordData, numericOfLiteral c.value with
    | some recordNum, some compNum => compareNum op recordNum compNum
    | _, _ =>
      match recordData, c.value with
      | .string recordStr, .string compStr => compareStr op recordStr compStr
      | _, _ => false

end Comparison

namespace Statement

/-- `eval` on a record; a column that the record does not have counts as NULL. -/
def evalRecord (re2 : RE2) (record : List Data) : Statement → Bool
  | comparison c => c.evalData re2 (record.getD c.column .monostate)
  | makeAnd l r => l.evalRecord re2 record && r.evalRecord re2 record
  | makeOr l r => l.evalRecord re2 record || r.evalRecord re2 record
  | makeNot child => !child.evalRecord re2 record

/-- The statement and all statements in it. -/
def parts : Statement → List Statement
  | comparison c => [comparison c]
  | makeAnd l r => makeAnd l r :: (l.parts ++ r.parts)
  | makeOr l r => makeOr l r :: (l.parts ++ r.parts)
  | makeNot child => makeNot child :: child.parts

end Statement

end JoinOptimizer
