import JoinOptimizer.Sql.Names
import JoinOptimizer.Filter.Statement

/-! `parse_expr` of `tests/read_sql.cpp`: a WHERE clause is taken apart into filters of single tables and
classes of columns that are to be equal. -/

namespace JoinOptimizer

open Lib

/-- A comparison of a WHERE clause. -/
inductive CompareOp
  | opLess
  | opLessEq
  | opGreater
  | opGreaterEq
  | opEquals
  | opNotEquals
  deriving DecidableEq

/-- The `switch` over the comparisons. -/
def CompareOp.toOp : CompareOp → Op
  | opLess => .LT
  | opLessEq => .LEQ
  | opGreater => .GT
  | opGreaterEq => .GEQ
  | opEquals => .EQ
  | opNotEquals => .NEQ

/-- `hsql::Expr` with the operators that the parser knows.  The list of `opIn` is not empty, the one of
`opBetween` has two items. -/
inductive Expr
  | opAnd (expr expr2 : Expr)
  | opOr (expr expr2 : Expr)
  | opNot (expr : Expr)
  | compare (opType : CompareOp) (expr expr2 : Operand)
  | opLike (expr expr2 : Operand)
  | opNotLike (expr expr2 : Operand)
  | opBetween (expr lower upper : Operand)
  | opIn (expr item : Operand) (items : List Operand)
  | opIsNull (expr : Operand)
  | operator (opType : String)
  | operand (operand : Operand)
  deriving DecidableEq

/-- The name of the type of an expression. -/
def Operand.typeName : Operand → String
  | columnRef _ _ => "kExprColumnRef"
  | literalInt _ => "kExprLiteralInt"
  | literalString _ => "kExprLiteralString"
  | other type => type

/-- `std::unique_ptr<Statement>`: a pointer to nothing, or to a statement whose own pointers may point to
nothing. -/
inductive StatementPtr
  | null
  | comparison (c : Comparison)
  | makeAnd (l r : StatementPtr)
  | makeOr (l r : StatementPtr)
  | makeNot (child : StatementPtr)
  deriving DecidableEq

/-- The statement behind a pointer; an evaluation of what has none reads a null pointer. -/
def StatementPtr.statement? : StatementPtr → Option Statement
  | null => none
  | comparison c => some (.comparison c)
  | makeAnd l r => do some (.makeAnd (← l.statement?) (← r.statement?))
  | makeOr l r => do some (.makeOr (← l.statement?) (← r.statement?))
  | makeNot child => do some (.makeNot (← child.statement?))

/-- `FilterMapType`. -/
abbrev Filters := List (TableEntity × StatementPtr)

/-- `insert_filter`. -/
def insertFilter : Filters → TableEntity → StatementPtr → Filters
  | [], entity, stmt => [(entity, stmt)]
  | f :: filters, entity, stmt =>
    if f.1 = entity then (entity, .makeAnd f.2 stmt) :: filters
    else f :: insertFilter filters entity stmt

/-- What `parse_expr` fills. -/
structure Clause where
  filters : Filters
  joinUnion : DSU

/-- What a call of `parse_expr_impl` leaves in `out_statement` and `out_entity`, with what it fills. -/
structure Parsed where
  clause : Clause
  statement : StatementPtr
  entity : TableEntity

namespace Scope

variable (scope : Scope)

/-- The value of a literal on the right side of a comparison or in a list. -/
def literalOf : Operand → Result Literal
  | .literalInt ival => .ok (.int64 ival)
  | .literalString name => .ok (.string name)
  | o => .error (.runtimeError ("Expression type: " ++ o.typeName ++ " not processed"))

/-- The filter on one column that `make` builds from comparisons with it. -/
def columnFilter (clause : Clause) (left : String × TableEntity)
    (make : Nat → StatementPtr) : Result Parsed := do
  let idx ← scope.columnIdx left.1 left.2
  .ok ⟨clause, make idx, left.2⟩

/-- The case of the six comparisons. -/
def parseCompare (op : CompareOp) (left right : Operand) (clause : Clause) : Result Parsed := do
  let left ← scope.leftColumn left
  match right with
  | .columnRef column table =>
    let right ← scope.extractColumnAndTable column table
    if op ≠ .opEquals then
      .error (.runtimeError "Non-EuqalJoins are not supported")
    else
      let leftIdx ← scope.columnNumber left.1 left.2
      let rightIdx ← scope.columnNumber right.1 right.2
      let joinUnion ← clause.joinUnion.unite leftIdx rightIdx
      .ok ⟨{ clause with joinUnion := joinUnion }, .null, scope.noEntity⟩
  | right =>
    let value ← literalOf right
    scope.columnFilter clause left fun idx => .comparison ⟨idx, op.toOp, value⟩

/-- The case of `LIKE` and `NOT LIKE`. -/
def parseLike (op : Op) (left right : Operand) (clause : Clause) : Result Parsed := do
  let left ← scope.leftColumn left
  match right with
  | .literalString name =>
    scope.columnFilter clause left fun idx => .comparison ⟨idx, op, .string name⟩
  | right => .error (.runtimeError ("Expression type: " ++ right.typeName ++ " not processed"))

def parseBetween (left lower upper : Operand) (clause : Clause) : Result Parsed := do
  let left ← scope.leftColumn left
  let lower ← literalOf lower
  let upper ← literalOf upper
  scope.columnFilter clause left fun idx =>
    .makeAnd (.comparison ⟨idx, .GEQ, lower⟩) (.comparison ⟨idx, .LEQ, upper⟩)

/-- The loop over the items of `IN` behind the first one. -/
def parseItems (left : String × TableEntity) (stmt : StatementPtr) (items : List Operand) :
    Result StatementPtr :=
  items.foldlM (fun stmt item => do
    let value ← literalOf item
    let idx ← scope.columnIdx left.1 left.2
    .ok (.makeOr stmt (.comparison ⟨idx, .EQ, value⟩))) stmt

def parseIn (left item : Operand) (items : List Operand) (clause : Clause) : Result Parsed := do
  let left ← scope.leftColumn left
  let value ← literalOf item
  let idx ← scope.columnIdx left.1 left.2
  let stmt ← scope.parseItems left (.comparison ⟨idx, .EQ, value⟩) items
  .ok ⟨clause, stmt, left.2⟩

def parseIsNull (child : Operand) (clause : Clause) : Result Parsed := do
  let child ← scope.leftColumn child
  scope.columnFilter clause child fun idx => .comparison ⟨idx, .IS_NULL, .monostate⟩

/-- What an operator with two children below the top level, or an `OR`, makes of them. -/
def combine (make : StatementPtr → StatementPtr → StatementPtr) (left right : Parsed) :
    Result Parsed :=
  if left.statement = .null ∨ right.statement = .null then
    .error (.runtimeError "Non top level contains join condition instead of filter")
  else if left.entity ≠ right.entity then
    .error (.runtimeError "Filter can not be pushed down")
  else
    .ok ⟨right.clause, make left.statement right.statement, left.entity⟩

/-- The insertion of what a child of a top-level `AND` has left. -/
def insertChild (child : Parsed) (filters : Filters) : Filters :=
  if child.statement = .null then filters else insertFilter filters child.entity child.statement

/-- `parse_expr_impl`. -/
def parseExprImpl : Expr → Clause → Nat → Result Parsed
  | .opAnd expr expr2, clause, level => do
    let left ← parseExprImpl expr clause level
    let right ← parseExprImpl expr2 left.clause level
    if level = 0 then
      let filters := insertChild right (insertChild left right.clause.filters)
      .ok ⟨{ right.clause with filters := filters }, .null, scope.noEntity⟩
    else
      combine .makeAnd left right
  | .opOr expr expr2, clause, level => do
    let left ← parseExprImpl expr clause (level + 1)
    let right ← parseExprImpl expr2 left.clause (level + 1)
    combine .makeOr left right
  | .opNot expr, clause, level => do
    let child ← parseExprImpl expr clause (level + 1)
    .ok ⟨child.clause, .makeNot child.statement, child.entity⟩
  | .compare opType expr expr2, clause, _ => scope.parseCompare opType expr expr2 clause
  | .opLike expr expr2, clause, _ => scope.parseLike .LIKE expr expr2 clause
  | .opNotLike expr expr2, clause, _ => scope.parseLike .NOT_LIKE expr expr2 clause
  | .opBetween expr lower upper, clause, _ => scope.parseBetween expr lower upper clause
  | .opIn expr item items, clause, _ => scope.parseIn expr item items clause
  | .opIsNull expr, clause, _ => scope.parseIsNull expr clause
  | .operator opType, _, _ =>
    .error (.runtimeError ("Operator type: " ++ opType ++ " not processed"))
  | .operand o, _, _ =>
    .error (.runtimeError ("Expression type: " ++ o.typeName ++ " not processed"))

/-- `parse_expr`. -/
def parseExpr (expr : Expr) (clause : Clause) : Result Clause := do
  let top ← scope.parseExprImpl expr clause 0
  .ok { top.clause with filters := insertChild top top.clause.filters }

/-- What `parse_sql` starts `parse_expr` with. -/
def clause : Clause := ⟨[], .new scope.names.columnVec.length⟩

end Scope

section Relations

/-- What a comparison says of two values of a kind with these relations. -/
def CompareOp.says {α : Type} (equal less lessEq : α → α → Bool) (a b : α) : CompareOp → Bool
  | opLess => less a b
  | opLessEq => lessEq a b
  | opGreater => less b a
  | opGreaterEq => lessEq b a
  | opEquals => equal a b
  | opNotEquals => !equal a b

def CompareOp.ofOrder {α : Type} [DecidableEq α] [LT α] [DecidableLT α] [LE α] [DecidableLE α]
    (opType : CompareOp) (a b : α) : Bool :=
  opType.says (fun a b => a = b) (fun a b => a < b) (fun a b => a ≤ b) a b

/-- What a comparison says of a cell and a literal: of two numbers what it says of them as `double`s. -/
def CompareOp.ofRecord (opType : CompareOp) (cell : Data) (value : Literal) : Bool :=
  match Comparison.numericOfData cell, Comparison.numericOfLiteral value with
  | some a, some b => opType.says Double.eq Double.lt Double.le a b
  | _, _ =>
    match cell, value with
    | .string a, .string b => opType.ofOrder a b
    | _, _ => false

def likes (re2 : RE2) (cell : Data) (value : Literal) : Bool :=
  match cell, value with
  | .string str, .string pattern => Comparison.likeMatch re2 str pattern
  | _, _ => false

def likesNot (re2 : RE2) (cell : Data) (value : Literal) : Bool :=
  match cell, value with
  | .string str, .string pattern => !Comparison.likeMatch re2 str pattern
  | _, _ => false

/-- The operators of statements mean what those of the clause do. -/
theorem evalData_toOp (re2 : RE2) (opType : CompareOp) (cell : Data) (value : Literal) :
    Comparison.evalData re2 ⟨0, opType.toOp, value⟩ cell = opType.ofRecord cell value := by
  have hnum : ∀ a b, Comparison.compareNum opType.toOp a b =
      opType.says Double.eq Double.lt Double.le a b := fun a b => by cases opType <;> rfl
  have hstr : ∀ a b, Comparison.compareStr opType.toOp a b = opType.ofOrder a b := fun a b => by
    cases opType <;> simp [Comparison.compareStr, CompareOp.ofOrder, CompareOp.says, CompareOp.toOp,
      beq_eq_decide, bne]
  unfold CompareOp.ofRecord
  simp only [← hnum, ← hstr]
  cases opType <;> rfl

end Relations

section Meaning

/-- A row for every table. -/
abbrev Assignment := TableEntity → List Data

variable (scope : Scope) (re2 : RE2) (row : Assignment)

/-- The cell of a column in the row of its table; a column that the table does not have counts as NULL. -/
def Scope.cell (column : String × TableEntity) : Data :=
  match scope.columnIdx column.1 column.2 with
  | .ok idx => (row column.2).getD idx .monostate
  | .error _ => .monostate

/-- The cell of a column and the literal that an expression is stand in a relation. -/
def Scope.comparesTo (left : Operand) (relation : Data → Literal → Bool) (right : Operand) : Prop :=
  ∃ column value, scope.leftColumn left = .ok column ∧ Scope.literalOf right = .ok value ∧
    relation (scope.cell row column) value = true

/-- What a WHERE clause says of a row for every table. -/
def Scope.Holds : Expr → Prop
  | .opAnd expr expr2 => Scope.Holds expr ∧ Scope.Holds expr2
  | .opOr expr expr2 => Scope.Holds expr ∨ Scope.Holds expr2
  | .opNot expr => ¬ Scope.Holds expr
  | .compare opType expr expr2 =>
    match expr2 with
    | .columnRef _ _ => opType = .opEquals ∧ ∃ left right, scope.leftColumn expr = .ok left ∧
        scope.leftColumn expr2 = .ok right ∧ scope.cell row left = scope.cell row right
    | expr2 => scope.comparesTo row expr opType.ofRecord expr2
  | .opLike expr expr2 => scope.comparesTo row expr (likes re2) expr2
  | .opNotLike expr expr2 => scope.comparesTo row expr (likesNot re2) expr2
  | .opBetween expr lower upper =>
    scope.comparesTo row expr CompareOp.opGreaterEq.ofRecord lower ∧
      scope.comparesTo row expr CompareOp.opLessEq.ofRecord upper
  | .opIn expr item items => ∃ i ∈ item :: items, scope.comparesTo row expr CompareOp.opEquals.ofRecord i
  | .opIsNull expr => ∃ column, scope.leftColumn expr = .ok column ∧
      scope.cell row column = .monostate
  | .operator _ => False
  | .operand _ => False

/-- The cell of the column with a number. -/
def Scope.numberedCell (i : Nat) : Data :=
  match scope.names.columnVec[i]? with
  | some (entity, column) => scope.cell row (column, entity)
  | none => .monostate

/-- The statement behind a pointer is true of a record. -/
def StatementPtr.TrueOf (p : StatementPtr) (record : List Data) : Prop :=
  ∃ stmt, p.statement? = some stmt ∧ stmt.evalRecord re2 record = true

/-- Every filter is true of the row of its table, and columns of one class have equal cells. -/
structure Clause.Satisfied (clause : Clause) : Prop where
  filters : ∀ f ∈ clause.filters, f.2.TrueOf re2 (row f.1)
  classes : ∀ i j, clause.joinUnion.SameClass i j → scope.numberedCell row i = scope.numberedCell row j

/-- The filters and the classes say what the clause says, and every filter can be evaluated. -/
structure Clause.Expresses (clause : Clause) (expr : Expr) : Prop where
  filters : ∀ f ∈ clause.filters, ∃ stmt, f.2.statement? = some stmt
  meaning : ∀ row, scope.Holds re2 row expr ↔ clause.Satisfied scope re2 row

end Meaning

/-- A comparison of two columns. -/
def Expr.IsJoin : Expr → Prop
  | .compare _ _ (.columnRef _ _) => True
  | _ => False

/-- Somewhere a `NOT` has a comparison of two columns as its operand. -/
def Expr.NegatesJoin : Expr → Prop
  | .opAnd expr expr2 => expr.NegatesJoin ∨ expr2.NegatesJoin
  | .opOr expr expr2 => expr.NegatesJoin ∨ expr2.NegatesJoin
  | .opNot expr => expr.IsJoin ∨ expr.NegatesJoin
  | _ => False

end JoinOptimizer
