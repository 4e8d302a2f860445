import JoinOptimizer.Sql.From
import JoinOptimizer.Filter.ThreeValued

/-! A WHERE clause in SQL's three-valued logic, and that the filters and classes of `parse_expr` are true
exactly where the clause is. -/

namespace JoinOptimizer

open Lib

section Relations

/-- A comparison with NULL is unknown. -/
def Truth.ofCell (cell : Data) (b : Bool) : Truth := if cell = .monostate then .unknown else .ofBool b

/-- The truth value of a comparison of a cell with a literal. -/
def CompareOp.truth (opType : CompareOp) (cell : Data) (value : Literal) : Truth :=
  Truth.ofCell cell <|
    match cell, value with
    | .int32 a, .int64 b => opType.ofOrder a.toInt b.toInt
    | .int64 a, .int64 b => opType.ofOrder a.toInt b.toInt
    | .string a, .string b => opType.ofOrder a b
    | _, _ => false

def likeTruth (cell : Data) (value : Literal) : Truth :=
  Truth.ofCell cell <|
    match cell, value with
    | .string str, .string pattern => LikeText pattern str
    | _, _ => false

def notLikeTruth (cell : Data) (value : Literal) : Truth :=
  Truth.ofCell cell <|
    match cell, value with
    | .string str, .string pattern => ¬ LikeText pattern str
    | _, _ => false

/-- The truth value of a comparison of two cells.  Cells of two types are different. -/
def CompareOp.ofCells (opType : CompareOp) (a b : Data) : Truth :=
  if a = .monostate ∨ b = .monostate then .unknown
  else .ofBool <|
    match a, b with
    | .int32 a, .int32 b => opType.ofOrder a.toInt b.toInt
    | .int64 a, .int64 b => opType.ofOrder a.toInt b.toInt
    | .string a, .string b => opType.ofOrder a b
    | a, b => opType.says (fun a b => a = b) (fun _ _ => false) (fun a b => a = b) a b

theorem ofCells_opEquals {a b : Data} :
    CompareOp.opEquals.ofCells a b = .true ↔ a ≠ .monostate ∧ a = b := by
  unfold CompareOp.ofCells
  split
  · next hnull =>
    refine iff_of_false (by simp) ?_
    rintro ⟨hne, rfl⟩
    exact hnull.elim hne hne
  · next hnull =>
    rw [and_iff_right (not_or.mp hnull).1, Truth.ofBool_eq_true]
    split <;> simp [CompareOp.ofOrder, CompareOp.says, Int32.toInt_inj, Int64.toInt_inj]

/-- The operators of statements mean what those of the clause do. -/
theorem truth_toOp (opType : CompareOp) (cell : Data) (value : Literal) :
    Comparison.truth ⟨0, opType.toOp, value⟩ cell = opType.truth cell value := by
  have hint : ∀ a b : Int, opType.toOp.decides a b = opType.ofOrder a b := fun a b => by
    cases opType <;> simp [Op.decides, CompareOp.ofOrder, CompareOp.says, CompareOp.toOp]
  have hstr : ∀ a b : Bytes, opType.toOp.decidesText a b = opType.ofOrder a b := fun a b => by
    cases opType <;> simp [Op.decidesText, CompareOp.ofOrder, CompareOp.says, CompareOp.toOp]
  unfold CompareOp.truth
  simp only [← hint, ← hstr]
  cases opType <;> rfl

end Relations

namespace Scope

section Meaning

variable (scope : Scope) (row : Assignment)

/-- The truth value of a relation of the cell of a column to the literal that an expression is. -/
def truthOf (left : Operand) (relation : Data → Literal → Truth) (right : Operand) : Truth :=
  match scope.leftColumn left, literalOf right with
  | .ok column, .ok value => relation (scope.cell row column) value
  | _, _ => .unknown

/-- The truth value of a WHERE clause in SQL. -/
def truth : Expr → Truth
  | .opAnd expr expr2 => (truth expr).and (truth expr2)
  | .opOr expr expr2 => (truth expr).or (truth expr2)
  | .opNot expr => (truth expr).not
  | .compare opType expr expr2 =>
    match expr2 with
    | .columnRef _ _ =>
      match scope.leftColumn expr, scope.leftColumn expr2 with
      | .ok left, .ok right => opType.ofCells (scope.cell row left) (scope.cell row right)
      | _, _ => .unknown
    | expr2 => scope.truthOf row expr opType.truth expr2
  | .opLike expr expr2 => scope.truthOf row expr likeTruth expr2
  | .opNotLike expr expr2 => scope.truthOf row expr notLikeTruth expr2
  | .opBetween expr lower upper =>
    (scope.truthOf row expr CompareOp.opGreaterEq.truth lower).and
      (scope.truthOf row expr CompareOp.opLessEq.truth upper)
  | .opIn expr item items =>
    items.foldl (fun t i => t.or (scope.truthOf row expr CompareOp.opEquals.truth i))
      (scope.truthOf row expr CompareOp.opEquals.truth item)
  | .opIsNull expr =>
    match scope.leftColumn expr with
    | .ok column => .ofBool (scope.cell row column = .monostate)
    | .error _ => .unknown
  | .operator _ => .unknown
  | .operand _ => .unknown

/-- The cell of the column with a number, and for NULL the number: NULL is equal to no other cell. -/
def numberedKey (i : Nat) : Data ⊕ Nat :=
  if scope.numberedCell row i = .monostate then .inr i else .inl (scope.numberedCell row i)

end Meaning

/-- Somewhere a column is compared with itself. -/
def ComparesItself (scope : Scope) : Expr → Prop
  | .opAnd expr expr2 => ComparesItself scope expr ∨ ComparesItself scope expr2
  | .opOr expr expr2 => ComparesItself scope expr ∨ ComparesItself scope expr2
  | .opNot expr => ComparesItself scope expr
  | .compare _ expr (.columnRef column table) => ∃ x, scope.leftColumn expr = .ok x ∧
      scope.leftColumn (.columnRef column table) = .ok x
  | _ => False

variable {scope : Scope} {row : Assignment}

theorem numberedKey_eq_iff (scope : Scope) (row : Assignment) {i j : Nat} (hne : i ≠ j) :
    scope.numberedKey row i = scope.numberedKey row j ↔
      scope.numberedCell row i ≠ .monostate ∧ scope.numberedCell row i = scope.numberedCell row j := by
  unfold numberedKey
  split
  · next hi =>
    split
    · simp [hi, hne]
    · simp [hi]
  · next hi =>
    split
    · next hj => simp [hi, hj]
    · simp [hi]

end Scope

section Truths

variable (scope : Scope)

/-- The statement behind a pointer is true of a record in SQL. -/
def StatementPtr.IsTrue (p : StatementPtr) (record : List Data) : Prop :=
  ∃ stmt, p.statement? = some stmt ∧ stmt.truth record = .true

/-- Every filter is true of the row of its table, and columns of one class have equal cells that are not
NULL. -/
structure Clause.IsTrue (clause : Clause) (row : Assignment) : Prop where
  filters : ∀ f ∈ clause.filters, f.2.IsTrue (row f.1)
  classes : clause.joinUnion.Respects (scope.numberedKey row)

/-- The expression has become the statement that is left, of a table of the FROM list. -/
structure Parsed.Carries (p : Parsed) (clause : Clause) (expr : Expr) : Prop where
  clause : p.clause = clause
  entity : p.entity ∈ scope.names.tables
  statement : ∃ stmt, p.statement.statement? = some stmt ∧
    ∀ row, stmt.truth (row p.entity) = scope.truth row expr

/-- The expression has become a part of the clause. -/
structure Parsed.Joins (p : Parsed) (clause : Clause) (expr : Expr) : Prop where
  statement : p.statement = .null
  filters : (∀ f ∈ clause.filters, f.1 ∈ scope.names.tables) →
    ∀ f ∈ p.clause.filters, f.1 ∈ scope.names.tables
  meaning : ∀ row, p.clause.IsTrue scope row ↔
    clause.IsTrue scope row ∧ scope.truth row expr = .true

/-- What `parse_expr_impl` has made of an expression.  Below the top level only a comparison of two
columns leaves no statement. -/
def Parsed.Truthful (p : Parsed) (clause : Clause) (expr : Expr) (level : Nat) : Prop :=
  p.Carries scope clause expr ∨ p.Joins scope clause expr ∧ (level ≠ 0 → expr.IsJoin)

variable {scope} {row : Assignment} {clause : Clause} {p left right : Parsed} {expr : Expr}

theorem StatementPtr.makeAnd_isTrue {l r : StatementPtr} {record : List Data} :
    (makeAnd l r).IsTrue record ↔ l.IsTrue record ∧ r.IsTrue record := by
  unfold IsTrue
  simp only [statement?]
  cases l.statement? with
  | none => simp
  | some s =>
    cases r.statement? with
    | none => simp
    | some t => simp [Statement.truth]

/-- The new filter is added to what the filters say. -/
theorem isTrue_insertFilter {filters : Filters} {entity : TableEntity} {p : StatementPtr} :
    (∀ f ∈ insertFilter filters entity p, f.2.IsTrue (row f.1)) ↔
      (∀ f ∈ filters, f.2.IsTrue (row f.1)) ∧ p.IsTrue (row entity) := by
  induction filters with
  | nil => simp [insertFilter]
  | cons f filters ih =>
    unfold insertFilter
    split
    · next heq =>
      subst heq
      rw [List.forall_mem_cons, List.forall_mem_cons, StatementPtr.makeAnd_isTrue]
      exact and_right_comm
    · rw [List.forall_mem_cons, List.forall_mem_cons, ih, and_assoc]

/-- The tables of the filters after an insertion. -/
theorem map_fst_insertFilter (filters : Filters) (entity : TableEntity) (p : StatementPtr) :
    (insertFilter filters entity p).map Prod.fst =
      if entity ∈ filters.map Prod.fst then filters.map Prod.fst
      else filters.map Prod.fst ++ [entity] := by
  induction filters with
  | nil => rfl
  | cons f filters ih =>
    unfold insertFilter
    by_cases heq : f.1 = entity
    · simp [heq]
    · rw [if_neg heq, List.map_cons, ih]
      by_cases hmem : entity ∈ filters.map Prod.fst
      · simp [hmem]
      · simp [hmem, Ne.symm heq]

theorem Parsed.Carries.ne_null (h : p.Carries scope clause expr) : p.statement ≠ .null := by
  obtain ⟨stmt, hstmt, -⟩ := h.statement
  rintro hnull
  rw [hnull] at hstmt
  cases hstmt

theorem Parsed.Carries.isTrue_iff (h : p.Carries scope clause expr) (row : Assignment) :
    p.statement.IsTrue (row p.entity) ↔ scope.truth row expr = .true := by
  obtain ⟨stmt, hstmt, hmeaning⟩ := h.statement
  unfold StatementPtr.IsTrue
  rw [← hmeaning row, hstmt]
  simp

/-- Either way, what is left together with the clause says what the expression adds. -/
theorem Parsed.Truthful.insertChild (h : p.Carries scope clause expr ∨ p.Joins scope clause expr)
    (joinUnion : DSU) (filters : Filters) (row : Assignment) :
    Clause.IsTrue scope ⟨Scope.insertChild p filters, joinUnion⟩ row ↔
      Clause.IsTrue scope ⟨filters, joinUnion⟩ row ∧
        (p.statement ≠ .null → scope.truth row expr = .true) := by
  unfold Scope.insertChild
  rcases h with h | h
  · rw [if_neg h.ne_null, ← h.isTrue_iff row]
    constructor
    · rintro ⟨hfilters, hclasses⟩
      obtain ⟨hold, hnew⟩ := isTrue_insertFilter.mp hfilters
      exact ⟨⟨hold, hclasses⟩, fun _ => hnew⟩
    · rintro ⟨⟨hold, hclasses⟩, hnew⟩
      exact ⟨isTrue_insertFilter.mpr ⟨hold, hnew h.ne_null⟩, hclasses⟩
  · rw [if_pos h.statement]
    exact (and_iff_left fun hne => absurd h.statement hne).symm

theorem Parsed.Truthful.mem_insertChild
    (h : p.Carries scope clause expr ∨ p.Joins scope clause expr) {filters : Filters}
    (hfilters : ∀ f ∈ filters, f.1 ∈ scope.names.tables) :
    ∀ f ∈ Scope.insertChild p filters, f.1 ∈ scope.names.tables := by
  unfold Scope.insertChild
  rcases h with h | h
  · rw [if_neg h.ne_null]
    intro f hf
    have hmem : f.1 ∈ (insertFilter filters p.entity p.statement).map Prod.fst := List.mem_map_of_mem hf
    have hold : ∀ e ∈ filters.map Prod.fst, e ∈ scope.names.tables := List.forall_mem_map.mpr hfilters
    rw [map_fst_insertFilter] at hmem
    split at hmem
    · exact hold _ hmem
    · rcases List.mem_append.mp hmem with hmem | hmem
      · exact hold _ hmem
      · rw [List.mem_singleton.mp hmem]
        exact h.entity
  · rw [if_pos h.statement]
    exact hfilters

end Truths

section Leaves

variable {scope : Scope} {clause : Clause} {p : Parsed} {op : Op} {left right : Operand}
  {column : String × TableEntity} {value : Literal} {expr : Expr}

theorem Scope.truthOf_eq (hleft : scope.leftColumn left = .ok column)
    (hright : Scope.literalOf right = .ok value) (relation : Data → Literal → Truth)
    (row : Assignment) :
    scope.truthOf row left relation right = relation (scope.cell row column) value := by
  unfold Scope.truthOf
  rw [hleft, hright]

/-- A comparison reads the cell of its column. -/
theorem Scope.truth_comparison {idx : Nat} (h : scope.columnIdx column.1 column.2 = .ok idx) (op : Op)
    (value : Literal) (row : Assignment) :
    (Statement.comparison ⟨idx, op, value⟩).truth (row column.2) =
      Comparison.truth ⟨0, op, value⟩ (scope.cell row column) := by
  rw [Statement.truth, Scope.cell, h]
  rfl

variable (hfound : ∀ o x idx, scope.leftColumn o = .ok x → scope.columnIdx x.1 x.2 = .ok idx →
  x.2 ∈ scope.names.tables)
include hfound

/-- A filter on one column, whose statement has the truth value of the expression. -/
theorem carries_of_columnFilter {make : Nat → StatementPtr} (hleft : scope.leftColumn left = .ok column)
    (h : scope.columnFilter clause column make = .ok p)
    (hmake : ∀ idx, scope.columnIdx column.1 column.2 = .ok idx →
      ∃ stmt, (make idx).statement? = some stmt ∧
        ∀ row, stmt.truth (row column.2) = scope.truth row expr) :
    p.Carries scope clause expr := by
  obtain ⟨idx, hidx, rfl⟩ := Scope.columnFilter_eq_ok.mp h
  exact ⟨rfl, hfound _ _ _ hleft hidx, hmake idx hidx⟩

theorem parseCompare_carries {opType : CompareOp} (hright : ∀ name table, right ≠ .columnRef name table)
    (h : scope.parseCompare opType left right clause = .ok p) :
    p.Carries scope clause (.compare opType left right) := by
  have htruth : ∀ row, scope.truth row (.compare opType left right) =
      scope.truthOf row left opType.truth right := by
    intro row
    cases right with
    | columnRef name table => exact absurd rfl (hright name table)
    | literalInt _ => rfl
    | literalString _ => rfl
    | other _ => rfl
  obtain ⟨column, hleft, h⟩ := bind_eq_ok.mp h
  obtain ⟨value, hvalue, h⟩ : ∃ value, Scope.literalOf right = .ok value ∧
      scope.columnFilter clause column (fun idx => .comparison ⟨idx, opType.toOp, value⟩) = .ok p := by
    cases right with
    | columnRef name table => exact absurd rfl (hright name table)
    | literalInt ival => exact bind_eq_ok.mp h
    | literalString name => exact bind_eq_ok.mp h
    | other type => exact bind_eq_ok.mp h
  refine carries_of_columnFilter hfound hleft h fun idx hidx => ⟨_, rfl, fun row => ?_⟩
  rw [htruth, Scope.truthOf_eq hleft hvalue, Scope.truth_comparison hidx, truth_toOp]

theorem parseLike_carries {relation : Data → Literal → Truth}
    (hrelation : ∀ cell name, Comparison.truth ⟨0, op, .string name⟩ cell = relation cell (.string name))
    (htruth : ∀ row, scope.truth row expr = scope.truthOf row left relation right)
    (h : scope.parseLike op left right clause = .ok p) : p.Carries scope clause expr := by
  obtain ⟨column, hleft, h⟩ := bind_eq_ok.mp h
  cases right with
  | literalString name =>
    have hvalue : Scope.literalOf (.literalString name) = .ok (.string name) := rfl
    refine carries_of_columnFilter hfound hleft h fun idx hidx => ⟨_, rfl, fun row => ?_⟩
    rw [htruth, Scope.truthOf_eq hleft hvalue, Scope.truth_comparison hidx, hrelation]
  | columnRef _ _ => cases h
  | literalInt _ => cases h
  | other _ => cases h

theorem parseBetween_carries {lower upper : Operand}
    (h : scope.parseBetween left lower upper clause = .ok p) :
    p.Carries scope clause (.opBetween left lower upper) := by
  obtain ⟨column, hleft, h⟩ := bind_eq_ok.mp h
  obtain ⟨low, hlow, h⟩ := bind_eq_ok.mp h
  obtain ⟨up, hup, h⟩ := bind_eq_ok.mp h
  refine carries_of_columnFilter hfound hleft h fun idx hidx => ⟨_, rfl, fun row => ?_⟩
  rw [Scope.truth, Scope.truthOf_eq hleft hlow, Scope.truthOf_eq hleft hup, Statement.truth,
    Scope.truth_comparison hidx, Scope.truth_comparison hidx, ← truth_toOp, ← truth_toOp]
  rfl

theorem parseIn_carries {item : Operand} {items : List Operand}
    (h : scope.parseIn left item items clause = .ok p) :
    p.Carries scope clause (.opIn left item items) := by
  obtain ⟨column, hleft, h⟩ := bind_eq_ok.mp h
  obtain ⟨value, hvalue, h⟩ := bind_eq_ok.mp h
  obtain ⟨idx, hidx, h⟩ := bind_eq_ok.mp h
  obtain ⟨ptr, hptr, h⟩ := bind_eq_ok.mp h
  cases h
  refine ⟨rfl, hfound _ _ _ hleft hidx, ?_⟩
  refine foldlM_invariant (P := fun pre ptr => ∃ stmt, StatementPtr.statement? ptr = some stmt ∧
    ∀ row, stmt.truth (row column.2) = scope.truth row (.opIn left item pre)) hptr ?_ ?_
  · refine ⟨_, rfl, fun row => ?_⟩
    rw [Scope.truth_comparison hidx, Scope.truth, List.foldl_nil, Scope.truthOf_eq hleft hvalue,
      ← truth_toOp]
    rfl
  · intro pre i ptr ptr' _ hptr hstep
    obtain ⟨stmt, hstmt, hmeaning⟩ := hptr
    obtain ⟨value', hvalue', hstep⟩ := bind_eq_ok.mp hstep
    rw [hidx] at hstep
    cases hstep
    refine ⟨.makeOr stmt (.comparison ⟨idx, .EQ, value'⟩), ?_, fun row => ?_⟩
    · simp [StatementPtr.statement?, hstmt]
    · have heq := truth_toOp .opEquals (scope.cell row column) value'
      rw [CompareOp.toOp] at heq
      rw [Statement.truth, hmeaning, Scope.truth_comparison hidx, heq,
        ← Scope.truthOf_eq hleft hvalue' CompareOp.opEquals.truth, Scope.truth, Scope.truth,
        List.foldl_concat]

theorem parseIsNull_carries (h : scope.parseIsNull left clause = .ok p) :
    p.Carries scope clause (.opIsNull left) := by
  obtain ⟨column, hleft, h⟩ := bind_eq_ok.mp h
  refine carries_of_columnFilter hfound hleft h fun idx hidx => ⟨_, rfl, fun row => ?_⟩
  rw [Scope.truth_comparison hidx, Scope.truth, hleft]
  rfl

end Leaves

section Trees

variable {scope : Scope} {clause : Clause} {p left right : Parsed} {expr expr2 : Expr}
  {level : Nat}

/-- A comparison of two columns makes their classes one. -/
theorem parseCompare_joins (hnumbered : scope.names.Numbered) (hgood : clause.Good scope)
    {opType : CompareOp} {o : Operand} {name : String} {table : Option String}
    (hself : ¬ scope.ComparesItself (.compare opType o (.columnRef name table)))
    (h : scope.parseCompare opType o (.columnRef name table) clause = .ok p) :
    p.Joins scope clause (.compare opType o (.columnRef name table)) := by
  obtain ⟨hfilters, hnull⟩ := parseCompare_null h
  obtain ⟨a, hleft, h⟩ := bind_eq_ok.mp h
  obtain ⟨b, hright, h⟩ := bind_eq_ok.mp h
  split at h
  · cases h
  · next hop =>
    obtain ⟨i, hi, h⟩ := bind_eq_ok.mp h
    obtain ⟨j, hj, h⟩ := bind_eq_ok.mp h
    obtain ⟨d, hd, h⟩ := bind_eq_ok.mp h
    cases h
    obtain ⟨hilt, -⟩ := columnNumber_cell hnumbered hi fun _ => []
    obtain ⟨hjlt, -⟩ := columnNumber_cell hnumbered hj fun _ => []
    obtain ⟨d', hunite, -, -, hrespects⟩ := DSU.unite_spec hgood.forest
      (x := i) (y := j) (by rw [hgood.size]; exact hilt) (by rw [hgood.size]; exact hjlt)
    obtain rfl := Except.ok.inj (hd.symm.trans hunite)
    have hne : i ≠ j := by
      rintro rfl
      have hvec := Scope.column_of_columnNumber hnumbered hi
      have hvec' := Scope.column_of_columnNumber hnumbered hj
      obtain ⟨htable, hcolumn⟩ := Prod.mk.inj (Option.some.inj (hvec.symm.trans hvec'))
      exact hself ⟨a, hleft, hright.trans (congrArg Except.ok (Prod.ext hcolumn htable).symm)⟩
    refine ⟨rfl, fun hold => hold, fun row => ?_⟩
    have htruth : scope.truth row (.compare opType o (.columnRef name table)) =
        CompareOp.opEquals.ofCells (scope.cell row a) (scope.cell row b) := by
      simp only [Scope.truth, hleft, Scope.leftColumn_eq, hright, not_not.mp hop]
    have hkey := Scope.numberedKey_eq_iff scope row hne
    rw [(columnNumber_cell hnumbered hi row).2, (columnNumber_cell hnumbered hj row).2,
      ← ofCells_opEquals, ← htruth] at hkey
    rw [← hkey]
    constructor
    · rintro ⟨hold, hclasses⟩
      obtain ⟨hrest, heq⟩ := (hrespects _).mp hclasses
      exact ⟨⟨hold, hrest⟩, heq⟩
    · rintro ⟨⟨hold, hrest⟩, heq⟩
      exact ⟨hold, (hrespects _).mpr ⟨hrest, heq⟩⟩

/-- Statements of one table become one statement of it. -/
theorem carries_of_combine {make : StatementPtr → StatementPtr → StatementPtr}
    {join : Statement → Statement → Statement} {whole : Expr}
    (hmake : ∀ l r, (make l r).statement? = do some (join (← l.statement?) (← r.statement?)))
    (hwhole : ∀ row (l r : Statement) record,
      l.truth record = scope.truth row expr → r.truth record = scope.truth row expr2 →
      (join l r).truth record = scope.truth row whole)
    (hleft : left.Truthful scope clause expr level)
    (hright : right.Truthful scope left.clause expr2 level)
    (h : Scope.combine make left right = .ok p) : p.Carries scope clause whole := by
  obtain ⟨hlnull, hrnull, hentity, rfl⟩ := combine_eq_ok.mp h
  have hl := hleft.resolve_right fun h => hlnull h.1.statement
  have hr := hright.resolve_right fun h => hrnull h.1.statement
  obtain ⟨l, hlstmt, hlmeaning⟩ := hl.statement
  obtain ⟨r, hrstmt, hrmeaning⟩ := hr.statement
  refine ⟨hr.clause.trans hl.clause, hl.entity, join l r, by simp [hmake, hlstmt, hrstmt],
    fun row => ?_⟩
  apply hwhole row l r _ (hlmeaning row)
  rw [hentity]
  exact hrmeaning row

/-- What a child of a top-level `AND` leaves, and what it has added. -/
theorem Parsed.Truthful.meaning (h : p.Truthful scope clause expr level) (row : Assignment) :
    (p.clause.IsTrue scope row ∧ (p.statement ≠ .null → scope.truth row expr = .true)) ↔
      clause.IsTrue scope row ∧ scope.truth row expr = .true := by
  rcases h with h | ⟨h, -⟩
  · rw [h.clause]
    exact and_congr_right fun _ => ⟨fun htrue => htrue h.ne_null, fun htrue _ => htrue⟩
  · rw [h.meaning row]
    exact and_iff_left fun hne => absurd h.statement hne

theorem Parsed.Truthful.filters (h : p.Truthful scope clause expr level)
    (hfilters : ∀ f ∈ clause.filters, f.1 ∈ scope.names.tables) :
    ∀ f ∈ p.clause.filters, f.1 ∈ scope.names.tables := by
  rcases h with h | ⟨h, -⟩
  · rw [h.clause]
    exact hfilters
  · exact h.filters hfilters

/-- Both sides of a top-level `AND`. -/
theorem joins_of_top (hl : left.Truthful scope clause expr 0)
    (hr : right.Truthful scope left.clause expr2 0) :
    Parsed.Joins scope ⟨{ right.clause with
        filters := Scope.insertChild right (Scope.insertChild left right.clause.filters) },
      .null, scope.noEntity⟩ clause (.opAnd expr expr2) := by
  have hl' := hl.imp_right And.left
  have hr' := hr.imp_right And.left
  refine ⟨rfl, fun hfilters => ?_, fun row => ?_⟩
  · have hfilters' := hr.filters (hl.filters hfilters)
    exact Parsed.Truthful.mem_insertChild hr' (Parsed.Truthful.mem_insertChild hl' hfilters')
  · dsimp only
    rw [Parsed.Truthful.insertChild hr', Parsed.Truthful.insertChild hl', Scope.truth,
      Truth.and_eq_true, ← and_assoc, ← hl.meaning row, and_right_comm, hr.meaning row]
    exact and_right_comm

theorem truthful_of_parseExprImpl {pre : List String} (hnamed : scope.names.Named pre)
    (hnumbered : scope.names.Numbered) (hempty : scope.schema.lookup "" = none)
    (hclean : ¬ expr.NegatesJoin) (hself : ¬ scope.ComparesItself expr) (hgood : clause.Good scope)
    (h : scope.parseExprImpl expr clause level = .ok p) : p.Truthful scope clause expr level := by
  have hfound : ∀ o x idx, scope.leftColumn o = .ok x → scope.columnIdx x.1 x.2 = .ok idx →
      x.2 ∈ scope.names.tables := by
    intro o x idx hleft hidx
    refine (Scope.mem_tables_of_leftColumn hnamed hleft).resolve_right fun heq => ?_
    obtain ⟨attributes, hattributes, -⟩ := Scope.columnIdx_eq_ok.mp hidx
    rw [heq] at hattributes
    cases hempty.symm.trans hattributes
  have hnext : ∀ {expr : Expr} {clause : Clause} {p : Parsed} {level : Nat}, ¬ expr.NegatesJoin →
      clause.Good scope → scope.parseExprImpl expr clause level = .ok p → p.clause.Good scope := by
    intro expr clause p level hclean hgood h
    have hp : p.Sound scope (fun _ => none) clause expr level :=
      (parses_of_parseExprImpl h).sound hnumbered hclean hgood
    exact Parsed.good (hp.imp_right And.left) hgood
  induction expr generalizing clause p level with
  | opAnd expr expr2 ih ih2 =>
    obtain ⟨hclean, hclean2⟩ := not_or.mp hclean
    obtain ⟨hself, hself2⟩ := not_or.mp hself
    obtain ⟨left, hleft, hrest⟩ := bind_eq_ok.mp h
    obtain ⟨right, hright, hp⟩ := bind_eq_ok.mp hrest
    have hl := ih hclean hself hgood hleft
    have hr := ih2 hclean2 hself2 (hnext hclean hgood hleft) hright
    split at hp
    · next hlevel =>
      subst hlevel
      cases hp
      exact .inr ⟨joins_of_top hl hr, absurd rfl⟩
    · refine .inl (carries_of_combine (fun _ _ => rfl) ?_ hl hr hp)
      intro row l r record hl hr
      rw [Statement.truth, Scope.truth, hl, hr]
  | opOr expr expr2 ih ih2 =>
    obtain ⟨hclean, hclean2⟩ := not_or.mp hclean
    obtain ⟨hself, hself2⟩ := not_or.mp hself
    obtain ⟨left, hleft, h⟩ := bind_eq_ok.mp h
    obtain ⟨right, hright, h⟩ := bind_eq_ok.mp h
    have hl := ih hclean hself hgood hleft
    have hr := ih2 hclean2 hself2 (hnext hclean hgood hleft) hright
    refine .inl (carries_of_combine (fun _ _ => rfl) ?_ hl hr h)
    intro row l r record hl hr
    rw [Statement.truth, Scope.truth, hl, hr]
  | opNot expr ih =>
    obtain ⟨hjoin, hclean⟩ := not_or.mp hclean
    obtain ⟨child, hchild, h⟩ := bind_eq_ok.mp h
    cases h
    have hc := (ih hclean hself hgood hchild).resolve_right fun h => hjoin (h.2 (Nat.succ_ne_zero level))
    obtain ⟨stmt, hstmt, hmeaning⟩ := hc.statement
    refine .inl ⟨hc.clause, hc.entity, .makeNot stmt, by simp [StatementPtr.statement?, hstmt],
      fun row => ?_⟩
    rw [Statement.truth, Scope.truth, hmeaning row]
  | compare opType expr expr2 =>
    cases expr2 with
    | columnRef name table => exact .inr ⟨parseCompare_joins hnumbered hgood hself h, fun _ => trivial⟩
    | literalInt _ => exact .inl (parseCompare_carries hfound (by simp) h)
    | literalString _ => exact .inl (parseCompare_carries hfound (by simp) h)
    | other _ => exact .inl (parseCompare_carries hfound (by simp) h)
  | opLike expr expr2 =>
    refine .inl (parseLike_carries hfound (fun cell _ => ?_) (fun _ => rfl) h)
    cases cell <;> rfl
  | opNotLike expr expr2 =>
    refine .inl (parseLike_carries hfound (fun cell _ => ?_) (fun _ => rfl) h)
    cases cell <;> rfl
  | opBetween expr lower upper => exact .inl (parseBetween_carries hfound h)
  | opIn expr item items => exact .inl (parseIn_carries hfound h)
  | opIsNull expr => exact .inl (parseIsNull_carries hfound h)
  | operator opType => cases h
  | operand o => cases h

end Trees

section Clauses

variable {scope : Scope} {clause : Clause} {p : Parsed} {expr : Expr} {level : Nat}

theorem nodup_insertChild {filters : Filters} (h : (filters.map Prod.fst).Nodup) :
    ((Scope.insertChild p filters).map Prod.fst).Nodup := by
  unfold Scope.insertChild
  split
  · exact h
  · rw [map_fst_insertFilter]
    split
    · exact h
    · next hmem =>
      refine List.nodup_append.mpr ⟨h, List.nodup_singleton _, fun e he e' he' heq => hmem ?_⟩
      rwa [← List.mem_singleton.mp he', ← heq]

/-- A table has one filter. -/
theorem Parses.nodup (h : Parses scope expr clause level p) (hnodup : (clause.filters.map Prod.fst).Nodup) :
    (p.clause.filters.map Prod.fst).Nodup := by
  induction h with
  | filter hpushes => rwa [(hpushes fun _ => none).clause]
  | join h => rwa [(parseCompare_null h).1]
  | top _ _ ih ih2 => exact nodup_insertChild (nodup_insertChild (ih2 (ih hnodup)))
  | both _ _ hboth ih ih2 =>
    obtain ⟨-, -, -, rfl⟩ := combine_eq_ok.mp hboth
    exact ih2 (ih hnodup)
  | either _ _ heither ih ih2 =>
    obtain ⟨-, -, -, rfl⟩ := combine_eq_ok.mp heither
    exact ih2 (ih hnodup)
  | not _ ih => exact ih hnodup

theorem isTrue_clause (scope : Scope) (row : Assignment) :
    scope.clause.IsTrue scope row :=
  ⟨nofun, DSU.respects_new _ _⟩

/-- What `parse_expr` makes of a WHERE clause is true exactly where the clause is. -/
theorem parseExpr_isTrue_iff {pre : List String} (hnamed : scope.names.Named pre)
    (hnumbered : scope.names.Numbered) (hempty : scope.schema.lookup "" = none)
    (hclean : ¬ expr.NegatesJoin) (hself : ¬ scope.ComparesItself expr)
    (h : scope.parseExpr expr scope.clause = .ok clause) :
    (clause.filters.map Prod.fst).Nodup ∧ (∀ f ∈ clause.filters, f.1 ∈ scope.names.tables) ∧
      ∀ row, clause.IsTrue scope row ↔ scope.truth row expr = .true := by
  obtain ⟨top, htop, h⟩ := bind_eq_ok.mp h
  cases h
  have htruthful : top.Truthful scope scope.clause expr 0 :=
    truthful_of_parseExprImpl hnamed hnumbered hempty hclean hself (good_clause scope) htop
  have hchild := htruthful.imp_right And.left
  refine ⟨nodup_insertChild ((parses_of_parseExprImpl htop).nodup .nil),
    Parsed.Truthful.mem_insertChild hchild (htruthful.filters nofun), fun row => ?_⟩
  rw [Parsed.Truthful.insertChild hchild]
  rw [htruthful.meaning row]
  exact and_iff_right (isTrue_clause scope row)

end Clauses

/-- What `parse_sql` leaves of a query: the tables of its FROM list, and filters and classes that are true
exactly where its WHERE clause is. -/
structure ParsedSQL.Means (parsed : ParsedSQL) (d : DSU) (list : List TableRef)
    (expr : Expr) : Prop where
  tables : parsed.scope.names.tables = fromEntities list
  filtered : ∀ f ∈ parsed.filters, f.1 ∈ fromEntities list
  nodup : (parsed.filters.map Prod.fst).Nodup
  classes : parsed.scope.Classes d
  meaning : ∀ row, parsed.scope.truth row expr = .true ↔
    (∀ f ∈ parsed.filters, f.2.IsTrue (row f.1)) ∧ d.Respects (parsed.scope.numberedKey row)

theorem parseSql_means {schema : Schema} {unset : Int} {order : HashOrder} {statement : SelectStatement}
    {parsed : ParsedSQL} {d : DSU} (h : parseSql schema unset order statement = .ok (parsed, d))
    (hempty : schema.lookup "" = none) {expr : Expr}
    (hwhere : statement.whereClause = some expr) (hclean : ¬ expr.NegatesJoin)
    (hself : ¬ parsed.scope.ComparesItself expr) :
    ∃ list, statement.fromTable = some list ∧ parsed.Means d list expr := by
  obtain ⟨names, hnames, h⟩ := bind_eq_ok.mp h
  obtain ⟨outputAttrs, -, h⟩ := bind_eq_ok.mp h
  obtain ⟨clause, hclause, h⟩ := bind_eq_ok.mp h
  obtain ⟨⟨classes, joinUnion⟩, hjoined, h⟩ := bind_eq_ok.mp h
  obtain ⟨joinGraph, -, h⟩ := bind_eq_ok.mp h
  cases h
  cases hfrom : statement.fromTable with
  | none =>
    rw [hfrom] at hnames
    cases hnames
  | some list =>
    have hnumbered := Names.numbered_ofFrom hnames
    rw [hfrom] at hnames
    have hnamed := Names.named_ofFrom hnames
    have hclasses : Scope.Classes ⟨schema, names, unset⟩ clause.joinUnion :=
      classes_of_parseWhere hnumbered hclause
    obtain ⟨-, hsame⟩ := joinedColumns_grouped hclasses.forest hjoined
    rw [hwhere] at hclause
    obtain ⟨hnodup, hfilters, hmeaning⟩ :=
      parseExpr_isTrue_iff hnamed hnumbered hempty hclean hself hclause
    refine ⟨list, rfl, hnamed.tables, fun f hf => ?_, hnodup, ?_, fun row => ?_⟩
    · have hmem := hfilters f hf
      rwa [hnamed.tables] at hmem
    · refine ⟨hsame.forest hclasses.forest, hsame.length.trans hclasses.length, fun i j hij => ?_⟩
      exact hclasses.numbered i j ((hsame.sameClass_iff hclasses.forest).mp hij)
    · rw [← hmeaning row]
      have hrespects : d.Respects (Scope.numberedKey ⟨schema, names, unset⟩ row) ↔
          clause.joinUnion.Respects (Scope.numberedKey ⟨schema, names, unset⟩ row) := by
        unfold DSU.Respects SameSet
        simp only [hsame.rootOf]
      exact ⟨fun h => ⟨h.filters, hrespects.mpr h.classes⟩, fun h => ⟨h.1, hrespects.mp h.2⟩⟩

end JoinOptimizer
