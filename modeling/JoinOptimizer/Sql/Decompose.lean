import JoinOptimizer.Sql.Where

/-! What `parse_expr` makes of a WHERE clause says the same as the clause, unless a `NOT` stands before a
comparison of two columns. -/

namespace JoinOptimizer

open Lib

section Statements

variable {re2 : RE2} {record : List Data} {l r p : StatementPtr}

theorem StatementPtr.makeAnd_trueOf :
    (makeAnd l r).TrueOf re2 record ↔ l.TrueOf re2 record ∧ r.TrueOf re2 record := by
  unfold TrueOf
  simp only [statement?]
  cases hl : l.statement? with
  | none => simp
  | some s =>
    cases hr : r.statement? with
    | none => simp
    | some t => simp [Statement.evalRecord]

theorem StatementPtr.makeAnd_broken :
    (makeAnd l r).statement? = none ↔ l.statement? = none ∨ r.statement? = none := by
  simp only [statement?]
  cases l.statement? <;> cases r.statement? <;> simp

theorem StatementPtr.makeOr_broken :
    (makeOr l r).statement? = none ↔ l.statement? = none ∨ r.statement? = none := by
  simp only [statement?]
  cases l.statement? <;> cases r.statement? <;> simp

theorem StatementPtr.makeNot_broken : (makeNot p).statement? = none ↔ p.statement? = none := by
  simp only [statement?]
  cases p.statement? <;> simp

end Statements

section Filters

variable {re2 : RE2} {row : Assignment} {filters : Filters} {entity : TableEntity} {p : StatementPtr}

/-- The new filter is added to what the filters say. -/
theorem forall_insertFilter : (∀ f ∈ insertFilter filters entity p, f.2.TrueOf re2 (row f.1)) ↔
    (∀ f ∈ filters, f.2.TrueOf re2 (row f.1)) ∧ p.TrueOf re2 (row entity) := by
  induction filters with
  | nil => simp [insertFilter]
  | cons f filters ih =>
    unfold insertFilter
    split
    · next heq =>
      subst heq
      rw [List.forall_mem_cons, List.forall_mem_cons, StatementPtr.makeAnd_trueOf]
      exact and_right_comm
    · rw [List.forall_mem_cons, List.forall_mem_cons, ih, and_assoc]

/-- Some filter cannot be evaluated. -/
def Filters.Broken (filters : Filters) : Prop := ∃ f ∈ filters, f.2.statement? = none

theorem broken_insertFilter :
    Filters.Broken (insertFilter filters entity p) ↔ filters.Broken ∨ p.statement? = none := by
  unfold Filters.Broken
  induction filters with
  | nil => simp [insertFilter]
  | cons f filters ih =>
    unfold insertFilter
    split
    · rw [List.exists_mem_cons_iff, List.exists_mem_cons_iff, StatementPtr.makeAnd_broken]
      exact or_right_comm
    · rw [List.exists_mem_cons_iff, List.exists_mem_cons_iff, ih, or_assoc]

end Filters

section Columns

variable {scope : Scope} {re2 : RE2} {row : Assignment} {clause : Clause} {left right : Operand}
  {p : Parsed}

theorem Scope.leftColumn_eq {column : String} {table : Option String} :
    scope.leftColumn (.columnRef column table) = scope.extractColumnAndTable column table := rfl

theorem Scope.columnFilter_eq_ok {column : String × TableEntity} {make : Nat → StatementPtr} :
    scope.columnFilter clause column make = .ok p ↔
      ∃ idx, scope.columnIdx column.1 column.2 = .ok idx ∧ ⟨clause, make idx, column.2⟩ = p := by
  unfold Scope.columnFilter
  rw [bind_eq_ok]
  simp only [Except.ok.injEq]

/-- A comparison reads the cell of its column. -/
theorem Scope.evalRecord_comparison {column : String × TableEntity} {idx : Nat}
    (h : scope.columnIdx column.1 column.2 = .ok idx) (op : Op) (value : Literal) :
    (Statement.comparison ⟨idx, op, value⟩).evalRecord re2 (row column.2) =
      Comparison.evalData re2 ⟨0, op, value⟩ (scope.cell row column) := by
  rw [Statement.evalRecord, Scope.cell, h]
  rfl

end Columns

section Sound

variable (scope : Scope) (re2 : RE2)

/-- The forest over the columns of the FROM list, and filters that can be evaluated. -/
structure Clause.Good (clause : Clause) : Prop where
  forest : clause.joinUnion.Forest
  size : clause.joinUnion.pa.length = scope.names.columnVec.length
  filters : ¬ clause.filters.Broken

/-- The expression has become the statement that is left. -/
structure Parsed.Pushes (p : Parsed) (clause : Clause) (expr : Expr) : Prop where
  clause : p.clause = clause
  statement : ∃ stmt, p.statement.statement? = some stmt ∧
    ∀ row, stmt.evalRecord re2 (row p.entity) = true ↔ scope.Holds re2 row expr

/-- The expression has become a part of the clause. -/
structure Parsed.Adds (p : Parsed) (clause : Clause) (expr : Expr) : Prop where
  statement : p.statement = .null
  good : p.clause.Good scope
  meaning : ∀ row, p.clause.Satisfied scope re2 row ↔
    clause.Satisfied scope re2 row ∧ scope.Holds re2 row expr

/-- What is left is true of the row of its table. -/
def Parsed.Means (p : Parsed) (row : Assignment) : Prop :=
  p.statement ≠ .null → p.statement.TrueOf re2 (row p.entity)

variable {scope re2} {clause : Clause} {p : Parsed} {expr : Expr}

theorem Parsed.Pushes.ne_null (h : p.Pushes scope re2 clause expr) : p.statement ≠ .null := by
  obtain ⟨stmt, hstmt, -⟩ := h.statement
  rintro hnull
  rw [hnull] at hstmt
  cases hstmt

theorem Parsed.Pushes.trueOf_iff (h : p.Pushes scope re2 clause expr) (row : Assignment) :
    p.statement.TrueOf re2 (row p.entity) ↔ scope.Holds re2 row expr := by
  obtain ⟨stmt, hstmt, hmeaning⟩ := h.statement
  rw [← hmeaning row]
  constructor
  · rintro ⟨stmt', hstmt', htrue⟩
    obtain rfl := Option.some.inj (hstmt.symm.trans hstmt')
    exact htrue
  · intro htrue
    exact ⟨stmt, hstmt, htrue⟩

/-- Either way, what is left together with the clause says what the expression adds. -/
theorem Parsed.means_iff (h : p.Pushes scope re2 clause expr ∨ p.Adds scope re2 clause expr)
    (row : Assignment) : p.clause.Satisfied scope re2 row ∧ p.Means re2 row ↔
      clause.Satisfied scope re2 row ∧ scope.Holds re2 row expr := by
  rcases h with h | h
  · rw [h.clause, ← h.trueOf_iff row]
    exact and_congr_right fun _ => ⟨fun hmeans => hmeans h.ne_null, fun htrue _ => htrue⟩
  · rw [h.meaning row]
    exact and_iff_left fun hne => absurd h.statement hne

theorem Parsed.good (h : p.Pushes scope re2 clause expr ∨ p.Adds scope re2 clause expr)
    (hgood : clause.Good scope) : p.clause.Good scope := by
  rcases h with h | h
  · rw [h.clause]
    exact hgood
  · exact h.good

/-- The insertion of a child adds what is left of it. -/
theorem satisfied_insertChild (joinUnion : DSU) (filters : Filters) (row : Assignment) :
    Clause.Satisfied scope re2 row ⟨Scope.insertChild p filters, joinUnion⟩ ↔
      Clause.Satisfied scope re2 row ⟨filters, joinUnion⟩ ∧ p.Means re2 row := by
  unfold Scope.insertChild Parsed.Means
  split
  · next hnull => exact (and_iff_left fun hne => absurd hnull hne).symm
  · next hne =>
    constructor
    · rintro ⟨hfilters, hclasses⟩
      obtain ⟨hold, hnew⟩ := forall_insertFilter.mp hfilters
      exact ⟨⟨hold, hclasses⟩, fun _ => hnew⟩
    · rintro ⟨⟨hold, hclasses⟩, hnew⟩
      exact ⟨forall_insertFilter.mpr ⟨hold, hnew hne⟩, hclasses⟩

theorem broken_insertChild (filters : Filters) : Filters.Broken (Scope.insertChild p filters) ↔
    filters.Broken ∨ p.statement ≠ .null ∧ p.statement.statement? = none := by
  unfold Scope.insertChild
  split
  · next hnull => simp [hnull]
  · next hne => rw [broken_insertFilter, and_iff_right hne]

theorem Parsed.not_broken (h : p.Pushes scope re2 clause expr ∨ p.Adds scope re2 clause expr) :
    ¬ (p.statement ≠ .null ∧ p.statement.statement? = none) := by
  rintro ⟨hne, hnone⟩
  rcases h with h | h
  · obtain ⟨stmt, hstmt, -⟩ := h.statement
    rw [hstmt] at hnone
    cases hnone
  · exact hne h.statement

theorem Clause.Good.satisfied_iff (hgood : clause.Good scope) (row : Assignment) :
    clause.Satisfied scope re2 row ↔ (∀ f ∈ clause.filters, f.2.TrueOf re2 (row f.1)) ∧
      clause.joinUnion.Respects (scope.numberedCell row) := by
  have hclasses : (∀ i j, clause.joinUnion.SameClass i j →
      scope.numberedCell row i = scope.numberedCell row j) ↔
        clause.joinUnion.Respects (scope.numberedCell row) := by
    unfold DSU.Respects
    simp only [DSU.sameClass_iff hgood.forest]
  rw [← hclasses]
  exact ⟨fun h => ⟨h.filters, h.classes⟩, fun h => ⟨h.1, h.2⟩⟩

end Sound

section Leaves

variable {scope : Scope} {re2 : RE2} {row : Assignment} {clause : Clause} {p : Parsed} {op : Op}
  {left right : Operand} {column : String × TableEntity} {value : Literal} {expr : Expr}

theorem Scope.comparesTo_iff (hleft : scope.leftColumn left = .ok column)
    (hright : Scope.literalOf right = .ok value) {relation : Data → Literal → Bool} :
    scope.comparesTo row left relation right ↔ relation (scope.cell row column) value = true := by
  unfold Scope.comparesTo
  simp [hleft, hright]

/-- A filter on one column, whose statement says what the expression says of its cell. -/
theorem pushes_of_columnFilter {make : Nat → StatementPtr}
    (h : scope.columnFilter clause column make = .ok p)
    (hmake : ∀ idx, scope.columnIdx column.1 column.2 = .ok idx →
      ∃ stmt, (make idx).statement? = some stmt ∧
        ∀ row, stmt.evalRecord re2 (row column.2) = true ↔ scope.Holds re2 row expr) :
    p.Pushes scope re2 clause expr := by
  obtain ⟨idx, hidx, rfl⟩ := Scope.columnFilter_eq_ok.mp h
  exact ⟨rfl, hmake idx hidx⟩

theorem parseCompare_literal {opType : CompareOp} (hright : ∀ name table, right ≠ .columnRef name table)
    (h : scope.parseCompare opType left right clause = .ok p) :
    p.Pushes scope re2 clause (.compare opType left right) := by
  have hholds : ∀ row, scope.Holds re2 row (.compare opType left right) =
      scope.comparesTo row left opType.ofRecord right := by
    intro row
    cases right with
    | columnRef name table => exact absurd rfl (hright name table)
    | literalInt _ => rfl
    | literalString _ => rfl
    | other _ => rfl
  obtain ⟨column, hleft, h⟩ := bind_eq_ok.mp h
  obtain ⟨value, hvalue, h⟩ : ∃ value, Scope.literalOf right = .ok value ∧
      scope.columnFilter clause column (fun idx => .comparison ⟨idx, opType.toOp, value⟩) = .ok p := by
    cases right with
    | columnRef name table => exact absurd rfl (hright name table)
    | literalInt ival => exact bind_eq_ok.mp h
    | literalString name => exact bind_eq_ok.mp h
    | other type => exact bind_eq_ok.mp h
  refine pushes_of_columnFilter h fun idx hidx => ⟨_, rfl, fun row => ?_⟩
  rw [hholds, Scope.comparesTo_iff hleft hvalue, Scope.evalRecord_comparison hidx, evalData_toOp]

theorem parseLike_pushes {relation : Data → Literal → Bool}
    (hrelation : ∀ cell name, Comparison.evalData re2 ⟨0, op, .string name⟩ cell =
      relation cell (.string name))
    (hholds : ∀ row, scope.Holds re2 row expr = scope.comparesTo row left relation right)
    (h : scope.parseLike op left right clause = .ok p) : p.Pushes scope re2 clause expr := by
  obtain ⟨column, hleft, h⟩ := bind_eq_ok.mp h
  cases right with
  | literalString name =>
    have hvalue : Scope.literalOf (.literalString name) = .ok (.string name) := rfl
    refine pushes_of_columnFilter h fun idx hidx => ⟨_, rfl, fun row => ?_⟩
    rw [hholds, Scope.comparesTo_iff hleft hvalue, Scope.evalRecord_comparison hidx, hrelation]
  | columnRef _ _ => cases h
  | literalInt _ => cases h
  | other _ => cases h

theorem parseBetween_pushes {lower upper : Operand}
    (h : scope.parseBetween left lower upper clause = .ok p) :
    p.Pushes scope re2 clause (.opBetween left lower upper) := by
  obtain ⟨column, hleft, h⟩ := bind_eq_ok.mp h
  obtain ⟨low, hlow, h⟩ := bind_eq_ok.mp h
  obtain ⟨up, hup, h⟩ := bind_eq_ok.mp h
  refine pushes_of_columnFilter h fun idx hidx => ⟨_, rfl, fun row => ?_⟩
  rw [Scope.Holds, Scope.comparesTo_iff hleft hlow, Scope.comparesTo_iff hleft hup,
    Statement.evalRecord, Bool.and_eq_true, Scope.evalRecord_comparison hidx,
    Scope.evalRecord_comparison hidx, ← evalData_toOp re2, ← evalData_toOp re2]
  exact Iff.rfl

theorem parseIn_pushes {item : Operand} {items : List Operand}
    (h : scope.parseIn left item items clause = .ok p) :
    p.Pushes scope re2 clause (.opIn left item items) := by
  obtain ⟨column, hleft, h⟩ := bind_eq_ok.mp h
  obtain ⟨value, hvalue, h⟩ := bind_eq_ok.mp h
  obtain ⟨idx, hidx, h⟩ := bind_eq_ok.mp h
  obtain ⟨ptr, hptr, h⟩ := bind_eq_ok.mp h
  cases h
  refine ⟨rfl, ?_⟩
  refine foldlM_invariant (P := fun pre ptr => ∃ stmt, StatementPtr.statement? ptr = some stmt ∧
    ∀ row, stmt.evalRecord re2 (row column.2) = true ↔
      scope.Holds re2 row (.opIn left item pre)) hptr ?_ ?_
  · refine ⟨_, rfl, fun row => ?_⟩
    rw [Scope.evalRecord_comparison hidx, Scope.Holds]
    simp [Scope.comparesTo_iff hleft hvalue, ← evalData_toOp re2, CompareOp.toOp]
  · intro pre i ptr ptr' _ hptr hstep
    obtain ⟨stmt, hstmt, hmeaning⟩ := hptr
    obtain ⟨value', hvalue', hstep⟩ := bind_eq_ok.mp hstep
    rw [hidx] at hstep
    cases hstep
    refine ⟨.makeOr stmt (.comparison ⟨idx, .EQ, value'⟩), ?_, fun row => ?_⟩
    · simp [StatementPtr.statement?, hstmt]
    · have heq := evalData_toOp re2 .opEquals (scope.cell row column) value'
      rw [CompareOp.toOp] at heq
      rw [Statement.evalRecord, Bool.or_eq_true, hmeaning, Scope.evalRecord_comparison hidx, heq,
        ← Scope.comparesTo_iff hleft hvalue']
      simp only [Scope.Holds, ← List.cons_append, List.mem_append, List.mem_singleton, or_and_right,
        exists_or, exists_eq_left]

theorem parseIsNull_pushes (h : scope.parseIsNull left clause = .ok p) :
    p.Pushes scope re2 clause (.opIsNull left) := by
  obtain ⟨column, hleft, h⟩ := bind_eq_ok.mp h
  refine pushes_of_columnFilter h fun idx hidx => ⟨_, rfl, fun row => ?_⟩
  rw [Scope.evalRecord_comparison hidx, Scope.Holds]
  simp [hleft, Comparison.evalData]

theorem columnNumber_cell (hnumbered : scope.names.Numbered) {i : Nat}
    (h : scope.columnNumber column.1 column.2 = .ok i) (row : Assignment) :
    i < scope.names.columnVec.length ∧ scope.numberedCell row i = scope.cell row column := by
  have hvec := Scope.column_of_columnNumber hnumbered h
  refine ⟨(List.getElem?_eq_some_iff.mp hvec).1, ?_⟩
  rw [Scope.numberedCell, hvec]

/-- A comparison of two columns makes their classes one. -/
theorem parseCompare_join {opType : CompareOp} {name : String} {table : Option String}
    (hnumbered : scope.names.Numbered) (hgood : clause.Good scope)
    (h : scope.parseCompare opType left (.columnRef name table) clause = .ok p) :
    p.Adds scope re2 clause (.compare opType left (.columnRef name table)) := by
  obtain ⟨a, hleft, h⟩ := bind_eq_ok.mp h
  obtain ⟨b, hright, h⟩ := bind_eq_ok.mp h
  split at h
  · cases h
  · next hop =>
    obtain ⟨i, hi, h⟩ := bind_eq_ok.mp h
    obtain ⟨j, hj, h⟩ := bind_eq_ok.mp h
    obtain ⟨d, hd, h⟩ := bind_eq_ok.mp h
    cases h
    obtain ⟨hilt, -⟩ := columnNumber_cell hnumbered hi fun _ => []
    obtain ⟨hjlt, -⟩ := columnNumber_cell hnumbered hj fun _ => []
    obtain ⟨d', hunite, hforest, hlength, hrespects⟩ := DSU.unite_spec hgood.forest
      (x := i) (y := j) (by rw [hgood.size]; exact hilt) (by rw [hgood.size]; exact hjlt)
    obtain rfl := Except.ok.inj (hd.symm.trans hunite)
    have hgood' : Clause.Good scope ⟨clause.filters, d⟩ :=
      ⟨hforest, hlength.trans hgood.size, hgood.filters⟩
    refine ⟨rfl, hgood', fun row => ?_⟩
    rw [hgood'.satisfied_iff, hgood.satisfied_iff, hrespects,
      (columnNumber_cell hnumbered hi row).2, (columnNumber_cell hnumbered hj row).2, and_assoc]
    have hholds : scope.Holds re2 row (.compare opType left (.columnRef name table)) ↔
        scope.cell row a = scope.cell row b := by
      simp only [Scope.Holds, Scope.leftColumn_eq, hleft, hright, not_not.mp hop]
      simp
    rw [hholds]

end Leaves

section Trees

variable {scope : Scope} {re2 : RE2} {clause : Clause} {p left right : Parsed}

theorem combine_eq_ok {make : StatementPtr → StatementPtr → StatementPtr} :
    Scope.combine make left right = .ok p ↔ left.statement ≠ .null ∧ right.statement ≠ .null ∧
      left.entity = right.entity ∧ ⟨right.clause, make left.statement right.statement, left.entity⟩ = p := by
  unfold Scope.combine
  by_cases hnull : left.statement = .null ∨ right.statement = .null
  · simp only [hnull, if_true]
    refine iff_of_false nofun fun h => hnull.elim h.1 h.2.1
  · obtain ⟨hleft, hright⟩ := not_or.mp hnull
    by_cases hentity : left.entity = right.entity
    · simp [hleft, hright, hentity]
    · simp [hnull, hentity]

/-- The ways in which `parse_expr_impl` comes by what it makes of an expression at a level. -/
inductive Parses (scope : Scope) : Expr → Clause → Nat → Parsed → Prop
  | filter {expr : Expr} {clause : Clause} {level : Nat} {p : Parsed} :
      (∀ re2, p.Pushes scope re2 clause expr) → ¬ expr.NegatesJoin → ¬ expr.IsJoin →
      Parses scope expr clause level p
  | join {opType : CompareOp} {left : Operand} {name : String} {table : Option String}
      {clause : Clause} {level : Nat} {p : Parsed} :
      scope.parseCompare opType left (.columnRef name table) clause = .ok p →
      Parses scope (.compare opType left (.columnRef name table)) clause level p
  | top {expr expr2 : Expr} {clause : Clause} {left right : Parsed} :
      Parses scope expr clause 0 left → Parses scope expr2 left.clause 0 right →
      Parses scope (.opAnd expr expr2) clause 0
        ⟨{ right.clause with
            filters := Scope.insertChild right (Scope.insertChild left right.clause.filters) },
          .null, scope.noEntity⟩
  | both {expr expr2 : Expr} {clause : Clause} {level : Nat} {left right p : Parsed} :
      Parses scope expr clause level left → Parses scope expr2 left.clause level right →
      Scope.combine .makeAnd left right = .ok p → Parses scope (.opAnd expr expr2) clause level p
  | either {expr expr2 : Expr} {clause : Clause} {level : Nat} {left right p : Parsed} :
      Parses scope expr clause (level + 1) left → Parses scope expr2 left.clause (level + 1) right →
      Scope.combine .makeOr left right = .ok p → Parses scope (.opOr expr expr2) clause level p
  | not {expr : Expr} {clause : Clause} {level : Nat} {child : Parsed} :
      Parses scope expr clause (level + 1) child →
      Parses scope (.opNot expr) clause level
        ⟨child.clause, .makeNot child.statement, child.entity⟩

theorem parses_of_parseExprImpl {expr : Expr} {level : Nat}
    (h : scope.parseExprImpl expr clause level = .ok p) : Parses scope expr clause level p := by
  induction expr generalizing clause p level with
  | opAnd expr expr2 ih ih2 =>
    obtain ⟨left, hleft, h⟩ := bind_eq_ok.mp h
    obtain ⟨right, hright, hp⟩ := bind_eq_ok.mp h
    split at hp
    · next hlevel =>
      subst hlevel
      cases hp
      exact .top (ih hleft) (ih2 hright)
    · exact .both (ih hleft) (ih2 hright) hp
  | opOr expr expr2 ih ih2 =>
    obtain ⟨left, hleft, h⟩ := bind_eq_ok.mp h
    obtain ⟨right, hright, h⟩ := bind_eq_ok.mp h
    exact .either (ih hleft) (ih2 hright) h
  | opNot expr ih =>
    obtain ⟨child, hchild, h⟩ := bind_eq_ok.mp h
    cases h
    exact .not (ih hchild)
  | compare opType expr expr2 =>
    cases expr2 with
    | columnRef name table => exact .join h
    | literalInt _ => exact .filter (fun _ => parseCompare_literal nofun h) id id
    | literalString _ => exact .filter (fun _ => parseCompare_literal nofun h) id id
    | other _ => exact .filter (fun _ => parseCompare_literal nofun h) id id
  | opLike expr expr2 =>
    refine .filter (fun _ => parseLike_pushes (fun cell _ => ?_) (fun _ => rfl) h) id id
    cases cell <;> rfl
  | opNotLike expr expr2 =>
    refine .filter (fun _ => parseLike_pushes (fun cell _ => ?_) (fun _ => rfl) h) id id
    cases cell <;> rfl
  | opBetween expr lower upper => exact .filter (fun _ => parseBetween_pushes h) id id
  | opIn expr item items => exact .filter (fun _ => parseIn_pushes h) id id
  | opIsNull expr => exact .filter (fun _ => parseIsNull_pushes h) id id
  | operator opType => cases h
  | operand o => cases h

/-- What `parse_expr_impl` has made of an expression.  Below the top level only a comparison of two
columns leaves no statement. -/
def Parsed.Sound (scope : Scope) (re2 : RE2) (p : Parsed) (clause : Clause) (expr : Expr)
    (level : Nat) : Prop :=
  p.Pushes scope re2 clause expr ∨ p.Adds scope re2 clause expr ∧ (level ≠ 0 → expr.IsJoin)

/-- Statements of one table become one statement of it. -/
theorem pushes_of_combine {make : StatementPtr → StatementPtr → StatementPtr}
    {join : Statement → Statement → Statement} {expr expr2 whole : Expr} {level : Nat}
    (hmake : ∀ l r, (make l r).statement? = do some (join (← l.statement?) (← r.statement?)))
    (hwhole : ∀ row (l r : Statement) record,
      (l.evalRecord re2 record = true ↔ scope.Holds re2 row expr) →
      (r.evalRecord re2 record = true ↔ scope.Holds re2 row expr2) →
      ((join l r).evalRecord re2 record = true ↔ scope.Holds re2 row whole))
    (hleft : left.Sound scope re2 clause expr level)
    (hright : right.Sound scope re2 left.clause expr2 level)
    (h : Scope.combine make left right = .ok p) : p.Pushes scope re2 clause whole := by
  obtain ⟨hlnull, hrnull, hentity, rfl⟩ := combine_eq_ok.mp h
  have hl := hleft.resolve_right fun h => hlnull h.1.statement
  have hr := hright.resolve_right fun h => hrnull h.1.statement
  obtain ⟨l, hlstmt, hlmeaning⟩ := hl.statement
  obtain ⟨r, hrstmt, hrmeaning⟩ := hr.statement
  refine ⟨hr.clause.trans hl.clause, join l r, by simp [hmake, hlstmt, hrstmt], fun row => ?_⟩
  apply hwhole row l r _ (hlmeaning row)
  rw [hentity]
  exact hrmeaning row

theorem Parses.sound (hnumbered : scope.names.Numbered) {expr : Expr} {level : Nat}
    (h : Parses scope expr clause level p) (hclean : ¬ expr.NegatesJoin) (hgood : clause.Good scope) :
    p.Sound scope re2 clause expr level := by
  induction h with
  | filter hpushes => exact .inl (hpushes re2)
  | join h => exact .inr ⟨parseCompare_join hnumbered hgood h, fun _ => True.intro⟩
  | top _ _ ih ih2 =>
    obtain ⟨hclean, hclean2⟩ := not_or.mp hclean
    have hl := (ih hclean hgood).imp_right And.left
    have hgood' := Parsed.good hl hgood
    have hr := (ih2 hclean2 hgood').imp_right And.left
    have hgood'' := Parsed.good hr hgood'
    refine .inr ⟨⟨rfl, ⟨hgood''.forest, hgood''.size, ?_⟩, fun row => ?_⟩, absurd rfl⟩
    · dsimp only
      rw [broken_insertChild, broken_insertChild]
      rintro ((hbroken | hbroken) | hbroken)
      · exact hgood''.filters hbroken
      · exact Parsed.not_broken hl hbroken
      · exact Parsed.not_broken hr hbroken
    · rw [satisfied_insertChild, satisfied_insertChild, Scope.Holds, ← and_assoc,
        ← Parsed.means_iff hl row, and_right_comm, Parsed.means_iff hr row]
      exact and_right_comm
  | both _ _ hboth ih ih2 =>
    obtain ⟨hclean, hclean2⟩ := not_or.mp hclean
    have hl := ih hclean hgood
    have hr := ih2 hclean2 (Parsed.good (hl.imp_right And.left) hgood)
    refine .inl (pushes_of_combine (fun _ _ => rfl) ?_ hl hr hboth)
    intro row l r record hl hr
    rw [Statement.evalRecord, Bool.and_eq_true, hl, hr, Scope.Holds]
  | either _ _ heither ih ih2 =>
    obtain ⟨hclean, hclean2⟩ := not_or.mp hclean
    have hl := ih hclean hgood
    have hr := ih2 hclean2 (Parsed.good (hl.imp_right And.left) hgood)
    refine .inl (pushes_of_combine (fun _ _ => rfl) ?_ hl hr heither)
    intro row l r record hl hr
    rw [Statement.evalRecord, Bool.or_eq_true, hl, hr, Scope.Holds]
  | @not expr clause level child _ ih =>
    obtain ⟨hjoin, hclean⟩ := not_or.mp hclean
    have hc := (ih hclean hgood).resolve_right fun h => hjoin (h.2 (Nat.succ_ne_zero level))
    obtain ⟨stmt, hstmt, hmeaning⟩ := hc.statement
    refine .inl ⟨hc.clause, .makeNot stmt, by simp [StatementPtr.statement?, hstmt], fun row => ?_⟩
    rw [Statement.evalRecord, Scope.Holds, ← hmeaning row, Bool.not_eq_true', Bool.not_eq_true]

end Trees

section Negations

variable {scope : Scope} {clause : Clause} {p : Parsed} {expr : Expr} {level : Nat}

/-- A filter, or what is left, cannot be evaluated. -/
def Parsed.Broken (p : Parsed) : Prop :=
  p.clause.filters.Broken ∨ p.statement ≠ .null ∧ p.statement.statement? = none

theorem parseCompare_null {opType : CompareOp} {left : Operand} {name : String}
    {table : Option String}
    (h : scope.parseCompare opType left (.columnRef name table) clause = .ok p) :
    p.clause.filters = clause.filters ∧ p.statement = .null := by
  obtain ⟨a, -, h⟩ := bind_eq_ok.mp h
  obtain ⟨b, -, h⟩ := bind_eq_ok.mp h
  split at h
  · cases h
  · obtain ⟨i, -, h⟩ := bind_eq_ok.mp h
    obtain ⟨j, -, h⟩ := bind_eq_ok.mp h
    obtain ⟨d, -, h⟩ := bind_eq_ok.mp h
    cases h
    exact ⟨rfl, rfl⟩

/-- What cannot be evaluated stays so. -/
structure Parsed.Keeps (p : Parsed) (clause : Clause) (expr : Expr) : Prop where
  filters : clause.filters.Broken → p.clause.filters.Broken
  negates : expr.NegatesJoin → p.Broken
  join : expr.IsJoin → p.statement = .null

theorem keeps_of_filters (h : p.clause.filters = clause.filters) (hnegates : ¬ expr.NegatesJoin)
    (hjoin : expr.IsJoin → p.statement = .null) : p.Keeps clause expr :=
  ⟨fun hbroken => by rwa [h], fun hnegated => absurd hnegated hnegates, hjoin⟩

theorem Parsed.Pushes.keeps (h : p.Pushes scope (fun _ => none) clause expr)
    (hnegates : ¬ expr.NegatesJoin) (hjoin : ¬ expr.IsJoin) : p.Keeps clause expr :=
  keeps_of_filters (by rw [h.clause]) hnegates fun h => absurd h hjoin

/-- Broken filters or a broken child break what two children are combined to. -/
theorem broken_of_combine {make : StatementPtr → StatementPtr → StatementPtr} {left right : Parsed}
    (h : Scope.combine make left right = .ok p) (hmake : ∀ l r, make l r ≠ .null ∧
      ((make l r).statement? = none ↔ l.statement? = none ∨ r.statement? = none))
    (hkeeps : left.clause.filters.Broken → right.clause.filters.Broken) :
    (left.clause.filters.Broken → p.clause.filters.Broken) ∧
      (left.Broken ∨ right.Broken → p.Broken) := by
  obtain ⟨-, -, -, rfl⟩ := combine_eq_ok.mp h
  obtain ⟨hne, hnone⟩ := hmake left.statement right.statement
  refine ⟨hkeeps, ?_⟩
  rintro ((hfilters | ⟨-, hleft⟩) | (hfilters | ⟨-, hright⟩))
  · exact .inl (hkeeps hfilters)
  · exact .inr ⟨hne, hnone.mpr (.inl hleft)⟩
  · exact .inl hfilters
  · exact .inr ⟨hne, hnone.mpr (.inr hright)⟩

theorem Parses.keeps (h : Parses scope expr clause level p) : p.Keeps clause expr := by
  induction h with
  | filter hpushes hnegates hjoin => exact (hpushes fun _ => none).keeps hnegates hjoin
  | join h =>
    obtain ⟨hfilters, hnull⟩ := parseCompare_null h
    exact keeps_of_filters hfilters id fun _ => hnull
  | @top expr expr2 clause left right _ _ hl hr =>
    have hinsert : right.clause.filters.Broken ∨ left.Broken ∨ right.Broken →
        Filters.Broken (Scope.insertChild right (Scope.insertChild left right.clause.filters)) := by
      rw [broken_insertChild, broken_insertChild]
      rintro (hbroken | (hbroken | hbroken) | (hbroken | hbroken))
      · exact .inl (.inl hbroken)
      · exact .inl (.inl (hr.filters hbroken))
      · exact .inl (.inr hbroken)
      · exact .inl (.inl hbroken)
      · exact .inr hbroken
    refine ⟨fun hbroken => hinsert (.inl (hr.filters (hl.filters hbroken))), fun hnegated => ?_, nofun⟩
    exact .inl (hinsert (.inr (hnegated.imp hl.negates hr.negates)))
  | both _ _ hboth hl hr =>
    obtain ⟨hfilters, hbroken⟩ := broken_of_combine hboth
      (fun _ _ => ⟨nofun, StatementPtr.makeAnd_broken⟩) hr.filters
    exact ⟨fun h => hfilters (hl.filters h), fun h => hbroken (h.imp hl.negates hr.negates), nofun⟩
  | either _ _ heither hl hr =>
    obtain ⟨hfilters, hbroken⟩ := broken_of_combine heither
      (fun _ _ => ⟨nofun, StatementPtr.makeOr_broken⟩) hr.filters
    exact ⟨fun h => hfilters (hl.filters h), fun h => hbroken (h.imp hl.negates hr.negates), nofun⟩
  | not _ hc =>
    refine ⟨hc.filters, ?_, nofun⟩
    rintro (hjoin | hnegated)
    · exact .inr ⟨nofun, StatementPtr.makeNot_broken.mpr (by rw [hc.join hjoin]; rfl)⟩
    · rcases hc.negates hnegated with hbroken | ⟨-, hbroken⟩
      · exact .inl hbroken
      · exact .inr ⟨nofun, StatementPtr.makeNot_broken.mpr hbroken⟩

end Negations

section Throws

variable {α β : Type} {scope : Scope} {clause : Clause}

/-- A function that does not return throws. -/
def Throws (x : Result α) : Prop := ∀ fault, x = .error fault → ∃ what, fault = .runtimeError what

theorem throws_ok (a : α) : Throws (.ok a) := nofun

theorem throws_error (what : String) : Throws (.error (.runtimeError what) : Result α) := by
  rintro fault h
  cases h
  exact ⟨what, rfl⟩

theorem Throws.bind {x : Result α} {f : α → Result β} (hx : Throws x)
    (hf : ∀ a, x = .ok a → Throws (f a)) : Throws (x >>= f) := by
  cases x with
  | error fault =>
    intro fault' h
    cases h
    exact hx fault rfl
  | ok a => exact hf a rfl

theorem throws_literalOf (o : Operand) : Throws (Scope.literalOf o) := by
  cases o with
  | literalInt ival => exact throws_ok _
  | literalString name => exact throws_ok _
  | columnRef name table => exact throws_error _
  | other type => exact throws_error _

theorem throws_tableOfName (table : String) : Throws (scope.tableOfName table) := by
  unfold Scope.tableOfName
  split
  · exact throws_ok _
  · split
    · split
      · exact throws_ok _
      · exact throws_error _
    · exact throws_error _

theorem throws_tableOfColumn (column : String) : Throws (scope.tableOfColumn column) := by
  unfold Scope.tableOfColumn
  split
  · exact throws_error _
  · split
    · split
      · exact throws_ok _
      · exact throws_error _
    · exact throws_ok _
  · exact throws_error _

theorem throws_extractColumnAndTable (column : String) (table : Option String) :
    Throws (scope.extractColumnAndTable column table) := by
  cases table with
  | some table => exact (throws_tableOfName table).bind fun _ _ => throws_ok _
  | none => exact (throws_tableOfColumn column).bind fun _ _ => throws_ok _

theorem throws_leftColumn (o : Operand) : Throws (scope.leftColumn o) := by
  cases o with
  | columnRef column table => exact throws_extractColumnAndTable column table
  | literalInt ival => exact throws_error _
  | literalString name => exact throws_error _
  | other type => exact throws_error _

theorem throws_columnIdx (column : String) (entity : TableEntity) :
    Throws (scope.columnIdx column entity) := by
  unfold Scope.columnIdx
  split
  · split
    · exact throws_ok _
    · exact throws_error _
  · exact throws_error _

theorem throws_columnNumber (column : String) (entity : TableEntity) :
    Throws (scope.columnNumber column entity) := by
  unfold Scope.columnNumber
  split
  · split
    · exact throws_ok _
    · exact throws_error _
  · exact throws_error _

theorem throws_columnFilter (column : String × TableEntity) (make : Nat → StatementPtr) :
    Throws (scope.columnFilter clause column make) :=
  (throws_columnIdx _ _).bind fun _ _ => throws_ok _

theorem throws_parseCompare (hnumbered : scope.names.Numbered) (hgood : clause.Good scope)
    (opType : CompareOp) (left right : Operand) :
    Throws (scope.parseCompare opType left right clause) := by
  refine (throws_leftColumn left).bind fun a _ => ?_
  cases right with
  | literalInt ival => exact (throws_literalOf _).bind fun _ _ => throws_columnFilter _ _
  | literalString name => exact (throws_literalOf _).bind fun _ _ => throws_columnFilter _ _
  | other type => exact (throws_literalOf _).bind fun _ _ => throws_columnFilter _ _
  | columnRef name table =>
    refine (throws_extractColumnAndTable name table).bind fun b _ => ?_
    split
    · exact throws_error _
    · refine (throws_columnNumber _ _).bind fun i hi => (throws_columnNumber _ _).bind fun j hj => ?_
      obtain ⟨hilt, -⟩ := columnNumber_cell hnumbered hi fun _ => []
      obtain ⟨hjlt, -⟩ := columnNumber_cell hnumbered hj fun _ => []
      obtain ⟨d, hunite, -⟩ := DSU.unite_spec hgood.forest
        (x := i) (y := j) (by rw [hgood.size]; exact hilt) (by rw [hgood.size]; exact hjlt)
      rw [hunite]
      exact throws_ok _

theorem throws_parseLike (op : Op) (left right : Operand) :
    Throws (scope.parseLike op left right clause) := by
  refine (throws_leftColumn left).bind fun _ _ => ?_
  cases right with
  | literalString name => exact throws_columnFilter _ _
  | columnRef name table => exact throws_error _
  | literalInt ival => exact throws_error _
  | other type => exact throws_error _

theorem throws_parseItems (left : String × TableEntity) (stmt : StatementPtr) (items : List Operand) :
    Throws (scope.parseItems left stmt items) := by
  unfold Scope.parseItems
  induction items generalizing stmt with
  | nil => exact throws_ok _
  | cons item items ih =>
    rw [List.foldlM_cons]
    refine ((throws_literalOf item).bind fun _ _ => ?_).bind fun stmt' _ => ih stmt'
    exact (throws_columnIdx _ _).bind fun _ _ => throws_ok _

theorem throws_combine (make : StatementPtr → StatementPtr → StatementPtr) (left right : Parsed) :
    Throws (Scope.combine make left right) := by
  unfold Scope.combine
  split
  · exact throws_error _
  · split
    · exact throws_error _
    · exact throws_ok _

theorem throws_parseExprImpl (hnumbered : scope.names.Numbered) {expr : Expr}
    (hclean : ¬ expr.NegatesJoin) (hgood : clause.Good scope) (level : Nat) :
    Throws (scope.parseExprImpl expr clause level) := by
  have hsound : ∀ {expr : Expr} {clause : Clause} {p : Parsed} {level : Nat}, ¬ expr.NegatesJoin →
      clause.Good scope → scope.parseExprImpl expr clause level = .ok p → p.clause.Good scope := by
    intro expr clause p level hclean hgood h
    have hp : p.Sound scope (fun _ => none) clause expr level :=
      (parses_of_parseExprImpl h).sound hnumbered hclean hgood
    exact Parsed.good (hp.imp_right And.left) hgood
  induction expr generalizing clause level with
  | opAnd expr expr2 ih ih2 =>
    obtain ⟨hclean, hclean2⟩ := not_or.mp hclean
    refine (ih hclean hgood _).bind fun left hleft => ?_
    refine (ih2 hclean2 (hsound hclean hgood hleft) _).bind fun right _ => ?_
    split
    · exact throws_ok _
    · exact throws_combine _ _ _
  | opOr expr expr2 ih ih2 =>
    obtain ⟨hclean, hclean2⟩ := not_or.mp hclean
    refine (ih hclean hgood _).bind fun left hleft => ?_
    refine (ih2 hclean2 (hsound hclean hgood hleft) _).bind fun right _ => ?_
    exact throws_combine _ _ _
  | opNot expr ih => exact (ih (not_or.mp hclean).2 hgood _).bind fun _ _ => throws_ok _
  | compare opType expr expr2 => exact throws_parseCompare hnumbered hgood opType expr expr2
  | opLike expr expr2 => exact throws_parseLike _ _ _
  | opNotLike expr expr2 => exact throws_parseLike _ _ _
  | opBetween expr lower upper =>
    refine (throws_leftColumn _).bind fun _ _ => (throws_literalOf _).bind fun _ _ => ?_
    exact (throws_literalOf _).bind fun _ _ => throws_columnFilter _ _
  | opIn expr item items =>
    refine (throws_leftColumn _).bind fun _ _ => (throws_literalOf _).bind fun _ _ => ?_
    refine (throws_columnIdx _ _).bind fun _ _ => (throws_parseItems _ _ _).bind fun _ _ => ?_
    exact throws_ok _
  | opIsNull expr => exact (throws_leftColumn _).bind fun _ _ => throws_columnFilter _ _
  | operator opType => exact throws_error _
  | operand o => exact throws_error _

end Throws

section Clauses

theorem good_clause (scope : Scope) : scope.clause.Good scope :=
  ⟨DSU.forest_new _, by simp [Scope.clause, DSU.new], by simp [Scope.clause, Filters.Broken]⟩

theorem satisfied_clause (scope : Scope) (re2 : RE2) (row : Assignment) :
    scope.clause.Satisfied scope re2 row := by
  rw [(good_clause scope).satisfied_iff]
  exact ⟨nofun, DSU.respects_new _ _⟩

theorem not_broken_iff {filters : Filters} :
    ¬ filters.Broken ↔ ∀ f ∈ filters, ∃ stmt, f.2.statement? = some stmt := by
  unfold Filters.Broken
  simp only [not_exists, not_and, Option.ne_none_iff_exists']

/-- A clause that `parse_expr` returns says what the WHERE clause says exactly if no `NOT` stands before a
comparison of two columns; a WHERE clause without such a `NOT` that no clause says is refused. -/
theorem parseExpr_expresses_iff {schema : Schema} {list : Option (List TableRef)} {names : Names}
    (hnames : Names.ofFrom schema list = .ok names) (unset : Int) (re2 : RE2) (expr : Expr) :
    (∀ clause, Scope.parseExpr ⟨schema, names, unset⟩ expr (Scope.clause ⟨schema, names, unset⟩) =
        .ok clause → (clause.Expresses ⟨schema, names, unset⟩ re2 expr ↔ ¬ expr.NegatesJoin)) ∧
      (¬ expr.NegatesJoin → (∀ clause : Clause, ¬ clause.Expresses ⟨schema, names, unset⟩ re2 expr) →
        ∃ what, Scope.parseExpr ⟨schema, names, unset⟩ expr (Scope.clause ⟨schema, names, unset⟩) =
          .error (.runtimeError what)) := by
  let scope : Scope := ⟨schema, names, unset⟩
  have hnumbered : scope.names.Numbered := Names.numbered_ofFrom hnames
  have hreturns : ∀ clause, scope.parseExpr expr scope.clause = .ok clause →
      (clause.Expresses scope re2 expr ↔ ¬ expr.NegatesJoin) := by
    intro clause h
    obtain ⟨top, htop, h⟩ := bind_eq_ok.mp h
    cases h
    by_cases hnegates : expr.NegatesJoin
    · refine iff_of_false (fun hexpresses => ?_) (not_not.mpr hnegates)
      apply not_broken_iff.mpr hexpresses.filters
      exact (broken_insertChild _).mpr ((parses_of_parseExprImpl htop).keeps.negates hnegates)
    · have hsound : top.Sound scope re2 scope.clause expr 0 :=
        (parses_of_parseExprImpl htop).sound hnumbered hnegates (good_clause scope)
      have hp := hsound.imp_right And.left
      refine iff_of_true ⟨not_broken_iff.mp ?_, fun row => ?_⟩ hnegates
      · rw [broken_insertChild]
        rintro (hbroken | hbroken)
        · exact (Parsed.good hp (good_clause scope)).filters hbroken
        · exact Parsed.not_broken hp hbroken
      · rw [satisfied_insertChild, Parsed.means_iff hp row]
        exact (and_iff_right (satisfied_clause scope re2 row)).symm
  refine ⟨hreturns, fun hclean hnone => ?_⟩
  cases hparse : scope.parseExpr expr scope.clause with
  | ok clause => exact absurd ((hreturns clause hparse).mpr hclean) (hnone clause)
  | error fault =>
    have hthrows : Throws (scope.parseExpr expr scope.clause) :=
      (throws_parseExprImpl hnumbered hclean (good_clause scope) 0).bind fun _ _ => throws_ok _
    obtain ⟨what, rfl⟩ := hthrows fault hparse
    exact ⟨what, rfl⟩

/-- Two tables with one column each. -/
def twoTables : Schema := [("t", [⟨.INT32, "x"⟩]), ("u", [⟨.INT32, "y"⟩])]

/-- What `FROM t, u` makes of them. -/
def twoNames : Names :=
  ⟨[("t", 1), ("u", 1)], [], [(⟨"t", 0⟩, [("x", 0)]), (⟨"u", 0⟩, [("y", 1)])],
    [(⟨"t", 0⟩, "x"), (⟨"u", 0⟩, "y")]⟩

theorem ofFrom_twoTables :
    Names.ofFrom twoTables (some [.tableName "t" none, .tableName "u" none]) = .ok twoNames := by
  rfl

/-- `t.x = u.y`. -/
def xEqualsY : Expr := .compare .opEquals (.columnRef "x" (some "t")) (.columnRef "y" (some "u"))

theorem parseExpr_expresses_iff_xEqualsY :
    ∃ clause, Scope.parseExpr ⟨twoTables, twoNames, 0⟩ xEqualsY (Scope.clause ⟨twoTables, twoNames, 0⟩) =
      .ok clause ∧ clause.Expresses ⟨twoTables, twoNames, 0⟩ (fun _ => none) xEqualsY := by
  refine ⟨⟨[], ⟨[1, 1]⟩⟩, rfl, ?_⟩
  refine ((parseExpr_expresses_iff ofFrom_twoTables 0 _ xEqualsY).1 _ rfl).mpr ?_
  exact id

/-- `NOT t.x = u.y` is parsed to a class of both columns and a filter without operand: it does not say what
the clause says, nor does it let rows of different values through. -/
theorem parseExpr_negated_join :
    ∃ clause, Scope.parseExpr ⟨twoTables, twoNames, 0⟩ (.opNot xEqualsY)
        (Scope.clause ⟨twoTables, twoNames, 0⟩) = .ok clause ∧
      clause.joinUnion.SameClass 0 1 ∧ (∃ f ∈ clause.filters, f.2.statement? = none) ∧
      ¬ clause.Expresses ⟨twoTables, twoNames, 0⟩ (fun _ => none) (.opNot xEqualsY) := by
  refine ⟨⟨[(⟨"", 0⟩, .makeNot .null)], ⟨[1, 1]⟩⟩, rfl, ⟨1, _, _, rfl, rfl⟩,
    ⟨_, List.mem_singleton_self _, rfl⟩, fun h => ?_⟩
  obtain ⟨stmt, hstmt⟩ := h.filters _ (List.mem_singleton_self _)
  cases hstmt

end Clauses

end JoinOptimizer
