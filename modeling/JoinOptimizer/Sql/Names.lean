import JoinOptimizer.Sql.DSU

/-! The tables of a query and the names of their columns in `tests/read_sql.cpp`: the FROM list of
`parse_sql` with the maps that it fills, `extract_column_and_table` and `column_idx`. -/

namespace JoinOptimizer

open Lib

structure Attribute where
  type : DataType
  name : String
  deriving DecidableEq

structure TableEntity where
  table : String
  id : Int
  deriving DecidableEq

/-- What the formatter makes of an entity. -/
def TableEntity.format (e : TableEntity) : String := "(" ++ e.table ++ ", " ++ toString e.id ++ ")"

/-- `attributes_map`. -/
abbrev Schema := List (String × List Attribute)

/-- `column_to_tables`: the tables that have the column. -/
def columnToTables (schema : Schema) (column : String) : List String :=
  schema.flatMap fun t => t.2.filterMap fun attr => if attr.name = column then some t.1 else none

section Maps

variable {κ ν : Type} [DecidableEq κ]

/-- `emplace` of an `unordered_map`. -/
def emplace (m : List (κ × ν)) (k : κ) (v : ν) : List (κ × ν) :=
  if (m.lookup k).isSome then m else m ++ [(k, v)]

theorem lookup_emplace (m : List (κ × ν)) (k k' : κ) (v : ν) :
    (emplace m k v).lookup k' = (m.lookup k').or (if k' = k then some v else none) := by
  unfold emplace
  split
  · next h =>
    obtain ⟨w, hw⟩ := Option.isSome_iff_exists.mp h
    split
    · next heq => rw [heq, hw, Option.some_or]
    · rw [Option.or_none]
  · rw [List.lookup_append]
    congr 1
    by_cases heq : k' = k
    · simp [heq]
    · simp [List.lookup_cons, beq_false_of_ne heq, heq]

end Maps

/-- A table of the FROM list: a name with or without an alias, or something else. -/
inductive TableRef
  | tableName (name : String) (tableAlias : Option String)
  | other

/-- The maps that `parse_sql` fills from the FROM list.  The variable `column_count` is the length
of `column_vec`. -/
structure Names where
  tableCounts : List (String × Nat)
  aliasMap : List (String × TableEntity)
  columnMap : List (TableEntity × List (String × Nat))
  columnVec : List (TableEntity × String)

namespace Names

def empty : Names := ⟨[], [], [], []⟩

/-- `table_counts.emplace(name, 1)`, or `++` of the count. -/
def countTable (counts : List (String × Nat)) (name : String) : Nat × List (String × Nat) :=
  match counts.lookup name with
  | none => (1, emplace counts name 1)
  | some n => (n + 1, counts.map fun c => if c.1 = name then (c.1, n + 1) else c)

/-- The loop over the attributes of a table: its columns are numbered from `count` on. -/
def numberColumns (count : Nat) (attributes : List Attribute) : List (String × Nat) :=
  (attributes.zipIdx count).foldl (fun m attr => emplace m attr.1.name attr.2) []

/-- The body of the loop over the FROM list. -/
def addTable (schema : Schema) (names : Names) : TableRef → Result Names
  | .other => .error (.runtimeError "SQL not supported")
  | .tableName name tableAlias => do
    let (count, tableCounts) := countTable names.tableCounts name
    let entity : TableEntity := ⟨name, count - 1⟩
    match schema.lookup entity.table with
    | none => .error (.runtimeError ("No table: " ++ entity.table ++ " in schema"))
    | some attributes =>
      .ok { tableCounts := tableCounts
            aliasMap := match tableAlias with
              | some tableAlias => emplace names.aliasMap tableAlias entity
              | none => names.aliasMap
            columnMap := emplace names.columnMap entity
              (numberColumns names.columnVec.length attributes)
            columnVec := names.columnVec ++ attributes.map fun attr => (entity, attr.name) }

/-- The FROM list of a query; a FROM clause of another kind has none. -/
def ofFrom (schema : Schema) : Option (List TableRef) → Result Names
  | none => .error (.runtimeError "SQL not supported")
  | some list => list.foldlM (addTable schema) empty

end Names

/-- An expression as far as the loops read one that is no operator: the names of a column, a
literal, or the name of another type of expression. -/
inductive Operand
  | columnRef (name : String) (table : Option String)
  | literalInt (ival : Int64)
  | literalString (name : Bytes)
  | other (type : String)
  deriving DecidableEq

/-- What `parse_expr` gets of a query besides the clause.  An entity that nothing has set has
`unset` for its number. -/
structure Scope where
  schema : Schema
  names : Names
  unset : Int

namespace Scope

/-- An entity that nothing has set. -/
def noEntity (scope : Scope) : TableEntity := ⟨"", scope.unset⟩

/-- `extract_column_and_table` for a column without table: the only table that has it, if that table
is once in the FROM list. -/
def tableOfColumn (scope : Scope) (column : String) : Result TableEntity :=
  match columnToTables scope.schema column with
  | [] => .error (.runtimeError ("No such column: " ++ column))
  | [table] =>
    match scope.names.tableCounts.lookup table with
    | some count =>
      if count = 1 then .ok ⟨table, 0⟩
      else .error (.runtimeError ("Ambiguous table: " ++ table))
    | none => .ok scope.noEntity
  | tables => .error (.runtimeError ("Ambiguous column: " ++ column ++ ", " ++
      String.intercalate ", " tables ++ " have " ++ column))

/-- `extract_column_and_table` for a column with a table or an alias. -/
def tableOfName (scope : Scope) (table : String) : Result TableEntity :=
  match scope.names.aliasMap.lookup table with
  | some entity => .ok entity
  | none =>
    match scope.names.tableCounts.lookup table with
    | some count =>
      if count = 1 then .ok ⟨table, 0⟩
      else .error (.runtimeError ("Ambiguous table: " ++ table))
    | none => .error (.runtimeError ("Unknown table name: " ++ table))

/-- `extract_column_and_table`. -/
def extractColumnAndTable (scope : Scope) (column : String) (table : Option String) :
    Result (String × TableEntity) := do
  let entity ← match table with
    | some table => scope.tableOfName table
    | none => scope.tableOfColumn column
  .ok (column, entity)

/-- `assert_column` and `extract_column_and_table`. -/
def leftColumn (scope : Scope) : Operand → Result (String × TableEntity)
  | .columnRef column table => scope.extractColumnAndTable column table
  | _ => .error (.runtimeError "left side of \"Equals\" condition must be a ColumnRef")

/-- `column_idx`. -/
def columnIdx (scope : Scope) (column : String) (entity : TableEntity) : Result Nat :=
  match scope.schema.lookup entity.table with
  | some attributes =>
    match attributes.findIdx? fun attr => attr.name = column with
    | some idx => .ok idx
    | none => .error (.runtimeError
        ("Cannot find column " ++ column ++ " in table " ++ entity.table))
  | none => .error (.runtimeError ("Cannot find table " ++ entity.table))

/-- The number of a column in `column_map`. -/
def columnNumber (scope : Scope) (column : String) (entity : TableEntity) : Result Nat :=
  match scope.names.columnMap.lookup entity with
  | some columns =>
    match columns.lookup column with
    | some i => .ok i
    | none => .error (.runtimeError ("No column: " ++ column ++ " in table: " ++ entity.format))
  | none => .error (.runtimeError ("No  table: " ++ entity.format))

end Scope

namespace Names

/-- The numbers of `column_map` are places of `column_vec`. -/
def Numbered (names : Names) : Prop :=
  ∀ entity columns column i, names.columnMap.lookup entity = some columns →
    columns.lookup column = some i → names.columnVec[i]? = some (entity, column)

theorem lookup_numberColumns {count : Nat} {attributes : List Attribute} {column : String} {i : Nat}
    (h : (numberColumns count attributes).lookup column = some i) :
    count ≤ i ∧ (attributes.map Attribute.name)[i - count]? = some column := by
  unfold numberColumns at h
  have hfold : ∀ (attrs : List (Attribute × Nat)) (m : List (String × Nat)),
      (attrs.foldl (fun m attr => emplace m attr.1.name attr.2) m).lookup column = some i →
      m.lookup column = some i ∨ ∃ attr ∈ attrs, attr.1.name = column ∧ attr.2 = i := by
    intro attrs
    induction attrs with
    | nil => exact fun m h => .inl h
    | cons attr attrs ih =>
      intro m h
      rcases ih _ h with h | ⟨attr', hmem, hattr⟩
      · rw [lookup_emplace, Option.or_eq_some_iff] at h
        rcases h with h | ⟨-, h⟩
        · exact .inl h
        · split at h
          · next heq => exact .inr ⟨attr, by simp, heq.symm, Option.some.inj h⟩
          · cases h
      · exact .inr ⟨attr', by simp [hmem], hattr⟩
  rcases hfold _ _ h with h | ⟨⟨attr, j⟩, hmem, hname, hidx⟩
  · cases h
  · obtain rfl : j = i := hidx
    obtain ⟨hle, hlt, hattr⟩ := List.mem_zipIdx hmem
    refine ⟨hle, ?_⟩
    rw [List.getElem?_map, List.getElem?_eq_getElem (by omega), ← hattr]
    exact congrArg some hname

/-- What the body of the loop can make of `column_map` and `column_vec`: it numbers the columns of
one more table behind those numbered before. -/
theorem addTable_cases {schema : Schema} {names names' : Names} {ref : TableRef}
    (hadd : addTable schema names ref = .ok names') :
    ∃ (added : TableEntity) (attributes : List Attribute),
      schema.lookup added.table = some attributes ∧
      names'.columnVec = names.columnVec ++ attributes.map (fun attr => (added, attr.name)) ∧
      ∀ entity columns, names'.columnMap.lookup entity = some columns →
        names.columnMap.lookup entity = some columns ∨
          entity = added ∧ columns = numberColumns names.columnVec.length attributes := by
  cases ref with
  | other => cases hadd
  | tableName name tableAlias =>
    simp only [addTable] at hadd
    split at hadd
    · cases hadd
    · next attributes hattributes =>
      cases hadd
      refine ⟨_, attributes, hattributes, rfl, fun entity columns hcolumns => ?_⟩
      dsimp only at hcolumns
      rw [lookup_emplace, Option.or_eq_some_iff] at hcolumns
      rcases hcolumns with hcolumns | ⟨-, hcolumns⟩
      · exact .inl hcolumns
      · split at hcolumns
        · next heq => exact .inr ⟨heq, (Option.some.inj hcolumns).symm⟩
        · cases hcolumns

/-- What the empty maps satisfy and each table of a FROM list keeps. -/
theorem ofFrom_invariant {P : Names → Prop} {schema : Schema} {list : Option (List TableRef)}
    {names : Names} (hempty : P empty)
    (hstep : ∀ names ref names', P names → addTable schema names ref = .ok names' → P names')
    (h : ofFrom schema list = .ok names) : P names := by
  cases list with
  | none => cases h
  | some list =>
    exact foldlM_invariant (P := fun _ names => P names) h hempty
      fun _ ref names names' _ hnames hadd => hstep names ref names' hnames hadd

theorem numbered_addTable {schema : Schema} {names names' : Names} (h : names.Numbered)
    {ref : TableRef} (hadd : addTable schema names ref = .ok names') : names'.Numbered := by
  obtain ⟨added, attributes, -, hvec, hcases⟩ := addTable_cases hadd
  intro entity columns column i hcolumns hi
  rw [hvec]
  rcases hcases entity columns hcolumns with hcolumns | ⟨rfl, rfl⟩
  · have hold := h entity columns column i hcolumns hi
    rw [List.getElem?_append_left (List.getElem?_eq_some_iff.mp hold).1]
    exact hold
  · obtain ⟨hle, hname⟩ := lookup_numberColumns hi
    rw [List.getElem?_append_right hle]
    rw [List.getElem?_map] at hname ⊢
    obtain ⟨attr, hattr, rfl⟩ := Option.map_eq_some_iff.mp hname
    rw [hattr]
    rfl

/-- The maps of a FROM list agree on the numbers of the columns. -/
theorem numbered_ofFrom {schema : Schema} {list : Option (List TableRef)} {names : Names}
    (h : ofFrom schema list = .ok names) : names.Numbered := by
  refine ofFrom_invariant ?_ (fun names ref names' hnames hadd => numbered_addTable hnames hadd) h
  intro entity columns column i hcolumns
  cases hcolumns

/-- The columns of `column_map` are columns of the schema. -/
def InSchema (schema : Schema) (names : Names) : Prop :=
  ∀ entity columns column i, names.columnMap.lookup entity = some columns →
    columns.lookup column = some i → ∃ attributes, schema.lookup entity.table = some attributes ∧
      ∃ attr ∈ attributes, attr.name = column

theorem inSchema_addTable {schema : Schema} {names names' : Names} (h : names.InSchema schema)
    {ref : TableRef} (hadd : addTable schema names ref = .ok names') : names'.InSchema schema := by
  obtain ⟨added, attributes, hattributes, -, hcases⟩ := addTable_cases hadd
  intro entity columns column i hcolumns hi
  rcases hcases entity columns hcolumns with hcolumns | ⟨rfl, rfl⟩
  · exact h entity columns column i hcolumns hi
  · obtain ⟨-, hname⟩ := lookup_numberColumns hi
    obtain ⟨attr, hattr, rfl⟩ := List.mem_map.mp (List.mem_of_getElem? hname)
    exact ⟨attributes, hattributes, attr, hattr, rfl⟩

theorem inSchema_ofFrom {schema : Schema} {list : Option (List TableRef)} {names : Names}
    (h : ofFrom schema list = .ok names) : names.InSchema schema := by
  refine ofFrom_invariant ?_ (fun names ref names' hnames hadd => inSchema_addTable hnames hadd) h
  intro entity columns column i hcolumns
  cases hcolumns

end Names

section Columns

variable {scope : Scope} {column : String} {entity : TableEntity}

theorem Scope.columnNumber_eq_ok {i : Nat} : scope.columnNumber column entity = .ok i ↔
    ∃ columns, scope.names.columnMap.lookup entity = some columns ∧ columns.lookup column = some i := by
  unfold Scope.columnNumber
  cases scope.names.columnMap.lookup entity with
  | none => exact ⟨nofun, nofun⟩
  | some columns =>
    dsimp only
    cases hlookup : columns.lookup column with
    | none => simp [hlookup]
    | some idx => simp [hlookup]

theorem Scope.columnIdx_eq_ok {k : Nat} : scope.columnIdx column entity = .ok k ↔
    ∃ attributes, scope.schema.lookup entity.table = some attributes ∧
      attributes.findIdx? (fun attr => attr.name = column) = some k := by
  unfold Scope.columnIdx
  cases scope.schema.lookup entity.table with
  | none => exact ⟨nofun, nofun⟩
  | some attributes =>
    dsimp only
    cases hidx : attributes.findIdx? fun attr => attr.name = column with
    | none => simp [hidx]
    | some idx => simp [hidx]

/-- A column with a number has an index. -/
theorem Scope.columnIdx_of_columnNumber (hschema : scope.names.InSchema scope.schema) {i : Nat}
    (h : scope.columnNumber column entity = .ok i) : ∃ k, scope.columnIdx column entity = .ok k := by
  obtain ⟨columns, hcolumns, hlookup⟩ := Scope.columnNumber_eq_ok.mp h
  obtain ⟨attributes, hattributes, attr, hattr, hname⟩ :=
    hschema entity columns column i hcolumns hlookup
  cases hidx : attributes.findIdx? fun attr => attr.name = column with
  | some k => exact ⟨k, Scope.columnIdx_eq_ok.mpr ⟨attributes, hattributes, hidx⟩⟩
  | none =>
    have hne := List.findIdx?_eq_none_iff.mp hidx attr hattr
    simp [hname] at hne

/-- The column with a number. -/
theorem Scope.column_of_columnNumber (hnumbered : scope.names.Numbered) {i : Nat}
    (h : scope.columnNumber column entity = .ok i) :
    scope.names.columnVec[i]? = some (entity, column) := by
  obtain ⟨columns, hcolumns, hlookup⟩ := Scope.columnNumber_eq_ok.mp h
  exact hnumbered entity columns column i hcolumns hlookup

end Columns

end JoinOptimizer
