import JoinOptimizer.Sql.Truth
import JoinOptimizer.Sql.Enforced
import JoinOptimizer.Csv.Calls

/-! The rows that the filters of a query select from its tables, and that they are the rows for which the
filters are true in SQL. -/

namespace JoinOptimizer

open Lib

namespace Statement

/-- Whether a filter matches columns is a matter of their types. -/
theorem matches_congr {table table' : List InnerColumnBase}
    (h : table.map InnerColumnBase.type = table'.map InnerColumnBase.type) {stmt : Statement}
    (hmatches : stmt.Matches table) : stmt.Matches table' := by
  induction stmt with
  | comparison c =>
    obtain ⟨base, hbase, hc⟩ := hmatches
    have hget : (table'.map InnerColumnBase.type)[c.column]? = some base.type := by
      rw [← h, List.getElem?_map, hbase]
      rfl
    rw [List.getElem?_map, Option.map_eq_some_iff] at hget
    obtain ⟨base', hbase', htype⟩ := hget
    refine ⟨base', hbase', ?_⟩
    cases base <;> cases base' <;> first | exact hc | cases htype
  | makeAnd l r ihl ihr | makeOr l r ihl ihr => exact ⟨ihl hmatches.1, ihr hmatches.2⟩
  | makeNot child ih => exact ih hmatches

/-- A filter that decides on a record as SQL does selects it if it is true of it. -/
theorem selects_eq_truth {re2 : RE2} (hre2 : RE2.Documented re2) {types : List DataType}
    (htypes : ∀ type ∈ types, type = .INT32 ∨ type = .VARCHAR) {stmt : Statement}
    (hmatches : stmt.Matches (types.map .ofType)) {record : List Data}
    (hrecord : List.Forall₂ Data.HasType record types) (hdecides : stmt.DecidesAsSql re2 record) :
    stmt.selects re2 record = decide (stmt.truth record = .true) := by
  have hwell : (Table.mk [record] types).WellTyped := by
    intro r hr
    rw [List.mem_singleton.mp hr]
    exact hrecord
  have hcolumns : (types.map InnerColumnBase.ofType).map InnerColumnBase.type =
      (columnsOf types [record]).map InnerColumnBase.type := by
    refine List.ext_getElem (by simp) fun j hj hj' => ?_
    have hlt : j < types.length := by simpa using hj
    rw [List.getElem_map, List.getElem_map, List.getElem_map, getElem_columnsOf (by simpa using hlt) hlt,
      InnerColumnBase.type_ofCells]
    exact InnerColumnBase.type_ofCells _ []
  have hiff := (matches_congr hcolumns hmatches).selects_iff_truth hre2 0
  rw [recordAt_columnsOf htypes hwell (Nat.zero_lt_one)] at hiff
  rw [Bool.eq_iff_iff, decide_eq_true_eq]
  exact hiff.mpr hdecides

end Statement

namespace Pipeline

variable (pipeline : Pipeline)

/-- The filter of a table. -/
def filterOf (entity : TableEntity) : Option Statement :=
  (pipeline.parsed.filters.lookup entity).bind (·.statement?)

/-- The scanned tables have columns, all of type INT32 or VARCHAR, and their filters compare these with values
of their types. -/
def Filterable (op : Operator) : Prop :=
  ∀ entity ∈ pipeline.tables op, ∃ attributes,
    pipeline.parsed.scope.schema.lookup entity.table = some attributes ∧ attributes ≠ [] ∧
      (∀ attr ∈ attributes, attr.type = .INT32 ∨ attr.type = .VARCHAR) ∧
      ∀ stmt, pipeline.filterOf entity = some stmt →
        stmt.Matches (attributes.map fun attr => .ofType attr.type)

/-- The tables have the columns of the schema. -/
def TypedBase (base : String → Table) (op : Operator) : Prop :=
  ∀ entity ∈ pipeline.tables op, ∀ attributes,
    pipeline.parsed.scope.schema.lookup entity.table = some attributes →
      (base entity.table).WellTyped ∧ (base entity.table).types = attributes.map Attribute.type

/-- The filters decide on the rows of their tables as SQL does. -/
def DecidesAsSql (re2 : RE2) (base : String → Table) (op : Operator) : Prop :=
  ∀ entity ∈ pipeline.tables op, ∀ stmt, pipeline.filterOf entity = some stmt →
    ∀ record ∈ (base entity.table).data, stmt.DecidesAsSql re2 record

/-- The cache files of the scans hold the rows of their tables that the filters select. -/
def Filtered (re2 : RE2) (base : String → Table) (contents : CacheFile → Table) (op : Operator) : Prop :=
  ∀ entity ∈ pipeline.tables op, ∀ file, pipeline.cacheFile entity = .ok file →
    (contents file).data = ((base entity.table).selectedBy re2 (pipeline.filterOf entity)).data

/-- The filter of a table is true of a row, or the table has none. -/
def asks (entity : TableEntity) (record : List Data) : Bool :=
  match pipeline.parsed.filters.lookup entity with
  | none => true
  | some p =>
    match p.statement? with
    | some stmt => stmt.truth record = .true
    | none => false

/-- The cache files of the scans hold the rows of their tables for which the filters are true. -/
def Asked (base : String → Table) (contents : CacheFile → Table) (op : Operator) : Prop :=
  ∀ entity ∈ pipeline.tables op, ∀ file, pipeline.cacheFile entity = .ok file →
    (contents file).data = (base entity.table).data.filter (pipeline.asks entity)

variable {pipeline}

/-- The filter of a table whose file has a name is a statement. -/
theorem asks_of_cacheFile {entity : TableEntity} {file : CacheFile}
    (h : pipeline.cacheFile entity = .ok file) (record : List Data) : pipeline.asks entity record =
      match pipeline.filterOf entity with
      | none => true
      | some stmt => stmt.truth record = .true := by
  unfold asks filterOf
  unfold cacheFile at h
  cases hfilter : pipeline.parsed.filters.lookup entity with
  | none => rfl
  | some p =>
    rw [hfilter] at h
    dsimp only at h
    cases hstmt : p.statement? with
    | none =>
      rw [hstmt] at h
      cases h
    | some stmt => simp [hstmt]

/-- Filters that decide as SQL does select the rows for which they are true. -/
theorem Filtered.asked {re2 : RE2} (hre2 : RE2.Documented re2) {base : String → Table}
    {contents : CacheFile → Table} {op : Operator} (hfilterable : pipeline.Filterable op)
    (hbase : pipeline.TypedBase base op) (hdecides : pipeline.DecidesAsSql re2 base op)
    (h : pipeline.Filtered re2 base contents op) : pipeline.Asked base contents op := by
  intro entity hentity file hfile
  rw [h entity hentity file hfile, funext (asks_of_cacheFile hfile)]
  unfold Table.selectedBy
  cases hstmt : pipeline.filterOf entity with
  | none => simp
  | some stmt =>
    obtain ⟨attributes, hattributes, -, htypes, hmatches⟩ := hfilterable entity hentity
    obtain ⟨hwell, hbaseTypes⟩ := hbase entity hentity attributes hattributes
    refine List.filter_congr fun record hrecord => ?_
    refine @Statement.selects_eq_truth _ hre2 (attributes.map Attribute.type) ?_ stmt ?_ record ?_
      (hdecides entity hentity stmt hstmt record hrecord)
    · intro type htype
      obtain ⟨attr, hattr, rfl⟩ := List.mem_map.mp htype
      exact htypes attr hattr
    · rw [List.map_map]
      exact hmatches stmt hstmt
    · rw [← hbaseTypes]
      exact hwell record hrecord

end Pipeline

end JoinOptimizer
