import JoinOptimizer.Sql.Compare
import JoinOptimizer.Sql.Executed
import JoinOptimizer.Plan.Types

/-! `run` of `tests/read_sql.cpp`: a query from its text to the verdict on the result of its plan. -/

namespace JoinOptimizer

open Lib PlanTree

/-- `run` over the files of a cache, where `answers` are those of the results. -/
def ReadSql.run (schema : Schema) (unset : Int) (order : HashOrder) (statement : SelectStatement)
    (pipeline : Pipeline) (answers : String → Option ColumnarTable) (hashKey : Int32 → BitVec 64)
    (fresh : Nat → Nat → Page) (schedules : Nat → JoinSchedule) (fuel : Nat) (name : String)
    (node : PlanJson) : Result Bool := do
  let (parsed, _) ← parseSql schema unset order statement
  let plan ← { pipeline with parsed }.loadJoinPipeline node
  let results ← execute hashKey fresh plan schedules fuel
  let filename := "cache/" ++ name ++ ".tbl"
  match answers filename with
  | none => .error (.runtimeError ("Table file does not exist: " ++ filename))
  | some expected => compareWithcache expected results

/-- The verdict is that of the comparison on the result. -/
theorem run_eq_true_iff {schema : Schema} {unset : Int} {order : HashOrder} {statement : SelectStatement}
    {pipeline : Pipeline} {d : DSU}
    (hparse : parseSql schema unset order statement = .ok (pipeline.parsed, d)) {node : PlanJson}
    {plan : Plan} (hload : pipeline.loadJoinPipeline node = .ok plan)
    {answers : String → Option ColumnarTable} {name : String} {expected : ColumnarTable}
    (hexpected : answers ("cache/" ++ name ++ ".tbl") = some expected) {hashKey : Int32 → BitVec 64}
    {fresh : Nat → Nat → Page} {schedules : Nat → JoinSchedule} {fuel : Nat} :
    ReadSql.run schema unset order statement pipeline answers hashKey fresh schedules fuel name node =
        .ok true ↔
      ∃ result, execute hashKey fresh plan schedules fuel = .ok result ∧
        compareWithcache expected result = .ok true := by
  unfold ReadSql.run
  rw [hparse, ok_bind]
  dsimp only
  rw [hload, ok_bind, hexpected, bind_eq_ok]

/-- A query over a cache of the rows that its filters select, where they decide as SQL does, and whose file
of results has the rows that the query asks for, in ascending order: within the limits the verdict is that
the result is correct exactly when the long strings of the scanned columns are followed, no row takes a key
or a cell that a scan misreads, and a scan at the root sets the types of its columns. -/
theorem run_accepts_iff {schema : Schema} {unset : Int} {order : HashOrder}
    {statement : SelectStatement} {pipeline : Pipeline} {d : DSU} {node : PlanJson}
    {list : List TableRef} {expr : Expr}
    (h : PlansQuery schema unset order statement pipeline d node list expr) {plan : Plan}
    (hload : pipeline.loadJoinPipeline node = .ok plan) (hjoinable : pipeline.Joinable node.operator)
    (hfilterable : pipeline.Filterable node.operator) {re2 : RE2} (hre2 : RE2.Documented re2)
    {base : String → Table} (hbase : pipeline.TypedBase base node.operator)
    (hdecides : pipeline.DecidesAsSql re2 base node.operator) {contents : CacheFile → Table}
    (hfiltered : pipeline.Filtered re2 base contents node.operator) (hholds : pipeline.Holds contents)
    (htyped : pipeline.Typed node.operator contents)
    {answers : String → Option ColumnarTable} {name : String} {expected : ColumnarTable}
    (hexpected : answers ("cache/" ++ name ++ ".tbl") = some expected) {types : List DataType}
    (htypes : pipeline.parsed.outputAttrs.map (Pipeline.columnType pipeline.parsed.scope) =
      types.map some)
    (hanswer : fromColumnar expected = .ok
      ⟨sort (answer pipeline.parsed.scope base list expr pipeline.parsed.outputAttrs), types⟩) :
    ∃ tree, plan.Unfolds plan.root tree ∧
      ((tree.OnScans fun t k _ => OnPages plan LimitsFit t k) →
        tree.Bounded (seenCell plan.inputs (pipeline.inputTables contents node.operator))
          (tableRows (pipeline.inputTables contents node.operator)) →
        ∀ hashKey schedules fresh fuel, tree.height ≤ fuel →
          (ReadSql.run schema unset order statement pipeline answers hashKey fresh schedules fuel name
            node = .ok true ↔
          tree.ReadsRight plan (pipeline.inputTables contents node.operator) ∧ tree.KeepsTypes plan)) := by
  obtain ⟨tree, hunfolds, hanswers⟩ := h.executes_iff hload hjoinable
    (hfiltered.asked hre2 hfilterable hbase hdecides) hholds htyped
  refine ⟨tree, hunfolds, fun hlimits hrows hashKey schedules fresh fuel hfuel => ?_⟩
  obtain ⟨hwf, hholding, hattrs⟩ := Pipeline.wellFormed_of_load hjoinable hholds htyped hload hunfolds
  have htypesTree : types = tree.attrs.map Prod.snd := by
    have hsome : types.map some = (tree.attrs.map Prod.snd).map some := by
      rw [← htypes, hattrs, List.map_map]
      rfl
    exact List.map_injective_iff.mpr (Option.some_injective _) hsome
  obtain ⟨hwell, htypesEq, -⟩ := fromColumnar_wellTyped hanswer
  have hfixed : ∀ type ∈ types, type ≠ .FP64 := by
    intro type htype
    have hsome : some type ∈ pipeline.parsed.outputAttrs.map (Pipeline.columnType pipeline.parsed.scope) := by
      rw [htypes]
      exact List.mem_map_of_mem htype
    obtain ⟨x, hx, hxtype⟩ := List.mem_map.mp hsome
    obtain ⟨type', htype', hkind⟩ := hjoinable.columns x hx
    obtain rfl := Option.some.inj (hxtype.symm.trans htype')
    rcases hkind with rfl | rfl <;> decide
  have hcolumns : ∀ column ∈ expected.columns, column.type ≠ .FP64 := by
    intro column hcolumn
    have hmem : column.type ∈ types := by
      rw [show types = _ from htypesEq]
      exact List.mem_map_of_mem hcolumn
    exact hfixed _ hmem
  -- the file has its records in ascending order
  have hsorted := Data.strictTotal.lex.pairwise_ascending fun record hrecord =>
    notDouble_of_wellTyped hwell hfixed record ((ascending_perm _ _).mem_iff.mpr hrecord)
  have hverdict : ∀ result, execute hashKey fresh plan schedules fuel = .ok result →
      (compareWithcache expected result = .ok true ↔
        (∃ table, fromColumnar result = .ok table ∧ table.data.Perm (answer pipeline.parsed.scope base
          list expr pipeline.parsed.outputAttrs)) ∧ tree.KeepsTypes plan) := by
    intro result hrun
    rw [← execute_types_iff hholding hunfolds hwf hrun, ← htypesTree]
    constructor
    · intro hcompare
      obtain ⟨-, r, -, hr⟩ := decodes_of_compareWithcache hcompare
      obtain ⟨htypesER, -, hperm⟩ := (compareWithcache_decoded hcolumns hanswer hr).mp hcompare
      refine ⟨⟨r, hr, hperm.symm.trans (ascending_perm _ _)⟩, ?_⟩
      rw [← (fromColumnar_wellTyped hr).2.1]
      exact htypesER.symm
    · rintro ⟨⟨table, htable, hperm⟩, htypesR⟩
      refine (compareWithcache_decoded hcolumns hanswer htable).mpr
        ⟨?_, hsorted, (ascending_perm _ _).trans hperm.symm⟩
      rw [(fromColumnar_wellTyped htable).2.1, htypesR]
  rw [run_eq_true_iff h.parsed hload hexpected, ← hanswers hlimits hrows hashKey schedules fresh fuel hfuel]
  constructor
  · rintro ⟨result, hrun, hcompare⟩
    obtain ⟨⟨table, htable, hperm⟩, hkeeps⟩ := (hverdict result hrun).mp hcompare
    exact ⟨⟨result, table, hrun, htable, hperm⟩, hkeeps⟩
  · rintro ⟨⟨result, table, hrun, htable, hperm⟩, hkeeps⟩
    exact ⟨result, hrun, (hverdict result hrun).mpr ⟨⟨table, htable, hperm⟩, hkeeps⟩⟩

/-- One file of results. -/
def pairAnswers (expected : ColumnarTable) (_ : String) : Option ColumnarTable := some expected

/-- The verdict on the plan over the two tables, where the file of results has the one row of the answer. -/
theorem run_accepts_iff_bound : ∃ (cache : CacheFile → Option ColumnarTable) (expected : ColumnarTable),
    fromColumnar expected = .ok ⟨[[.int32 2]], [.INT32]⟩ ∧
      ReadSql.run twoTables 0 .inserted { pairStatement with whereClause := some boundExpr }
        (boundPipeline cache) (pairAnswers expected) (fun _ => 0) (fun _ _ => ⟨fun _ => 0⟩)
        (fun _ => ⟨[2], [], fun _ => 3⟩) 2 "pair" pairNode = .ok true := by
  obtain ⟨l, r, hl, hr, hlimits⟩ := bound_limits
  obtain ⟨plan, hload, hinputs, hpair⟩ := @bound_load l r
  obtain ⟨expected, -, hexpected⟩ := toColumnar_holds (fun _ _ => ⟨fun _ => 0⟩)
    (show (Table.mk [[.int32 2]] [.INT32]).WellTyped by simp [Table.WellTyped, Data.HasType])
  have hdecoded : fromColumnar expected = .ok ⟨[[.int32 2]], [.INT32]⟩ :=
    fromColumnar_eq hexpected (by simp)
  have hsorted : sort (answer (boundPipeline (twoFiles l r)).parsed.scope pairBase
      [.tableName "t" (some "a"), .tableName "u" (some "b")] boundExpr
      (boundPipeline (twoFiles l r)).parsed.outputAttrs) = [[.int32 2]] := by
    rw [bound_answer, sort, ascending, List.mergeSort_singleton]
  have hfile : pairAnswers expected ("cache/" ++ "pair" ++ ".tbl") = some expected := rfl
  obtain ⟨tree, hunfolds, hverdict⟩ := run_accepts_iff bound_plans hload bound_joinable bound_filterable
    Comparison.documented_itemsRE2 bound_base bound_decides bound_filtered (bound_holds hl hr) bound_typed
    hfile (show _ = [DataType.INT32].map some from rfl) (hsorted ▸ hdecoded)
  obtain rfl : tree = pairTree := hunfolds.unique hpair
  rw [bound_inputTables] at hverdict
  exact ⟨twoFiles l r, expected, hdecoded,
    (hverdict (hlimits plan hinputs) (pair_few _ (by decide) (by decide)) _ _ _ _ (Nat.le_refl 2)).mpr
      ⟨pair_readsRight plan (by decide) (by decide), trivial⟩⟩

end JoinOptimizer
