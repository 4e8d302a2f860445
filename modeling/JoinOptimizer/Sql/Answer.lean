import JoinOptimizer.Sql.Filters
import JoinOptimizer.Plan.Chosen

/-! What a query asks for, and that the plan of `load_join_pipeline` over the filtered tables is it. -/

namespace JoinOptimizer

open Lib PlanTree

/-- The row of every table in a choice of rows. -/
def assignment (c : List (TableEntity × List Data)) : Assignment :=
  fun entity => (c.lookup entity).getD []

/-- The rows of the tables. -/
def baseRecords (base : String → Table) (entities : List TableEntity) :
    List (TableEntity × List (List Data)) :=
  entities.map fun entity => (entity, (base entity.table).data)

/-- The rows that a query asks for: the columns of its select list for every choice of a row of each table
of the FROM list for which the WHERE clause is true. -/
def answer (scope : Scope) (base : String → Table) (list : List TableRef) (expr : Expr)
    (outputAttrs : OutputAttrs) : List (List Data) :=
  ((choices (baseRecords base (fromEntities list))).filter fun c =>
    scope.truth (assignment c) expr = .true).map fun c =>
      outputAttrs.map fun x => scope.cell (assignment c) (x.2, x.1)

section Assignments

variable {c c' : List (TableEntity × List Data)}

theorem assignment_perm (h : c.Perm c') (hnodup : (c.map Prod.fst).Nodup) :
    assignment c = assignment c' := by
  funext entity
  unfold assignment
  rw [lookup_perm h hnodup]

/-- In another order of the tables the answer is the same, up to the order of its rows. -/
theorem answer_perm (scope : Scope) (base : String → Table) (expr : Expr)
    (outputAttrs : OutputAttrs) {entities entities' : List TableEntity} (h : entities.Perm entities')
    (hnodup : entities.Nodup) :
    (((choices (baseRecords base entities)).filter fun c =>
      scope.truth (assignment c) expr = .true).map fun c =>
        outputAttrs.map fun x => scope.cell (assignment c) (x.2, x.1)).Perm
    (((choices (baseRecords base entities')).filter fun c =>
      scope.truth (assignment c) expr = .true).map fun c =>
        outputAttrs.map fun x => scope.cell (assignment c) (x.2, x.1)) := by
  let g : List (TableEntity × List Data) → Option (List Data) := fun c =>
    if scope.truth (assignment c) expr = .true then
      some (outputAttrs.map fun x => scope.cell (assignment c) (x.2, x.1)) else none
  have hg : ∀ cs : List (List (TableEntity × List Data)), (cs.filter fun c =>
      scope.truth (assignment c) expr = .true).map (fun c =>
        outputAttrs.map fun x => scope.cell (assignment c) (x.2, x.1)) = (cs.map g).filterMap id := by
    intro cs
    induction cs with
    | nil => rfl
    | cons c cs ih =>
      rw [List.map_cons, List.filter_cons]
      by_cases htrue : scope.truth (assignment c) expr = .true
      · simp [g, htrue, ih]
      · simp [g, htrue, ih]
  rw [hg, hg]
  refine (choices_perm (h.map _) g fun c hc c' hperm => ?_).filterMap id
  have hkeys : (c.map Prod.fst).Nodup := by
    rw [keys_of_mem_choices hc]
    simpa [baseRecords, Function.comp_def] using hnodup
  simp only [g, assignment_perm hperm hkeys]

end Assignments

namespace Pipeline

variable (pipeline : Pipeline)

/-- The table of a scan. -/
def entityAt (op : Operator) (t : Nat) : TableEntity := ((pipeline.tables op)[t]?).getD ⟨"", 0⟩

variable {pipeline} {op : Operator} {d : DSU}

section Asks

/-- Every filter is true of the row of its table where the rows of all tables are asked for. -/
theorem asks_iff (hnodup : (pipeline.parsed.filters.map Prod.fst).Nodup) {entities : List TableEntity}
    (hfiltered : ∀ f ∈ pipeline.parsed.filters, f.1 ∈ entities) (row : Assignment) :
    (∀ f ∈ pipeline.parsed.filters, f.2.IsTrue (row f.1)) ↔
      ∀ entity ∈ entities, pipeline.asks entity (row entity) = true := by
  have hasks : ∀ f ∈ pipeline.parsed.filters,
      (pipeline.asks f.1 (row f.1) = true ↔ f.2.IsTrue (row f.1)) := by
    intro f hf
    unfold asks StatementPtr.IsTrue
    rw [lookup_of_mem hnodup hf]
    dsimp only
    cases f.2.statement? <;> simp
  constructor
  · intro h entity _
    cases hlookup : pipeline.parsed.filters.lookup entity with
    | none =>
      unfold asks
      rw [hlookup]
    | some p => exact (hasks _ (mem_of_lookup hlookup)).mpr (h _ (mem_of_lookup hlookup))
  · exact fun h f hf => (hasks f hf).mp (h f.1 (hfiltered f hf))

/-- A choice of rows for which the filters are true. -/
theorem all_asks_iff {c : List (TableEntity × List Data)} (hnodup : (c.map Prod.fst).Nodup) :
    (c.all fun x => pipeline.asks x.1 x.2) = true ↔
      ∀ entity ∈ c.map Prod.fst, pipeline.asks entity (assignment c entity) = true := by
  rw [List.all_eq_true, List.forall_mem_map]
  refine forall₂_congr fun x hx => ?_
  unfold assignment
  rw [lookup_of_mem hnodup hx, Option.getD_some]

end Asks

section Loaded

variable {requiredAttrs : OutputAttrs} {plan plan' : Plan} {nodeIdx : Nat} {columns : OutputColumns}
  {tree : PlanTree} {c : List (Nat × List Data)}

/-- A choice of records for the scans as one of rows of the tables. -/
def renamed (pipeline : Pipeline) (op : Operator) (c : List (Nat × List Data)) :
    List (TableEntity × List Data) := c.map (Prod.map (pipeline.entityAt op) id)

theorem entityAt_eq {t : Nat} {entity : TableEntity} (h : (pipeline.tables op)[t]? = some entity) :
    pipeline.entityAt op t = entity := by
  unfold entityAt
  rw [h, Option.getD_some]

variable (hnodup : (pipeline.tables op).Nodup)
  (hkeys : c.map Prod.fst = List.range (pipeline.tables op).length)
include hkeys

theorem map_fst_renamed : (pipeline.renamed op c).map Prod.fst = pipeline.tables op := by
  unfold renamed
  rw [List.map_map]
  show c.map (pipeline.entityAt op ∘ Prod.fst) = _
  rw [← List.map_map, hkeys]
  refine List.ext_getElem (by simp) fun i hi hi' => ?_
  rw [List.getElem_map, List.getElem_range]
  exact entityAt_eq (List.getElem?_eq_getElem hi')

include hnodup

/-- The cell of a column in a choice. -/
theorem cell_renamed {v : Nat × Nat} {x : TableEntity × String}
    (h : pipeline.IsCell (fun t => (pipeline.tables op)[t]?) v x) :
    pipeline.parsed.scope.cell (assignment (pipeline.renamed op c)) (x.2, x.1) = cellIn c v := by
  obtain ⟨htable, hidx⟩ := h
  have hlookup : (pipeline.renamed op c).lookup x.1 = c.lookup v.1 := by
    rw [← entityAt_eq htable]
    refine lookup_rename _ fun p hp heq => ?_
    have hlt : p.1 < (pipeline.tables op).length := by
      rw [← List.mem_range, ← hkeys]
      exact List.mem_map_of_mem hp
    rw [entityAt_eq htable, entityAt_eq (List.getElem?_eq_getElem hlt)] at heq
    obtain ⟨hlt', hget⟩ := List.getElem?_eq_some_iff.mp htable
    exact (hnodup.getElem_inj_iff).mp (heq.trans hget.symm)
  unfold Scope.cell cellIn assignment
  rw [hidx, hlookup]

omit hnodup hkeys in
/-- The scans read the inputs that were added for them. -/
theorem Loaded.leaves_range (hloaded : pipeline.Loaded (fun t => (pipeline.tables op)[t]?) op requiredAttrs
    plan plan' nodeIdx columns tree) (hinputs : plan.inputs = []) :
    tree.leaves = List.range (pipeline.tables op).length := by
  rw [hloaded.leaves, hinputs, List.length_nil, List.range_eq_range']

/-- The joins of a covered plan match on a choice exactly where the classes have equal cells in it. -/
theorem Loaded.matched_iff (hvalid : pipeline.parsed.Valid d) (hclasses : pipeline.parsed.scope.Classes d)
    (hnumbered : ∀ entity ∈ pipeline.parsed.scope.names.tables, entity ∈ pipeline.tables op)
    (hloaded : pipeline.Loaded (fun t => (pipeline.tables op)[t]?) op requiredAttrs plan plan' nodeIdx
      columns tree) (hinputs : plan.inputs = [])
    (hcovered : pipeline.Covered (pipeline.parsed.scope.SameClass d) op) :
    tree.joinTree.Matched (keyIn c) ↔
      d.Respects (pipeline.parsed.scope.numberedKey (assignment (pipeline.renamed op c))) := by
  have hproper := (hloaded.sameCells hvalid).proper hloaded.nodup
  rw [((hloaded.covered_iff hvalid).mpr hcovered).matched_iff sameCells_symm sameCells_trans hproper]
  -- a column with a number has its cell in the choice
  have hcell : ∀ {x : TableEntity × String} {i : Nat} {v : Nat × Nat},
      pipeline.parsed.scope.columnNumber x.2 x.1 = .ok i →
      pipeline.IsCell (fun t => (pipeline.tables op)[t]?) v x →
      pipeline.parsed.scope.numberedCell (assignment (pipeline.renamed op c)) i = cellIn c v := by
    intro x i v hi hv
    have hi : pipeline.parsed.scope.columnNumber (x.2, x.1).1 (x.2, x.1).2 = .ok i := hi
    rw [(columnNumber_cell hvalid.numbered hi _).2]
    exact cell_renamed hnodup hkeys hv
  constructor
  · intro hshares i j hset
    by_cases hne : i = j
    · rw [hne]
    have hij : d.SameClass i j := (DSU.sameClass_iff hclasses.forest).mpr hset
    have hji : d.SameClass j i := (DSU.sameClass_iff hclasses.forest).mpr hset.symm
    obtain ⟨x, hi⟩ := hclasses.numbered i j hij hne
    obtain ⟨y, hj⟩ := hclasses.numbered j i hji (Ne.symm hne)
    have hplace : ∀ {x : String × TableEntity} {i : Nat},
        pipeline.parsed.scope.columnNumber x.1 x.2 = .ok i →
        ∃ v, tree.joinTree.Has v ∧ pipeline.IsCell (fun t => (pipeline.tables op)[t]?) v (x.2, x.1) := by
      intro x i hi
      obtain ⟨t, ht⟩ := List.mem_iff_getElem?.mp
        (hnumbered _ (Scope.mem_tables_of_columnNumber hi))
      obtain ⟨k, hk⟩ := Scope.columnIdx_of_columnNumber hvalid.inSchema hi
      refine ⟨(t, k), has_joinTree.mpr ?_, ht, hk⟩
      rw [hloaded.leaves_range hinputs, List.mem_range]
      exact (List.getElem?_eq_some_iff.mp ht).1
    obtain ⟨v, hv, hvx⟩ := hplace hi
    obtain ⟨w, hw, hwy⟩ := hplace hj
    have hvw : v ≠ w := by
      rintro rfl
      obtain ⟨htable, hcolumn⟩ := Prod.mk.inj (hvx.unique hwy)
      rw [hcolumn, htable, hj] at hi
      exact hne (Except.ok.inj hi).symm
    obtain ⟨hsome, heq⟩ := hshares v w hv hw ⟨_, _, hvx, hwy, i, j, hi, hj, hij⟩ hvw
    rw [Scope.numberedKey_eq_iff _ _ hne, hcell (x := (x.2, x.1)) hi hvx, hcell (x := (y.2, y.1)) hj hwy]
    refine ⟨fun hnull => ?_, nonNull_inj hsome heq⟩
    rw [keyIn, hnull] at hsome
    cases hsome
  · rintro hrespects v w - - ⟨x, y, hvx, hwy, i, j, hi, hj, hij⟩ hvw
    have hne : i ≠ j := by
      rintro rfl
      have hvec := Scope.column_of_columnNumber hvalid.numbered hi
      have hvec' := Scope.column_of_columnNumber hvalid.numbered hj
      obtain rfl : x = y := Option.some.inj (hvec.symm.trans hvec')
      obtain ⟨hlt, hget⟩ := List.getElem?_eq_some_iff.mp hvx.1
      obtain ⟨hlt', hget'⟩ := List.getElem?_eq_some_iff.mp hwy.1
      refine hvw (Prod.ext (hnodup.getElem_inj_iff.mp (hget.trans hget'.symm)) ?_)
      exact Except.ok.inj (hvx.2.symm.trans hwy.2)
    have hkey := hrespects i j ((DSU.sameClass_iff hclasses.forest).mp hij)
    rw [Scope.numberedKey_eq_iff _ _ hne, hcell hi hvx, hcell hj hwy] at hkey
    unfold keyIn
    rw [← hkey.2]
    simpa [nonNull] using hkey.1

/-- The columns of the select list in what a choice makes. -/
theorem Loaded.output_eq
    (hloaded : pipeline.Loaded (fun t => (pipeline.tables op)[t]?) op requiredAttrs plan plan' nodeIdx
      columns tree) :
    tree.output c = requiredAttrs.map fun x =>
      pipeline.parsed.scope.cell (assignment (pipeline.renamed op c)) (x.2, x.1) := by
  have hlength : tree.attrs.length = requiredAttrs.length := by
    have htypes := congrArg List.length hloaded.types
    have hnames := congrArg List.length hloaded.names
    simp only [List.length_map] at htypes hnames
    omega
  refine List.ext_getElem (by rw [length_output, List.length_map, hlength]) fun j hj hj' => ?_
  have hlt : j < requiredAttrs.length := by simpa using hj'
  obtain ⟨v, hv, hcell⟩ := hloaded.source j _ (List.getElem?_eq_getElem hlt)
  rw [List.getElem_map, cell_renamed hnodup hkeys hcell, ← getD_output c hv,
    List.getD_eq_getElem?_getD, List.getElem?_eq_getElem hj, Option.getD_some]

end Loaded

/-- The inputs of the scans hold the rows for which the filters are true. -/
theorem Asked.renamed {base : String → Table} {contents : CacheFile → Table}
    (hasked : pipeline.Asked base contents op)
    (hfiles : ∀ entity ∈ pipeline.tables op, ∃ file, pipeline.cacheFile entity = .ok file) :
    (records (pipeline.inputTables contents op) (List.range (pipeline.tables op).length)).map
        (fun l => (pipeline.entityAt op l.1, l.2)) =
      (baseRecords base (pipeline.tables op)).map fun l => (l.1, l.2.filter (pipeline.asks l.1)) := by
  refine List.ext_getElem (by simp [records, baseRecords]) fun t ht ht' => ?_
  have hlt : t < (pipeline.tables op).length := by simpa [records] using ht
  have hentity : (pipeline.tables op)[t]? = some (pipeline.tables op)[t] := List.getElem?_eq_getElem hlt
  obtain ⟨file, hfile⟩ := hfiles _ (List.getElem_mem hlt)
  simp only [records, baseRecords, List.getElem_map, List.getElem_range, entityAt_eq hentity, inputTables,
    List.getElem?_map, hentity, Option.map_some, Option.elim_some, hfile]
  congr 1
  exact hasked _ (List.getElem_mem hlt) file hfile

/-- The naive evaluation of a covered plan over the filtered tables makes the rows that the query asks
for. -/
theorem Loaded.naive_perm {requiredAttrs : OutputAttrs} {plan plan' : Plan} {nodeIdx : Nat}
    {columns : OutputColumns} {tree : PlanTree} {list : List TableRef} {expr : Expr}
    (hvalid : pipeline.parsed.Valid d) (hmeans : pipeline.parsed.Means d list expr)
    (hloaded : pipeline.Loaded (fun t => (pipeline.tables op)[t]?) op requiredAttrs plan plan' nodeIdx
      columns tree) (hinputs : plan.inputs = [])
    (hscans : (pipeline.tables op).Perm (fromEntities list))
    (hcovered : pipeline.Covered (pipeline.parsed.scope.SameClass d) op) {base : String → Table}
    {contents : CacheFile → Table} (hasked : pipeline.Asked base contents op) :
    (tree.naive (pipeline.inputTables contents op)).Perm
      (answer pipeline.parsed.scope base list expr requiredAttrs) := by
  have hnodup : (pipeline.tables op).Nodup := hscans.nodup_iff.mpr (nodup_numberNames _)
  have hnumbered : ∀ entity ∈ pipeline.parsed.scope.names.tables, entity ∈ pipeline.tables op := by
    intro entity hentity
    rw [hmeans.tables] at hentity
    exact hscans.mem_iff.mpr hentity
  have hfilters : ∀ f ∈ pipeline.parsed.filters, f.1 ∈ pipeline.tables op :=
    fun f hf => hscans.mem_iff.mpr (hmeans.filtered f hf)
  have hkept := choices_filter pipeline.asks (baseRecords base (pipeline.tables op))
  rw [← hasked.renamed hloaded.files,
    choices_rename (pipeline.entityAt op) (records _ _)] at hkept
  -- where the filters are true of the rows, the joins match exactly if the clause is true
  have htruth : ∀ c ∈ choices (records (pipeline.inputTables contents op) tree.leaves),
      decide (tree.joinTree.Matched (keyIn c)) = decide
        (pipeline.parsed.scope.truth (assignment (pipeline.renamed op c)) expr = .true) := by
    intro c hc
    rw [hloaded.leaves_range hinputs] at hc
    have hkeys := keys_of_mem_records hc
    have hrows : (pipeline.renamed op c).all (fun x => pipeline.asks x.1 x.2) = true := by
      have hmem := List.mem_map_of_mem (f := List.map (Prod.map (pipeline.entityAt op) id)) hc
      rw [hkept] at hmem
      exact (List.mem_filter.mp hmem).2
    have hrenamed := map_fst_renamed hkeys
    rw [all_asks_iff (by rwa [hrenamed]), hrenamed, ← asks_iff hmeans.nodup hfilters] at hrows
    rw [decide_eq_decide, hmeans.meaning, and_iff_right hrows]
    exact hloaded.matched_iff hnodup hkeys hvalid hmeans.classes hnumbered hinputs hcovered
  have hnaive : tree.naive (pipeline.inputTables contents op) =
      ((choices (baseRecords base (pipeline.tables op))).filter fun c =>
        pipeline.parsed.scope.truth (assignment c) expr = .true).map fun c =>
          requiredAttrs.map fun x => pipeline.parsed.scope.cell (assignment c) (x.2, x.1) := by
    rw [naive_eq_choices (hloaded.sameCells hvalid) hloaded.nodup, List.filter_congr htruth]
    have houtput : ∀ c ∈ (choices (records (pipeline.inputTables contents op) tree.leaves)).filter
        (fun c => decide (pipeline.parsed.scope.truth (assignment (pipeline.renamed op c)) expr =
          .true)), tree.output c = requiredAttrs.map fun x =>
            pipeline.parsed.scope.cell (assignment (pipeline.renamed op c)) (x.2, x.1) := by
      intro c hc
      have hmem := List.mem_of_mem_filter hc
      rw [hloaded.leaves_range hinputs] at hmem
      exact hloaded.output_eq hnodup (keys_of_mem_records hmem)
    have htrue : (choices (baseRecords base (pipeline.tables op))).filter (fun c =>
        decide (pipeline.parsed.scope.truth (assignment c) expr = .true)) =
        ((choices (records (pipeline.inputTables contents op) tree.leaves)).map
          (pipeline.renamed op)).filter fun c =>
            decide (pipeline.parsed.scope.truth (assignment c) expr = .true) := by
      rw [hloaded.leaves_range hinputs]
      show _ = List.filter _ ((choices _).map (List.map (Prod.map (pipeline.entityAt op) id)))
      rw [hkept, List.filter_filter]
      refine List.filter_congr fun c hc => ?_
      have hkeys : c.map Prod.fst = pipeline.tables op := by
        rw [keys_of_mem_choices hc]
        simp [baseRecords, Function.comp_def]
      rw [Bool.eq_iff_iff, Bool.and_eq_true, decide_eq_true_eq, all_asks_iff (by rwa [hkeys]), hkeys,
        ← asks_iff hmeans.nodup hfilters]
      exact (and_iff_left_of_imp fun h => ((hmeans.meaning _).mp h).1).symm
    rw [List.map_congr_left houtput, htrue, List.filter_map, List.map_map]
    rfl
  rw [hnaive]
  exact answer_perm _ _ _ _ hscans hnodup

end Pipeline

/-- A query and a tree of joins that is a plan of it.  No table is without a name, no `NOT` stands before a
comparison of two columns and no column is compared with itself; the tree scans every table of the FROM list
once, and its joins connect the columns of every class. -/
structure PlansQuery (schema : Schema) (unset : Int) (order : HashOrder) (statement : SelectStatement)
    (pipeline : Pipeline) (d : DSU) (node : PlanJson) (list : List TableRef) (expr : Expr) : Prop where
  parsed : parseSql schema unset order statement = .ok (pipeline.parsed, d)
  named : schema.lookup "" = none
  fromTable : statement.fromTable = some list
  whereClause : statement.whereClause = some expr
  clean : ¬ expr.NegatesJoin
  proper : ¬ pipeline.parsed.scope.ComparesItself expr
  scans : (pipeline.tables node.operator).Perm (fromEntities list)
  covered : pipeline.Covered (pipeline.parsed.scope.SameClass d) node.operator

section Plans

variable {schema : Schema} {unset : Int} {order : HashOrder} {statement : SelectStatement}
  {pipeline : Pipeline} {d : DSU} {node : PlanJson} {list : List TableRef} {expr : Expr}

/-- Over the rows for which the filters are true, the plan of a query is the query. -/
theorem PlansQuery.naive_perm
    (h : PlansQuery schema unset order statement pipeline d node list expr) {plan : Plan}
    (hload : pipeline.loadJoinPipeline node = .ok plan) :
    ∃ tree, plan.Unfolds plan.root tree ∧ ∀ base contents, pipeline.Asked base contents node.operator →
      (tree.naive (pipeline.inputTables contents node.operator)).Perm
        (answer pipeline.parsed.scope base list expr pipeline.parsed.outputAttrs) := by
  have hvalid := parseSql_valid h.parsed
  obtain ⟨⟨root, columns, plan'⟩, hrecurse, hload⟩ := bind_eq_ok.mp hload
  cases hload
  obtain ⟨tree, hloaded⟩ := Pipeline.recurse_loaded
    (fun t => (pipeline.tables node.operator)[t]?) (fun i e he => by simpa using he) hrecurse
  refine ⟨tree, ?_, fun base contents hasked => ?_⟩
  · have hnodes : ({ plan' with root := root } : Plan).nodes = plan'.nodes ++ [] :=
      (List.append_nil _).symm
    exact hloaded.unfolds.extend hnodes
  · obtain ⟨list', hfrom, hmeans⟩ := parseSql_means h.parsed h.named h.whereClause h.clean h.proper
    obtain rfl : list = list' := Option.some.inj (h.fromTable.symm.trans hfrom)
    exact hloaded.naive_perm hvalid hmeans rfl h.scans h.covered hasked

/-- The plan of a query is the query: over the rows that its filters select from the tables, where the filters
decide as SQL does, its naive evaluation makes the rows that the query asks for. -/
theorem loadJoinPipeline_answers
    (h : PlansQuery schema unset order statement pipeline d node list expr) {plan : Plan}
    (hload : pipeline.loadJoinPipeline node = .ok plan) (hfilterable : pipeline.Filterable node.operator)
    {re2 : RE2} (hre2 : RE2.Documented re2) {base : String → Table}
    (hbase : pipeline.TypedBase base node.operator)
    (hdecides : pipeline.DecidesAsSql re2 base node.operator) :
    ∃ tree, plan.Unfolds plan.root tree ∧ ∀ contents,
      pipeline.Filtered re2 base contents node.operator →
      (tree.naive (pipeline.inputTables contents node.operator)).Perm
        (answer pipeline.parsed.scope base list expr pipeline.parsed.outputAttrs) := by
  obtain ⟨tree, hunfolds, hanswers⟩ := h.naive_perm hload
  refine ⟨tree, hunfolds, fun contents hfiltered => ?_⟩
  exact hanswers base contents (hfiltered.asked hre2 hfilterable hbase hdecides)

end Plans

theorem pair_proper : ¬ pairPipeline.parsed.scope.ComparesItself (equality "a" "x" "b" "y") := by
  rintro ⟨x, hx, hx'⟩
  have hx : x = ("x", ⟨"t", 0⟩) := (Except.ok.inj hx).symm
  rw [hx] at hx'
  exact absurd (Except.ok.inj hx') (by decide)

theorem pair_plans : PlansQuery twoTables 0 .inserted pairStatement pairPipeline ⟨[1, 1]⟩ pairNode
    [.tableName "t" (some "a"), .tableName "u" (some "b")] (equality "a" "x" "b" "y") where
  parsed := by rfl
  named := rfl
  fromTable := rfl
  whereClause := rfl
  clean := id
  proper := pair_proper
  scans := by
    rw [pairNode_operator]
    exact .refl _
  covered := pair_covered _

/-- Two tables whose columns hold a common value and a NULL. -/
def pairBase (table : String) : Table :=
  if table = "t" then ⟨[[.int32 1], [.monostate], [.int32 2]], [.INT32]⟩
  else ⟨[[.int32 2], [.monostate]], [.INT32]⟩

theorem pairBase_wellTyped (table : String) : (pairBase table).WellTyped := by
  unfold pairBase
  split <;> simp [Table.WellTyped, Data.HasType]

/-- `a.x = b.y AND a.x > 1`. -/
def boundExpr : Expr :=
  .opAnd (equality "a" "x" "b" "y") (.compare .opGreater (.columnRef "x" (some "a")) (.literalInt 1))

def boundFilter : Statement := .comparison ⟨0, .GT, .int64 1⟩

/-- The pipeline of a query with a filter, over a cache. -/
def boundPipeline (cache : CacheFile → Option ColumnarTable) : Pipeline :=
  { pairPipeline with
    parsed := { pairPipeline.parsed with filters := [(⟨"t", 0⟩, .comparison ⟨0, .GT, .int64 1⟩)] }
    cache := cache }

/-- What the filter selects of a table. -/
def boundTable (table : String) : Table :=
  (pairBase table).selectedBy Comparison.itemsRE2 (if table = "t" then some boundFilter else none)

def boundContents (file : CacheFile) : Table := boundTable file.table

section Bound

variable {cache : CacheFile → Option ColumnarTable}

theorem bound_plans : PlansQuery twoTables 0 .inserted { pairStatement with whereClause := some boundExpr }
    (boundPipeline cache) ⟨[1, 1]⟩ pairNode [.tableName "t" (some "a"), .tableName "u" (some "b")] boundExpr where
  parsed := by rfl
  named := rfl
  fromTable := rfl
  whereClause := rfl
  clean := by
    rintro (h | h)
    · exact h
    · exact h
  proper := by
    rintro (h | h)
    · exact pair_proper h
    · exact h
  scans := by
    rw [pairNode_operator]
    exact .refl _
  covered := by
    have hpair := pair_covered ⟨[1, 1]⟩
    rw [pairNode_operator] at hpair ⊢
    exact hpair

theorem bound_tables : (boundPipeline cache).tables pairNode.operator = [⟨"t", 0⟩, ⟨"u", 0⟩] := by
  rw [pairNode_operator]
  rfl

theorem bound_filterOf {entity : TableEntity} (h : entity ∈ (boundPipeline cache).tables pairNode.operator) :
    (boundPipeline cache).filterOf entity = if entity.table = "t" then some boundFilter else none := by
  rw [bound_tables] at h
  simp only [List.mem_cons, List.not_mem_nil, or_false] at h
  rcases h with rfl | rfl <;> rfl

theorem bound_filterable : (boundPipeline cache).Filterable pairNode.operator := by
  intro entity hentity
  have hfilter := bound_filterOf hentity
  rw [bound_tables] at hentity
  simp only [List.mem_cons, List.not_mem_nil, or_false] at hentity
  rcases hentity with rfl | rfl
  · refine ⟨_, rfl, by simp, by simp, fun stmt hstmt => ?_⟩
    obtain rfl := Option.some.inj (hfilter.symm.trans hstmt)
    exact ⟨_, rfl, .inr (.inr ⟨by decide, by decide, 1, rfl, by decide, by decide⟩)⟩
  · refine ⟨_, rfl, by simp, by simp, fun stmt hstmt => ?_⟩
    cases hfilter.symm.trans hstmt

theorem bound_base : (boundPipeline cache).TypedBase pairBase pairNode.operator := by
  intro entity hentity attributes hattributes
  refine ⟨pairBase_wellTyped _, ?_⟩
  rw [bound_tables] at hentity
  simp only [List.mem_cons, List.not_mem_nil, or_false] at hentity
  rcases hentity with rfl | rfl <;> cases hattributes <;> rfl

theorem bound_decides :
    (boundPipeline cache).DecidesAsSql Comparison.itemsRE2 pairBase pairNode.operator := by
  intro entity hentity stmt hstmt
  rw [bound_filterOf hentity] at hstmt
  split at hstmt
  · next htable =>
    obtain rfl := Option.some.inj hstmt
    rw [htable]
    decide
  · cases hstmt

theorem bound_filtered :
    (boundPipeline cache).Filtered Comparison.itemsRE2 pairBase boundContents pairNode.operator := by
  intro entity hentity file hfile
  rw [bound_filterOf hentity, ← Pipeline.cacheFile_table hfile]
  rfl

/-- The NULLs, on which the comparison is unknown, and the 1 are in no row of the answer. -/
theorem bound_answer : answer (boundPipeline cache).parsed.scope pairBase
    [.tableName "t" (some "a"), .tableName "u" (some "b")] boundExpr
    (boundPipeline cache).parsed.outputAttrs = [[.int32 2]] := by
  show answer pairPipeline.parsed.scope pairBase [.tableName "t" (some "a"), .tableName "u" (some "b")]
    boundExpr pairPipeline.parsed.outputAttrs = _
  decide

theorem loadJoinPipeline_answers_bound : ∃ plan tree,
    (boundPipeline pairPipeline.cache).loadJoinPipeline pairNode = .ok plan ∧
      plan.Unfolds plan.root tree ∧
      (tree.naive ((boundPipeline pairPipeline.cache).inputTables boundContents pairNode.operator)).Perm
        [[.int32 2]] := by
  have hload : ∃ plan, (boundPipeline pairPipeline.cache).loadJoinPipeline pairNode = .ok plan := by
    rw [Pipeline.loadJoinPipeline, pairNode_operator]
    exact ⟨_, rfl⟩
  obtain ⟨plan, hload⟩ := hload
  obtain ⟨tree, hunfolds, hanswers⟩ := loadJoinPipeline_answers bound_plans hload bound_filterable
    Comparison.documented_itemsRE2 bound_base bound_decides
  rw [bound_answer] at hanswers
  exact ⟨plan, tree, hload, hunfolds, hanswers boundContents bound_filtered⟩

end Bound

end JoinOptimizer
