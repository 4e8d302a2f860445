import JoinOptimizer.Sql.Decompose
import Mathlib.Data.List.Nodup

/-! `ParsedSQL::parse_sql` of `tests/read_sql.cpp`: the select list, and the join graph that the classes of
columns become. -/

namespace JoinOptimizer

open Lib

/-- An item of a select list: a call of a function, or an expression of another kind. -/
inductive SelectItem
  | functionRef (exprList : List Operand)
  | expr (expr : Operand)

/-- `hsql::SelectStatement` as far as it is read.  A FROM clause that is no cross product has no list, and
a query without WHERE clause a null pointer. -/
structure SelectStatement where
  fromTable : Option (List TableRef)
  selectList : List SelectItem
  whereClause : Option Expr

/-- `OutputAttrsType`. -/
abbrev OutputAttrs := List (TableEntity × String)

/-- `JoinGraphType`. -/
abbrev JoinGraph := List (TableEntity × List (TableEntity × (String × String)))

/-- The order in which `unordered_map` and `unordered_set` are walked, as a function of what they hold. -/
structure HashOrder where
  classes : List (Nat × List Nat) → List (Nat × List Nat)
  entities : List TableEntity → List TableEntity
  adjacent : List (TableEntity × (String × String)) → List (TableEntity × (String × String))
  classes_perm : ∀ l, (classes l).Perm l
  entities_perm : ∀ l, (entities l).Perm l
  adjacent_perm : ∀ l, (adjacent l).Perm l

namespace Scope

variable (scope : Scope)

/-- The columns that an item of the select list names. -/
def selectItem : SelectItem → Result OutputAttrs
  | .functionRef exprList => exprList.mapM fun child =>
    match child with
    | .columnRef name table => do
      let (column, entity) ← scope.extractColumnAndTable name table
      .ok (entity, column)
    | _ => .error (.runtimeError "Complex select expressions are not supported")
  | .expr (.columnRef name table) => do
    let (column, entity) ← scope.extractColumnAndTable name table
    .ok [(entity, column)]
  | .expr expr =>
    .error (.runtimeError ("Not supported expression type in select list: " ++ expr.typeName ++ "."))

/-- The loop over the select list. -/
def outputAttrs (selectList : List SelectItem) : Result OutputAttrs := do
  let items ← selectList.mapM scope.selectItem
  .ok items.flatten

/-- `parse_expr` for the WHERE clause, which a null pointer may be. -/
def parseWhere : Option Expr → Result Clause
  | none => .error .outOfRange
  | some condition => scope.parseExpr condition scope.clause

end Scope

/-- The columns of the class `set` with one more column. -/
def addColumn : List (Nat × List Nat) → Nat → Nat → List (Nat × List Nat)
  | [], set, i => [(set, [i])]
  | c :: classes, set, i =>
    if c.1 = set then (c.1, c.2 ++ [i]) :: classes else c :: addColumn classes set i

/-- The loop that fills `joined_columns`. -/
def joinedColumns (joinUnion : DSU) (columnCount : Nat) : Result (List (Nat × List Nat) × DSU) :=
  (List.range columnCount).foldlM (fun (classes, joinUnion) i => do
    let (set, joinUnion) ← joinUnion.find i
    .ok (addColumn classes set i, joinUnion)) ([], joinUnion)

namespace JoinGraph

/-- The condition between two tables. -/
def edge (graph : JoinGraph) (left right : TableEntity) : Option (String × String) :=
  (graph.lookup left).bind fun adj => adj.lookup right

/-- `emplace` for two tables, with a new map for a table that has none. -/
def emplaceEdge : JoinGraph → TableEntity → TableEntity → String × String → JoinGraph
  | [], left, right, columns => [(left, [(right, columns)])]
  | item :: graph, left, right, columns =>
    if item.1 = left then (item.1, emplace item.2 right columns) :: graph
    else item :: emplaceEdge graph left right columns

/-- The conditions of two columns of one class. -/
def joinPair (columnVec : List (TableEntity × String)) (graph : JoinGraph) (i j : Nat) :
    Result JoinGraph := do
  let left ← index columnVec i
  let right ← index columnVec j
  if (graph.edge left.1 right.1).isSome then
    .error (.runtimeError "At least two conditions between a same pair of tables.")
  else
    .ok ((graph.emplaceEdge left.1 right.1 (left.2, right.2)).emplaceEdge right.1 left.1
      (right.2, left.2))

/-- The conditions of the columns of one class. -/
def joinClass (columnVec : List (TableEntity × String)) : List Nat → JoinGraph → Result JoinGraph
  | [], graph => .ok graph
  | i :: items, graph => do
    let graph ← items.foldlM (fun graph j => joinPair columnVec graph i j) graph
    joinClass columnVec items graph

/-- The loop that fills `join_graph`. -/
def ofClasses (order : HashOrder) (columnVec : List (TableEntity × String))
    (joinedColumns : List (Nat × List Nat)) : Result JoinGraph :=
  (order.classes joinedColumns).foldlM (fun graph c => joinClass columnVec c.2 graph) []

end JoinGraph

/-- What `parse_sql` leaves in its object. -/
structure ParsedSQL where
  scope : Scope
  joinGraph : JoinGraph
  filters : Filters
  outputAttrs : OutputAttrs

/-- `parse_sql` behind the parser, with the union-find structure that it drops; `unset` is the number of an
entity that nothing has set. -/
def parseSql (schema : Schema) (unset : Int) (order : HashOrder) (statement : SelectStatement) :
    Result (ParsedSQL × DSU) := do
  let names ← Names.ofFrom schema statement.fromTable
  let scope : Scope := ⟨schema, names, unset⟩
  let outputAttrs ← scope.outputAttrs statement.selectList
  let clause ← scope.parseWhere statement.whereClause
  let (classes, joinUnion) ← joinedColumns clause.joinUnion names.columnVec.length
  let joinGraph ← JoinGraph.ofClasses order names.columnVec classes
  .ok (⟨scope, joinGraph, clause.filters, outputAttrs⟩, joinUnion)

section Unions

variable {scope : Scope} {clause : Clause} {expr : Expr} {level : Nat} {p : Parsed}

/-- `parse_expr_impl` unites numbers of `column_map` only. -/
theorem Parses.unions {Q : DSU → Prop}
    (hunite : ∀ (d d' : DSU) (left right : String × TableEntity) (i j : Nat), Q d →
      scope.columnNumber left.1 left.2 = .ok i → scope.columnNumber right.1 right.2 = .ok j →
      d.unite i j = .ok d' → Q d')
    (h : Parses scope expr clause level p) (hQ : Q clause.joinUnion) : Q p.clause.joinUnion := by
  induction h with
  | filter hpushes => rwa [(hpushes fun _ => none).clause]
  | join h =>
    obtain ⟨left, -, h⟩ := bind_eq_ok.mp h
    obtain ⟨right, -, h⟩ := bind_eq_ok.mp h
    split at h
    · cases h
    · obtain ⟨i, hi, h⟩ := bind_eq_ok.mp h
      obtain ⟨j, hj, h⟩ := bind_eq_ok.mp h
      obtain ⟨d, hd, h⟩ := bind_eq_ok.mp h
      cases h
      exact hunite _ d left right i j hQ hi hj hd
  | top _ _ ih ih2 => exact ih2 (ih hQ)
  | both _ _ hboth ih ih2 =>
    obtain ⟨-, -, -, rfl⟩ := combine_eq_ok.mp hboth
    exact ih2 (ih hQ)
  | either _ _ heither ih ih2 =>
    obtain ⟨-, -, -, rfl⟩ := combine_eq_ok.mp heither
    exact ih2 (ih hQ)
  | not _ ih => exact ih hQ

theorem joinUnion_of_parseWhere {Q : DSU → Prop}
    (hunite : ∀ (d d' : DSU) (left right : String × TableEntity) (i j : Nat), Q d →
      scope.columnNumber left.1 left.2 = .ok i → scope.columnNumber right.1 right.2 = .ok j →
      d.unite i j = .ok d' → Q d')
    {condition : Option Expr} (h : scope.parseWhere condition = .ok clause)
    (hnew : Q (.new scope.names.columnVec.length)) : Q clause.joinUnion := by
  cases condition with
  | none => cases h
  | some expr =>
    obtain ⟨top, htop, h⟩ := bind_eq_ok.mp h
    cases h
    exact (parses_of_parseExprImpl htop).unions hunite hnew

/-- The classes of a WHERE clause: a forest over the columns, in which a column without number is alone. -/
structure Scope.Classes (scope : Scope) (d : DSU) : Prop where
  forest : d.Forest
  length : d.pa.length = scope.names.columnVec.length
  numbered : ∀ i j, d.SameClass i j → i ≠ j →
    ∃ column : String × TableEntity, scope.columnNumber column.1 column.2 = .ok i

theorem classes_of_parseWhere (hnumbered : scope.names.Numbered) {condition : Option Expr}
    (h : scope.parseWhere condition = .ok clause) : scope.Classes clause.joinUnion := by
  classical
  -- a column without number is told from every other one
  let apart : Nat → Option Nat := fun i =>
    if ∃ column : String × TableEntity, scope.columnNumber column.1 column.2 = .ok i then none
    else some i
  have hall : clause.joinUnion.Forest ∧
      clause.joinUnion.pa.length = scope.names.columnVec.length ∧ clause.joinUnion.Respects apart := by
    refine joinUnion_of_parseWhere (Q := fun d => d.Forest ∧
      d.pa.length = scope.names.columnVec.length ∧ d.Respects apart) ?_ h ?_
    · rintro d d' left right i j ⟨hforest, hlength, hrespects⟩ hi hj hunite
      obtain ⟨hilt, -⟩ := columnNumber_cell hnumbered hi fun _ => []
      obtain ⟨hjlt, -⟩ := columnNumber_cell hnumbered hj fun _ => []
      obtain ⟨e, he, heforest, helength, hspec⟩ := DSU.unite_spec hforest
        (x := i) (y := j) (by rw [hlength]; exact hilt) (by rw [hlength]; exact hjlt)
      obtain rfl := Except.ok.inj (he.symm.trans hunite)
      refine ⟨heforest, helength.trans hlength, (hspec apart).mpr ⟨hrespects, ?_⟩⟩
      rw [show apart i = none from if_pos ⟨left, hi⟩, show apart j = none from if_pos ⟨right, hj⟩]
    · exact ⟨DSU.forest_new _, List.length_range, DSU.respects_new _ _⟩
  obtain ⟨hforest, hlength, hrespects⟩ := hall
  refine ⟨hforest, hlength, fun i j hsame hne => ?_⟩
  have hapart := hrespects i j ((DSU.sameClass_iff hforest).mp hsame)
  by_contra hnone
  rw [show apart i = some i from if_neg hnone] at hapart
  by_cases hj : ∃ column : String × TableEntity, scope.columnNumber column.1 column.2 = .ok j
  · rw [show apart j = none from if_pos hj] at hapart
    cases hapart
  · rw [show apart j = some j from if_neg hj] at hapart
    exact hne (Option.some.inj hapart)

end Unions

section Grouping

/-- What `joined_columns` holds after the first `n` columns. -/
structure Grouped (d : DSU) (n : Nat) (classes : List (Nat × List Nat)) : Prop where
  roots : ∀ c ∈ classes, ∀ i ∈ c.2, i < n ∧ RootOf d.pa i c.1
  nodup : ∀ c ∈ classes, c.2.Nodup

theorem forall_addColumn {P : Nat × List Nat → Prop} {classes : List (Nat × List Nat)} {set i : Nat}
    (hnew : P (set, [i])) (hold : ∀ c ∈ classes, P c)
    (hadd : ∀ items, (set, items) ∈ classes → P (set, items ++ [i])) :
    ∀ c ∈ addColumn classes set i, P c := by
  induction classes with
  | nil =>
    intro c hc
    rwa [List.mem_singleton.mp hc]
  | cons c classes ih =>
    intro c' hc'
    unfold addColumn at hc'
    split at hc'
    · next heq =>
      rcases List.mem_cons.mp hc' with rfl | hc'
      · rw [heq]
        exact hadd c.2 (by rw [← heq]; exact List.mem_cons_self)
      · exact hold c' (List.mem_cons_of_mem _ hc')
    · rcases List.mem_cons.mp hc' with rfl | hc'
      · exact hold c' List.mem_cons_self
      · exact ih (fun c hc => hold c (List.mem_cons_of_mem _ hc))
          (fun items hitems => hadd items (List.mem_cons_of_mem _ hitems)) c' hc'

theorem joinedColumns_grouped {d d' : DSU} (hforest : d.Forest) {n : Nat}
    {classes : List (Nat × List Nat)} (h : joinedColumns d n = .ok (classes, d')) :
    Grouped d n classes ∧ DSU.SameRoots d d' := by
  unfold joinedColumns at h
  induction n generalizing classes d' with
  | zero =>
    cases h
    exact ⟨⟨nofun, nofun⟩, rfl, fun _ _ => Iff.rfl⟩
  | succ n ih =>
    rw [List.range_succ, foldlM_append_eq_ok] at h
    obtain ⟨⟨classes', e⟩, hrest, h⟩ := h
    obtain ⟨hgrouped, hsame⟩ := ih hrest
    rw [List.foldlM_cons] at h
    obtain ⟨last, hlast, h⟩ := bind_eq_ok.mp h
    cases h
    obtain ⟨⟨set, e'⟩, hfind, hlast⟩ := bind_eq_ok.mp hlast
    cases hlast
    have heforest := hsame.forest hforest
    have hroot := DSU.rootOf_of_find heforest hfind
    obtain ⟨e'', hfind', hsame'⟩ := DSU.find_spec heforest hroot
    obtain ⟨-, rfl⟩ := Prod.mk.inj (Except.ok.inj (hfind'.symm.trans hfind))
    have hroot' := (hsame.rootOf n set).mp hroot
    refine ⟨⟨?_, ?_⟩, hsame.trans hsame'⟩
    · refine forall_addColumn (P := fun c => ∀ i ∈ c.2, i < n + 1 ∧ RootOf d.pa i c.1) ?_ ?_ ?_
      · intro i hi
        obtain rfl := List.mem_singleton.mp hi
        exact ⟨Nat.lt_succ_self _, hroot'⟩
      · intro c hc i hi
        obtain ⟨hlt, hi⟩ := hgrouped.roots c hc i hi
        exact ⟨by omega, hi⟩
      · intro items hitems i hi
        rcases List.mem_append.mp hi with hi | hi
        · obtain ⟨hlt, hi⟩ := hgrouped.roots _ hitems i hi
          exact ⟨by omega, hi⟩
        · obtain rfl := List.mem_singleton.mp hi
          exact ⟨Nat.lt_succ_self _, hroot'⟩
    · refine forall_addColumn (P := fun c => c.2.Nodup) (List.nodup_singleton n) hgrouped.nodup ?_
      intro items hitems
      refine List.nodup_append.mpr ⟨hgrouped.nodup _ hitems, List.nodup_singleton n, ?_⟩
      intro i hi j hj
      obtain rfl := List.mem_singleton.mp hj
      have hlt := (hgrouped.roots _ hitems i hi).1
      omega

end Grouping

namespace JoinGraph

variable {graph graph' : JoinGraph} {columnVec : List (TableEntity × String)} {d : DSU}

/-- Every condition is about two columns of one class. -/
def Sound (columnVec : List (TableEntity × String)) (d : DSU) (graph : JoinGraph) : Prop :=
  ∀ item ∈ graph, ∀ adj ∈ item.2, ∃ i j, i ≠ j ∧ columnVec[i]? = some (item.1, adj.2.1) ∧
    columnVec[j]? = some (adj.1, adj.2.2) ∧ SameSet d.pa i j

/-- The conditions of a graph after `emplace`. -/
theorem mem_emplaceEdge {left right : TableEntity} {columns : String × String}
    {item : TableEntity × List (TableEntity × (String × String))}
    (hitem : item ∈ graph.emplaceEdge left right columns) {adj : TableEntity × (String × String)}
    (hadj : adj ∈ item.2) : (item.1 = left ∧ adj = (right, columns)) ∨
      ∃ old ∈ graph, old.1 = item.1 ∧ adj ∈ old.2 := by
  induction graph with
  | nil =>
    obtain rfl := List.mem_singleton.mp hitem
    exact .inl ⟨rfl, List.mem_singleton.mp hadj⟩
  | cons first graph ih =>
    rw [emplaceEdge] at hitem
    split at hitem
    · next heq =>
      rcases List.mem_cons.mp hitem with rfl | hitem
      · have hmem : adj ∈ emplace first.2 right columns := hadj
        unfold emplace at hmem
        split at hmem
        · exact .inr ⟨first, List.mem_cons_self, rfl, hmem⟩
        · rcases List.mem_append.mp hmem with hmem | hmem
          · exact .inr ⟨first, List.mem_cons_self, rfl, hmem⟩
          · exact .inl ⟨heq, List.mem_singleton.mp hmem⟩
      · exact .inr ⟨item, List.mem_cons_of_mem _ hitem, rfl, hadj⟩
    · rcases List.mem_cons.mp hitem with rfl | hitem
      · exact .inr ⟨item, List.mem_cons_self, rfl, hadj⟩
      · rcases ih hitem with hnew | ⟨old, hold, heq, hadj⟩
        · exact .inl hnew
        · exact .inr ⟨old, List.mem_cons_of_mem _ hold, heq, hadj⟩

theorem Sound.emplaceEdge (h : graph.Sound columnVec d) {left right : TableEntity}
    {columns : String × String} {i j : Nat} (hne : i ≠ j) (hi : columnVec[i]? = some (left, columns.1))
    (hj : columnVec[j]? = some (right, columns.2)) (hsame : SameSet d.pa i j) :
    (graph.emplaceEdge left right columns).Sound columnVec d := by
  intro item hitem adj hadj
  rcases mem_emplaceEdge hitem hadj with ⟨rfl, rfl⟩ | ⟨old, hold, heq, hadj⟩
  · exact ⟨i, j, hne, hi, hj, hsame⟩
  · rw [← heq]
    exact h old hold adj hadj

theorem Sound.joinPair (h : graph.Sound columnVec d) {i j : Nat} (hne : i ≠ j)
    (hsame : SameSet d.pa i j) (hrun : joinPair columnVec graph i j = .ok graph') :
    graph'.Sound columnVec d := by
  obtain ⟨left, hleft, hrun⟩ := bind_eq_ok.mp hrun
  obtain ⟨right, hright, hrun⟩ := bind_eq_ok.mp hrun
  split at hrun
  · cases hrun
  · cases hrun
    have hi := index_eq_ok.mp hleft
    have hj := index_eq_ok.mp hright
    exact (h.emplaceEdge hne hi hj hsame).emplaceEdge hne.symm hj hi hsame.symm

theorem Sound.joinClass {items : List Nat} (h : graph.Sound columnVec d) (hnodup : items.Nodup)
    {r : Nat} (hroots : ∀ i ∈ items, RootOf d.pa i r)
    (hrun : joinClass columnVec items graph = .ok graph') : graph'.Sound columnVec d := by
  induction items generalizing graph with
  | nil =>
    cases hrun
    exact h
  | cons i items ih =>
    obtain ⟨hnotmem, hnodup⟩ := List.nodup_cons.mp hnodup
    obtain ⟨middle, hpairs, hrun⟩ := bind_eq_ok.mp hrun
    have hmiddle : middle.Sound columnVec d := by
      refine foldlM_invariant (P := fun _ graph => Sound columnVec d graph) hpairs h ?_
      intro _ j t t' hj ht hstep
      have hne : i ≠ j := fun heq => hnotmem (by rwa [heq])
      refine ht.joinPair hne ⟨r, ?_, ?_⟩ hstep
      · exact hroots i List.mem_cons_self
      · exact hroots j (List.mem_cons_of_mem _ hj)
    exact ih hmiddle hnodup (fun j hj => hroots j (List.mem_cons_of_mem _ hj)) hrun

/-- The join graph of the classes of a WHERE clause. -/
theorem sound_ofClasses {order : HashOrder} {classes : List (Nat × List Nat)} {n : Nat}
    (hgrouped : Grouped d n classes) (hrun : ofClasses order columnVec classes = .ok graph) :
    graph.Sound columnVec d := by
  refine foldlM_invariant (P := fun _ graph => Sound columnVec d graph) hrun nofun ?_
  intro _ c t t' hc ht hstep
  have hmem := (order.classes_perm classes).mem_iff.mp hc
  exact ht.joinClass (hgrouped.nodup c hmem) (fun i hi => (hgrouped.roots c hmem i hi).2) hstep

end JoinGraph

/-- Two columns whose numbers are in one class. -/
def Scope.SameClass (scope : Scope) (d : DSU) (x y : TableEntity × String) : Prop :=
  ∃ i j, scope.columnNumber x.2 x.1 = .ok i ∧ scope.columnNumber y.2 y.1 = .ok j ∧ d.SameClass i j

section Classes

variable {scope : Scope} {d : DSU} {x y z : TableEntity × String}

theorem Scope.SameClass.symm (h : scope.SameClass d x y) : scope.SameClass d y x := by
  obtain ⟨i, j, hi, hj, r, d', d'', h, h'⟩ := h
  exact ⟨j, i, hj, hi, r, d'', d', h', h⟩

theorem Scope.SameClass.trans (h : scope.SameClass d x y) (h' : scope.SameClass d y z) :
    scope.SameClass d x z := by
  obtain ⟨i, j, hi, hj, r, d₁, d₂, hr, hr'⟩ := h
  obtain ⟨j', k, hj', hk, s, d₃, d₄, hs, hs'⟩ := h'
  obtain rfl := Except.ok.inj (hj.symm.trans hj')
  obtain ⟨rfl, -⟩ := Prod.mk.inj (Except.ok.inj (hr'.symm.trans hs))
  exact ⟨i, k, hi, hk, _, d₁, d₄, hr, hs'⟩

/-- What `parse_sql` leaves: the scope of its FROM list, and a join graph of the classes of its WHERE
clause. -/
structure ParsedSQL.Valid (parsed : ParsedSQL) (d : DSU) : Prop where
  numbered : parsed.scope.names.Numbered
  inSchema : parsed.scope.names.InSchema parsed.scope.schema
  graph : ∀ item ∈ parsed.joinGraph, ∀ adj ∈ item.2,
    parsed.scope.SameClass d (item.1, adj.2.1) (adj.1, adj.2.2)

theorem columnNumber_of_column (hnumbered : scope.names.Numbered) {i : Nat} {e : TableEntity}
    {name : String} (hi : scope.names.columnVec[i]? = some (e, name))
    (hcolumn : ∃ column : String × TableEntity, scope.columnNumber column.1 column.2 = .ok i) :
    scope.columnNumber name e = .ok i := by
  obtain ⟨column, hcolumn⟩ := hcolumn
  have hvec := Scope.column_of_columnNumber hnumbered hcolumn
  obtain ⟨rfl, rfl⟩ := Prod.mk.inj (Option.some.inj (hvec.symm.trans hi))
  exact hcolumn

theorem parseSql_valid {schema : Schema} {unset : Int} {order : HashOrder}
    {statement : SelectStatement} {parsed : ParsedSQL}
    (h : parseSql schema unset order statement = .ok (parsed, d)) : parsed.Valid d := by
  obtain ⟨names, hnames, h⟩ := bind_eq_ok.mp h
  obtain ⟨outputAttrs, -, h⟩ := bind_eq_ok.mp h
  obtain ⟨clause, hclause, h⟩ := bind_eq_ok.mp h
  obtain ⟨⟨classes, joinUnion⟩, hjoined, h⟩ := bind_eq_ok.mp h
  obtain ⟨joinGraph, hgraph, h⟩ := bind_eq_ok.mp h
  cases h
  have hnumbered := Names.numbered_ofFrom hnames
  have hclasses := classes_of_parseWhere hnumbered hclause
  obtain ⟨hgrouped, hsame⟩ := joinedColumns_grouped hclasses.forest hjoined
  refine ⟨hnumbered, Names.inSchema_ofFrom hnames, fun item hitem adj hadj => ?_⟩
  obtain ⟨i, j, hne, hi, hj, hset⟩ := JoinGraph.sound_ofClasses hgrouped hgraph item hitem adj hadj
  have hij : clause.joinUnion.SameClass i j := (DSU.sameClass_iff hclasses.forest).mpr hset
  have hji : clause.joinUnion.SameClass j i := (DSU.sameClass_iff hclasses.forest).mpr hset.symm
  have hij' : d.SameClass i j := (hsame.sameClass_iff hclasses.forest).mpr hij
  exact ⟨i, j, columnNumber_of_column hnumbered hi (hclasses.numbered i j hij hne),
    columnNumber_of_column hnumbered hj (hclasses.numbered j i hji hne.symm), hij'⟩

end Classes

end JoinOptimizer
