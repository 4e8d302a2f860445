import JoinOptimizer.Sql.Pipeline
import Mathlib.Data.List.Range

/-! What `load_join_pipeline` makes: a tree of nodes over the inputs that it adds, in which every column
comes from the column of the schema that was asked for and every join from the join graph. -/

namespace JoinOptimizer

open Lib

variable {pipeline : Pipeline}

theorem Plan.Unfolds.extend {plan plan' : Plan} {more : List PlanNode}
    (hnodes : plan'.nodes = plan.nodes ++ more) {nodeIdx : Nat} {tree : PlanTree}
    (h : plan.Unfolds nodeIdx tree) : plan'.Unfolds nodeIdx tree := by
  have hget : ∀ {i : Nat} {node : PlanNode}, plan.nodes[i]? = some node →
      plan'.nodes[i]? = some node := by
    intro i node hnode
    rw [hnodes, List.getElem?_append_left (List.getElem?_eq_some_iff.mp hnode).1]
    exact hnode
  induction h with
  | scan hnode => exact .scan (hget hnode)
  | join hnode _ _ ihl ihr => exact .join (hget hnode) ihl ihr

section Columns

variable {columns : OutputColumns} {required : TableEntity × String}

theorem resolve_eq_ok {attr : Nat × DataType} (h : resolve columns required = .ok attr) :
    columns.findIdx? (fun c => c.1 = required.1 ∧ c.2.1 = required.2) = some attr.1 ∧
      columns[attr.1]? = some (required.1, required.2, attr.2) := by
  unfold resolve at h
  split at h
  · next idx hidx =>
    obtain ⟨column, hcolumn, h⟩ := bind_eq_ok.mp h
    cases h
    refine ⟨hidx, ?_⟩
    have hget := index_eq_ok.mp hcolumn
    obtain ⟨hlt, hmatch, -⟩ := List.findIdx?_eq_some_iff_getElem.mp hidx
    rw [List.getElem?_eq_getElem hlt] at hget ⊢
    obtain rfl := Option.some.inj hget
    obtain ⟨htable, hname⟩ := of_decide_eq_true hmatch
    rw [← htable, ← hname]
  · cases h

/-- A column found among the attributes of a table. -/
theorem resolve_attributes {entity : TableEntity} {attributes : List Attribute} {attr : Nat × DataType}
    (h : resolve (attributes.map fun attr => (entity, attr.name, attr.type)) required = .ok attr) :
    entity = required.1 ∧ attributes.findIdx? (fun attr => attr.name = required.2) = some attr.1 ∧
      attributes[attr.1]? = some ⟨attr.2, required.2⟩ := by
  obtain ⟨hidx, hcolumn⟩ := resolve_eq_ok h
  rw [List.getElem?_map] at hcolumn
  obtain ⟨⟨type, name⟩, hattr, hcolumn⟩ := Option.map_eq_some_iff.mp hcolumn
  cases hcolumn
  refine ⟨rfl, ?_, hattr⟩
  rw [List.findIdx?_map] at hidx
  simpa [Function.comp_def] using hidx

theorem findColumn_eq_some {entity : TableEntity} {column : String} {i : Nat}
    (h : findColumn columns entity column = some i) :
    (columns.map fun c => (c.1, c.2.1))[i]? = some (entity, column) := by
  obtain ⟨hlt, hmatch, -⟩ := List.findIdx?_eq_some_iff_getElem.mp h
  obtain ⟨htable, hname⟩ := of_decide_eq_true hmatch
  rw [List.getElem?_map, List.getElem?_eq_getElem hlt, Option.map_some, htable, hname]

theorem map_outputColumns {requiredAttrs : OutputAttrs} {attrs : List (Nat × DataType)}
    (h : attrs.length = requiredAttrs.length) :
    (outputColumns requiredAttrs attrs).map (fun c => (c.1, c.2.1)) = requiredAttrs ∧
      (outputColumns requiredAttrs attrs).map (fun c => c.2.2) = attrs.map Prod.snd := by
  unfold outputColumns
  constructor
  · apply List.ext_getElem
    · simp [h]
    · intro i hi hi'
      simp
  · apply List.ext_getElem
    · simp [h]
    · intro i hi hi'
      simp

end Columns

namespace Pipeline

/-- The tables of the scans of a tree, from left to right. -/
def tables (pipeline : Pipeline) : Operator → List TableEntity
  | .other child => tables pipeline child
  | .hashJoin _ left right => tables pipeline left ++ tables pipeline right
  | .scan tableAlias relationName =>
    match pipeline.scanEntity tableAlias relationName with
    | .ok entity => [entity]
    | .error _ => []
  | .failed _ => []

/-- A cell of an input is in the column of a table. -/
def IsCell (pipeline : Pipeline) (tableOf : Nat → Option TableEntity) (v : Nat × Nat)
    (x : TableEntity × String) : Prop :=
  tableOf v.1 = some x.1 ∧ pipeline.parsed.scope.columnIdx x.2 x.1 = .ok v.2

/-- Two columns of a condition of the join graph. -/
def Linked (pipeline : Pipeline) (x y : TableEntity × String) : Prop :=
  ∃ item ∈ pipeline.parsed.joinGraph, ∃ adj ∈ item.2, x = (item.1, adj.2.1) ∧ y = (adj.1, adj.2.2)

/-- Cells of two inputs whose columns are in a relation. -/
def OfCells (pipeline : Pipeline) (tableOf : Nat → Option TableEntity)
    (same : TableEntity × String → TableEntity × String → Prop) (v w : Nat × Nat) : Prop :=
  ∃ x y, pipeline.IsCell tableOf v x ∧ pipeline.IsCell tableOf w y ∧ same x y

/-- A tree of nodes has the joins and the scans of a tree of operators. -/
def Follows (pipeline : Pipeline) (tableOf : Nat → Option TableEntity) : Operator → PlanTree → Prop
  | .other child, tree => Follows pipeline tableOf child tree
  | .hashJoin _ pleft pright, .join _ left right _ _ _ =>
    Follows pipeline tableOf pleft left ∧ Follows pipeline tableOf pright right
  | .scan tableAlias relationName, .scan t _ =>
    ∃ entity, pipeline.scanEntity tableAlias relationName = .ok entity ∧ tableOf t = some entity
  | _, _ => False

/-- What `recurse` makes of a tree of operators: the nodes and inputs that it adds, the tree of the node
that it returns, and the columns of that node. -/
structure Loaded (pipeline : Pipeline) (tableOf : Nat → Option TableEntity) (op : Operator)
    (requiredAttrs : OutputAttrs) (plan plan' : Plan) (nodeIdx : Nat) (columns : OutputColumns)
    (tree : PlanTree) : Prop where
  nodes : ∃ more, plan'.nodes = plan.nodes ++ more
  inputs : plan'.inputs.length = plan.inputs.length + (pipeline.tables op).length
  files : ∀ entity ∈ pipeline.tables op, ∃ file, pipeline.cacheFile entity = .ok file
  unfolds : plan'.Unfolds nodeIdx tree
  follows : pipeline.Follows tableOf op tree
  leaves : tree.leaves = List.range' plan.inputs.length (pipeline.tables op).length
  names : columns.map (fun c => (c.1, c.2.1)) = requiredAttrs
  types : columns.map (fun c => c.2.2) = tree.attrs.map Prod.snd
  source : ∀ (j : Nat) x, requiredAttrs[j]? = some x →
    ∃ v, tree.source j = some v ∧ pipeline.IsCell tableOf v x
  keyed : tree.Keyed (pipeline.OfCells tableOf pipeline.Linked)

theorem joinCondition_linked {leftEntities rightEntities : List TableEntity}
    {condition : TableEntity × TableEntity × (String × String)}
    (h : pipeline.joinCondition leftEntities rightEntities = some condition) :
    pipeline.Linked (condition.1, condition.2.2.1) (condition.2.1, condition.2.2.2) := by
  let P : Option (TableEntity × TableEntity × (String × String)) → Prop := fun found =>
    ∀ c, found = some c → pipeline.Linked (c.1, c.2.2.1) (c.2.1, c.2.2.2)
  suffices hfound : P (pipeline.joinCondition leftEntities rightEntities) from hfound condition h
  refine List.foldlRecOn (motive := P) _ _ nofun fun found hfound entity _ => ?_
  cases hlookup : pipeline.parsed.joinGraph.lookup entity with
  | none => exact hfound
  | some adjacent =>
    refine List.foldlRecOn (motive := P) _ _ hfound fun found hfound adj hadj => ?_
    split
    · rintro c hc
      obtain rfl := Option.some.inj hc
      obtain ⟨pre, post, hgraph, -⟩ := List.lookup_eq_some_iff.mp hlookup
      have hitem : (entity, adjacent) ∈ pipeline.parsed.joinGraph := by simp [hgraph]
      exact ⟨_, hitem, adj, (pipeline.order.adjacent_perm adjacent).mem_iff.mp hadj, rfl, rfl⟩
    · exact hfound

theorem mapM_resolve_source {columns : OutputColumns} {requiredAttrs : OutputAttrs}
    {attrs : List (Nat × DataType)} (h : requiredAttrs.mapM (resolve columns) = .ok attrs) :
    attrs.length = requiredAttrs.length ∧ ∀ (j : Nat) x, requiredAttrs[j]? = some x →
      ∃ attr, attrs[j]? = some attr ∧
        columns.findIdx? (fun c => c.1 = x.1 ∧ c.2.1 = x.2) = some attr.1 ∧
        columns[attr.1]? = some (x.1, x.2, attr.2) := by
  refine ⟨mapM_ok_length h, fun j x hx => ?_⟩
  obtain ⟨attr, hattr, hresolve⟩ := mapM_ok_getElem? h hx
  exact ⟨attr, hattr, resolve_eq_ok hresolve⟩

/-- The scan of a table. -/
theorem recurseScan_loaded {tableOf : Nat → Option TableEntity} {tableAlias relationName : Option String}
    {requiredAttrs : OutputAttrs} {plan plan' : Plan} {nodeIdx : Nat} {columns : OutputColumns}
    (htables : ∀ (i : Nat) e, (pipeline.tables (.scan tableAlias relationName))[i]? = some e →
      tableOf (plan.inputs.length + i) = some e)
    (h : pipeline.recurseScan tableAlias relationName requiredAttrs plan =
      .ok (nodeIdx, columns, plan')) :
    ∃ tree, pipeline.Loaded tableOf (.scan tableAlias relationName) requiredAttrs plan plan' nodeIdx
      columns tree := by
  obtain ⟨entity, hentity, h⟩ := bind_eq_ok.mp h
  have hscan : pipeline.tables (.scan tableAlias relationName) = [entity] := by
    rw [tables, hentity]
  rw [hscan] at htables
  split at h
  · cases h
  · next attributes hattributes =>
    obtain ⟨file, hfile, h⟩ := bind_eq_ok.mp h
    split at h
    · cases h
    · next table _ =>
      obtain ⟨attrs, hattrs, h⟩ := bind_eq_ok.mp h
      cases h
      obtain ⟨hnames, htypes⟩ := map_outputColumns (mapM_ok_length hattrs)
      have htable : tableOf plan.inputs.length = some entity := htables 0 entity rfl
      refine ⟨.scan plan.inputs.length attrs, ⟨_, rfl⟩, ?_, ?_, .scan ?_, ⟨entity, hentity, htable⟩, ?_,
        hnames, htypes, fun j x hx => ?_, trivial⟩
      · rw [hscan]
        exact List.length_append
      · rw [hscan]
        exact fun e he => ⟨file, by rwa [List.mem_singleton.mp he]⟩
      · exact List.getElem?_concat_length
      · rw [hscan]
        rfl
      · obtain ⟨attr, hattr, hresolve⟩ := mapM_ok_getElem? hattrs hx
        obtain ⟨rfl, hidx, -⟩ := resolve_attributes hresolve
        refine ⟨(plan.inputs.length, attr.1), ?_, htable,
          Scope.columnIdx_eq_ok.mpr ⟨attributes, hattributes, hidx⟩⟩
        show attrs[j]?.map _ = _
        rw [hattr]
        rfl

/-- The column of the join condition among the columns of a side. -/
theorem Loaded.key {tableOf : Nat → Option TableEntity} {op : Operator} {requiredAttrs : OutputAttrs}
    {plan plan' : Plan} {nodeIdx : Nat} {columns : OutputColumns} {tree : PlanTree}
    (h : pipeline.Loaded tableOf op requiredAttrs plan plan' nodeIdx columns tree)
    {entity : TableEntity} {column : String} {i : Nat}
    (hfind : findColumn columns entity column = some i) :
    ∃ v, tree.source i = some v ∧ pipeline.IsCell tableOf v (entity, column) := by
  apply h.source i (entity, column)
  rw [← h.names]
  exact findColumn_eq_some hfind

section Join

variable {tableOf : Nat → Option TableEntity} {buildLeft : Bool} {pleft pright : Operator}
  {requiredLeft requiredRight requiredAttrs : OutputAttrs} {plan plan₁ plan₂ : Plan} {l r : Nat}
  {leftColumns rightColumns : OutputColumns} {left right : PlanTree}

/-- A resolved column of a join comes from the side that has it. -/
theorem Loaded.source_join {leftAttr rightAttr : Nat} {attrs : List (Nat × DataType)}
    (hl : pipeline.Loaded tableOf pleft requiredLeft plan plan₁ l leftColumns left)
    (hr : pipeline.Loaded tableOf pright requiredRight plan₁ plan₂ r rightColumns right)
    (hattrs : requiredAttrs.mapM (resolve (leftColumns ++ rightColumns)) = .ok attrs) {j : Nat}
    {x : TableEntity × String} (hx : requiredAttrs[j]? = some x) :
    ∃ v, (PlanTree.join buildLeft left right leftAttr rightAttr attrs).source j = some v ∧
      pipeline.IsCell tableOf v x := by
  obtain ⟨attr, hattr, -, hcolumn⟩ := (mapM_resolve_source hattrs).2 j x hx
  have hlength : left.attrs.length = leftColumns.length := by
    have hlengths := congrArg List.length hl.types
    simpa using hlengths.symm
  rw [PlanTree.source_join hattr]
  split
  case isTrue hside =>
    rw [List.getElem?_append_left (by omega)] at hcolumn
    apply hl.source attr.1 x
    rw [← hl.names, List.getElem?_map, hcolumn]
    rfl
  case isFalse hside =>
    rw [List.getElem?_append_right (by omega), ← hlength] at hcolumn
    apply hr.source (attr.1 - left.attrs.length) x
    rw [← hr.names, List.getElem?_map, hcolumn]
    rfl

/-- The join of two sides. -/
theorem Loaded.join {leftEntity rightEntity : TableEntity} {leftColumn rightColumn : String}
    {leftAttr rightAttr : Nat} {attrs : List (Nat × DataType)}
    (hl : pipeline.Loaded tableOf pleft requiredLeft plan plan₁ l leftColumns left)
    (hr : pipeline.Loaded tableOf pright requiredRight plan₁ plan₂ r rightColumns right)
    (hlinked : pipeline.Linked (leftEntity, leftColumn) (rightEntity, rightColumn))
    (hleft : findColumn leftColumns leftEntity leftColumn = some leftAttr)
    (hright : findColumn rightColumns rightEntity rightColumn = some rightAttr)
    (hattrs : requiredAttrs.mapM (resolve (leftColumns ++ rightColumns)) = .ok attrs) :
    pipeline.Loaded tableOf (.hashJoin buildLeft pleft pright) requiredAttrs plan
      (plan₂.newJoinNode ⟨buildLeft, l, r, leftAttr, rightAttr⟩ attrs).2 plan₂.nodes.length
      (outputColumns requiredAttrs attrs)
      (.join buildLeft left right leftAttr rightAttr attrs) := by
  obtain ⟨hnames, htypes⟩ := map_outputColumns (mapM_resolve_source hattrs).1
  obtain ⟨more₁, hmore₁⟩ := hl.nodes
  obtain ⟨more₂, hmore₂⟩ := hr.nodes
  obtain ⟨v, hv, hvcell⟩ := hl.key hleft
  obtain ⟨w, hw, hwcell⟩ := hr.key hright
  have hextend : ∀ {nodeIdx : Nat} {tree : PlanTree}, plan₂.Unfolds nodeIdx tree →
      (plan₂.newJoinNode ⟨buildLeft, l, r, leftAttr, rightAttr⟩ attrs).2.Unfolds nodeIdx tree :=
    fun h => h.extend rfl
  let node : PlanNode := ⟨.join ⟨buildLeft, l, r, leftAttr, rightAttr⟩, attrs⟩
  refine ⟨⟨more₁ ++ (more₂ ++ [node]), ?_⟩, ?_, ?_, ?_, ⟨hl.follows, hr.follows⟩, ?_, hnames, htypes,
    fun j x hx => hl.source_join hr hattrs hx, hl.keyed, hr.keyed, v, w, hv, hw, ?_⟩
  · show plan₂.nodes ++ [node] = _
    rw [hmore₂, hmore₁, List.append_assoc, List.append_assoc]
  · show plan₂.inputs.length = _
    rw [hr.inputs, hl.inputs, tables, List.length_append, Nat.add_assoc]
  · intro entity hentity
    exact (List.mem_append.mp hentity).elim (hl.files entity) (hr.files entity)
  · refine .join List.getElem?_concat_length (hextend ?_) (hextend hr.unfolds)
    exact hl.unfolds.extend hmore₂
  · rw [PlanTree.leaves, hl.leaves, hr.leaves, hl.inputs, tables, List.length_append,
      List.range'_append_1]
  · exact ⟨_, _, hvcell, hwcell, hlinked⟩

end Join

/-- What `recurse` returns. -/
theorem recurse_loaded (tableOf : Nat → Option TableEntity) {op : Operator}
    {requiredAttrs : OutputAttrs} {plan plan' : Plan} {nodeIdx : Nat} {columns : OutputColumns}
    (htables : ∀ (i : Nat) e, (pipeline.tables op)[i]? = some e →
      tableOf (plan.inputs.length + i) = some e)
    (h : pipeline.recurse op requiredAttrs plan = .ok (nodeIdx, columns, plan')) :
    ∃ tree, pipeline.Loaded tableOf op requiredAttrs plan plan' nodeIdx columns tree := by
  induction op generalizing requiredAttrs plan plan' nodeIdx columns with
  | other child ih =>
    obtain ⟨tree, htree⟩ := ih htables h
    exact ⟨tree, htree.nodes, htree.inputs, htree.files, htree.unfolds, htree.follows, htree.leaves,
      htree.names, htree.types, htree.source, htree.keyed⟩
  | hashJoin buildLeft pleft pright ihl ihr =>
    obtain ⟨leftEntities, -, h⟩ := bind_eq_ok.mp h
    obtain ⟨rightEntities, -, h⟩ := bind_eq_ok.mp h
    split at h
    · cases h
    · next leftEntity rightEntity leftColumn rightColumn hcondition =>
      obtain ⟨⟨leftRequired, rightRequired⟩, -, h⟩ := bind_eq_ok.mp h
      obtain ⟨⟨l, leftColumns, plan₁⟩, hleft, h⟩ := bind_eq_ok.mp h
      obtain ⟨⟨r, rightColumns, plan₂⟩, hright, h⟩ := bind_eq_ok.mp h
      obtain ⟨left, hl⟩ := ihl (fun i e he => htables i e (by
        rw [tables, List.getElem?_append_left (List.getElem?_eq_some_iff.mp he).1]
        exact he)) hleft
      obtain ⟨right, hr⟩ := ihr (fun i e he => by
        rw [hl.inputs, Nat.add_assoc]
        apply htables _ e
        rw [tables, List.getElem?_append_right (Nat.le_add_right _ _), Nat.add_sub_cancel_left]
        exact he) hright
      dsimp only at h
      split at h
      · next leftAttr rightAttr hleftAttr hrightAttr =>
        obtain ⟨attrs, hattrs, h⟩ := bind_eq_ok.mp h
        cases h
        exact ⟨_, hl.join hr (joinCondition_linked hcondition) hleftAttr hrightAttr hattrs⟩
      · cases h
  | scan tableAlias relationName => exact recurseScan_loaded htables h
  | failed fault => cases h

end Pipeline

end JoinOptimizer
