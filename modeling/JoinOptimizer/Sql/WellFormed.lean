import JoinOptimizer.Lib.Forest
import JoinOptimizer.Sql.Requests

/-! The plans that `load_join_pipeline` makes are well formed: their nodes are a tree in the order of the
recursion, their numbers stay within the columns they point into, and every entry is the column that was
requested at its place. -/

namespace JoinOptimizer

open Lib

/-- The nodes under a node. -/
def PlanNode.children (node : PlanNode) : List Nat :=
  match node.data with
  | .scan _ => []
  | .join join => [join.left, join.right]

/-- A plan with the nodes and inputs of another one first. -/
structure Plan.Extends (plan plan' : Plan) : Prop where
  nodes : plan.nodes <+: plan'.nodes
  inputs : plan.inputs <+: plan'.inputs

namespace Plan.Extends

variable {plan plan' plan'' : Plan}

theorem trans (h : plan.Extends plan') (h' : plan'.Extends plan'') : plan.Extends plan'' :=
  ⟨h.nodes.trans h'.nodes, h.inputs.trans h'.inputs⟩

theorem node (h : plan.Extends plan') {n : Nat} {node : PlanNode} (hnode : plan.nodes[n]? = some node) :
    plan'.nodes[n]? = some node := by
  obtain ⟨more, hmore⟩ := h.nodes
  rw [← hmore, List.getElem?_append_left (List.getElem?_eq_some_iff.mp hnode).1]
  exact hnode

theorem input (h : plan.Extends plan') {t : Nat} {table : ColumnarTable}
    (htable : plan.inputs[t]? = some table) : plan'.inputs[t]? = some table := by
  obtain ⟨more, hmore⟩ := h.inputs
  rw [← hmore, List.getElem?_append_left (List.getElem?_eq_some_iff.mp htable).1]
  exact htable

end Plan.Extends

/-- The tables that are loaded have a column for each attribute of the schema. -/
def LoadTable.OfSchema (load : LoadTable) (schema : Schema) : Prop :=
  ∀ t entity attributes table, schema.lookup entity.table = some attributes →
    load t entity attributes = .ok table → table.columns.length = attributes.length

namespace Pipeline

/-- Entry `j` of the attributes of a node has a type, and leads down the plan to the column `x` of the
table of a scan, whose type it is. -/
inductive Denotes (pipeline : Pipeline) (tableOf : Nat → Option TableEntity) (plan : Plan) :
    Nat → Nat → TableEntity × String → DataType → Prop
  | scan {n t j k : Nat} {attrs : List (Nat × DataType)} {x : TableEntity × String} {type : DataType} :
      plan.nodes[n]? = some ⟨.scan ⟨t⟩, attrs⟩ → attrs[j]? = some (k, type) →
      pipeline.IsCell tableOf (t, k) x → columnType pipeline.parsed.scope x = some type →
      Denotes pipeline tableOf plan n j x type
  | left {n j k : Nat} {join : JoinNode} {attrs : List (Nat × DataType)} {left : PlanNode}
      {x : TableEntity × String} {type : DataType} :
      plan.nodes[n]? = some ⟨.join join, attrs⟩ → attrs[j]? = some (k, type) →
      plan.nodes[join.left]? = some left → k < left.outputAttrs.length →
      Denotes pipeline tableOf plan join.left k x type → Denotes pipeline tableOf plan n j x type
  | right {n j k : Nat} {join : JoinNode} {attrs : List (Nat × DataType)} {left : PlanNode}
      {x : TableEntity × String} {type : DataType} :
      plan.nodes[n]? = some ⟨.join join, attrs⟩ → attrs[j]? = some (k, type) →
      plan.nodes[join.left]? = some left → left.outputAttrs.length ≤ k →
      Denotes pipeline tableOf plan join.right (k - left.outputAttrs.length) x type →
      Denotes pipeline tableOf plan n j x type

/-- A node has one entry for each of the requested columns, which is that column. -/
def Entries (pipeline : Pipeline) (tableOf : Nat → Option TableEntity) (plan : Plan) (n : Nat)
    (requiredAttrs : OutputAttrs) : Prop :=
  ∃ node, plan.nodes[n]? = some node ∧ node.outputAttrs.length = requiredAttrs.length ∧
    ∀ (j : Nat) x, requiredAttrs[j]? = some x →
      ∃ type, columnType pipeline.parsed.scope x = some type ∧ pipeline.Denotes tableOf plan n j x type

/-- A scan reads the table that was loaded for it, and columns that the table has. -/
def ScanFits (pipeline : Pipeline) (load : LoadTable) (tableOf : Nat → Option TableEntity) (plan : Plan)
    (t : Nat) (attrs : List (Nat × DataType)) : Prop :=
  ∃ entity attributes table, tableOf t = some entity ∧
    pipeline.parsed.scope.schema.lookup entity.table = some attributes ∧
    plan.inputs[t]? = some table ∧ load t entity attributes = .ok table ∧
    ∀ attr ∈ attrs, attr.1 < attributes.length

/-- A join compares the two columns of a condition of the join graph, and has columns of its sides. -/
def JoinFits (pipeline : Pipeline) (tableOf : Nat → Option TableEntity) (plan : Plan) (join : JoinNode)
    (attrs : List (Nat × DataType)) (condition : JoinCondition) : Prop :=
  pipeline.Linked condition.left condition.right ∧
  ∃ left right, plan.nodes[join.left]? = some left ∧ plan.nodes[join.right]? = some right ∧
    join.leftAttr < left.outputAttrs.length ∧ join.rightAttr < right.outputAttrs.length ∧
    (∃ type, pipeline.Denotes tableOf plan join.left join.leftAttr condition.left type) ∧
    (∃ type, pipeline.Denotes tableOf plan join.right join.rightAttr condition.right type) ∧
    ∀ attr ∈ attrs, attr.1 < left.outputAttrs.length + right.outputAttrs.length

/-- A node is what was requested. -/
inductive Answers (pipeline : Pipeline) (load : LoadTable) (tableOf : Nat → Option TableEntity)
    (plan : Plan) (n : Nat) : Request → Prop
  | scan {t : Nat} {attrs : List (Nat × DataType)} {requiredAttrs : OutputAttrs} :
      plan.nodes[n]? = some ⟨.scan ⟨t⟩, attrs⟩ → pipeline.Entries tableOf plan n requiredAttrs →
      pipeline.ScanFits load tableOf plan t attrs →
      Answers pipeline load tableOf plan n ⟨requiredAttrs, none⟩
  | join {join : JoinNode} {attrs : List (Nat × DataType)} {requiredAttrs : OutputAttrs}
      {condition : JoinCondition} :
      plan.nodes[n]? = some ⟨.join join, attrs⟩ → pipeline.Entries tableOf plan n requiredAttrs →
      pipeline.JoinFits tableOf plan join attrs condition →
      Answers pipeline load tableOf plan n ⟨requiredAttrs, some condition⟩

/-- A plan with the requests of its nodes. -/
structure WellFormed (pipeline : Pipeline) (load : LoadTable) (tableOf : Nat → Option TableEntity)
    (plan : Plan) (requests : List Request) : Prop where
  earlier : ∀ (n : Nat) node, plan.nodes[n]? = some node → ∀ c ∈ node.children, c < n
  root : plan.root < plan.nodes.length
  parent : ∀ n < plan.nodes.length,
    (plan.nodes.flatMap PlanNode.children).count n = if n = plan.root then 0 else 1
  length : requests.length = plan.nodes.length
  answers : ∀ (n : Nat) request, requests[n]? = some request →
    pipeline.Answers load tableOf plan n request
  columns : load.OfSchema pipeline.parsed.scope.schema → ∀ (n t : Nat) attrs,
    plan.nodes[n]? = some ⟨.scan ⟨t⟩, attrs⟩ →
    ∃ table, plan.inputs[t]? = some table ∧ ∀ attr ∈ attrs, attr.1 < table.columns.length
  exact : ∀ {n j : Nat} {x y type type'}, pipeline.Denotes tableOf plan n j x type →
    pipeline.Denotes tableOf plan n j y type' → x = y ∧ type = type'
  outputAttrs : ∃ condition, requests[plan.root]? = some ⟨pipeline.parsed.outputAttrs, condition⟩

variable {pipeline : Pipeline} {load : LoadTable} {tableOf : Nat → Option TableEntity}
  {plan plan' : Plan} {n j : Nat} {x y : TableEntity × String} {type type' : DataType}

theorem Denotes.columnType (h : pipeline.Denotes tableOf plan n j x type) :
    columnType pipeline.parsed.scope x = some type := by
  induction h with
  | scan _ _ _ htype => exact htype
  | left _ _ _ _ _ ih => exact ih
  | right _ _ _ _ _ ih => exact ih

theorem Denotes.unique (h : pipeline.Denotes tableOf plan n j x type)
    (h' : pipeline.Denotes tableOf plan n j y type') : x = y ∧ type = type' := by
  induction h generalizing y type' with
  | scan hnode hattr hcell _ =>
    cases h' with
    | scan hnode' hattr' hcell' _ =>
      rw [hnode] at hnode'
      cases hnode'
      rw [hattr] at hattr'
      cases hattr'
      exact ⟨hcell.unique hcell', rfl⟩
    | left hnode' _ _ _ _ => cases hnode.symm.trans hnode'
    | right hnode' _ _ _ _ => cases hnode.symm.trans hnode'
  | left hnode hattr hleft hlt _ ih =>
    cases h' with
    | scan hnode' _ _ _ => cases hnode.symm.trans hnode'
    | left hnode' hattr' _ _ h' =>
      cases hnode.symm.trans hnode'
      cases hattr.symm.trans hattr'
      exact ih h'
    | right hnode' hattr' hleft' hle _ =>
      cases hnode.symm.trans hnode'
      cases hattr.symm.trans hattr'
      cases hleft.symm.trans hleft'
      omega
  | right hnode hattr hleft hle _ ih =>
    cases h' with
    | scan hnode' _ _ _ => cases hnode.symm.trans hnode'
    | left hnode' hattr' hleft' hlt _ =>
      cases hnode.symm.trans hnode'
      cases hattr.symm.trans hattr'
      cases hleft.symm.trans hleft'
      omega
    | right hnode' hattr' hleft' _ h' =>
      cases hnode.symm.trans hnode'
      cases hattr.symm.trans hattr'
      cases hleft.symm.trans hleft'
      exact ih h'

/-- The attributes of a scan are below the number of columns of its input. -/
theorem Answers.columns {request : Request} (h : pipeline.Answers load tableOf plan n request)
    (hschema : load.OfSchema pipeline.parsed.scope.schema) {t : Nat} {attrs : List (Nat × DataType)}
    (hnode : plan.nodes[n]? = some ⟨.scan ⟨t⟩, attrs⟩) :
    ∃ table, plan.inputs[t]? = some table ∧ ∀ attr ∈ attrs, attr.1 < table.columns.length := by
  cases h with
  | join hnode' _ _ => cases hnode.symm.trans hnode'
  | scan hnode' _ hscan =>
    cases hnode.symm.trans hnode'
    obtain ⟨entity, attributes, table, -, hattributes, hinput, hload, hattrs⟩ := hscan
    refine ⟨table, hinput, ?_⟩
    rw [hschema t entity attributes table hattributes hload]
    exact hattrs

/-! ### More nodes -/

section Extends

theorem Denotes.extend (hextends : plan.Extends plan') (h : pipeline.Denotes tableOf plan n j x type) :
    pipeline.Denotes tableOf plan' n j x type := by
  induction h with
  | scan hnode hattr hcell htype => exact .scan (hextends.node hnode) hattr hcell htype
  | left hnode hattr hleft hlt _ ih =>
    exact .left (hextends.node hnode) hattr (hextends.node hleft) hlt ih
  | right hnode hattr hleft hle _ ih =>
    exact .right (hextends.node hnode) hattr (hextends.node hleft) hle ih

theorem Entries.extend (hextends : plan.Extends plan') {requiredAttrs : OutputAttrs}
    (h : pipeline.Entries tableOf plan n requiredAttrs) :
    pipeline.Entries tableOf plan' n requiredAttrs := by
  obtain ⟨node, hnode, hlength, hentries⟩ := h
  refine ⟨node, hextends.node hnode, hlength, fun j x hx => ?_⟩
  obtain ⟨type, htype, hdenotes⟩ := hentries j x hx
  exact ⟨type, htype, hdenotes.extend hextends⟩

theorem Answers.extend (hextends : plan.Extends plan') {request : Request}
    (h : pipeline.Answers load tableOf plan n request) :
    pipeline.Answers load tableOf plan' n request := by
  cases h with
  | scan hnode hentries hscan =>
    obtain ⟨entity, attributes, table, htable, hattributes, hinput, hload, hattrs⟩ := hscan
    exact .scan (hextends.node hnode) (hentries.extend hextends)
      ⟨entity, attributes, table, htable, hattributes, hextends.input hinput, hload, hattrs⟩
  | join hnode hentries hjoin =>
    obtain ⟨hlinked, left, right, hleft, hright, hleftAttr, hrightAttr, ⟨type, hl⟩, ⟨type', hr⟩,
      hattrs⟩ := hjoin
    exact .join (hextends.node hnode) (hentries.extend hextends) ⟨hlinked, left, right,
      hextends.node hleft, hextends.node hright, hleftAttr, hrightAttr, ⟨type, hl.extend hextends⟩,
      ⟨type', hr.extend hextends⟩, hattrs⟩

end Extends

/-! ### What `recurse` adds -/

/-- What `recurse` returns: the nodes and the inputs that it adds, with the requests of the nodes, the
last of which is the node that is returned, and the columns of that node. -/
structure Built (pipeline : Pipeline) (load : LoadTable) (tableOf : Nat → Option TableEntity)
    (op : Operator) (requiredAttrs : OutputAttrs) (plan plan' : Plan) (n : Nat)
    (columns : OutputColumns) (requests : List Request) : Prop where
  nodes : ∃ more, plan'.nodes = plan.nodes ++ more ∧ more.length = requests.length ∧
    Forest PlanNode.children plan.nodes.length more [n]
  inputs : ∃ more, plan'.inputs = plan.inputs ++ more ∧ more.length = (pipeline.tables op).length
  answers : ∀ (i : Nat) request, requests[i]? = some request →
    pipeline.Answers load tableOf plan' (plan.nodes.length + i) request
  last : ∃ earlier condition, requests = earlier ++ [⟨requiredAttrs, condition⟩] ∧
    n = plan.nodes.length + earlier.length
  columns : columns.map (fun c => (c.1, c.2.1)) = requiredAttrs ∧
    ∀ (j : Nat) c, columns[j]? = some c →
      pipeline.Denotes tableOf plan' n j (c.1, c.2.1) c.2.2

theorem Built.extends {op : Operator} {requiredAttrs : OutputAttrs} {columns : OutputColumns}
    {requests : List Request}
    (h : pipeline.Built load tableOf op requiredAttrs plan plan' n columns requests) :
    plan.Extends plan' := by
  obtain ⟨more, hmore, -, -⟩ := h.nodes
  obtain ⟨inputs, hinputs, -⟩ := h.inputs
  exact ⟨⟨more, hmore.symm⟩, ⟨inputs, hinputs.symm⟩⟩

theorem getElem?_outputColumns {requiredAttrs : OutputAttrs} {attrs : List (Nat × DataType)}
    {c : TableEntity × String × DataType} : (outputColumns requiredAttrs attrs)[j]? = some c ↔
      ∃ attr, requiredAttrs[j]? = some (c.1, c.2.1) ∧ attrs[j]? = some attr ∧ attr.2 = c.2.2 := by
  unfold outputColumns
  rw [List.getElem?_zipWith_eq_some]
  constructor
  · rintro ⟨x, attr, hx, hattr, rfl⟩
    exact ⟨attr, hx, hattr, rfl⟩
  · rintro ⟨attr, hx, hattr, htype⟩
    exact ⟨_, attr, hx, hattr, by rw [htype]⟩

/-- The entries of a node whose columns were all found. -/
theorem entries_of_resolve {requiredAttrs : OutputAttrs} {columns : OutputColumns}
    {attrs : List (Nat × DataType)} {data : NodeData}
    (hattrs : requiredAttrs.mapM (resolve columns) = .ok attrs)
    (hnode : plan.nodes[n]? = some ⟨data, attrs⟩)
    (hfound : ∀ (j k : Nat) x type, attrs[j]? = some (k, type) → resolve columns x = .ok (k, type) →
      pipeline.Denotes tableOf plan n j x type) :
    pipeline.Entries tableOf plan n requiredAttrs ∧
      ∀ (j : Nat) c, (outputColumns requiredAttrs attrs)[j]? = some c →
        pipeline.Denotes tableOf plan n j (c.1, c.2.1) c.2.2 := by
  refine ⟨⟨_, hnode, mapM_ok_length hattrs, fun j x hx => ?_⟩, fun j c hc => ?_⟩
  · obtain ⟨⟨k, type⟩, hattr, hresolve⟩ := mapM_ok_getElem? hattrs hx
    have hdenotes := hfound j k x type hattr hresolve
    exact ⟨type, hdenotes.columnType, hdenotes⟩
  · obtain ⟨⟨k, type⟩, hx, hattr, rfl⟩ := getElem?_outputColumns.mp hc
    obtain ⟨attr', hattr', hresolve⟩ := mapM_ok_getElem? hattrs hx
    cases hattr.symm.trans hattr'
    exact hfound j k _ _ hattr hresolve

theorem mapM_resolve_lt {requiredAttrs : OutputAttrs} {columns : OutputColumns}
    {attrs : List (Nat × DataType)} (h : requiredAttrs.mapM (resolve columns) = .ok attrs) :
    ∀ attr ∈ attrs, attr.1 < columns.length := by
  intro attr hattr
  obtain ⟨x, -, hx⟩ := mapM_ok_mem h hattr
  exact (List.getElem?_eq_some_iff.mp (resolve_eq_ok hx).2).1

theorem recurseScanWith_built {tableAlias relationName : Option String} {requiredAttrs : OutputAttrs}
    {columns : OutputColumns}
    (htables : ∀ (i : Nat) e, (pipeline.tables (.scan tableAlias relationName))[i]? = some e →
      tableOf (plan.inputs.length + i) = some e)
    (h : pipeline.recurseScanWith load tableAlias relationName requiredAttrs plan =
      .ok (n, columns, plan')) :
    pipeline.Built load tableOf (.scan tableAlias relationName) requiredAttrs plan plan' n columns
      [⟨requiredAttrs, none⟩] := by
  obtain ⟨entity, hentity, h⟩ := bind_eq_ok.mp h
  have hscan : pipeline.tables (.scan tableAlias relationName) = [entity] := by
    rw [tables, hentity]
  rw [hscan] at htables
  split at h
  · cases h
  · next attributes hattributes =>
    obtain ⟨table, hload, h⟩ := bind_eq_ok.mp h
    obtain ⟨attrs, hattrs, h⟩ := bind_eq_ok.mp h
    cases h
    have htable : tableOf plan.inputs.length = some entity := htables 0 entity rfl
    let node : PlanNode := ⟨.scan ⟨plan.inputs.length⟩, attrs⟩
    let final : Plan := ((plan.newInput table).2.newScanNode plan.inputs.length attrs).2
    have hnode : final.nodes[plan.nodes.length]? = some node := List.getElem?_concat_length
    have hfound : ∀ (j k : Nat) x type, attrs[j]? = some (k, type) →
        resolve (attributes.map fun attr => (entity, attr.name, attr.type)) x = .ok (k, type) →
        pipeline.Denotes tableOf final plan.nodes.length j x type := by
      intro j k x type hattr hresolve
      obtain ⟨rfl, hidx, hcolumn⟩ := resolve_attributes hresolve
      have hcell : pipeline.parsed.scope.columnIdx x.2 x.1 = .ok k :=
        Scope.columnIdx_eq_ok.mpr ⟨attributes, hattributes, hidx⟩
      refine .scan hnode hattr ⟨htable, hcell⟩ ?_
      simp only [columnType, hcell, hattributes, Option.bind_some, hcolumn, Option.map_some]
    obtain ⟨hentries, hcolumns⟩ := entries_of_resolve hattrs hnode hfound
    refine ⟨⟨[node], rfl, rfl, Forest.nil.node rfl⟩, ⟨[table], rfl, by rw [hscan]; rfl⟩, ?_,
      ⟨[], none, rfl, rfl⟩, (map_outputColumns (mapM_ok_length hattrs)).1, hcolumns⟩
    refine forall_getElem?_singleton.mpr ?_
    refine .scan hnode hentries ⟨entity, attributes, table, htable, hattributes,
      List.getElem?_concat_length, hload, ?_⟩
    simpa using mapM_resolve_lt hattrs

section Built

variable {op : Operator} {requiredAttrs : OutputAttrs} {columns : OutputColumns} {requests : List Request}

/-- The node that is returned. -/
theorem Built.node (h : pipeline.Built load tableOf op requiredAttrs plan plan' n columns requests) :
    ∃ node, plan'.nodes[n]? = some node ∧ node.outputAttrs.length = columns.length := by
  obtain ⟨earlier, condition, hrequests, rfl⟩ := h.last
  have hlast : requests[earlier.length]? = some ⟨requiredAttrs, condition⟩ := by
    rw [hrequests]
    exact List.getElem?_concat_length
  have hlength : columns.length = requiredAttrs.length := by
    have hlengths := congrArg List.length h.columns.1
    simpa using hlengths
  rw [hlength]
  cases h.answers _ _ hlast with
  | scan _ hentries _ =>
    obtain ⟨node, hnode, hentries, -⟩ := hentries
    exact ⟨node, hnode, hentries⟩
  | join _ hentries _ =>
    obtain ⟨node, hnode, hentries, -⟩ := hentries
    exact ⟨node, hnode, hentries⟩

/-- The column of a join condition among the columns of a side. -/
theorem Built.key (h : pipeline.Built load tableOf op requiredAttrs plan plan' n columns requests)
    {i : Nat} (hfind : findColumn columns x.1 x.2 = some i) :
    i < columns.length ∧ ∃ type, pipeline.Denotes tableOf plan' n i x type := by
  have hname := findColumn_eq_some hfind
  rw [List.getElem?_map] at hname
  obtain ⟨c, hc, hname⟩ := Option.map_eq_some_iff.mp hname
  have hdenotes := h.columns.2 i c hc
  rw [hname] at hdenotes
  exact ⟨(List.getElem?_eq_some_iff.mp hc).1, c.2.2, hdenotes⟩

end Built

section Join

variable {buildLeft : Bool} {pleft pright : Operator} {requiredLeft requiredRight requiredAttrs : OutputAttrs}
  {plan₁ plan₂ : Plan} {l r leftAttr rightAttr : Nat} {leftColumns rightColumns : OutputColumns}
  {leftRequests rightRequests : List Request} {attrs : List (Nat × DataType)}

/-- A column found among those of the two sides. -/
theorem Built.denotes_join {final : Plan} {k : Nat}
    (hl : pipeline.Built load tableOf pleft requiredLeft plan plan₁ l leftColumns leftRequests)
    (hr : pipeline.Built load tableOf pright requiredRight plan₁ plan₂ r rightColumns rightRequests)
    (hextends₁ : plan₁.Extends final) (hextends₂ : plan₂.Extends final)
    (hnode : final.nodes[n]? = some ⟨.join ⟨buildLeft, l, r, leftAttr, rightAttr⟩, attrs⟩)
    (hattr : attrs[j]? = some (k, type))
    (hresolve : resolve (leftColumns ++ rightColumns) x = .ok (k, type)) :
    pipeline.Denotes tableOf final n j x type := by
  obtain ⟨left, hleft, hlength⟩ := hl.node
  have hcolumn := (resolve_eq_ok hresolve).2
  by_cases hside : k < leftColumns.length
  · rw [List.getElem?_append_left hside] at hcolumn
    exact .left hnode hattr (hextends₁.node hleft) (by rwa [hlength])
      ((hl.columns.2 k _ hcolumn).extend hextends₁)
  · rw [List.getElem?_append_right (by omega), ← hlength] at hcolumn
    exact .right hnode hattr (hextends₁.node hleft) (by omega)
      ((hr.columns.2 _ _ hcolumn).extend hextends₂)

/-- The join of two sides. -/
theorem Built.join {condition : JoinCondition}
    (hl : pipeline.Built load tableOf pleft requiredLeft plan plan₁ l leftColumns leftRequests)
    (hr : pipeline.Built load tableOf pright requiredRight plan₁ plan₂ r rightColumns rightRequests)
    (hlinked : pipeline.Linked condition.left condition.right)
    (hleft : findColumn leftColumns condition.left.1 condition.left.2 = some leftAttr)
    (hright : findColumn rightColumns condition.right.1 condition.right.2 = some rightAttr)
    (hattrs : requiredAttrs.mapM (resolve (leftColumns ++ rightColumns)) = .ok attrs) :
    pipeline.Built load tableOf (.hashJoin buildLeft pleft pright) requiredAttrs plan
      (plan₂.newJoinNode ⟨buildLeft, l, r, leftAttr, rightAttr⟩ attrs).2 plan₂.nodes.length
      (outputColumns requiredAttrs attrs)
      (leftRequests ++ rightRequests ++ [⟨requiredAttrs, some condition⟩]) := by
  obtain ⟨more₁, hmore₁, hlength₁, hforest₁⟩ := hl.nodes
  obtain ⟨more₂, hmore₂, hlength₂, hforest₂⟩ := hr.nodes
  obtain ⟨inputs₁, hinputs₁, hinputsLength₁⟩ := hl.inputs
  obtain ⟨inputs₂, hinputs₂, hinputsLength₂⟩ := hr.inputs
  have hnodes₁ : plan₁.nodes.length = plan.nodes.length + leftRequests.length := by
    rw [hmore₁, List.length_append, hlength₁]
  have hnodes₂ : plan₂.nodes.length = plan₁.nodes.length + rightRequests.length := by
    rw [hmore₂, List.length_append, hlength₂]
  let node : PlanNode := ⟨.join ⟨buildLeft, l, r, leftAttr, rightAttr⟩, attrs⟩
  let final : Plan := (plan₂.newJoinNode ⟨buildLeft, l, r, leftAttr, rightAttr⟩ attrs).2
  have hnode : final.nodes[plan₂.nodes.length]? = some node := List.getElem?_concat_length
  have hextends₂ : plan₂.Extends final := ⟨List.prefix_append _ _, List.prefix_refl _⟩
  have hextends₁ : plan₁.Extends final := hr.extends.trans hextends₂
  obtain ⟨left, hleftNode, hleftLength⟩ := hl.node
  obtain ⟨right, hrightNode, hrightLength⟩ := hr.node
  obtain ⟨hleftAttr, leftType, hleftKey⟩ := hl.key hleft
  obtain ⟨hrightAttr, rightType, hrightKey⟩ := hr.key hright
  obtain ⟨hentries, hcolumns⟩ := entries_of_resolve hattrs hnode fun _ _ _ _ hattr hresolve =>
    hl.denotes_join hr hextends₁ hextends₂ hnode hattr hresolve
  refine ⟨⟨more₁ ++ more₂ ++ [node], ?_, ?_, ?_⟩, ⟨inputs₁ ++ inputs₂, ?_, ?_⟩, ?_,
    ⟨leftRequests ++ rightRequests, some condition, rfl, ?_⟩,
    (map_outputColumns (mapM_ok_length hattrs)).1, hcolumns⟩
  · show plan₂.nodes ++ [node] = _
    rw [hmore₂, hmore₁, List.append_assoc, List.append_assoc, List.append_assoc]
  · simp only [List.length_append, hlength₁, hlength₂, List.length_singleton]
  · rw [hnodes₁, ← hlength₁] at hnodes₂
    have hforest := (hforest₁.append (by rwa [hnodes₁, ← hlength₁] at hforest₂)).node (a := node) rfl
    rwa [List.length_append, hlength₂, ← Nat.add_assoc, ← hnodes₂] at hforest
  · show plan₂.inputs = _
    rw [hinputs₂, hinputs₁, List.append_assoc]
  · rw [tables, List.length_append, List.length_append, hinputsLength₁, hinputsLength₂]
  · refine forall_getElem?_append.mpr ⟨forall_getElem?_append.mpr ⟨fun i request hrequest => ?_,
      fun i request hrequest => ?_⟩, forall_getElem?_singleton.mpr ?_⟩
    · exact (hl.answers i request hrequest).extend hextends₁
    · rw [← Nat.add_assoc, ← hnodes₁]
      exact (hr.answers i request hrequest).extend hextends₂
    · rw [List.length_append, Nat.add_zero, ← Nat.add_assoc, ← hnodes₁, ← hnodes₂]
      refine .join hnode hentries ⟨hlinked, left, right, hextends₁.node hleftNode,
        hextends₂.node hrightNode, by rwa [hleftLength], by rwa [hrightLength],
        ⟨leftType, hleftKey.extend hextends₁⟩, ⟨rightType, hrightKey.extend hextends₂⟩, ?_⟩
      rw [hleftLength, hrightLength, ← List.length_append]
      exact mapM_resolve_lt hattrs
  · rw [List.length_append, ← Nat.add_assoc, ← hnodes₁, ← hnodes₂]

end Join

theorem splitJoin_linked {pleft pright : Operator} {requiredAttrs : OutputAttrs}
    {split : JoinCondition × OutputAttrs × OutputAttrs}
    (h : pipeline.splitJoin pleft pright requiredAttrs = .ok split) :
    pipeline.Linked split.1.left split.1.right := by
  obtain ⟨leftEntities, -, h⟩ := bind_eq_ok.mp h
  obtain ⟨rightEntities, -, h⟩ := bind_eq_ok.mp h
  split at h
  · cases h
  · next hcondition =>
    obtain ⟨required, -, h⟩ := bind_eq_ok.mp h
    cases h
    exact joinCondition_linked hcondition

/-- What `recurse` returns. -/
theorem recurseWith_built (tableOf : Nat → Option TableEntity) {op : Operator}
    {requiredAttrs : OutputAttrs} {columns : OutputColumns}
    (htables : ∀ (i : Nat) e, (pipeline.tables op)[i]? = some e →
      tableOf (plan.inputs.length + i) = some e)
    (h : pipeline.recurseWith load op requiredAttrs plan = .ok (n, columns, plan')) :
    ∃ requests, pipeline.requests op requiredAttrs = .ok requests ∧
      pipeline.Built load tableOf op requiredAttrs plan plan' n columns requests := by
  induction op generalizing requiredAttrs plan plan' n columns with
  | other child ih =>
    obtain ⟨requests, hrequests, hbuilt⟩ := ih htables h
    exact ⟨requests, hrequests, hbuilt.nodes, hbuilt.inputs, hbuilt.answers, hbuilt.last, hbuilt.columns⟩
  | scan tableAlias relationName => exact ⟨_, rfl, recurseScanWith_built htables h⟩
  | failed fault => cases h
  | hashJoin buildLeft pleft pright ihl ihr =>
    obtain ⟨⟨condition, leftRequired, rightRequired⟩, hsplit, h⟩ := bind_eq_ok.mp h
    obtain ⟨⟨l, leftColumns, plan₁⟩, hleft, h⟩ := bind_eq_ok.mp h
    obtain ⟨⟨r, rightColumns, plan₂⟩, hright, h⟩ := bind_eq_ok.mp h
    rw [tables, forall_getElem?_append] at htables
    obtain ⟨leftRequests, hleftRequests, hl⟩ := ihl htables.1 hleft
    obtain ⟨inputs, hinputs, hlength⟩ := hl.inputs
    obtain ⟨rightRequests, hrightRequests, hr⟩ := ihr (fun i e he => by
      rw [hinputs, List.length_append, hlength, Nat.add_assoc]
      exact htables.2 i e he) hright
    dsimp only at h
    split at h
    · next leftAttr rightAttr hleftAttr hrightAttr =>
      obtain ⟨attrs, hattrs, h⟩ := bind_eq_ok.mp h
      cases h
      refine ⟨_, ?_, hl.join hr (splitJoin_linked hsplit) hleftAttr hrightAttr hattrs⟩
      rw [requests, hsplit, ok_bind]
      dsimp only
      rw [hleftRequests, ok_bind, hrightRequests, ok_bind]
    · cases h

end Pipeline

/-- A plan that `load_join_pipeline` returns is well formed for the requests that its recursion makes. -/
theorem loadJoinPipelineWith_wellFormed {pipeline : Pipeline} {load : LoadTable} {node : PlanJson}
    {plan : Plan} (h : pipeline.loadJoinPipelineWith load node = .ok plan) :
    ∃ requests, pipeline.requests node.operator pipeline.parsed.outputAttrs = .ok requests ∧
      pipeline.WellFormed load (fun t => (pipeline.tables node.operator)[t]?) plan requests := by
  obtain ⟨⟨root, columns, plan'⟩, hrecurse, h⟩ := bind_eq_ok.mp h
  cases h
  obtain ⟨requests, hrequests, hbuilt⟩ := Pipeline.recurseWith_built
    (fun t => (pipeline.tables node.operator)[t]?) (fun i e he => by simpa using he) hrecurse
  obtain ⟨more, hmore, hlength, hforest⟩ := hbuilt.nodes
  obtain rfl : plan'.nodes = more := hmore
  have hextends : plan'.Extends { plan' with root := root } :=
    ⟨List.prefix_refl _, List.prefix_refl _⟩
  have hanswers : ∀ (n : Nat) request, requests[n]? = some request →
      pipeline.Answers load (fun t => (pipeline.tables node.operator)[t]?) { plan' with root := root } n
        request := by
    intro n request hrequest
    have hanswer := (hbuilt.answers n request hrequest).extend hextends
    rwa [show ([] : List PlanNode).length + n = n from n.zero_add] at hanswer
  refine ⟨requests, hrequests, fun n node hnode c hc => ?_, ?_, fun n hn => hforest.count hn,
    hlength.symm, hanswers, ?_, fun h h' => h.unique h', ?_⟩
  · simpa using hforest.earlier n node hnode c hc
  · simpa using hforest.lt_of_mem (List.mem_singleton_self root)
  · intro hschema n t attrs hnode
    have hn : n < requests.length := hlength ▸ (List.getElem?_eq_some_iff.mp hnode).1
    exact (hanswers n _ (List.getElem?_eq_getElem hn)).columns hschema hnode
  · obtain ⟨earlier, condition, rfl, rfl⟩ := hbuilt.last
    refine ⟨condition, ?_⟩
    show (earlier ++ _)[0 + earlier.length]? = _
    rw [Nat.zero_add]
    exact List.getElem?_concat_length

/-- The two tables of `pairPipeline`, with a column for each attribute and no rows. -/
def pairColumns : Pipeline :=
  { pairPipeline with
    cache := fun file => (twoTables.lookup file.table).map fun attributes =>
      ⟨0, attributes.map fun attr => ⟨attr.type, []⟩⟩ }

def pairRequests : List Request :=
  [⟨[(⟨"t", 0⟩, "x")], none⟩, ⟨[(⟨"u", 0⟩, "y")], none⟩,
    ⟨[(⟨"t", 0⟩, "x")], some ⟨(⟨"t", 0⟩, "x"), (⟨"u", 0⟩, "y")⟩⟩]

theorem pairColumns_ofSchema :
    LoadTable.OfSchema pairColumns.cacheTable pairColumns.parsed.scope.schema := by
  intro t entity attributes table hattributes hload
  obtain ⟨file, hfile, hload⟩ := bind_eq_ok.mp hload
  have hcache : pairColumns.cache file =
      some ⟨0, attributes.map fun attr => ⟨attr.type, []⟩⟩ := by
    show Option.map _ (twoTables.lookup file.table) = _
    rw [Pipeline.cacheFile_table hfile]
    exact congrArg (Option.map _) hattributes
  rw [hcache] at hload
  cases hload
  exact List.length_map _

theorem loadJoinPipelineWith_wellFormed_pair :
    LoadTable.OfSchema pairColumns.cacheTable pairColumns.parsed.scope.schema ∧
    ∃ plan, pairColumns.loadJoinPipeline pairNode = .ok plan ∧
      pairColumns.requests pairNode.operator pairColumns.parsed.outputAttrs = .ok pairRequests ∧
      pairColumns.WellFormed pairColumns.cacheTable
        (fun t => [⟨"t", 0⟩, (⟨"u", 0⟩ : TableEntity)][t]?) plan pairRequests := by
  refine ⟨pairColumns_ofSchema, ?_⟩
  have hload : ∃ plan, pairColumns.loadJoinPipeline pairNode = .ok plan := by
    rw [Pipeline.loadJoinPipeline, pairNode_operator]
    exact ⟨_, rfl⟩
  obtain ⟨plan, hload⟩ := hload
  have hrequests : pairColumns.requests pairNode.operator pairColumns.parsed.outputAttrs =
      .ok pairRequests := by
    rw [pairNode_operator]
    rfl
  obtain ⟨requests, hok, hwellFormed⟩ := loadJoinPipelineWith_wellFormed
    (Pipeline.loadJoinPipeline_eq pairNode ▸ hload)
  cases hrequests.symm.trans hok
  rw [pairNode_operator] at hwellFormed
  exact ⟨plan, hload, hrequests, hwellFormed⟩

end JoinOptimizer
