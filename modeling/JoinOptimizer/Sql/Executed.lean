import JoinOptimizer.Sql.Answer
import JoinOptimizer.Plan.Result

/-! A query from its text to the rows that `execute` makes of its plan. -/

namespace JoinOptimizer

open Lib PlanTree

section Plans

variable {hashKey : Int32 → BitVec 64} {tables : List Table} {plan : Plan} {tree : PlanTree}
  {schedules : Nat → JoinSchedule} {fuel : Nat}

/-- `execute` makes the records `target` exactly when the scans complete and the cells as they read them
make the records. -/
theorem execute_perm_iff (hinputs : Holding tables plan.inputs) (htree : plan.Unfolds plan.root tree)
    (hwf : tree.WellFormed (tables.map Table.types))
    (hlimits : tree.OnScans fun t k _ => OnPages plan LimitsFit t k)
    (hrows : tree.Bounded (seenCell plan.inputs tables) (tableRows tables)) (fresh : Nat → Nat → Page)
    (hfuel : tree.height ≤ fuel) (target : List (List Data)) :
    (∃ result table, execute hashKey fresh plan schedules fuel = .ok result ∧
      fromColumnar result = .ok table ∧ table.data.Perm target) ↔
    (tree.OnScans fun t k _ => ∃ d, plan.scannedColumn t k = some d) ∧
      ((tree.rows (seenCell plan.inputs tables) (tableRows tables)).map
        (tree.record (seenCell plan.inputs tables))).Perm target := by
  constructor
  · rintro ⟨result, table, hrun, hdecoded, hperm⟩
    obtain ⟨cols, hcols, -⟩ := bind_eq_ok.mp hrun
    have hscans := scans_of_ok htree hcols
    obtain ⟨result', table', hrun', hdecoded', hperm'⟩ :=
      execute_seen hinputs htree hwf hlimits hrows hscans hashKey schedules fresh hfuel
    obtain rfl : result = result' := Except.ok.inj (hrun.symm.trans hrun')
    obtain rfl : table = table' := Except.ok.inj (hdecoded.symm.trans hdecoded')
    exact ⟨hscans, hperm'.symm.trans hperm⟩
  · rintro ⟨hscans, hperm⟩
    obtain ⟨result, table, hrun, hdecoded, hperm'⟩ :=
      execute_seen hinputs htree hwf hlimits hrows hscans hashKey schedules fresh hfuel
    exact ⟨result, table, hrun, hdecoded, hperm'.trans hperm⟩

/-- Inside the limits the scans of a well-formed plan complete exactly when the long strings are
followed. -/
theorem scans_complete_iff (hinputs : Holding tables plan.inputs)
    (hwf : tree.WellFormed (tables.map Table.types))
    (hlimits : tree.OnScans fun t k _ => OnPages plan LimitsFit t k) :
    (tree.OnScans fun t k _ => ∃ d, plan.scannedColumn t k = some d) ↔
      tree.OnScans fun t k type => type = .VARCHAR →
        OnPages plan (fun _ _ pages => LongStringsFollowed pages) t k := by
  have hboth := hwf.onScans.and hlimits
  refine ⟨fun h => (hboth.and h).imp ?_, fun h => (hboth.and h).imp ?_⟩
  · rintro t k type ⟨⟨hdecl, hfit⟩, hd⟩
    exact (hinputs.completes_iff hdecl hfit).mp hd
  · rintro t k type ⟨⟨hdecl, hfit⟩, hfollow⟩
    exact (hinputs.completes_iff hdecl hfit).mpr hfollow

/-- The long strings of the scanned columns are followed, and no row takes a key or a cell that a scan
misreads. -/
structure PlanTree.ReadsRight (tree : PlanTree) (plan : Plan) (tables : List Table) : Prop where
  followed : tree.OnScans fun t k type => type = .VARCHAR →
    OnPages plan (fun _ _ pages => LongStringsFollowed pages) t k
  places : ∀ row ∈ tree.rows (tableCell tables) (tableRows tables), ∀ p ∈ tree.places row,
    ¬ MisreadAt plan.inputs tables p.1 p.2.1 p.2.2

/-- Where the naive evaluation makes the records `target`, `execute` makes them exactly when the cells are
read right. -/
theorem execute_naive_iff (hinputs : Holding tables plan.inputs) (htree : plan.Unfolds plan.root tree)
    (hwf : tree.WellFormed (tables.map Table.types))
    (hlimits : tree.OnScans fun t k _ => OnPages plan LimitsFit t k)
    (hrows : tree.Bounded (seenCell plan.inputs tables) (tableRows tables)) (fresh : Nat → Nat → Page)
    (hfuel : tree.height ≤ fuel) {target : List (List Data)} (htarget : (tree.naive tables).Perm target) :
    (∃ result table, execute hashKey fresh plan schedules fuel = .ok result ∧
      fromColumnar result = .ok table ∧ table.data.Perm target) ↔
    tree.ReadsRight plan tables := by
  have hreread := records_perm_iff (n := tableRows tables) hinputs.rereads hwf
  simp only [hinputs.agree_iff, ← naive_eq hwf] at hreread
  rw [execute_perm_iff hinputs htree hwf hlimits hrows fresh hfuel, scans_complete_iff hinputs hwf hlimits]
  constructor
  · rintro ⟨hfollowed, hperm⟩
    exact ⟨hfollowed, hreread.mp (hperm.trans htarget.symm)⟩
  · rintro ⟨hfollowed, hplaces⟩
    exact ⟨hfollowed, (hreread.mpr hplaces).trans htarget⟩

end Plans

namespace Pipeline

/-- What the cache holds for a file, as tables. -/
def Holds (pipeline : Pipeline) (contents : CacheFile → Table) : Prop :=
  ∀ file ct, pipeline.cache file = some ct → ct.Holds (contents file)

/-- A query of columns that `execute` can select and join: the select list names columns of type INT32 or
VARCHAR, the joins compare columns of type INT32, and a `size_t` counts the columns. -/
structure Joinable (pipeline : Pipeline) (op : Operator) : Prop where
  nonempty : pipeline.parsed.outputAttrs ≠ []
  columns : ∀ x ∈ pipeline.parsed.outputAttrs, ∃ type, columnType pipeline.parsed.scope x = some type ∧
    (type = .INT32 ∨ type = .VARCHAR)
  keys : ∀ x y, pipeline.Linked x y → columnType pipeline.parsed.scope x = some .INT32 ∧
    columnType pipeline.parsed.scope y = some .INT32
  count : pipeline.parsed.outputAttrs.length + 2 * (pipeline.tables op).length < 2 ^ 64

section Split

variable {leftEntities rightEntities : List TableEntity} {required : OutputAttrs}
  {split : OutputAttrs × OutputAttrs}

/-- The required attributes of the two sides are those of the node. -/
theorem splitRequired_perm (h : splitRequired leftEntities rightEntities required = .ok split) :
    (split.1 ++ split.2).Perm required := by
  induction required generalizing split with
  | nil =>
    cases h
    exact .refl _
  | cons x required ih =>
    unfold splitRequired at h
    split at h
    · obtain ⟨rest, hrest, h⟩ := bind_eq_ok.mp h
      cases h
      exact (ih hrest).cons x
    · split at h
      · obtain ⟨rest, hrest, h⟩ := bind_eq_ok.mp h
        cases h
        exact List.perm_middle.trans ((ih hrest).cons x)
      · cases h

theorem length_addKey_le (required : OutputAttrs) (entity : TableEntity) (column : String) :
    (addKey required entity column).length ≤ required.length + 1 := by
  unfold addKey
  split
  · omega
  · rw [List.length_append, List.length_singleton]

theorem mem_addKey {required : OutputAttrs} {entity : TableEntity} {column : String}
    {x : TableEntity × String} (h : x ∈ addKey required entity column) :
    x ∈ required ∨ x = (entity, column) := by
  unfold addKey at h
  split at h
  · exact .inl h
  · exact (List.mem_append.mp h).imp_right List.mem_singleton.mp

theorem addKey_ne_nil (required : OutputAttrs) (entity : TableEntity) (column : String) :
    addKey required entity column ≠ [] := by
  unfold addKey
  split
  · next hmem => exact List.ne_nil_of_mem hmem
  · exact List.append_ne_nil_of_right_ne_nil _ (List.cons_ne_nil _ _)

end Split

variable {pipeline : Pipeline} {tableOf : Nat → Option TableEntity} {types : List (List DataType)}
  {requiredAttrs : OutputAttrs} {plan plan' : Plan} {nodeIdx : Nat} {columns : OutputColumns}
  {tree left right : PlanTree} {op : Operator}

/-- The columns have the types of the schema. -/
def TypedColumns (pipeline : Pipeline) (columns : OutputColumns) : Prop :=
  ∀ c ∈ columns, columnType pipeline.parsed.scope (c.1, c.2.1) = some c.2.2

/-- A column of a node's table in the schema, and its type. -/
theorem declared_of_isCell
    (htypes : ∀ t entity attributes, tableOf t = some entity →
      pipeline.parsed.scope.schema.lookup entity.table = some attributes →
      types[t]? = some (attributes.map Attribute.type)) {v : Nat × Nat} {x : TableEntity × String}
    (hcell : pipeline.IsCell tableOf v x) :
    (types[v.1]?.bind (·[v.2]?)) = columnType pipeline.parsed.scope x := by
  obtain ⟨htable, hidx⟩ := hcell
  obtain ⟨attributes, hattributes, -⟩ := Scope.columnIdx_eq_ok.mp hidx
  unfold columnType
  rw [htypes v.1 x.1 attributes htable hattributes, hidx, Option.bind_some, List.getElem?_map]
  simp only [hattributes, Option.bind_some]

theorem mem_outputColumns {attrs : List (Nat × DataType)} {c : TableEntity × String × DataType}
    (hattrs : requiredAttrs.mapM (resolve columns) = .ok attrs)
    (hc : c ∈ outputColumns requiredAttrs attrs) :
    ∃ x ∈ requiredAttrs, ∃ attr, resolve columns x = .ok attr ∧ c = (x.1, x.2, attr.2) := by
  obtain ⟨j, hj⟩ := List.mem_iff_getElem?.mp hc
  obtain ⟨x, attr, hx, hattr, rfl⟩ := List.getElem?_zipWith_eq_some.mp hj
  obtain ⟨attr', hattr', hresolve⟩ := mapM_ok_getElem? hattrs hx
  obtain rfl := Option.some.inj (hattr.symm.trans hattr')
  exact ⟨x, List.mem_of_getElem? hx, attr, hresolve, rfl⟩

theorem columnType_of_attributes {x : TableEntity × String} {entity : TableEntity}
    {attributes : List Attribute} {attr : Nat × DataType}
    (hattributes : pipeline.parsed.scope.schema.lookup entity.table = some attributes)
    (h : resolve (attributes.map fun attr => (entity, attr.name, attr.type)) x = .ok attr) :
    columnType pipeline.parsed.scope x = some attr.2 := by
  obtain ⟨rfl, hfind, hattr⟩ := resolve_attributes h
  have hidx := Scope.columnIdx_eq_ok.mpr ⟨attributes, hattributes, hfind⟩
  unfold columnType
  simp only [hidx, hattributes, Option.bind_some, hattr, Option.map_some]

/-- The attributes of a node are as many as were required, and of the types of the columns. -/
theorem Loaded.length_attrs
    (hloaded : pipeline.Loaded tableOf op requiredAttrs plan plan' nodeIdx columns tree) :
    columns.length = requiredAttrs.length ∧ tree.attrs.length = requiredAttrs.length := by
  have htypes := congrArg List.length hloaded.types
  have hnames := congrArg List.length hloaded.names
  simp only [List.length_map] at htypes hnames
  exact ⟨hnames, htypes ▸ hnames⟩

theorem Loaded.attr_type
    (hloaded : pipeline.Loaded tableOf op requiredAttrs plan plan' nodeIdx columns tree)
    (htyped : pipeline.TypedColumns columns) {j : Nat} {x : TableEntity × String}
    (hx : requiredAttrs[j]? = some x) :
    ∃ attr, tree.attrs[j]? = some attr ∧ columnType pipeline.parsed.scope x = some attr.2 := by
  have hnames := hloaded.names
  rw [← hnames, List.getElem?_map, Option.map_eq_some_iff] at hx
  obtain ⟨c, hc, rfl⟩ := hx
  have htype := congrArg (·[j]?) hloaded.types
  simp only [List.getElem?_map, hc, Option.map_some] at htype
  obtain ⟨attr, hattr, hsnd⟩ := Option.map_eq_some_iff.mp htype.symm
  exact ⟨attr, hattr, by rw [hsnd, htyped c (List.mem_of_getElem? hc)]⟩

/-- The scan of a table, with the types of its columns. -/
theorem recurseScan_wellFormed {tableAlias relationName : Option String}
    (htypes : ∀ t entity attributes, tableOf t = some entity →
      pipeline.parsed.scope.schema.lookup entity.table = some attributes →
      types[t]? = some (attributes.map Attribute.type))
    (htables : ∀ (i : Nat) e, (pipeline.tables (.scan tableAlias relationName))[i]? = some e →
      tableOf (plan.inputs.length + i) = some e) (hne : requiredAttrs ≠ [])
    (hcolumns : ∀ x ∈ requiredAttrs, ∃ type, columnType pipeline.parsed.scope x = some type ∧
      (type = .INT32 ∨ type = .VARCHAR))
    (h : pipeline.recurseScan tableAlias relationName requiredAttrs plan =
      .ok (nodeIdx, columns, plan')) :
    ∃ tree, pipeline.Loaded tableOf (.scan tableAlias relationName) requiredAttrs plan plan' nodeIdx
        columns tree ∧ tree.WellFormed types ∧ pipeline.TypedColumns columns := by
  obtain ⟨tree, hloaded⟩ := recurseScan_loaded htables h
  obtain ⟨entity, -, h⟩ := bind_eq_ok.mp h
  split at h
  · cases h
  · next attributes hattributes =>
    obtain ⟨file, -, h⟩ := bind_eq_ok.mp h
    split at h
    · cases h
    · obtain ⟨attrs, hattrs, h⟩ := bind_eq_ok.mp h
      cases h
      have htyped : pipeline.TypedColumns (outputColumns requiredAttrs attrs) := by
        intro c hc
        obtain ⟨x, -, attr, hresolve, rfl⟩ := mem_outputColumns hattrs hc
        exact columnType_of_attributes hattributes hresolve
      refine ⟨tree, hloaded, ?_, htyped⟩
      have hfollows := hloaded.follows
      cases tree with
      | join _ left right _ _ _ => exact hfollows.elim
      | scan t attrs' =>
        have hlength : attrs'.length = requiredAttrs.length := hloaded.length_attrs.2
        refine ⟨fun hnil => hne (List.eq_nil_of_length_eq_zero ?_), fun attr hattr => ?_⟩
        · rw [← hlength, hnil, List.length_nil]
        · obtain ⟨j, hj⟩ := List.mem_iff_getElem?.mp hattr
          have hlt : j < requiredAttrs.length := by
            rw [← hlength]
            exact (List.getElem?_eq_some_iff.mp hj).1
          have hx := List.getElem?_eq_getElem hlt
          obtain ⟨v, hv, hcell⟩ := hloaded.source j _ hx
          obtain ⟨attr', hattr', htype⟩ := hloaded.attr_type htyped hx
          obtain rfl : attr = attr' := Option.some.inj (hj.symm.trans hattr')
          obtain ⟨type, htype', hkind⟩ := hcolumns _ (List.getElem_mem hlt)
          obtain rfl : type = attr.2 := Option.some.inj (htype'.symm.trans htype)
          obtain ⟨attr', hattr', rfl⟩ := Option.map_eq_some_iff.mp hv
          obtain rfl : attr = attr' := Option.some.inj (hj.symm.trans hattr')
          exact ⟨(declared_of_isCell htypes hcell).trans htype, hkind⟩

/-- A plan scans a table. -/
theorem tables_pos (h : pipeline.recurse op requiredAttrs plan = .ok (nodeIdx, columns, plan')) :
    0 < (pipeline.tables op).length := by
  induction op generalizing requiredAttrs plan plan' nodeIdx columns with
  | other child ih => exact ih h
  | failed fault => cases h
  | scan tableAlias relationName =>
    obtain ⟨entity, hentity, -⟩ := bind_eq_ok.mp h
    rw [tables, hentity]
    exact Nat.one_pos
  | hashJoin buildLeft pleft pright ihl ihr =>
    obtain ⟨leftEntities, -, h⟩ := bind_eq_ok.mp h
    obtain ⟨rightEntities, -, h⟩ := bind_eq_ok.mp h
    split at h
    · cases h
    · obtain ⟨required, -, h⟩ := bind_eq_ok.mp h
      obtain ⟨left, hleft, -⟩ := bind_eq_ok.mp h
      have hpos := ihl hleft
      rw [tables, List.length_append]
      omega

/-- What `recurse` returns for columns that can be selected and joined is well formed. -/
theorem recurse_wellFormed
    (htypes : ∀ t entity attributes, tableOf t = some entity →
      pipeline.parsed.scope.schema.lookup entity.table = some attributes →
      types[t]? = some (attributes.map Attribute.type))
    (hkeys : ∀ x y, pipeline.Linked x y → columnType pipeline.parsed.scope x = some .INT32 ∧
      columnType pipeline.parsed.scope y = some .INT32)
    (htables : ∀ (i : Nat) e, (pipeline.tables op)[i]? = some e →
      tableOf (plan.inputs.length + i) = some e) (hne : requiredAttrs ≠ [])
    (hcolumns : ∀ x ∈ requiredAttrs, ∃ type, columnType pipeline.parsed.scope x = some type ∧
      (type = .INT32 ∨ type = .VARCHAR))
    (hcount : requiredAttrs.length + 2 * (pipeline.tables op).length < 2 ^ 64)
    (h : pipeline.recurse op requiredAttrs plan = .ok (nodeIdx, columns, plan')) :
    ∃ tree, pipeline.Loaded tableOf op requiredAttrs plan plan' nodeIdx columns tree ∧
      tree.WellFormed types ∧ pipeline.TypedColumns columns := by
  induction op generalizing requiredAttrs plan plan' nodeIdx columns with
  | other child ih =>
    obtain ⟨tree, hloaded, hrest⟩ := ih htables hne hcolumns hcount h
    exact ⟨tree, ⟨hloaded.nodes, hloaded.inputs, hloaded.files, hloaded.unfolds, hloaded.follows,
      hloaded.leaves, hloaded.names, hloaded.types, hloaded.source, hloaded.keyed⟩, hrest⟩
  | scan tableAlias relationName => exact recurseScan_wellFormed htypes htables hne hcolumns h
  | failed fault => cases h
  | hashJoin buildLeft pleft pright ihl ihr =>
    obtain ⟨leftEntities, -, h⟩ := bind_eq_ok.mp h
    obtain ⟨rightEntities, -, h⟩ := bind_eq_ok.mp h
    split at h
    · cases h
    · next leftEntity rightEntity leftColumn rightColumn hcondition =>
      obtain ⟨⟨leftRequired, rightRequired⟩, hsplit, h⟩ := bind_eq_ok.mp h
      obtain ⟨⟨l, leftColumns, plan₁⟩, hleft, h⟩ := bind_eq_ok.mp h
      obtain ⟨⟨r, rightColumns, plan₂⟩, hright, h⟩ := bind_eq_ok.mp h
      have hlinked := joinCondition_linked hcondition
      obtain ⟨hleftKey, hrightKey⟩ := hkeys _ _ hlinked
      have hperm := splitRequired_perm hsplit
      have hlength := hperm.length_eq
      rw [List.length_append] at hlength
      dsimp only at hperm hlength
      have hside : ∀ {side : OutputAttrs} {entity : TableEntity} {column : String},
          (∀ x ∈ side, x ∈ leftRequired ++ rightRequired) →
          columnType pipeline.parsed.scope (entity, column) = some .INT32 →
          ∀ x ∈ addKey side entity column, ∃ type, columnType pipeline.parsed.scope x = some type ∧
            (type = .INT32 ∨ type = .VARCHAR) := by
        intro side entity column hmem hkey x hx
        rcases mem_addKey hx with hx | rfl
        · exact hcolumns x (hperm.mem_iff.mp (hmem x hx))
        · exact ⟨_, hkey, .inl rfl⟩
      have hposl := tables_pos hleft
      have hposr := tables_pos hright
      have haddl := length_addKey_le leftRequired leftEntity leftColumn
      have haddr := length_addKey_le rightRequired rightEntity rightColumn
      rw [tables, List.length_append] at hcount
      obtain ⟨left, hl, hwfl, htypedl⟩ := ihl (fun i e he => htables i e (by
        rw [tables, List.getElem?_append_left (List.getElem?_eq_some_iff.mp he).1]
        exact he)) (addKey_ne_nil _ _ _)
        (hside (fun x hx => List.mem_append_left _ hx) hleftKey) (by dsimp only; omega) hleft
      obtain ⟨right, hr, hwfr, htypedr⟩ := ihr (fun i e he => by
        rw [hl.inputs, Nat.add_assoc]
        apply htables _ e
        rw [tables, List.getElem?_append_right (Nat.le_add_right _ _), Nat.add_sub_cancel_left]
        exact he) (addKey_ne_nil _ _ _)
        (hside (fun x hx => List.mem_append_right _ hx) hrightKey) (by dsimp only; omega) hright
      dsimp only at h
      split at h
      · next leftAttr rightAttr hleftAttr hrightAttr =>
        obtain ⟨attrs, hattrs, h⟩ := bind_eq_ok.mp h
        cases h
        have hboth : pipeline.TypedColumns (leftColumns ++ rightColumns) := fun c hc =>
          (List.mem_append.mp hc).elim (htypedl c) (htypedr c)
        have htyped : pipeline.TypedColumns (outputColumns requiredAttrs attrs) := by
          intro c hc
          obtain ⟨x, -, attr, hresolve, rfl⟩ := mem_outputColumns hattrs hc
          exact hboth _ (List.mem_of_getElem? (resolve_eq_ok hresolve).2)
        refine ⟨_, hl.join hr hlinked hleftAttr hrightAttr hattrs, ⟨hwfl, hwfr, ?_, ?_, ?_, ?_, ?_⟩, htyped⟩
        · intro hnil
          have hlen := mapM_ok_length hattrs
          rw [hnil] at hlen
          exact hne (List.eq_nil_of_length_eq_zero hlen.symm)
        · rw [hl.length_attrs.2, hr.length_attrs.2]
          dsimp only
          omega
        · intro attr hattr
          obtain ⟨j, hj⟩ := List.mem_iff_getElem?.mp hattr
          have hlt : j < requiredAttrs.length := by
            rw [← mapM_ok_length hattrs]
            exact (List.getElem?_eq_some_iff.mp hj).1
          obtain ⟨attr', hattr', -, hcolumn⟩ :=
            (mapM_resolve_source hattrs).2 j _ (List.getElem?_eq_getElem hlt)
          obtain rfl := Option.some.inj (hj.symm.trans hattr')
          rw [← List.getElem?_map, List.map_append, ← hl.types, ← hr.types, ← List.map_append,
            List.getElem?_map, hcolumn]
          rfl
        · have hx := findColumn_eq_some hleftAttr
          rw [hl.names] at hx
          obtain ⟨attr, hattr, htype⟩ := hl.attr_type htypedl hx
          rw [hattr, Option.map_some, ← htype]
          exact hleftKey
        · have hx := findColumn_eq_some hrightAttr
          rw [hr.names] at hx
          obtain ⟨attr, hattr, htype⟩ := hr.attr_type htypedr hx
          rw [hattr, Option.map_some, ← htype]
          exact hrightKey
      · cases h

/-- The inputs that `recurse` adds are the cache files of the scans. -/
theorem recurse_inputs (h : pipeline.recurse op requiredAttrs plan = .ok (nodeIdx, columns, plan')) :
    ∃ inputs, plan'.inputs = plan.inputs ++ inputs ∧ List.Forall₂ (fun entity ct =>
      ∃ file, pipeline.cacheFile entity = .ok file ∧ pipeline.cache file = some ct ∧
        ∃ attributes, pipeline.parsed.scope.schema.lookup entity.table = some attributes)
      (pipeline.tables op) inputs := by
  induction op generalizing requiredAttrs plan plan' nodeIdx columns with
  | other child ih => exact ih h
  | failed fault => cases h
  | scan tableAlias relationName =>
    obtain ⟨entity, hentity, h⟩ := bind_eq_ok.mp h
    rw [tables, hentity]
    split at h
    · cases h
    · next attributes hattributes =>
      obtain ⟨file, hfile, h⟩ := bind_eq_ok.mp h
      split at h
      · cases h
      · next table htable =>
        obtain ⟨attrs, -, h⟩ := bind_eq_ok.mp h
        cases h
        exact ⟨[table], rfl, .cons ⟨file, hfile, htable, attributes, hattributes⟩ .nil⟩
  | hashJoin buildLeft pleft pright ihl ihr =>
    obtain ⟨leftEntities, -, h⟩ := bind_eq_ok.mp h
    obtain ⟨rightEntities, -, h⟩ := bind_eq_ok.mp h
    split at h
    · cases h
    · obtain ⟨required, -, h⟩ := bind_eq_ok.mp h
      obtain ⟨⟨l, leftColumns, plan₁⟩, hleft, h⟩ := bind_eq_ok.mp h
      obtain ⟨⟨r, rightColumns, plan₂⟩, hright, h⟩ := bind_eq_ok.mp h
      obtain ⟨leftInputs, hl, hleftInputs⟩ := ihl hleft
      obtain ⟨rightInputs, hr, hrightInputs⟩ := ihr hright
      dsimp only at h
      split at h
      · obtain ⟨attrs, -, h⟩ := bind_eq_ok.mp h
        cases h
        refine ⟨leftInputs ++ rightInputs, ?_, List.rel_append hleftInputs hrightInputs⟩
        show plan₂.inputs = _
        rw [hr, hl, List.append_assoc]
      · cases h

/-- The tables of the scans have the types of the schema. -/
theorem types_inputTables {contents : CacheFile → Table} (htyped : pipeline.Typed op contents)
    {inputs : List ColumnarTable}
    (h : List.Forall₂ (fun entity ct => ∃ file, pipeline.cacheFile entity = .ok file ∧
      pipeline.cache file = some ct ∧ ∃ attributes,
        pipeline.parsed.scope.schema.lookup entity.table = some attributes) (pipeline.tables op) inputs)
    (t : Nat) (entity : TableEntity) (attributes : List Attribute)
    (hentity : (pipeline.tables op)[t]? = some entity)
    (hattributes : pipeline.parsed.scope.schema.lookup entity.table = some attributes) :
    ((pipeline.inputTables contents op).map Table.types)[t]? = some (attributes.map Attribute.type) := by
  obtain ⟨hlt, rfl⟩ := List.getElem?_eq_some_iff.mp hentity
  obtain ⟨file, hfile, -⟩ := h.get hlt (by rw [← h.length_eq]; exact hlt)
  have hfile : pipeline.cacheFile (pipeline.tables op)[t] = .ok file := hfile
  unfold inputTables
  rw [List.getElem?_map, List.getElem?_map, hentity, Option.map_some, Option.map_some, hfile]
  exact congrArg some (htyped _ (List.getElem_mem hlt) file attributes hfile hattributes).2

/-- The inputs hold what the cache files do. -/
theorem holding_inputs {contents : CacheFile → Table} (htyped : pipeline.Typed op contents)
    (hholds : pipeline.Holds contents) {inputs : List ColumnarTable}
    (h : List.Forall₂ (fun entity ct => ∃ file, pipeline.cacheFile entity = .ok file ∧
      pipeline.cache file = some ct ∧ ∃ attributes,
        pipeline.parsed.scope.schema.lookup entity.table = some attributes) (pipeline.tables op) inputs) :
    Holding (pipeline.inputTables contents op) inputs := by
  unfold Holding inputTables
  rw [List.forall₂_map_left_iff]
  refine ((List.forall₂_and_left _ _).mpr ⟨fun entity hentity => hentity, h⟩).imp ?_
  rintro entity ct ⟨hentity, file, hfile, hct, attributes, hattributes⟩
  rw [hfile]
  exact ⟨(htyped entity hentity file attributes hfile hattributes).1, hholds file ct hct⟩

end Pipeline

theorem Plan.Unfolds.unique {plan : Plan} {nodeIdx : Nat} {tree tree' : PlanTree}
    (h : plan.Unfolds nodeIdx tree) (h' : plan.Unfolds nodeIdx tree') : tree = tree' := by
  induction h generalizing tree' with
  | scan hnode =>
    cases h' with
    | scan hnode' =>
      cases hnode.symm.trans hnode'
      rfl
    | join hnode' _ _ => cases hnode.symm.trans hnode'
  | join hnode _ _ ihl ihr =>
    cases h' with
    | scan hnode' => cases hnode.symm.trans hnode'
    | join hnode' hl hr =>
      cases hnode.symm.trans hnode'
      rw [ihl hl, ihr hr]

/-- The plan of a query of columns that can be selected and joined, over a cache of tables. -/
theorem Pipeline.wellFormed_of_load {pipeline : Pipeline} {node : PlanJson} {plan : Plan} {tree : PlanTree}
    (hjoinable : pipeline.Joinable node.operator) {contents : CacheFile → Table}
    (hholds : pipeline.Holds contents) (htyped : pipeline.Typed node.operator contents)
    (hload : pipeline.loadJoinPipeline node = .ok plan) (hunfolds : plan.Unfolds plan.root tree) :
    tree.WellFormed ((pipeline.inputTables contents node.operator).map Table.types) ∧
      Holding (pipeline.inputTables contents node.operator) plan.inputs ∧
      pipeline.parsed.outputAttrs.map (columnType pipeline.parsed.scope) =
        tree.attrs.map fun attr => some attr.2 := by
  obtain ⟨⟨root, columns, plan'⟩, hrecurse, hload⟩ := bind_eq_ok.mp hload
  cases hload
  obtain ⟨inputs, hinputs, hcached⟩ := recurse_inputs hrecurse
  obtain ⟨tree', hloaded, hwf, hcolumns⟩ := recurse_wellFormed
    (types_inputTables htyped hcached) hjoinable.keys
    (fun i e he => by simpa using he) hjoinable.nonempty hjoinable.columns hjoinable.count hrecurse
  have hnodes : ({ plan' with root := root } : Plan).nodes = plan'.nodes ++ [] :=
    (List.append_nil _).symm
  obtain rfl : tree = tree' := hunfolds.unique (hloaded.unfolds.extend hnodes)
  refine ⟨hwf, ?_, ?_⟩
  · show Holding _ plan'.inputs
    rw [hinputs]
    exact holding_inputs htyped hholds hcached
  · have htypes := congrArg (List.map some) hloaded.types
    rw [List.map_map, List.map_map] at htypes
    rw [← hloaded.names, List.map_map]
    exact (List.map_congr_left fun c hc => hcolumns c hc).trans htypes

section Plans

variable {schema : Schema} {unset : Int} {order : HashOrder} {statement : SelectStatement}
  {pipeline : Pipeline} {d : DSU} {node : PlanJson} {list : List TableRef} {expr : Expr}

/-- Over a cache of the rows for which the filters are true. -/
theorem PlansQuery.executes_iff
    (h : PlansQuery schema unset order statement pipeline d node list expr) {plan : Plan}
    (hload : pipeline.loadJoinPipeline node = .ok plan) (hjoinable : pipeline.Joinable node.operator)
    {base : String → Table} {contents : CacheFile → Table}
    (hasked : pipeline.Asked base contents node.operator) (hholds : pipeline.Holds contents)
    (htyped : pipeline.Typed node.operator contents) :
    ∃ tree, plan.Unfolds plan.root tree ∧
      ((tree.OnScans fun t k _ => OnPages plan LimitsFit t k) →
        tree.Bounded (seenCell plan.inputs (pipeline.inputTables contents node.operator))
          (tableRows (pipeline.inputTables contents node.operator)) →
        ∀ hashKey schedules fresh fuel, tree.height ≤ fuel →
          ((∃ result table, execute hashKey fresh plan schedules fuel = .ok result ∧
            fromColumnar result = .ok table ∧ table.data.Perm
              (answer pipeline.parsed.scope base list expr pipeline.parsed.outputAttrs)) ↔
          tree.ReadsRight plan (pipeline.inputTables contents node.operator))) := by
  obtain ⟨tree, hunfolds, hanswers⟩ := h.naive_perm hload
  refine ⟨tree, hunfolds, fun hlimits hrows hashKey schedules fresh fuel hfuel => ?_⟩
  obtain ⟨hwf, hholding, -⟩ := Pipeline.wellFormed_of_load hjoinable hholds htyped hload hunfolds
  exact execute_naive_iff hholding hunfolds hwf hlimits hrows fresh hfuel (hanswers base contents hasked)

/-- A query over a cache of the rows that its filters select, where they decide as SQL does: within the
limits of the references and of the results, `execute` makes the rows that the query asks for exactly when
the long strings of the scanned columns are followed and no row takes a key or a cell that a scan
misreads. -/
theorem execute_answers_iff
    (h : PlansQuery schema unset order statement pipeline d node list expr) {plan : Plan}
    (hload : pipeline.loadJoinPipeline node = .ok plan) (hjoinable : pipeline.Joinable node.operator)
    (hfilterable : pipeline.Filterable node.operator) {re2 : RE2} (hre2 : RE2.Documented re2)
    {base : String → Table} (hbase : pipeline.TypedBase base node.operator)
    (hdecides : pipeline.DecidesAsSql re2 base node.operator) {contents : CacheFile → Table}
    (hfiltered : pipeline.Filtered re2 base contents node.operator) (hholds : pipeline.Holds contents)
    (htyped : pipeline.Typed node.operator contents) :
    ∃ tree, plan.Unfolds plan.root tree ∧
      ((tree.OnScans fun t k _ => OnPages plan LimitsFit t k) →
        tree.Bounded (seenCell plan.inputs (pipeline.inputTables contents node.operator))
          (tableRows (pipeline.inputTables contents node.operator)) →
        ∀ hashKey schedules fresh fuel, tree.height ≤ fuel →
          ((∃ result table, execute hashKey fresh plan schedules fuel = .ok result ∧
            fromColumnar result = .ok table ∧ table.data.Perm
              (answer pipeline.parsed.scope base list expr pipeline.parsed.outputAttrs)) ↔
          tree.ReadsRight plan (pipeline.inputTables contents node.operator))) :=
  h.executes_iff hload hjoinable (hfiltered.asked hre2 hfilterable hbase hdecides) hholds htyped

end Plans

def pairTree : PlanTree :=
  .join false (.scan 0 [(0, .INT32)]) (.scan 1 [(0, .INT32)]) 0 0 [(0, .INT32)]

/-- The files of the two tables. -/
def twoFiles (l r : ColumnarTable) (file : CacheFile) : Option ColumnarTable :=
  some (if file.table = "t" then l else r)

section Bound

variable {l r : ColumnarTable}

theorem bound_load : ∃ plan, (boundPipeline (twoFiles l r)).loadJoinPipeline pairNode = .ok plan ∧
    plan.inputs = [l, r] ∧ plan.Unfolds plan.root pairTree := by
  rw [Pipeline.loadJoinPipeline, pairNode_operator]
  exact ⟨_, rfl, rfl, .join rfl (.scan rfl) (.scan rfl)⟩

theorem boundTable_wellTyped (table : String) : (boundTable table).WellTyped :=
  (pairBase_wellTyped table).selectedBy _ _

theorem bound_joinable {cache : CacheFile → Option ColumnarTable} :
    (boundPipeline cache).Joinable pairNode.operator := by
  refine ⟨List.cons_ne_nil _ _, fun x hx => ?_, ?_, ?_⟩
  · obtain rfl := List.mem_singleton.mp hx
    exact ⟨.INT32, rfl, .inl rfl⟩
  · rintro x y ⟨item, hitem, adj, hadj, rfl, rfl⟩
    have hitem : item ∈ pairPipeline.parsed.joinGraph := hitem
    simp only [pairPipeline, List.mem_cons, List.not_mem_nil, or_false] at hitem
    rcases hitem with rfl | rfl <;> obtain rfl := List.mem_singleton.mp hadj <;> exact ⟨rfl, rfl⟩
  · rw [bound_tables]
    exact show 1 + 2 * 2 < 2 ^ 64 by decide

theorem bound_holds (hl : l.Holds (boundTable "t")) (hr : r.Holds (boundTable "u")) :
    (boundPipeline (twoFiles l r)).Holds boundContents := by
  intro file ct hct
  obtain rfl := Option.some.inj hct
  show ColumnarTable.Holds _ (boundTable file.table)
  split
  · next ht => rwa [ht]
  · next ht =>
    have hu : boundTable file.table = boundTable "u" := by simp [boundTable, pairBase, ht]
    rwa [hu]

theorem bound_typed {cache : CacheFile → Option ColumnarTable} :
    (boundPipeline cache).Typed pairNode.operator boundContents := by
  intro entity hentity file attributes hfile hattributes
  refine ⟨boundTable_wellTyped file.table, ?_⟩
  show (boundTable file.table).types = _
  rw [Pipeline.cacheFile_table hfile]
  rw [bound_tables] at hentity
  simp only [List.mem_cons, List.not_mem_nil, or_false] at hentity
  rcases hentity with rfl | rfl <;> cases hattributes <;> rfl

theorem bound_inputTables {cache : CacheFile → Option ColumnarTable} :
    (boundPipeline cache).inputTables boundContents pairNode.operator = [boundTable "t", boundTable "u"] := by
  unfold Pipeline.inputTables
  rw [bound_tables]
  rfl

/-- The files of the two tables are within the limits. -/
theorem bound_limits : ∃ l r, l.Holds (boundTable "t") ∧ r.Holds (boundTable "u") ∧ ∀ plan : Plan,
    plan.inputs = [l, r] → pairTree.OnScans fun t k _ => OnPages plan LimitsFit t k := by
  obtain ⟨l, -, hholdsL, hshapeL⟩ :=
    toColumnar_shape (fun _ _ => ⟨fun _ => 0⟩) (boundTable_wellTyped "t") rfl
  obtain ⟨r, -, hholdsR, hshapeR⟩ :=
    toColumnar_shape (fun _ _ => ⟨fun _ => 0⟩) (boundTable_wellTyped "u") rfl
  refine ⟨l, r, hholdsL, hholdsR, fun plan hinputs => ⟨?_, ?_⟩⟩
  · intro attr hattr
    obtain rfl := List.mem_singleton.mp hattr
    exact limitsFit_of_shape (by rw [hinputs]; rfl) hshapeL rfl (by decide) (by decide) (by decide)
  · intro attr hattr
    obtain rfl := List.mem_singleton.mp hattr
    exact limitsFit_of_shape (by rw [hinputs]; rfl) hshapeR rfl (by decide) (by decide) (by decide)

/-- The plan over two tables makes no more than four rows. -/
theorem pair_few (f : Nat → Nat → Nat → Option Data) {a b : Table} (ha : a.data.length ≤ 2)
    (hb : b.data.length ≤ 2) : pairTree.Bounded f (tableRows [a, b]) := by
  have hleft : (PlanTree.rows f (tableRows [a, b]) (.scan 0 [(0, .INT32)])).length = a.data.length :=
    List.length_range
  have hright : (PlanTree.rows f (tableRows [a, b]) (.scan 1 [(0, .INT32)])).length = b.data.length :=
    List.length_range
  refine ⟨?_, ?_, ?_⟩
  · exact hleft.trans_lt (by omega)
  · exact hright.trans_lt (by omega)
  · refine Nat.lt_of_le_of_lt ((List.length_map _).le.trans (List.length_filter_le _ _)) ?_
    rw [List.length_product, hleft, hright]
    exact (Nat.mul_le_mul ha hb).trans_lt (by decide)

/-- The plan over two tables of integers that are not negative reads them right. -/
theorem pair_readsRight (plan : Plan) {a b : Table}
    (h : ∀ table ∈ [a, b], ∀ d ∈ table.column 0, d.fragile = false)
    (hplaces : ∀ row ∈ pairTree.rows (tableCell [a, b]) (tableRows [a, b]),
      ∀ p ∈ pairTree.places row, p.2.1 = 0) : pairTree.ReadsRight plan [a, b] where
  followed := by
    refine ⟨fun attr hattr hvarchar => ?_, fun attr hattr hvarchar => ?_⟩ <;>
      · obtain rfl := List.mem_singleton.mp hattr
        cases hvarchar
  places row hrow p hp hmisread := by
    obtain ⟨table, d, htable, hd, hfragile⟩ := misreadAt_fragile hmisread
    rw [hplaces row hrow p hp] at hd
    have hsafe := h table (List.mem_of_getElem? htable) d (List.mem_of_getElem? hd)
    exact absurd (hsafe.symm.trans hfragile) (by decide)

end Bound

/-- The one row of the answer is what `execute` makes. -/
theorem execute_answers_iff_bound : ∃ (cache : CacheFile → Option ColumnarTable) (plan : Plan),
    (boundPipeline cache).loadJoinPipeline pairNode = .ok plan ∧
      ∃ result table, execute (fun _ => 0) (fun _ _ => ⟨fun _ => 0⟩) plan
          (fun _ => ⟨[2], [], fun _ => 3⟩) 2 = .ok result ∧
        fromColumnar result = .ok table ∧ table.data.Perm [[.int32 2]] := by
  obtain ⟨l, r, hl, hr, hlimits⟩ := bound_limits
  obtain ⟨plan, hload, hinputs, hpair⟩ := @bound_load l r
  obtain ⟨tree, hunfolds, hanswers⟩ := execute_answers_iff bound_plans hload bound_joinable
    bound_filterable Comparison.documented_itemsRE2 bound_base bound_decides bound_filtered
    (bound_holds hl hr) bound_typed
  obtain rfl : tree = pairTree := hunfolds.unique hpair
  rw [bound_inputTables, bound_answer] at hanswers
  exact ⟨twoFiles l r, plan, hload, (hanswers (hlimits plan hinputs) (pair_few _ (by decide) (by decide))
    _ _ _ _ (Nat.le_refl 2)).mpr (pair_readsRight plan (by decide) (by decide))⟩

end JoinOptimizer
