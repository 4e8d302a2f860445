import JoinOptimizer.Sql.Loaded
import JoinOptimizer.Lib.Assoc
import Mathlib.Data.List.Permutation

/-! Which equalities of a WHERE clause the plan of `load_join_pipeline` enforces: a join keeps one
condition, whatever the classes of columns that have columns on both of its sides. -/

namespace JoinOptimizer

open Lib

namespace Pipeline

/-- No scan has two columns of one class, and at most one class has columns on both sides of a join. -/
def Covered (pipeline : Pipeline) (same : TableEntity × String → TableEntity × String → Prop) :
    Operator → Prop
  | .other child => Covered pipeline same child
  | .hashJoin _ left right => Covered pipeline same left ∧ Covered pipeline same right ∧
      ∀ x x' y y', x.1 ∈ pipeline.tables left → x'.1 ∈ pipeline.tables left →
        y.1 ∈ pipeline.tables right → y'.1 ∈ pipeline.tables right → same x y → same x' y' → same x x'
  | .scan tableAlias relationName => ∀ entity ∈ pipeline.tables (.scan tableAlias relationName),
      ∀ column column', same (entity, column) (entity, column') → column = column'
  | .failed _ => True

variable {pipeline : Pipeline} {tableOf : Nat → Option TableEntity} {op : Operator} {tree : PlanTree}
  {same : TableEntity × String → TableEntity × String → Prop}

theorem Follows.mem_tables (h : pipeline.Follows tableOf op tree) {entity : TableEntity} :
    entity ∈ pipeline.tables op ↔ ∃ t ∈ tree.leaves, tableOf t = some entity := by
  induction op generalizing tree with
  | other child ih => exact ih h
  | hashJoin buildLeft pleft pright ihl ihr =>
    cases tree with
    | scan t attrs => exact h.elim
    | join _ left right _ _ _ =>
      rw [tables, List.mem_append, ihl h.1, ihr h.2]
      simp only [PlanTree.leaves, List.mem_append, or_and_right, exists_or]
  | scan tableAlias relationName =>
    cases tree with
    | join _ left right _ _ _ => exact h.elim
    | scan t attrs =>
      obtain ⟨entity', hentity, htable⟩ := h
      rw [tables, hentity]
      simp only [PlanTree.leaves, List.mem_singleton, exists_eq_left, htable, Option.some.injEq]
      exact eq_comm
  | failed fault => exact h.elim

theorem IsCell.unique {v : Nat × Nat} {x y : TableEntity × String} (hx : pipeline.IsCell tableOf v x)
    (hy : pipeline.IsCell tableOf v y) : x = y := by
  have htable : x.1 = y.1 := Option.some.inj (hx.1.symm.trans hy.1)
  obtain ⟨attributes, hattributes, hidx⟩ := Scope.columnIdx_eq_ok.mp hx.2
  obtain ⟨attributes', hattributes', hidx'⟩ := Scope.columnIdx_eq_ok.mp hy.2
  rw [htable, hattributes'] at hattributes
  obtain rfl := Option.some.inj hattributes
  obtain ⟨hlt, hname, -⟩ := List.findIdx?_eq_some_iff_getElem.mp hidx
  obtain ⟨_, hname', -⟩ := List.findIdx?_eq_some_iff_getElem.mp hidx'
  exact Prod.ext htable ((of_decide_eq_true hname).symm.trans (of_decide_eq_true hname'))

section Covered

variable (hsymm : ∀ x y, same x y → same y x)
  (hidx : ∀ x y, same x y → ∃ k, pipeline.parsed.scope.columnIdx x.2 x.1 = .ok k)
include hsymm hidx

omit hsymm in
/-- The cells of an input in the column of a class. -/
theorem exists_cell (h : pipeline.Follows tableOf op tree) {x y : TableEntity × String}
    (hx : x.1 ∈ pipeline.tables op) (hsame : same x y) :
    ∃ v, tree.joinTree.Has v ∧ pipeline.IsCell tableOf v x := by
  obtain ⟨t, ht, htable⟩ := h.mem_tables.mp hx
  obtain ⟨k, hk⟩ := hidx x y hsame
  exact ⟨(t, k), PlanTree.has_joinTree.mpr ht, htable, hk⟩

theorem Follows.covered_iff (h : pipeline.Follows tableOf op tree) :
    tree.joinTree.Covered (pipeline.OfCells tableOf same) ↔ pipeline.Covered same op := by
  induction op generalizing tree with
  | other child ih => exact ih h
  | failed fault => exact h.elim
  | scan tableAlias relationName =>
    cases tree with
    | join _ left right _ _ _ => exact h.elim
    | scan t attrs =>
      obtain ⟨entity, hentity, htable⟩ := h
      have htables : pipeline.tables (.scan tableAlias relationName) = [entity] := by
        rw [tables, hentity]
      rw [Covered, htables]
      constructor
      · intro hcovered e he column column' hcolumns
        obtain rfl := List.mem_singleton.mp he
        obtain ⟨k, hk⟩ := hidx _ _ hcolumns
        obtain ⟨k', hk'⟩ := hidx _ _ (hsymm _ _ hcolumns)
        have hv : pipeline.IsCell tableOf (t, k) (e, column) := ⟨htable, hk⟩
        have hw : pipeline.IsCell tableOf (t, k') (e, column') := ⟨htable, hk'⟩
        have heq := hcovered (t, k) (t, k') rfl rfl ⟨_, _, hv, hw, hcolumns⟩
        rw [heq] at hv
        exact (Prod.mk.inj (hv.unique hw)).2
      · rintro hcovered ⟨t', k⟩ ⟨t'', k'⟩ rfl hw ⟨⟨e, column⟩, ⟨e', column'⟩, hvx, hwy, hcolumns⟩
        obtain rfl : t'' = t' := hw
        obtain rfl : entity = e := Option.some.inj (htable.symm.trans hvx.1)
        obtain rfl : entity = e' := Option.some.inj (htable.symm.trans hwy.1)
        obtain rfl := hcovered entity (List.mem_singleton_self _) column column' hcolumns
        exact Prod.ext rfl (Except.ok.inj (hvx.2.symm.trans hwy.2))
  | hashJoin buildLeft pleft pright ihl ihr =>
    cases tree with
    | scan t attrs => exact h.elim
    | join _ left right _ _ _ =>
      rw [Covered, PlanTree.joinTree, JoinTree.Covered, ihl h.1, ihr h.2]
      refine and_congr_right fun _ => and_congr_right fun _ => ⟨?_, ?_⟩
      · intro hcut x x' y y' hx hx' hy hy' hxy hxy'
        obtain ⟨v, hv, hvx⟩ := exists_cell hidx h.1 hx hxy
        obtain ⟨v', hv', hvx'⟩ := exists_cell hidx h.1 hx' hxy'
        obtain ⟨w, hw, hwy⟩ := exists_cell hidx h.2 hy (hsymm _ _ hxy)
        obtain ⟨w', hw', hwy'⟩ := exists_cell hidx h.2 hy' (hsymm _ _ hxy')
        obtain ⟨z, z', hz, hz', hzz⟩ := hcut v v' w w' hv hv' hw hw' ⟨_, _, hvx, hwy, hxy⟩
          ⟨_, _, hvx', hwy', hxy'⟩
        rwa [hvx.unique hz, hvx'.unique hz']
      · rintro hcut v v' w w' hv hv' hw hw' ⟨x, y, hx, hy, hxy⟩ ⟨x', y', hx', hy', hxy'⟩
        have hmem : ∀ {op : Operator} {tree : PlanTree} {v : Nat × Nat} {x : TableEntity × String},
            pipeline.Follows tableOf op tree → tree.joinTree.Has v → pipeline.IsCell tableOf v x →
            x.1 ∈ pipeline.tables op :=
          fun hfollows hv hx => hfollows.mem_tables.mpr ⟨_, PlanTree.has_joinTree.mp hv, hx.1⟩
        exact ⟨x, x', hx, hx', hcut x x' y y' (hmem h.1 hv hx) (hmem h.1 hv' hx') (hmem h.2 hw hy)
          (hmem h.2 hw' hy') hxy hxy'⟩

end Covered

section OfCells

variable {v w u : Nat × Nat}

theorem OfCells.symm (hsymm : ∀ x y, same x y → same y x) (h : pipeline.OfCells tableOf same v w) :
    pipeline.OfCells tableOf same w v := by
  obtain ⟨x, y, hx, hy, hxy⟩ := h
  exact ⟨y, x, hy, hx, hsymm x y hxy⟩

theorem OfCells.trans (htrans : ∀ x y z, same x y → same y z → same x z)
    (h : pipeline.OfCells tableOf same v w) (h' : pipeline.OfCells tableOf same w u) :
    pipeline.OfCells tableOf same v u := by
  obtain ⟨x, y, hx, hy, hxy⟩ := h
  obtain ⟨y', z, hy', hz, hyz⟩ := h'
  obtain rfl := hy.unique hy'
  exact ⟨x, z, hx, hz, htrans x y z hxy hyz⟩

/-- Cells of the inputs of a plan whose columns are in one class. -/
abbrev SameCells (pipeline : Pipeline) (d : DSU) (op : Operator) : Nat × Nat → Nat × Nat → Prop :=
  pipeline.OfCells (fun t => (pipeline.tables op)[t]?) (pipeline.parsed.scope.SameClass d)

theorem sameCells_symm {d : DSU} (v w : Nat × Nat) (h : pipeline.SameCells d op v w) :
    pipeline.SameCells d op w v :=
  h.symm fun _ _ => Scope.SameClass.symm

theorem sameCells_trans {d : DSU} (v w u : Nat × Nat) (h : pipeline.SameCells d op v w)
    (h' : pipeline.SameCells d op w u) : pipeline.SameCells d op v u :=
  h.trans (fun _ _ _ => Scope.SameClass.trans) h'

end OfCells

/-- What the cache files of the scans hold. -/
def inputTables (pipeline : Pipeline) (contents : CacheFile → Table) (op : Operator) : List Table :=
  (pipeline.tables op).map fun entity =>
    (pipeline.cacheFile entity).toOption.elim ⟨[], []⟩ contents

/-- One of two values of a type. -/
def sampleCell (b : Bool) : DataType → Data
  | .INT32 => .int32 (if b then 1 else 0)
  | .INT64 => .int64 (if b then 1 else 0)
  | .FP64 => .fp64 (if b then 1 else 0)
  | .VARCHAR => .string (if b then [1] else [])

theorem sampleCell_hasType (b : Bool) (type : DataType) : (sampleCell b type).HasType type := by
  cases type <;> trivial

theorem sampleCell_ne (b : Bool) (type : DataType) : sampleCell b type ≠ .monostate := by
  cases type <;> exact nofun

theorem sampleCell_inj {b b' : Bool} {type : DataType} (h : sampleCell b type = sampleCell b' type) :
    b = b' := by
  cases type <;> cases b <;> cases b' <;> first | rfl | (simp [sampleCell] at h)

/-- A record for the scan of input `t`: its cells are of the types that `g` makes of those of the
schema. -/
def sampleRecord (g : DataType → DataType) (b : Nat × Nat → Bool) (attributes : List Attribute)
    (t : Nat) : List Data :=
  attributes.zipIdx.map fun attr => sampleCell (b (t, attr.2)) (g attr.1.type)

/-- Every cache file with a record for each of `n` scans. -/
def sampleContents (schema : Schema) (g : DataType → DataType) (b : Nat × Nat → Bool) (n : Nat)
    (file : CacheFile) : Table :=
  let attributes := (schema.lookup file.table).getD []
  ⟨(List.range n).map (sampleRecord g b attributes), attributes.map fun attr => g attr.type⟩

section Sample

variable {g : DataType → DataType} {b : Nat × Nat → Bool} {attributes : List Attribute} {t k : Nat}

theorem getD_sampleRecord {attr : Attribute} (h : attributes[k]? = some attr) :
    (sampleRecord g b attributes t).getD k .monostate = sampleCell (b (t, k)) (g attr.type) := by
  unfold sampleRecord
  rw [List.getD_eq_getElem?_getD, List.getElem?_map, List.getElem?_zipIdx, h]
  simp

theorem sampleContents_wellTyped (schema : Schema) (n : Nat) (file : CacheFile) :
    (sampleContents schema g b n file).WellTyped := by
  intro record hrecord
  obtain ⟨t, -, rfl⟩ := List.mem_map.mp hrecord
  refine List.forall₂_iff_get.mpr ⟨by simp [sampleRecord, sampleContents], fun k hk hk' => ?_⟩
  simpa [sampleRecord, sampleContents] using sampleCell_hasType _ _

end Sample

theorem cacheFile_table {entity : TableEntity} {file : CacheFile}
    (h : pipeline.cacheFile entity = .ok file) : file.table = entity.table := by
  unfold cacheFile at h
  split at h
  · cases h
    rfl
  · split at h
    · cases h
      rfl
    · cases h

/-- Every combination of records that the plan makes has equal cells in the columns of a class. -/
def Enforces (pipeline : Pipeline) (d : DSU) (op : Operator) (tree : PlanTree)
    (contents : CacheFile → Table) : Prop :=
  ∀ x ∈ tree.combinations (pipeline.inputTables contents op), ∀ p ∈ x.1, ∀ q ∈ x.1,
    ∀ entity entity' column column', (pipeline.tables op)[p.1]? = some entity →
      (pipeline.tables op)[q.1]? = some entity' →
      pipeline.parsed.scope.SameClass d (entity, column) (entity', column') →
      pipeline.parsed.scope.cell (fun _ => p.2) (column, entity) =
        pipeline.parsed.scope.cell (fun _ => q.2) (column', entity')

/-- The type of a column. -/
def columnType (scope : Scope) (x : TableEntity × String) : Option DataType :=
  match scope.columnIdx x.2 x.1 with
  | .ok idx => (scope.schema.lookup x.1.table).bind fun attributes =>
      attributes[idx]?.map Attribute.type
  | .error _ => none

/-- The cache files hold records of the types of their tables. -/
def Typed (pipeline : Pipeline) (op : Operator) (contents : CacheFile → Table) : Prop :=
  ∀ entity ∈ pipeline.tables op, ∀ file attributes, pipeline.cacheFile entity = .ok file →
    pipeline.parsed.scope.schema.lookup entity.table = some attributes →
    (contents file).WellTyped ∧ (contents file).types = attributes.map Attribute.type

theorem cell_of_columnIdx {scope : Scope} {record : List Data} {column : String} {entity : TableEntity}
    {k : Nat} (h : scope.columnIdx column entity = .ok k) :
    scope.cell (fun _ => record) (column, entity) = record.getD k .monostate := by
  unfold Scope.cell
  rw [h]

theorem Loaded.nodup {requiredAttrs : OutputAttrs} {plan plan' : Plan} {nodeIdx : Nat}
    {columns : OutputColumns}
    (h : pipeline.Loaded tableOf op requiredAttrs plan plan' nodeIdx columns tree) :
    tree.leaves.Nodup := by
  rw [h.leaves]
  exact List.nodup_range'

section Plan

variable {d : DSU} {requiredAttrs : OutputAttrs} {plan plan' : Plan} {nodeIdx : Nat}
  {columns : OutputColumns}
  (hvalid : pipeline.parsed.Valid d)
  (hloaded : pipeline.Loaded (fun t => (pipeline.tables op)[t]?) op requiredAttrs plan plan' nodeIdx
    columns tree)
include hvalid hloaded

theorem Loaded.sameCells : tree.Keyed (pipeline.SameCells d op) := by
  refine hloaded.keyed.imp fun v w hvw => ?_
  obtain ⟨x, y, hx, hy, item, hitem, adj, hadj, rfl, rfl⟩ := hvw
  exact ⟨_, _, hx, hy, hvalid.graph item hitem adj hadj⟩

theorem Loaded.covered_iff : tree.joinTree.Covered (pipeline.SameCells d op) ↔
    pipeline.Covered (pipeline.parsed.scope.SameClass d) op := by
  refine hloaded.follows.covered_iff (fun x y h => h.symm) fun x y h => ?_
  obtain ⟨i, -, hi, -⟩ := h
  exact Scope.columnIdx_of_columnNumber hvalid.inSchema hi

/-- A covered plan enforces every class. -/
theorem Loaded.enforces (hcovered : pipeline.Covered (pipeline.parsed.scope.SameClass d) op)
    (contents : CacheFile → Table) : pipeline.Enforces d op tree contents := by
  have hnodup := hloaded.nodup
  have hkeyed := hloaded.sameCells hvalid
  intro x hx p hp q hq entity entity' column column' hentity hentity' hsame
  have hequates := ((hloaded.covered_iff hvalid).mpr hcovered).equates sameCells_symm
    sameCells_trans (hkeyed.proper hnodup) (PlanTree.joined_of_mem hkeyed hnodup hx)
  have hmade := PlanTree.made_of_mem hnodup hx
  obtain ⟨i, j, hi, hj, -⟩ := id hsame
  obtain ⟨k, hk⟩ := Scope.columnIdx_of_columnNumber hvalid.inSchema hi
  obtain ⟨k', hk'⟩ := Scope.columnIdx_of_columnNumber hvalid.inSchema hj
  have hnodup' : (x.1.map Prod.fst).Nodup := by
    rw [hmade.inputs]
    exact hnodup
  have hleaf : ∀ {p : Nat × List Data}, p ∈ x.1 → p.1 ∈ tree.leaves := by
    intro p hp
    rw [← hmade.inputs]
    exact List.mem_map_of_mem hp
  have heq := hequates (p.1, k) (q.1, k') (PlanTree.has_joinTree.mpr (hleaf hp))
    (PlanTree.has_joinTree.mpr (hleaf hq))
    ⟨(entity, column), (entity', column'), ⟨hentity, hk⟩, ⟨hentity', hk'⟩, hsame⟩
  rw [PlanTree.cellIn_of_mem hnodup' hp, PlanTree.cellIn_of_mem hnodup' hq] at heq
  rw [cell_of_columnIdx hk, cell_of_columnIdx hk', heq]

/-- Where two classes are to be enforced and one is not, some contents of the cache files tell. -/
theorem Loaded.not_enforces (hinputs : plan.inputs.length = 0) (g : DataType → DataType)
    (hg : ∀ x y type type', pipeline.parsed.scope.SameClass d x y →
      columnType pipeline.parsed.scope x = some type →
      columnType pipeline.parsed.scope y = some type' → g type = g type')
    (hcovered : ¬ pipeline.Covered (pipeline.parsed.scope.SameClass d) op) :
    ∃ b, ¬ pipeline.Enforces d op tree
      (sampleContents pipeline.parsed.scope.schema g b (pipeline.tables op).length) := by
  have hnodup := hloaded.nodup
  have hkeyed := hloaded.sameCells hvalid
  obtain ⟨b, hb, hapart⟩ := JoinTree.exists_apart sameCells_symm sameCells_trans
    (hkeyed.proper hnodup) (mt (hloaded.covered_iff hvalid).mp hcovered)
  refine ⟨b, fun henforces => hapart fun v w hv hw hvw => ?_⟩
  -- every input contributes the record that was made for its scan
  let pick : Nat → List Data := fun t => (pipeline.tables op)[t]?.elim [] fun entity =>
    sampleRecord g b ((pipeline.parsed.scope.schema.lookup entity.table).getD []) t
  have hcell : ∀ {v : Nat × Nat} {x : TableEntity × String},
      pipeline.IsCell (fun t => (pipeline.tables op)[t]?) v x →
      ∃ type, columnType pipeline.parsed.scope x = some type ∧
        (pick v.1).getD v.2 .monostate = sampleCell (b v) (g type) := by
    intro v x hx
    obtain ⟨htable, hidx⟩ := hx
    obtain ⟨attributes, hattributes, hfind⟩ := Scope.columnIdx_eq_ok.mp hidx
    obtain ⟨hlt, -, -⟩ := List.findIdx?_eq_some_iff_getElem.mp hfind
    have hattr : attributes[v.2]? = some attributes[v.2] := List.getElem?_eq_getElem hlt
    refine ⟨attributes[v.2].type, ?_, ?_⟩
    · simp only [columnType, hidx, hattributes, Option.bind_some, hattr, Option.map_some]
    · simp only [pick, htable, Option.elim_some, hattributes, Option.getD_some]
      exact getD_sampleRecord hattr
  have hpick : ∀ t ∈ tree.leaves, pick t ∈ (pipeline.inputTables (sampleContents
      pipeline.parsed.scope.schema g b (pipeline.tables op).length) op)[t]?.elim [] Table.data := by
    intro t ht
    rw [hloaded.leaves, hinputs, List.mem_range'_1] at ht
    have hlt : t < (pipeline.tables op).length := by omega
    have hget : (pipeline.tables op)[t]? = some (pipeline.tables op)[t] :=
      List.getElem?_eq_getElem hlt
    obtain ⟨file, hfile⟩ := hloaded.files _ (List.getElem_mem hlt)
    simp only [inputTables, List.getElem?_map, hget, Option.map_some, Option.elim_some, hfile, pick]
    rw [← cacheFile_table hfile]
    exact List.mem_map_of_mem (List.mem_range.mpr hlt)
  obtain ⟨x, hx, hinput⟩ := PlanTree.exists_combination hkeyed hnodup hpick
    (fun v w hvw => by
      obtain ⟨y, -, hy, -⟩ := hvw
      obtain ⟨type, -, hcell⟩ := hcell hy
      rw [hcell]
      exact sampleCell_ne _ _)
    (hb.imp (hkeyed.proper hnodup) fun v w hvw heq => by
      obtain ⟨y, z, hy, hz, hyz⟩ := hvw
      obtain ⟨type, htype, hv⟩ := hcell hy
      obtain ⟨type', htype', hw⟩ := hcell hz
      rw [hv, hw, heq, hg y z type type' hyz htype htype'])
  obtain ⟨y, z, hy, hz, hyz⟩ := hvw
  obtain ⟨type, htype, hvcell⟩ := hcell hy
  obtain ⟨type', htype', hwcell⟩ := hcell hz
  have hmem : ∀ {v : Nat × Nat}, tree.joinTree.Has v → (v.1, pick v.1) ∈ x.1 := by
    intro v hv
    rw [hinput]
    exact List.mem_map_of_mem (PlanTree.has_joinTree.mp hv)
  have heq := henforces x hx _ (hmem hv) _ (hmem hw) y.1 z.1 y.2 z.2 hy.1 hz.1 hyz
  rw [cell_of_columnIdx hy.2, cell_of_columnIdx hz.2, hvcell, hwcell,
    hg y z type type' hyz htype htype'] at heq
  exact sampleCell_inj heq

end Plan

end Pipeline

/-- The plan of a query enforces the equalities of all columns of every class, whatever its tables hold,
exactly if no scan has two columns of one class and at most one class has columns on both sides of a
join.  Where the columns of a class have one type, tables of the types of the schema tell as much. -/
theorem loadJoinPipeline_enforces_iff {schema : Schema} {unset : Int} {order : HashOrder}
    {statement : SelectStatement} {pipeline : Pipeline} {d : DSU}
    (hparse : parseSql schema unset order statement = .ok (pipeline.parsed, d)) {node : PlanJson}
    {plan : Plan} (hload : pipeline.loadJoinPipeline node = .ok plan) :
    ∃ tree, plan.Unfolds plan.root tree ∧
      ((∀ contents, pipeline.Enforces d node.operator tree contents) ↔
        pipeline.Covered (pipeline.parsed.scope.SameClass d) node.operator) ∧
      ((∀ x y, pipeline.parsed.scope.SameClass d x y →
          Pipeline.columnType pipeline.parsed.scope x = Pipeline.columnType pipeline.parsed.scope y) →
        ((∀ contents, pipeline.Typed node.operator contents →
            pipeline.Enforces d node.operator tree contents) ↔
          pipeline.Covered (pipeline.parsed.scope.SameClass d) node.operator)) := by
  have hvalid := parseSql_valid hparse
  obtain ⟨⟨root, columns, plan'⟩, hrecurse, hload⟩ := bind_eq_ok.mp hload
  cases hload
  obtain ⟨tree, hloaded⟩ := Pipeline.recurse_loaded
    (fun t => (pipeline.tables node.operator)[t]?) (fun i e he => by simpa using he) hrecurse
  refine ⟨tree, ?_, ⟨fun henforces => ?_, hloaded.enforces hvalid⟩, fun htypes =>
    ⟨fun henforces => ?_, fun hcovered contents _ => hloaded.enforces hvalid hcovered contents⟩⟩
  · have hnodes : ({ plan' with root := root } : Plan).nodes = plan'.nodes ++ [] :=
      (List.append_nil _).symm
    exact hloaded.unfolds.extend hnodes
  · by_contra hcovered
    obtain ⟨b, hb⟩ := hloaded.not_enforces hvalid rfl (fun _ => .INT32)
      (fun _ _ _ _ _ _ _ => rfl) hcovered
    exact hb (henforces _)
  · by_contra hcovered
    obtain ⟨b, hb⟩ := hloaded.not_enforces hvalid rfl id (fun x y type type' hxy htype htype' => by
      have := htypes x y hxy
      rw [htype, htype'] at this
      exact Option.some.inj this) hcovered
    refine hb (henforces _ fun entity _ file attributes hfile hattributes => ?_)
    refine ⟨Pipeline.sampleContents_wellTyped _ _ _, ?_⟩
    simp [Pipeline.sampleContents, Pipeline.cacheFile_table hfile, hattributes]

/-- The maps walked in the order of their insertions. -/
def HashOrder.inserted : HashOrder := ⟨id, id, id, .refl, .refl, .refl⟩

def seqScan (tableAlias : String) : PlanJson := .node "Seq Scan" (some tableAlias) none []

/-- A join that builds its hash table on the right side. -/
def hashJoin (left right : PlanJson) : PlanJson :=
  .node "Hash Join" none none [left, .node "Hash" none none [right]]

/-- `a.column = b.column'`. -/
def equality (a column b column' : String) : Expr :=
  .compare .opEquals (.columnRef column (some a)) (.columnRef column' (some b))

/-- `SELECT a.x FROM t AS a, u AS b WHERE a.x = b.y`. -/
def pairStatement : SelectStatement :=
  ⟨some [.tableName "t" (some "a"), .tableName "u" (some "b")], [.expr (.columnRef "x" (some "a"))],
    some (equality "a" "x" "b" "y")⟩

def pairPipeline : Pipeline :=
  { parsed :=
      { scope := ⟨twoTables, { twoNames with aliasMap := [("a", ⟨"t", 0⟩), ("b", ⟨"u", 0⟩)] }, 0⟩
        joinGraph := [(⟨"t", 0⟩, [(⟨"u", 0⟩, ("x", "y"))]), (⟨"u", 0⟩, [(⟨"t", 0⟩, ("y", "x"))])]
        filters := []
        outputAttrs := [(⟨"t", 0⟩, "x")] }
    order := .inserted
    formatDouble := fun _ => []
    cache := fun _ => some ⟨0, []⟩ }

def pairNode : PlanJson := hashJoin (seqScan "a") (seqScan "b")

theorem pairNode_operator :
    pairNode.operator = .hashJoin false (.scan (some "a") none) (.scan (some "b") none) := by
  simp [pairNode, hashJoin, seqScan, PlanJson.operator, otherOperators, joinTypes, scanTypes]

theorem pair_column {column : String} {entity : TableEntity} {i : Nat}
    (h : pairPipeline.parsed.scope.columnNumber column entity = .ok i) :
    (entity, column) = (⟨"t", 0⟩, "x") ∨ (entity, column) = (⟨"u", 0⟩, "y") := by
  have hnames : Names.ofFrom twoTables pairStatement.fromTable =
      .ok pairPipeline.parsed.scope.names := by rfl
  have hvec := Scope.column_of_columnNumber (Names.numbered_ofFrom hnames) h
  have hmem := List.mem_of_getElem? hvec
  simpa [pairPipeline, twoNames] using hmem

theorem pair_covered (d : DSU) :
    pairPipeline.Covered (pairPipeline.parsed.scope.SameClass d) pairNode.operator := by
  -- each of the two tables has one column with a number
  have hunique : ∀ {x y x' y' : TableEntity × String}, pairPipeline.parsed.scope.SameClass d x y →
      pairPipeline.parsed.scope.SameClass d x' y' → x.1 = x'.1 → x = x' := by
    rintro ⟨e, column⟩ y ⟨e', column'⟩ y' ⟨i, -, hi, -⟩ ⟨i', -, hi', -⟩ heq
    have hx := pair_column hi
    have hx' := pair_column hi'
    simp only [Prod.mk.injEq] at hx hx' ⊢
    grind
  rw [pairNode_operator]
  refine ⟨fun entity _ column column' h => ?_, fun entity _ column column' h => ?_, ?_⟩
  · exact (Prod.mk.inj (hunique h h.symm rfl)).2
  · exact (Prod.mk.inj (hunique h h.symm rfl)).2
  · intro x x' y y' hx hx' _ _ hxy hxy'
    have htable : x.1 = x'.1 := (List.mem_singleton.mp hx).trans (List.mem_singleton.mp hx').symm
    obtain rfl := hunique hxy hxy' htable
    exact hxy.trans hxy.symm

theorem loadJoinPipeline_enforces_iff_pair : ∃ plan tree,
    pairPipeline.loadJoinPipeline pairNode = .ok plan ∧ plan.Unfolds plan.root tree ∧
      ∀ contents, pairPipeline.Enforces ⟨[1, 1]⟩ pairNode.operator tree contents := by
  have hparse : parseSql twoTables 0 .inserted pairStatement =
      .ok (pairPipeline.parsed, ⟨[1, 1]⟩) := by rfl
  have hload : ∃ plan, pairPipeline.loadJoinPipeline pairNode = .ok plan := by
    rw [Pipeline.loadJoinPipeline, pairNode_operator]
    exact ⟨_, rfl⟩
  obtain ⟨plan, hload⟩ := hload
  obtain ⟨tree, hunfolds, henforces, -⟩ := loadJoinPipeline_enforces_iff hparse hload
  exact ⟨plan, tree, hload, hunfolds, henforces.mpr (pair_covered _)⟩

/-- `SELECT a.x FROM t AS a, u AS b, v AS c WHERE a.x = b.x AND b.y = c.x AND c.y = a.y`. -/
def triangleStatement : SelectStatement :=
  ⟨some [.tableName "t" (some "a"), .tableName "u" (some "b"), .tableName "v" (some "c")],
    [.expr (.columnRef "x" (some "a"))],
    some (.opAnd (.opAnd (equality "a" "x" "b" "x") (equality "b" "y" "c" "x"))
      (equality "c" "y" "a" "y"))⟩

def triangleSchema : Schema :=
  ["t", "u", "v"].map fun table => (table, [⟨.INT32, "x"⟩, ⟨.INT32, "y"⟩])

/-- A table of one row. -/
def oneRow (x y : Int32) : Table := ⟨[[.int32 x, .int32 y]], [.INT32, .INT32]⟩

theorem oneRow_wellTyped (x y : Int32) : (oneRow x y).WellTyped := by
  intro record hrecord
  rw [List.mem_singleton.mp hrecord]
  exact .cons trivial (.cons trivial .nil)

/-- One row of the first two tables, and two of the third: each of its rows violates one of its
equalities. -/
def triangleContents (file : CacheFile) : Table :=
  if file.table = "t" then oneRow 1 5 else if file.table = "u" then oneRow 1 2
  else ⟨(oneRow 2 6).data ++ (oneRow 9 5).data, [.INT32, .INT32]⟩

def triangleNode : PlanJson := hashJoin (hashJoin (seqScan "a") (seqScan "b")) (seqScan "c")

theorem triangleNode_operator : triangleNode.operator =
    .hashJoin false (.hashJoin false (.scan (some "a") none) (.scan (some "b") none))
      (.scan (some "c") none) := by
  simp [triangleNode, hashJoin, seqScan, PlanJson.operator, otherOperators, joinTypes, scanTypes]

def triangleScope : Scope :=
  ⟨triangleSchema,
    { tableCounts := [("t", 1), ("u", 1), ("v", 1)]
      aliasMap := [("a", ⟨"t", 0⟩), ("b", ⟨"u", 0⟩), ("c", ⟨"v", 0⟩)]
      columnMap := [(⟨"t", 0⟩, [("x", 0), ("y", 1)]), (⟨"u", 0⟩, [("x", 2), ("y", 3)]),
        (⟨"v", 0⟩, [("x", 4), ("y", 5)])]
      columnVec := [(⟨"t", 0⟩, "x"), (⟨"t", 0⟩, "y"), (⟨"u", 0⟩, "x"), (⟨"u", 0⟩, "y"),
        (⟨"v", 0⟩, "x"), (⟨"v", 0⟩, "y")] }, 0⟩

def trianglePipeline (order : HashOrder) (joinGraph : JoinGraph) : Pipeline :=
  { parsed :=
      { scope := triangleScope
        joinGraph := joinGraph
        filters := []
        outputAttrs := [(⟨"t", 0⟩, "x")] }
    order := order
    formatDouble := fun _ => []
    cache := fun _ => some ⟨0, []⟩ }

section Triangle

variable {order : HashOrder} {joinGraph : JoinGraph}

/-- In whatever order the classes are walked, each of the first two tables has its two conditions. -/
theorem triangle_parse (order : HashOrder) : ∃ joinGraph adjT adjU,
    parseSql triangleSchema 0 order triangleStatement =
        .ok ((trianglePipeline order joinGraph).parsed, ⟨[2, 1, 2, 4, 4, 1]⟩) ∧
      joinGraph.lookup ⟨"t", 0⟩ = some adjT ∧ adjT.Perm [(⟨"u", 0⟩, ("x", "x")), (⟨"v", 0⟩, ("y", "y"))] ∧
      joinGraph.lookup ⟨"u", 0⟩ = some adjU ∧ adjU.Perm [(⟨"t", 0⟩, ("x", "x")), (⟨"v", 0⟩, ("y", "x"))] := by
  have hparse : parseSql triangleSchema 0 order triangleStatement =
      (JoinGraph.ofClasses order triangleScope.names.columnVec [(2, [0, 2]), (1, [1, 5]), (4, [3, 4])] >>=
        fun joinGraph => .ok ((trianglePipeline order joinGraph).parsed, ⟨[2, 1, 2, 4, 4, 1]⟩)) := by rfl
  have hclasses := List.mem_permutations'.mpr
    (order.classes_perm [(2, [0, 2]), (1, [1, 5]), (4, [3, 4])])
  simp only [List.permutations', List.permutations'Aux, List.flatMap_cons, List.flatMap_nil, List.map_cons,
    List.map_nil, List.cons_append, List.nil_append, List.append_nil, List.mem_cons, List.not_mem_nil,
    or_false] at hclasses
  rw [hparse, JoinGraph.ofClasses]
  rcases hclasses with h | h | h | h | h | h <;> rw [h] <;>
    exact ⟨_, _, _, rfl, rfl, by decide, rfl, by decide⟩

/-- The lower join has its condition, the upper one of its two. -/
theorem triangle_conditions {adjT adjU : List (TableEntity × (String × String))}
    (ht : joinGraph.lookup ⟨"t", 0⟩ = some adjT)
    (hadjT : adjT.Perm [(⟨"u", 0⟩, ("x", "x")), (⟨"v", 0⟩, ("y", "y"))])
    (hu : joinGraph.lookup ⟨"u", 0⟩ = some adjU)
    (hadjU : adjU.Perm [(⟨"t", 0⟩, ("x", "x")), (⟨"v", 0⟩, ("y", "x"))]) :
    (trianglePipeline order joinGraph).joinCondition [⟨"t", 0⟩] [⟨"u", 0⟩] =
        some (⟨"t", 0⟩, ⟨"u", 0⟩, ("x", "x")) ∧
      ((trianglePipeline order joinGraph).joinCondition [⟨"t", 0⟩, ⟨"u", 0⟩] [⟨"v", 0⟩] =
          some (⟨"t", 0⟩, ⟨"v", 0⟩, ("y", "y")) ∨
        (trianglePipeline order joinGraph).joinCondition [⟨"t", 0⟩, ⟨"u", 0⟩] [⟨"v", 0⟩] =
          some (⟨"u", 0⟩, ⟨"v", 0⟩, ("y", "x"))) := by
  have hone := List.perm_singleton.mp (order.entities_perm [⟨"t", 0⟩])
  have htwo := List.perm_pair.mp (order.entities_perm [⟨"t", 0⟩, ⟨"u", 0⟩])
  have hwalkT := List.perm_pair.mp ((order.adjacent_perm adjT).trans hadjT)
  have hwalkU := List.perm_pair.mp ((order.adjacent_perm adjU).trans hadjU)
  unfold Pipeline.joinCondition trianglePipeline
  dsimp only
  constructor
  · rw [hone, List.foldl_cons, ht]
    dsimp only
    rcases hwalkT with h | h <;> rw [h] <;> rfl
  · rcases htwo with h | h <;> rw [h] <;> simp only [List.foldl_cons, List.foldl_nil, ht, hu]
    · rcases hwalkT with h | h <;> rcases hwalkU with h' | h' <;> rw [h, h'] <;> exact .inr rfl
    · rcases hwalkT with h | h <;> rcases hwalkU with h' | h' <;> rw [h, h'] <;> exact .inl rfl

theorem triangle_tables : (trianglePipeline order joinGraph).inputTables triangleContents
    triangleNode.operator = [oneRow 1 5, oneRow 1 2, ⟨(oneRow 2 6).data ++ (oneRow 9 5).data,
      [.INT32, .INT32]⟩] := by
  rw [triangleNode_operator]
  rfl

/-- The plan that keeps `a.y = c.y`. -/
def triangleOuter : PlanTree :=
  .join false (.join false (.scan 0 [(0, .INT32), (1, .INT32)]) (.scan 1 [(0, .INT32)]) 0 0
    [(0, .INT32), (1, .INT32)]) (.scan 2 [(1, .INT32)]) 1 0 [(0, .INT32)]

/-- The plan that keeps `b.y = c.x`. -/
def triangleInner : PlanTree :=
  .join false (.join false (.scan 0 [(0, .INT32)]) (.scan 1 [(1, .INT32), (0, .INT32)]) 0 1
    [(0, .INT32), (1, .INT32)]) (.scan 2 [(0, .INT32)]) 1 0 [(0, .INT32)]

/-- The plan keeps one of the two. -/
theorem triangle_load (hlower : (trianglePipeline order joinGraph).joinCondition [⟨"t", 0⟩] [⟨"u", 0⟩] =
      some (⟨"t", 0⟩, ⟨"u", 0⟩, ("x", "x")))
    (hupper : (trianglePipeline order joinGraph).joinCondition [⟨"t", 0⟩, ⟨"u", 0⟩] [⟨"v", 0⟩] =
        some (⟨"t", 0⟩, ⟨"v", 0⟩, ("y", "y")) ∨
      (trianglePipeline order joinGraph).joinCondition [⟨"t", 0⟩, ⟨"u", 0⟩] [⟨"v", 0⟩] =
        some (⟨"u", 0⟩, ⟨"v", 0⟩, ("y", "x"))) :
    ∃ plan tree, (trianglePipeline order joinGraph).loadJoinPipeline triangleNode = .ok plan ∧
      plan.Unfolds plan.root tree ∧ (tree = triangleOuter ∨ tree = triangleInner) := by
  have ha : (trianglePipeline order joinGraph).extractEntities (.scan (some "a") none) =
    .ok [⟨"t", 0⟩] := rfl
  have hb : (trianglePipeline order joinGraph).extractEntities (.scan (some "b") none) =
    .ok [⟨"u", 0⟩] := rfl
  have hc : (trianglePipeline order joinGraph).extractEntities (.scan (some "c") none) =
    .ok [⟨"v", 0⟩] := rfl
  have hab : (trianglePipeline order joinGraph).extractEntities
    (.hashJoin false (.scan (some "a") none) (.scan (some "b") none)) = .ok [⟨"t", 0⟩, ⟨"u", 0⟩] := rfl
  rw [Pipeline.loadJoinPipeline, triangleNode_operator]
  rcases hupper with hupper | hupper <;>
    simp only [Pipeline.recurse, ha, hb, hc, hab, ok_bind, hlower, hupper]
  · exact ⟨_, triangleOuter, rfl, .join rfl (.join rfl (.scan rfl) (.scan rfl)) (.scan rfl), .inl rfl⟩
  · exact ⟨_, triangleInner, rfl, .join rfl (.join rfl (.scan rfl) (.scan rfl)) (.scan rfl), .inr rfl⟩

/-- A row of the third table violates the equality that is not kept. -/
theorem triangle_not_enforces {tree : PlanTree} (htree : tree = triangleOuter ∨ tree = triangleInner) :
    ¬ (trianglePipeline order joinGraph).Enforces ⟨[2, 1, 2, 4, 4, 1]⟩ triangleNode.operator tree
      triangleContents := by
  intro henforces
  unfold Pipeline.Enforces at henforces
  rw [triangle_tables, triangleNode_operator] at henforces
  rcases htree with rfl | rfl
  · -- `a.y = c.y` holds of the row (9, 5) of the third table
    have heq := henforces
      ([(0, [.int32 1, .int32 5]), (1, [.int32 1, .int32 2]), (2, [.int32 9, .int32 5])], [.int32 1])
      (by decide) (1, [.int32 1, .int32 2]) (by simp) (2, [.int32 9, .int32 5]) (by simp)
      ⟨"u", 0⟩ ⟨"v", 0⟩ "y" "x" rfl rfl ⟨3, 4, rfl, rfl, 4, _, _, rfl, rfl⟩
    have hcells : (Data.int32 2) = .int32 9 := heq
    cases hcells
  · -- `b.y = c.x` holds of the row (2, 6)
    have heq := henforces
      ([(0, [.int32 1, .int32 5]), (1, [.int32 1, .int32 2]), (2, [.int32 2, .int32 6])], [.int32 1])
      (by decide) (0, [.int32 1, .int32 5]) (by simp) (2, [.int32 2, .int32 6]) (by simp)
      ⟨"t", 0⟩ ⟨"v", 0⟩ "y" "y" rfl rfl ⟨1, 5, rfl, rfl, 1, _, _, rfl, rfl⟩
    have hcells : (Data.int32 5) = .int32 6 := heq
    cases hcells

end Triangle

/-- Of the two equalities between the first two tables and the third, the plan keeps one, in whatever order
the hash maps are walked. -/
theorem loadJoinPipeline_triangle :
    (∀ file attributes, triangleSchema.lookup file.table = some attributes →
      (triangleContents file).WellTyped ∧ (triangleContents file).types = attributes.map Attribute.type) ∧
    ∀ order, ∃ joinGraph plan tree,
      parseSql triangleSchema 0 order triangleStatement =
          .ok ((trianglePipeline order joinGraph).parsed, ⟨[2, 1, 2, 4, 4, 1]⟩) ∧
        (trianglePipeline order joinGraph).loadJoinPipeline triangleNode = .ok plan ∧
        plan.Unfolds plan.root tree ∧
        ¬ (trianglePipeline order joinGraph).Enforces ⟨[2, 1, 2, 4, 4, 1]⟩ triangleNode.operator tree
          triangleContents := by
  constructor
  · intro file attributes hattributes
    have hmem := mem_of_lookup hattributes
    simp only [triangleSchema, List.map_cons, List.map_nil, List.mem_cons, Prod.mk.injEq, List.not_mem_nil,
      or_false] at hmem
    unfold triangleContents
    rcases hmem with ⟨ht, rfl⟩ | ⟨ht, rfl⟩ | ⟨ht, rfl⟩ <;> rw [ht]
    · exact ⟨oneRow_wellTyped _ _, rfl⟩
    · exact ⟨oneRow_wellTyped _ _, rfl⟩
    · refine ⟨fun record hrecord => ?_, rfl⟩
      exact (List.mem_append.mp hrecord).elim (oneRow_wellTyped _ _ record) (oneRow_wellTyped _ _ record)
  · intro order
    obtain ⟨joinGraph, adjT, adjU, hparse, ht, hadjT, hu, hadjU⟩ := triangle_parse order
    obtain ⟨hlower, hupper⟩ := @triangle_conditions order joinGraph adjT adjU ht hadjT hu hadjU
    obtain ⟨plan, tree, hload, hunfolds, htree⟩ := triangle_load hlower hupper
    exact ⟨joinGraph, plan, tree, hparse, hload, hunfolds, triangle_not_enforces htree⟩

end JoinOptimizer
