import JoinOptimizer.Cache.Build
import JoinOptimizer.Sql.Requests
import JoinOptimizer.Sql.Executed
import JoinOptimizer.Filter.ThreeValued

/-! Queries over a cache that runs of the program have filled: `load_join_pipeline` under
`TEAMOPT_BUILD_CACHE`, which dumps the tables of the scans, and then without, which loads them. -/

namespace JoinOptimizer

open Lib PlanTree CSVParser

namespace Pipeline

variable (pipeline : Pipeline)

section In

variable {σ : Type} (input : TableEntity → List Attribute → σ → Result (Option ColumnarTable × σ))
  (unset : Plan → Nat)

/-- The scan of a table, for which `input` may make an input; where it makes none, `new_input_id` is not
set. -/
def recurseScanIn (tableAlias relationName : Option String) (requiredAttrs : OutputAttrs) (plan : Plan)
    (s : σ) : Result (Nat × OutputColumns × Plan × σ) := do
  let entity ← pipeline.scanEntity tableAlias relationName
  match pipeline.parsed.scope.schema.lookup entity.table with
  | none => .error (.runtimeError ("Cannot find attributes for table: " ++ entity.table))
  | some attributes => do
    let (table, s) ← input entity attributes s
    let (newInputId, plan) := match table with
      | some table => plan.newInput table
      | none => (unset plan, plan)
    let columns := attributes.map fun attr => (entity, attr.name, attr.type)
    let outputAttrs ← requiredAttrs.mapM (resolve columns)
    let (newNodeId, plan) := plan.newScanNode newInputId outputAttrs
    .ok (newNodeId, outputColumns requiredAttrs outputAttrs, plan, s)

/-- `recurse` with the inputs that `input` makes. -/
def recurseIn : Operator → OutputAttrs → Plan → σ → Result (Nat × OutputColumns × Plan × σ)
  | .other child, requiredAttrs, plan, s => recurseIn child requiredAttrs plan s
  | .hashJoin buildLeft pleft pright, requiredAttrs, plan, s => do
    let (condition, leftRequired, rightRequired) ← pipeline.splitJoin pleft pright requiredAttrs
    let (left, leftColumns, plan, s) ← recurseIn pleft leftRequired plan s
    let (right, rightColumns, plan, s) ← recurseIn pright rightRequired plan s
    match findColumn leftColumns condition.left.1 condition.left.2,
        findColumn rightColumns condition.right.1 condition.right.2 with
    | some leftAttr, some rightAttr => do
      let outputAttrs ← requiredAttrs.mapM (resolve (leftColumns ++ rightColumns))
      let (newNodeId, plan) :=
        plan.newJoinNode { buildLeft, left, right, leftAttr, rightAttr } outputAttrs
      .ok (newNodeId, outputColumns requiredAttrs outputAttrs, plan, s)
    | _, _ => .error (.runtimeError "Join conditions are not set properly")
  | .scan tableAlias relationName, requiredAttrs, plan, s =>
    pipeline.recurseScanIn input unset tableAlias relationName requiredAttrs plan s
  | .failed fault, _, _, _ => .error fault

/-- What the scan of a table changes besides the plan. -/
def visit (s : σ) (entity : TableEntity) : Result σ :=
  match pipeline.parsed.scope.schema.lookup entity.table with
  | none => .error (.runtimeError ("Cannot find attributes for table: " ++ entity.table))
  | some attributes => do
    let (_, s) ← input entity attributes s
    .ok s

end In

/-- The request of a scan. -/
def cacheRequest (entity : TableEntity) (attributes : List Attribute) : Result CacheRequest := do
  let file ← pipeline.cacheFile entity
  .ok ⟨file, attributes, (pipeline.parsed.filters.lookup entity).bind (·.statement?)⟩

/-- The input of a scan where the cache is built. -/
def buildInput (content : String → Option Bytes) (outside : CacheFile → Outside) (entity : TableEntity)
    (attributes : List Attribute) (s : CacheBuild) : Result (Option ColumnarTable × CacheBuild) := do
  let request ← pipeline.cacheRequest entity attributes
  s.dump content (outside request.file) request

/-- `load_join_pipeline` where the cache is built. -/
def buildCache (content : String → Option Bytes) (outside : CacheFile → Outside) (unset : Plan → Nat)
    (node : PlanJson) (s : CacheBuild) : Result (Plan × CacheBuild) := do
  let (root, _, plan, s) ← pipeline.recurseIn (pipeline.buildInput content outside) unset node.operator
    pipeline.parsed.outputAttrs ⟨[], [], 0⟩ s
  .ok ({ plan with root }, s)

/-- The pipeline over the files of a directory. -/
def onFiles (files : List (String × Bytes)) : Pipeline :=
  { pipeline with cache := fun file => cachedTable files file.filename }

variable {pipeline}

@[simp] theorem onFiles_extractEntities (files : List (String × Bytes)) (op : Operator) :
    (pipeline.onFiles files).extractEntities op = pipeline.extractEntities op := by
  induction op with
  | other child ih => exact ih
  | hashJoin buildLeft left right ihl ihr => rw [extractEntities, extractEntities, ihl, ihr]
  | scan tableAlias relationName => cases tableAlias <;> rfl
  | failed fault => rfl

@[simp] theorem onFiles_splitJoin (files : List (String × Bytes)) (pleft pright : Operator)
    (requiredAttrs : OutputAttrs) :
    (pipeline.onFiles files).splitJoin pleft pright requiredAttrs =
      pipeline.splitJoin pleft pright requiredAttrs := by
  unfold splitJoin
  rw [onFiles_extractEntities, onFiles_extractEntities]
  rfl

@[simp] theorem onFiles_tables (files : List (String × Bytes)) (op : Operator) :
    (pipeline.onFiles files).tables op = pipeline.tables op := by
  induction op with
  | other child ih => exact ih
  | hashJoin buildLeft left right ihl ihr => rw [tables, tables, ihl, ihr]
  | scan tableAlias relationName => rfl
  | failed fault => rfl

theorem onFiles_covered (files : List (String × Bytes))
    {same : TableEntity × String → TableEntity × String → Prop} {op : Operator}
    (h : pipeline.Covered same op) : (pipeline.onFiles files).Covered same op := by
  induction op with
  | other child ih => exact ih h
  | hashJoin buildLeft left right ihl ihr =>
    obtain ⟨hl, hr, hboth⟩ := h
    refine ⟨ihl hl, ihr hr, ?_⟩
    rw [onFiles_tables, onFiles_tables]
    exact hboth
  | scan tableAlias relationName => exact h
  | failed fault => trivial

section In

variable {σ : Type} {input : TableEntity → List Attribute → σ → Result (Option ColumnarTable × σ)}
  {unset : Plan → Nat}

/-- What a scan does. -/
theorem recurseScanIn_eq_ok {tableAlias relationName : Option String} {requiredAttrs : OutputAttrs}
    {plan plan' : Plan} {s s' : σ} {nodeIdx : Nat} {columns : OutputColumns}
    (h : pipeline.recurseScanIn input unset tableAlias relationName requiredAttrs plan s =
      .ok (nodeIdx, columns, plan', s')) :
    ∃ entity attributes table outputAttrs, pipeline.scanEntity tableAlias relationName = .ok entity ∧
      pipeline.parsed.scope.schema.lookup entity.table = some attributes ∧
      input entity attributes s = .ok (table, s') ∧
      requiredAttrs.mapM (resolve (attributes.map fun attr => (entity, attr.name, attr.type))) =
        .ok outputAttrs ∧
      nodeIdx = plan.nodes.length ∧ columns = outputColumns requiredAttrs outputAttrs ∧
      plan'.nodes.length = plan.nodes.length + 1 := by
  obtain ⟨entity, hentity, h⟩ := bind_eq_ok.mp h
  split at h
  · cases h
  · next attributes hattributes =>
    obtain ⟨⟨table, t⟩, hinput, h⟩ := bind_eq_ok.mp h
    obtain ⟨outputAttrs, houtput, h⟩ := bind_eq_ok.mp h
    cases h
    refine ⟨entity, attributes, table, outputAttrs, hentity, hattributes, hinput, houtput, ?_, rfl, ?_⟩
    · cases table <;> rfl
    · cases table <;> exact List.length_append

/-- What a join does. -/
theorem recurseIn_join_eq_ok {buildLeft : Bool} {pleft pright : Operator} {requiredAttrs : OutputAttrs}
    {plan plan' : Plan} {s s' : σ} {nodeIdx : Nat} {columns : OutputColumns}
    (h : pipeline.recurseIn input unset (.hashJoin buildLeft pleft pright) requiredAttrs plan s =
      .ok (nodeIdx, columns, plan', s')) :
    ∃ condition leftRequired rightRequired left leftColumns planL sL right rightColumns planR leftAttr
        rightAttr outputAttrs,
      pipeline.splitJoin pleft pright requiredAttrs = .ok (condition, leftRequired, rightRequired) ∧
      pipeline.recurseIn input unset pleft leftRequired plan s = .ok (left, leftColumns, planL, sL) ∧
      pipeline.recurseIn input unset pright rightRequired planL sL = .ok (right, rightColumns, planR, s') ∧
      findColumn leftColumns condition.left.1 condition.left.2 = some leftAttr ∧
      findColumn rightColumns condition.right.1 condition.right.2 = some rightAttr ∧
      requiredAttrs.mapM (resolve (leftColumns ++ rightColumns)) = .ok outputAttrs ∧
      nodeIdx = planR.nodes.length ∧ columns = outputColumns requiredAttrs outputAttrs ∧
      plan'.nodes.length = planR.nodes.length + 1 := by
  rw [recurseIn] at h
  obtain ⟨⟨condition, leftRequired, rightRequired⟩, hsplit, h⟩ := bind_eq_ok.mp h
  obtain ⟨⟨left, leftColumns, planL, sL⟩, hleft, h⟩ := bind_eq_ok.mp h
  obtain ⟨⟨right, rightColumns, planR, sR⟩, hright, h⟩ := bind_eq_ok.mp h
  dsimp only at h
  cases hleftAttr : findColumn leftColumns condition.left.1 condition.left.2 with
  | none =>
    rw [hleftAttr] at h
    cases h
  | some leftAttr =>
    cases hrightAttr : findColumn rightColumns condition.right.1 condition.right.2 with
    | none =>
      rw [hleftAttr, hrightAttr] at h
      cases h
    | some rightAttr =>
      rw [hleftAttr, hrightAttr] at h
      obtain ⟨outputAttrs, houtput, h⟩ := bind_eq_ok.mp h
      cases h
      exact ⟨condition, leftRequired, rightRequired, left, leftColumns, planL, sL, right, rightColumns,
        planR, leftAttr, rightAttr, outputAttrs, hsplit, hleft, hright, hleftAttr, hrightAttr, houtput, rfl,
        rfl, List.length_append⟩

/-- The scans are visited from left to right. -/
theorem recurseIn_visits {op : Operator} {requiredAttrs : OutputAttrs} {plan plan' : Plan} {s s' : σ}
    {nodeIdx : Nat} {columns : OutputColumns}
    (h : pipeline.recurseIn input unset op requiredAttrs plan s = .ok (nodeIdx, columns, plan', s')) :
    (pipeline.tables op).foldlM (pipeline.visit input) s = .ok s' := by
  induction op generalizing requiredAttrs plan plan' s s' nodeIdx columns with
  | other child ih => exact ih h
  | failed fault => cases h
  | scan tableAlias relationName =>
    obtain ⟨entity, attributes, table, outputAttrs, hentity, hattributes, hinput, -⟩ := recurseScanIn_eq_ok h
    rw [tables, hentity]
    refine foldlM_cons_eq_ok.mpr ⟨s', ?_, rfl⟩
    unfold visit
    rw [hattributes]
    simp only [hinput, ok_bind]
  | hashJoin buildLeft pleft pright ihl ihr =>
    obtain ⟨_, _, _, _, _, _, sL, _, _, _, _, _, _, -, hleft, hright, -⟩ := recurseIn_join_eq_ok h
    rw [tables]
    exact foldlM_append_eq_ok.mpr ⟨sL, ihl hleft, ihr hright⟩

/-- Where the tables of all scans are in the cache, a query that was built is loaded. -/
theorem recurse_of_recurseIn {op : Operator} {requiredAttrs : OutputAttrs} {plan plan' : Plan} {s s' : σ}
    {nodeIdx : Nat} {columns : OutputColumns} {files : List (String × Bytes)}
    (h : pipeline.recurseIn input unset op requiredAttrs plan s = .ok (nodeIdx, columns, plan', s'))
    (hcached : ∀ entity ∈ pipeline.tables op, ∃ file ct, pipeline.cacheFile entity = .ok file ∧
      cachedTable files file.filename = some ct) {loaded : Plan}
    (hlength : loaded.nodes.length = plan.nodes.length) :
    ∃ loaded', (pipeline.onFiles files).recurse op requiredAttrs loaded = .ok (nodeIdx, columns, loaded') ∧
      loaded'.nodes.length = plan'.nodes.length := by
  induction op generalizing requiredAttrs plan plan' s s' nodeIdx columns loaded with
  | other child ih => exact ih h hcached hlength
  | failed fault => cases h
  | scan tableAlias relationName =>
    obtain ⟨entity, attributes, table, outputAttrs, hentity, hattributes, -, houtput, rfl, rfl, hnodes⟩ :=
      recurseScanIn_eq_ok h
    obtain ⟨file, ct, hfile, hct⟩ := hcached entity (by rw [tables, hentity]; exact List.mem_singleton_self _)
    have hentity : (pipeline.onFiles files).scanEntity tableAlias relationName = .ok entity := hentity
    have hattributes : (pipeline.onFiles files).parsed.scope.schema.lookup entity.table = some attributes :=
      hattributes
    have hfile : (pipeline.onFiles files).cacheFile entity = .ok file := hfile
    have hct : (pipeline.onFiles files).cache file = some ct := hct
    rw [recurse, recurseScan, hentity, ok_bind, hattributes]
    simp only [hfile, hct, ok_bind, houtput]
    refine ⟨_, by rw [← hlength]; rfl, ?_⟩
    rw [hnodes, ← hlength]
    exact List.length_append
  | hashJoin buildLeft pleft pright ihl ihr =>
    obtain ⟨condition, leftRequired, rightRequired, left, leftColumns, planL, sL, right, rightColumns, planR,
      leftAttr, rightAttr, outputAttrs, hsplit, hleft, hright, hleftAttr, hrightAttr, houtput, rfl, rfl,
      hnodes⟩ := recurseIn_join_eq_ok h
    rw [tables] at hcached
    obtain ⟨loadedL, hleft', hlengthL⟩ := ihl hleft (fun e he => hcached e (List.mem_append_left _ he)) hlength
    obtain ⟨loadedR, hright', hlengthR⟩ := ihr hright (fun e he => hcached e (List.mem_append_right _ he))
      hlengthL
    rw [recurse_eq, recurseWith, onFiles_splitJoin, hsplit, ok_bind]
    simp only [← recurse_eq, hleft', hright', ok_bind, hleftAttr, hrightAttr, houtput]
    refine ⟨_, by rw [← hlengthR]; rfl, ?_⟩
    rw [hnodes, ← hlengthR]
    exact List.length_append

end In

/-! ### The requests of a query -/

variable (pipeline) in
/-- The request of the scan of a table. -/
def scanRequest (entity : TableEntity) : Result CacheRequest :=
  match pipeline.parsed.scope.schema.lookup entity.table with
  | none => .error (.runtimeError ("Cannot find attributes for table: " ++ entity.table))
  | some attributes => pipeline.cacheRequest entity attributes

theorem cacheRequest_eq_ok {entity : TableEntity} {attributes : List Attribute} {request : CacheRequest}
    (h : pipeline.cacheRequest entity attributes = .ok request) :
    pipeline.cacheFile entity = .ok request.file ∧ request.file.table = entity.table ∧
      request.attributes = attributes ∧ request.filter = pipeline.filterOf entity := by
  obtain ⟨file, hfile, h⟩ := bind_eq_ok.mp h
  cases h
  exact ⟨hfile, cacheFile_table hfile, rfl, rfl⟩

theorem scanRequest_eq_ok {entity : TableEntity} {request : CacheRequest} :
    pipeline.scanRequest entity = .ok request ↔ ∃ attributes,
      pipeline.parsed.scope.schema.lookup entity.table = some attributes ∧
        pipeline.cacheRequest entity attributes = .ok request := by
  unfold scanRequest
  cases pipeline.parsed.scope.schema.lookup entity.table with
  | none => simp
  | some attributes => simp

theorem Filterable.allowed {op : Operator} (h : pipeline.Filterable op) {entity : TableEntity}
    (hentity : entity ∈ pipeline.tables op) {request : CacheRequest}
    (hrequest : pipeline.scanRequest entity = .ok request) :
    request.Allowed pipeline.parsed.scope.schema := by
  obtain ⟨attributes, hattributes, hrequest⟩ := scanRequest_eq_ok.mp hrequest
  obtain ⟨-, htable, rfl, hfilter⟩ := cacheRequest_eq_ok hrequest
  obtain ⟨attributes, hattributes', hne, htypes, hmatches⟩ := h entity hentity
  obtain rfl := Option.some.inj (hattributes.symm.trans hattributes')
  exact ⟨htable ▸ hattributes, hne, htypes, fun stmt hstmt => (hmatches stmt (hfilter ▸ hstmt)).fits⟩

section Build

variable {content : String → Option Bytes} {outside : CacheFile → Outside} {re2 : RE2}
  {earlier : List CacheRequest} {s s' : CacheBuild}

/-- Scans one behind the other make their requests. -/
theorem visits_builds {op : Operator} (hfilterable : pipeline.Filterable op)
    (hre2 : ∀ file, (outside file).re2 = re2)
    (horder : ∀ file attributes, pipeline.parsed.scope.schema.lookup file.table = some attributes →
      (outside file).order.Perm (List.range attributes.length)) (entities : List TableEntity)
    (hentities : ∀ entity ∈ entities, entity ∈ pipeline.tables op)
    (h : Builds pipeline.parsed.scope.schema content re2 earlier s)
    (hrun : entities.foldlM (pipeline.visit (pipeline.buildInput content outside)) s = .ok s') :
    ∃ requests, entities.mapM pipeline.scanRequest = .ok requests ∧
      Builds pipeline.parsed.scope.schema content re2 (earlier ++ requests) s' := by
  induction entities generalizing earlier s with
  | nil =>
    cases hrun
    exact ⟨[], rfl, by simpa using h⟩
  | cons entity entities ih =>
    obtain ⟨t, hvisit, hrun⟩ := foldlM_cons_eq_ok.mp hrun
    have hhere := hentities entity List.mem_cons_self
    unfold visit at hvisit
    cases hattributes : pipeline.parsed.scope.schema.lookup entity.table with
    | none =>
      rw [hattributes] at hvisit
      cases hvisit
    | some attributes =>
      rw [hattributes] at hvisit
      obtain ⟨⟨table, t'⟩, hinput, hvisit⟩ := bind_eq_ok.mp hvisit
      cases hvisit
      obtain ⟨request, hrequest, hdump⟩ := bind_eq_ok.mp hinput
      have hscan := scanRequest_eq_ok.mpr ⟨attributes, hattributes, hrequest⟩
      obtain ⟨-, htable, rfl, -⟩ := cacheRequest_eq_ok hrequest
      have hnext := h.dump (hfilterable.allowed hhere hscan) (hre2 _)
        (horder _ _ (htable ▸ hattributes)) hdump
      obtain ⟨requests, hrequests, hbuilds⟩ :=
        ih (fun e he => hentities e (List.mem_cons_of_mem _ he)) hnext hrun
      refine ⟨request :: requests, ?_, by simpa using hbuilds⟩
      rw [List.mapM_cons, hscan, ok_bind, hrequests]
      rfl

/-- A query that is built makes the requests of its scans. -/
theorem buildCache_builds {node : PlanJson} {unset : Plan → Nat} {built : Plan}
    (hfilterable : pipeline.Filterable node.operator) (hre2 : ∀ file, (outside file).re2 = re2)
    (horder : ∀ file attributes, pipeline.parsed.scope.schema.lookup file.table = some attributes →
      (outside file).order.Perm (List.range attributes.length))
    (h : Builds pipeline.parsed.scope.schema content re2 earlier s)
    (hbuild : pipeline.buildCache content outside unset node s = .ok (built, s')) :
    ∃ requests, (pipeline.tables node.operator).mapM pipeline.scanRequest = .ok requests ∧
      Builds pipeline.parsed.scope.schema content re2 (earlier ++ requests) s' := by
  obtain ⟨⟨root, columns, plan, t⟩, hrecurse, hbuild⟩ := bind_eq_ok.mp hbuild
  cases hbuild
  exact visits_builds hfilterable hre2 horder _ (fun _ he => he) h (recurseIn_visits hrecurse)

end Build

end Pipeline

/-- Filters of requests for one file select the same rows. -/
def Apart (schema : Schema) (content : String → Option Bytes) (re2 : RE2) (requests : List CacheRequest) :
    Prop :=
  ∀ r ∈ requests, ∀ r' ∈ requests, r.file = r'.file →
    (imdbTable schema content r.file.table).selectedBy re2 r.filter =
      (imdbTable schema content r.file.table).selectedBy re2 r'.filter

/-- The rows in the file of the first request for it. -/
def fileRows (schema : Schema) (content : String → Option Bytes) (re2 : RE2) (requests : List CacheRequest)
    (file : CacheFile) : Table :=
  match requests.find? fun r => r.file.filename = file.filename with
  | some first => (imdbTable schema content file.table).selectedBy re2 first.filter
  | none => ⟨[], []⟩

section Directory

variable {schema : Schema} {content : String → Option Bytes} {re2 : RE2} {requests : List CacheRequest}
  {s : CacheBuild} (h : Builds schema content re2 requests s)
  (hfiles : ∀ f ∈ s.files, f.2.length < 2 ^ 64)
  (hrows : ∀ table, (imdbTable schema content table).data.length < 2 ^ 64)
include h hfiles hrows

/-- The file of a request is found, and is read as its rows. -/
theorem Builds.cachedTable {request : CacheRequest} (hrequest : request ∈ requests) :
    ∃ ct, cachedTable s.files request.file.filename = some ct ∧
      (fileRows schema content re2 requests request.file).WellTyped ∧
      ct.Holds (fileRows schema content re2 requests request.file) ∧
      ∃ first ∈ requests, first.file = request.file ∧
        (imdbTable schema content request.file.table).WellTyped ∧
        (imdbTable schema content request.file.table).types = request.attributes.map (·.type) ∧
        fileRows schema content re2 requests request.file =
          (imdbTable schema content request.file.table).selectedBy re2 first.filter := by
  obtain ⟨first, ct, hfind, hfirst, hbytes, hload, hwell, htypes, hholds⟩ :=
    h.stored_first hfiles hrows hrequest
  have hfile : fileRows schema content re2 requests request.file =
      (imdbTable schema content request.file.table).selectedBy re2 first.filter := by
    unfold fileRows
    rw [hfind]
  refine ⟨ct, ?_, hfile ▸ hwell.selectedBy _ _, hfile ▸ hholds, first,
    List.mem_of_find?_eq_some hfind, hfirst, hwell, htypes, hfile⟩
  unfold JoinOptimizer.cachedTable
  rw [hbytes]
  simp only [hload, mappedTable_table]

/-- What the directory has for a file holds the rows of the first request for it. -/
theorem Builds.holds {pipeline : Pipeline} :
    (pipeline.onFiles s.files).Holds (fileRows schema content re2 requests) := by
  intro file ct hct
  have hct : JoinOptimizer.cachedTable s.files file.filename = some ct := hct
  have hthere : ∃ bytes, s.files.lookup file.filename = some bytes := by
    unfold JoinOptimizer.cachedTable at hct
    cases hlookup : s.files.lookup file.filename with
    | none =>
      rw [hlookup] at hct
      cases hct
    | some bytes => exact ⟨bytes, rfl⟩
  obtain ⟨bytes, hbytes⟩ := hthere
  obtain ⟨request, hfind, -⟩ := h.stored.files _ _ hbytes
  have hfound := List.find?_some hfind
  obtain rfl := CacheFile.filename_injective (of_decide_eq_true hfound)
  obtain ⟨ct', hct', -, hholds, -⟩ := h.cachedTable hfiles hrows (List.mem_of_find?_eq_some hfind)
  obtain rfl := Option.some.inj (hct.symm.trans hct')
  exact hholds

end Directory

namespace Pipeline

section Requested

variable {pipeline : Pipeline} {content : String → Option Bytes} {re2 : RE2} {op : Operator}
  {mine requests : List CacheRequest} {s : CacheBuild}
  (h : Builds pipeline.parsed.scope.schema content re2 requests s)
  (hfiles : ∀ f ∈ s.files, f.2.length < 2 ^ 64)
  (hrows : ∀ table, (imdbTable pipeline.parsed.scope.schema content table).data.length < 2 ^ 64)
  (hmine : (pipeline.tables op).mapM pipeline.scanRequest = .ok mine) (hmade : ∀ r ∈ mine, r ∈ requests)

include hmine hmade in
theorem request_of_entity {entity : TableEntity} (hentity : entity ∈ pipeline.tables op) :
    ∃ request ∈ requests, pipeline.scanRequest entity = .ok request ∧
      pipeline.cacheFile entity = .ok request.file ∧ request.file.table = entity.table := by
  obtain ⟨i, hi, rfl⟩ := List.getElem_of_mem hentity
  obtain ⟨request, hget, hrequest⟩ := mapM_ok_getElem? hmine (List.getElem?_eq_getElem hi)
  obtain ⟨attributes, -, hcache⟩ := scanRequest_eq_ok.mp hrequest
  obtain ⟨hfile, htable, -⟩ := cacheRequest_eq_ok hcache
  exact ⟨request, hmade _ (List.mem_of_getElem? hget), hrequest, hfile, htable⟩

include h hfiles hrows hmine hmade

/-- The files of the scans hold the rows of their tables that the filters select. -/
theorem filtered_of_builds (hapart : Apart pipeline.parsed.scope.schema content re2 requests) :
    (pipeline.onFiles s.files).Filtered re2 (imdbTable pipeline.parsed.scope.schema content)
      (fileRows pipeline.parsed.scope.schema content re2 requests) op := by
  intro entity hentity file hfile
  rw [onFiles_tables] at hentity
  have hfile : pipeline.cacheFile entity = .ok file := hfile
  obtain ⟨request, hrequest, hscan, hfile', htable⟩ := request_of_entity hmine hmade hentity
  obtain rfl := Except.ok.inj (hfile.symm.trans hfile')
  obtain ⟨-, -, -, -, first, hfirst, hsame, -, -, hrowsEq⟩ := h.cachedTable hfiles hrows hrequest
  have happly := hapart first hfirst request hrequest hsame
  obtain ⟨attributes, -, hcache⟩ := scanRequest_eq_ok.mp hscan
  obtain ⟨-, -, -, hfilter⟩ := cacheRequest_eq_ok hcache
  rw [hsame, hfilter] at happly
  rw [hrowsEq, happly, htable]
  rfl

/-- The tables of the scans have the columns of the schema. -/
theorem typedBase_of_builds :
    pipeline.TypedBase (imdbTable pipeline.parsed.scope.schema content) op := by
  intro entity hentity attributes hattributes
  obtain ⟨request, hrequest, -, -, htable⟩ := request_of_entity hmine hmade hentity
  obtain ⟨-, -, -, -, -, -, -, hwell, htypes, -⟩ := h.cachedTable hfiles hrows hrequest
  have hrequested := (h.allowed request hrequest).attributes
  rw [htable] at hwell htypes hrequested
  rw [hattributes] at hrequested
  refine ⟨hwell, ?_⟩
  rw [htypes, Option.some.inj hrequested]

theorem typed_of_builds : (pipeline.onFiles s.files).Typed op
    (fileRows pipeline.parsed.scope.schema content re2 requests) := by
  intro entity hentity file attributes hfile hattributes
  rw [onFiles_tables] at hentity
  have hfile : pipeline.cacheFile entity = .ok file := hfile
  have hattributes : pipeline.parsed.scope.schema.lookup entity.table = some attributes := hattributes
  obtain ⟨request, hrequest, hscan, hfile', htable⟩ := request_of_entity hmine hmade hentity
  obtain rfl := Except.ok.inj (hfile.symm.trans hfile')
  obtain ⟨-, -, hwell, -, first, hfirst, hsame, -, htypes, hrowsEq⟩ := h.cachedTable hfiles hrows hrequest
  refine ⟨hwell, ?_⟩
  have hrequested := (h.allowed request hrequest).attributes
  rw [htable, hattributes] at hrequested
  rw [hrowsEq, Option.some.inj hrequested, ← htypes]
  rfl

/-- A query that was built is loaded. -/
theorem loadJoinPipeline_of_builds {outside : CacheFile → Outside} {unset : Plan → Nat} {node : PlanJson}
    (hop : op = node.operator) {s₀ s₁ : CacheBuild} {built : Plan}
    (hbuild : pipeline.buildCache content outside unset node s₀ = .ok (built, s₁)) :
    ∃ plan, (pipeline.onFiles s.files).loadJoinPipeline node = .ok plan := by
  subst hop
  obtain ⟨⟨root, columns, plan, t⟩, hrecurse, -⟩ := bind_eq_ok.mp hbuild
  have hcached : ∀ entity ∈ pipeline.tables node.operator, ∃ file ct, pipeline.cacheFile entity = .ok file ∧
      cachedTable s.files file.filename = some ct := by
    intro entity hentity
    obtain ⟨request, hrequest, -, hfile, -⟩ := request_of_entity hmine hmade hentity
    obtain ⟨ct, hct, -⟩ := h.cachedTable hfiles hrows hrequest
    exact ⟨request.file, ct, hfile, hct⟩
  have hlength : (⟨[], [], 0⟩ : Plan).nodes.length = (⟨[], [], 0⟩ : Plan).nodes.length := rfl
  obtain ⟨loaded, hloaded, -⟩ := recurse_of_recurseIn hrecurse hcached hlength
  refine ⟨{ loaded with root }, ?_⟩
  unfold loadJoinPipeline
  have hloaded : (pipeline.onFiles s.files).recurse node.operator
    (pipeline.onFiles s.files).parsed.outputAttrs ⟨[], [], 0⟩ = .ok (root, columns, loaded) := hloaded
  rw [hloaded]
  rfl

/-- The inputs of a plan that is loaded decode to the rows of the files of its scans. -/
theorem inputs_of_builds {node : PlanJson} (hop : op = node.operator) {plan : Plan}
    (hload : (pipeline.onFiles s.files).loadJoinPipeline node = .ok plan) :
    plan.inputs.mapM fromColumnar = .ok ((pipeline.onFiles s.files).inputTables
      (fileRows pipeline.parsed.scope.schema content re2 requests) op) := by
  subst hop
  obtain ⟨⟨root, columns, plan'⟩, hrecurse, hload⟩ := bind_eq_ok.mp hload
  cases hload
  obtain ⟨inputs, hinputs, hcached⟩ := recurse_inputs hrecurse
  have hholding := holding_inputs (typed_of_builds h hfiles hrows hmine hmade) (h.holds hfiles hrows) hcached
  show plan'.inputs.mapM fromColumnar = _
  rw [hinputs, List.nil_append, mapM_eq_ok_iff]
  refine hholding.flip.imp ?_
  rintro ct t ⟨hwell, hholds⟩
  exact fromColumnar_eq hholds fun record hrecord => (hwell record hrecord).length_eq

end Requested

end Pipeline

theorem parseSql_schema {schema : Schema} {unset : Int} {order : HashOrder} {statement : SelectStatement}
    {parsed : ParsedSQL} {d : DSU} (h : parseSql schema unset order statement = .ok (parsed, d)) :
    parsed.scope.schema = schema := by
  obtain ⟨names, -, h⟩ := bind_eq_ok.mp h
  obtain ⟨outputAttrs, -, h⟩ := bind_eq_ok.mp h
  obtain ⟨clause, -, h⟩ := bind_eq_ok.mp h
  obtain ⟨⟨classes, joinUnion⟩, -, h⟩ := bind_eq_ok.mp h
  obtain ⟨joinGraph, -, h⟩ := bind_eq_ok.mp h
  cases h
  rfl

/-- A query over the files of a directory is the query. -/
theorem PlansQuery.onFiles {schema : Schema} {unset : Int} {order : HashOrder}
    {statement : SelectStatement} {pipeline : Pipeline} {d : DSU} {node : PlanJson}
    {list : List TableRef} {expr : Expr}
    (h : PlansQuery schema unset order statement pipeline d node list expr)
    (files : List (String × Bytes)) :
    PlansQuery schema unset order statement (pipeline.onFiles files) d node list expr where
  parsed := h.parsed
  named := h.named
  fromTable := h.fromTable
  whereClause := h.whereClause
  clean := h.clean
  proper := h.proper
  scans := by
    rw [Pipeline.onFiles_tables]
    exact h.scans
  covered := Pipeline.onFiles_covered files h.covered

namespace Pipeline

variable {pipeline : Pipeline} {op : Operator}

theorem Filterable.onFiles (h : pipeline.Filterable op) (files : List (String × Bytes)) :
    (pipeline.onFiles files).Filterable op := by
  intro entity hentity
  rw [onFiles_tables] at hentity
  exact h entity hentity

theorem TypedBase.onFiles {base : String → Table} (h : pipeline.TypedBase base op)
    (files : List (String × Bytes)) : (pipeline.onFiles files).TypedBase base op := by
  intro entity hentity
  rw [onFiles_tables] at hentity
  exact h entity hentity

theorem DecidesAsSql.onFiles {re2 : RE2} {base : String → Table} (h : pipeline.DecidesAsSql re2 base op)
    (files : List (String × Bytes)) : (pipeline.onFiles files).DecidesAsSql re2 base op := by
  intro entity hentity
  rw [onFiles_tables] at hentity
  exact h entity hentity

/-- The files of the scans hold the rows of their tables for which the filters are true. -/
theorem asked_of_builds {content : String → Option Bytes} {re2 : RE2} (hre2 : RE2.Documented re2)
    {mine requests : List CacheRequest} {s : CacheBuild}
    (h : Builds pipeline.parsed.scope.schema content re2 requests s)
    (hfiles : ∀ f ∈ s.files, f.2.length < 2 ^ 64)
    (hrows : ∀ table, (imdbTable pipeline.parsed.scope.schema content table).data.length < 2 ^ 64)
    (hmine : (pipeline.tables op).mapM pipeline.scanRequest = .ok mine) (hmade : ∀ r ∈ mine, r ∈ requests)
    (hfilterable : pipeline.Filterable op)
    (hdecides : pipeline.DecidesAsSql re2 (imdbTable pipeline.parsed.scope.schema content) op)
    (hapart : Apart pipeline.parsed.scope.schema content re2 requests) :
    (pipeline.onFiles s.files).Asked (imdbTable pipeline.parsed.scope.schema content)
      (fileRows pipeline.parsed.scope.schema content re2 requests) op :=
  (filtered_of_builds h hfiles hrows hmine hmade hapart).asked hre2 (hfilterable.onFiles _)
    ((typedBase_of_builds h hfiles hrows hmine hmade).onFiles _) (hdecides.onFiles _)

end Pipeline

/-- A query over a cache.  Whatever the directory holds when the query is built: each of its scans makes its
request.  Whatever is built later: as long as requests for one file select the same rows, the query is loaded
without a failure, and the plan makes the rows that the query asks for of the files of its tables. -/
theorem buildCache_answers {schema : Schema} {unset : Int} {order : HashOrder}
    {statement : SelectStatement} {pipeline : Pipeline} {d : DSU} {node : PlanJson}
    {list : List TableRef} {expr : Expr}
    (h : PlansQuery schema unset order statement pipeline d node list expr)
    (hfilterable : pipeline.Filterable node.operator) {content : String → Option Bytes} {re2 : RE2}
    (hdocumented : RE2.Documented re2)
    (hdecides : pipeline.DecidesAsSql re2 (imdbTable schema content) node.operator)
    {outside : CacheFile → Outside} (hre2 : ∀ file, (outside file).re2 = re2)
    (horder : ∀ file attributes, schema.lookup file.table = some attributes →
      (outside file).order.Perm (List.range attributes.length))
    (hrows : ∀ table, (imdbTable schema content table).data.length < 2 ^ 64)
    {earlier : List CacheRequest} {s s' : CacheBuild} (hbefore : Builds schema content re2 earlier s)
    {newInputId : Plan → Nat} {built : Plan}
    (hbuild : pipeline.buildCache content outside newInputId node s = .ok (built, s')) :
    ∃ mine, (pipeline.tables node.operator).mapM pipeline.scanRequest = .ok mine ∧
      Builds schema content re2 (earlier ++ mine) s' ∧
      ∀ later s'', Builds schema content re2 (earlier ++ mine ++ later) s'' →
        Apart schema content re2 (earlier ++ mine ++ later) →
        (∀ f ∈ s''.files, f.2.length < 2 ^ 64) →
        ∃ plan tree tables, (pipeline.onFiles s''.files).loadJoinPipeline node = .ok plan ∧
          plan.Unfolds plan.root tree ∧ plan.inputs.mapM fromColumnar = .ok tables ∧
          (tree.naive tables).Perm
            (answer pipeline.parsed.scope (imdbTable schema content) list expr
              pipeline.parsed.outputAttrs) := by
  have hschema := parseSql_schema h.parsed
  subst hschema
  obtain ⟨mine, hmine, hbuilds⟩ := Pipeline.buildCache_builds hfilterable hre2 horder hbefore hbuild
  refine ⟨mine, hmine, hbuilds, fun later s'' hlater hapart hfiles => ?_⟩
  have hmade : ∀ r ∈ mine, r ∈ earlier ++ mine ++ later := fun r hr =>
    List.mem_append_left _ (List.mem_append_right _ hr)
  obtain ⟨plan, hload⟩ := Pipeline.loadJoinPipeline_of_builds hlater hfiles hrows hmine hmade rfl hbuild
  obtain ⟨tree, hunfolds, hanswers⟩ := (h.onFiles s''.files).naive_perm hload
  exact ⟨plan, tree, _, hload, hunfolds,
    Pipeline.inputs_of_builds hlater hfiles hrows hmine hmade rfl hload, hanswers _ _
      (Pipeline.asked_of_builds hdocumented hlater hfiles hrows hmine hmade hfilterable hdecides hapart)⟩

theorem pair_built : ∃ built s l r,
    pairPipeline.buildCache pairContent (fun _ => pairOutside Comparison.itemsRE2) (fun _ => 0) pairNode
        ⟨[], ⟨[], []⟩⟩ = .ok (built, s) ∧ OnePage l ∧ OnePage r ∧
      s.files = [((pairFile "u").filename, dumpBytes r), ((pairFile "t").filename, dumpBytes l)] := by
  have hinput : ∀ table name s,
      pairPipeline.buildInput pairContent (fun _ => pairOutside Comparison.itemsRE2) ⟨table, 0⟩
          [⟨.INT32, name⟩] s =
        s.dump pairContent (pairOutside Comparison.itemsRE2) (pairRequest table name) := fun _ _ _ => rfl
  obtain ⟨l, kept, hl, hdump⟩ := @pair_dump Comparison.itemsRE2 "t" (by simp) "x" ⟨[], ⟨[], []⟩⟩ rfl rfl rfl
  have hpath : csvPath "u" ≠ csvPath "t" := fun h => absurd (csvPath_injective h) (by decide)
  have hname : (pairFile "u").filename ≠ (pairFile "t").filename := fun h =>
    absurd (congrArg CacheFile.table (CacheFile.filename_injective h)) (by decide)
  obtain ⟨r, kept', hr, hdump'⟩ := @pair_dump Comparison.itemsRE2 "u" (by simp) "y"
    ⟨[((pairFile "t").filename, dumpBytes l)], ⟨[(csvPath "t", kept)], [(csvPath "t", l)]⟩⟩
    (by rw [List.lookup_cons, beq_false_of_ne hname]; rfl)
    (by rw [List.lookup_cons, beq_false_of_ne hpath]; rfl)
    (by rw [List.lookup_cons, beq_false_of_ne hpath]; rfl)
  rw [Pipeline.buildCache, pairNode_operator, Pipeline.recurseIn,
    show pairPipeline.splitJoin (.scan (some "a") none) (.scan (some "b") none)
      pairPipeline.parsed.outputAttrs = .ok (⟨(⟨"t", 0⟩, "x"), (⟨"u", 0⟩, "y")⟩, [(⟨"t", 0⟩, "x")],
        [(⟨"u", 0⟩, "y")]) from rfl, ok_bind]
  simp only [Pipeline.recurseIn, Pipeline.recurseScanIn]
  rw [show pairPipeline.scanEntity (some "a") none = .ok ⟨"t", 0⟩ from rfl,
    show pairPipeline.scanEntity (some "b") none = .ok ⟨"u", 0⟩ from rfl]
  simp only [ok_bind]
  rw [show pairPipeline.parsed.scope.schema.lookup "t" = some [⟨.INT32, "x"⟩] from rfl,
    show pairPipeline.parsed.scope.schema.lookup "u" = some [⟨.INT32, "y"⟩] from rfl]
  simp only [hinput, hdump, ok_bind]
  have hleft : ([(⟨"t", 0⟩, "x")] : OutputAttrs).mapM (resolve (([⟨.INT32, "x"⟩] : List Attribute).map
    fun attr => (⟨"t", 0⟩, attr.name, attr.type))) = .ok [(0, .INT32)] := rfl
  have hright : ([(⟨"u", 0⟩, "y")] : OutputAttrs).mapM (resolve (([⟨.INT32, "y"⟩] : List Attribute).map
    fun attr => (⟨"u", 0⟩, attr.name, attr.type))) = .ok [(0, .INT32)] := rfl
  simp only [hleft, hright, ok_bind, hdump']
  exact ⟨_, _, l, r, rfl, hl, hr, rfl⟩

theorem pair_files {s : CacheBuild} {l r : ColumnarTable} (hl : OnePage l) (hr : OnePage r)
    (hfiles : s.files = [((pairFile "u").filename, dumpBytes r), ((pairFile "t").filename, dumpBytes l)]) :
    ∀ f ∈ s.files, f.2.length < 2 ^ 64 := by
  intro f hf
  rw [hfiles] at hf
  simp only [List.mem_cons, List.not_mem_nil, or_false] at hf
  rcases hf with rfl | rfl
  · exact hr.dumped
  · exact hl.dumped

theorem pair_tables : pairPipeline.tables pairNode.operator = [⟨"t", 0⟩, ⟨"u", 0⟩] := by
  rw [pairNode_operator]
  rfl

theorem pair_filterable : pairPipeline.Filterable pairNode.operator := by
  intro entity hentity
  rw [pair_tables] at hentity
  simp only [List.mem_cons, List.not_mem_nil, or_false] at hentity
  rcases hentity with rfl | rfl
  · exact ⟨_, rfl, by simp, by simp, nofun⟩
  · exact ⟨_, rfl, by simp, by simp, nofun⟩

theorem pair_decides : pairPipeline.DecidesAsSql Comparison.itemsRE2 (imdbTable twoTables pairContent)
    pairNode.operator := by
  intro entity _ stmt hstmt
  cases hstmt

theorem pair_order (file : CacheFile) (attributes : List Attribute)
    (h : twoTables.lookup file.table = some attributes) :
    (pairOutside Comparison.itemsRE2).order.Perm (List.range attributes.length) := by
  have hmem := mem_of_lookup h
  simp only [twoTables, List.mem_cons, List.not_mem_nil, or_false, Prod.mk.injEq] at hmem
  rcases hmem with ⟨-, rfl⟩ | ⟨-, rfl⟩ <;> exact .refl _

theorem pair_requests {mine : List CacheRequest}
    (h : (pairPipeline.tables pairNode.operator).mapM pairPipeline.scanRequest = .ok mine) :
    mine = [pairRequest "t" "x", pairRequest "u" "y"] := by
  rw [pair_tables] at h
  exact (Except.ok.inj h).symm

/-- The row that the two files have in common. -/
theorem pair_answer : answer pairPipeline.parsed.scope (imdbTable twoTables pairContent)
    [.tableName "t" (some "a"), .tableName "u" (some "b")] (equality "a" "x" "b" "y")
    pairPipeline.parsed.outputAttrs = [[.int32 2]] := by
  have hbase : baseRecords (imdbTable twoTables pairContent)
      (fromEntities [.tableName "t" (some "a"), .tableName "u" (some "b")]) =
      [(⟨"t", 0⟩, pairRows "t"), (⟨"u", 0⟩, pairRows "u")] := by
    have hentities : fromEntities [.tableName "t" (some "a"), .tableName "u" (some "b")] =
      [⟨"t", 0⟩, ⟨"u", 0⟩] := rfl
    simp only [baseRecords, hentities, List.map_cons, List.map_nil]
    rw [pair_imdb (by simp), pair_imdb (by simp)]
  unfold answer
  rw [hbase]
  decide

theorem buildCache_answers_pair : ∃ built s plan tree tables,
    pairPipeline.buildCache pairContent (fun _ => pairOutside Comparison.itemsRE2) (fun _ => 0) pairNode
        ⟨[], ⟨[], []⟩⟩ = .ok (built, s) ∧
      (pairPipeline.onFiles s.files).loadJoinPipeline pairNode = .ok plan ∧ plan.Unfolds plan.root tree ∧
      plan.inputs.mapM fromColumnar = .ok tables ∧ (tree.naive tables).Perm [[.int32 2]] := by
  obtain ⟨built, s, l, r, hbuild, hl, hr, hfiles⟩ := pair_built
  obtain ⟨mine, hmine, hbuilds, hlater⟩ := buildCache_answers pair_plans pair_filterable
    Comparison.documented_itemsRE2 pair_decides (fun _ => rfl) (fun _ => pair_order _) pair_rows .start hbuild
  have hapart : Apart twoTables pairContent Comparison.itemsRE2 ([] ++ mine ++ []) := by
    have hnone : ∀ r ∈ [] ++ mine ++ [], CacheRequest.filter r = none := by
      simp [pair_requests hmine, pairRequest]
    intro r hr r' hr' _
    rw [hnone r hr, hnone r' hr']
  obtain ⟨plan, tree, tables, hload, hunfolds, hinputs, hperm⟩ :=
    hlater [] s (by simpa using hbuilds) hapart (pair_files hl hr hfiles)
  rw [pair_answer] at hperm
  exact ⟨built, s, plan, tree, tables, hbuild, hload, hunfolds, hinputs, hperm⟩

end JoinOptimizer
