import JoinOptimizer.Sql.Cached
import JoinOptimizer.Filter.PrettyPrint
import JoinOptimizer.Page.Order

/-! Queries from the CSV files of their tables to the rows that `execute` makes, over a cache whose files
are named by the texts of the filters. -/

namespace JoinOptimizer

open Lib PlanTree CSVParser

/-! ### Filters of one file -/

namespace Statement

theorem selects_printed (re2 : RE2) (record : List Data) (s : Statement) :
    s.printed.selects re2 record = s.selects re2 record := by
  have hone : ∀ (c : Comparison) (cell : Data), c.printed.selects re2 cell = c.selects re2 cell := by
    intro c cell
    unfold Comparison.printed
    split
    · next hnull => rcases hnull with hop | hop <;> simp [Comparison.selects, hop]
    · rfl
  induction s with
  | comparison c => rw [printed, selects, selects, c.column_printed, hone]
  | makeAnd l r ihl ihr | makeOr l r ihl ihr => simp only [printed, selects, ihl, ihr]
  | makeNot child ih => simp only [printed, selects, ih]

theorem Fits.printable {table : List InnerColumnBase} {s : Statement} (h : s.Fits table) :
    s.Printable := by
  induction s with
  | comparison c =>
    intro d hd
    obtain rfl : d = c := by simpa [parts] using hd
    obtain ⟨base, -, hfits⟩ := h
    cases base with
    | int32 column | int64 column =>
      exact hfits.imp_right (Or.imp_right fun hvalue => .inl hvalue.2.2)
    | varchar column => exact hfits.imp_right (Or.imp_right .inr)
    | fp64 column => exact hfits.elim
  | makeAnd l r ihl ihr | makeOr l r ihl ihr =>
    intro d hd
    simp only [parts, List.mem_cons, reduceCtorEq, List.mem_append, false_or] at hd
    exact hd.elim (ihl h.1 d) (ihr h.2 d)
  | makeNot child ih =>
    intro d hd
    simp only [parts, List.mem_cons, reduceCtorEq, false_or] at hd
    exact ih h d hd

end Statement

namespace CacheRequest

/-- The text that a file is named by. -/
def text (formatDouble : UInt64 → Bytes) (request : CacheRequest) : Bytes :=
  match request.filter with
  | none => ascii "No filter".toList
  | some stmt => stmt.prettyPrint formatDouble 0

/-- A request as `load_join_pipeline` makes it, of a filter whose text no string breaks. -/
structure Named (formatDouble : UInt64 → Bytes) (request : CacheRequest) : Prop where
  hash : request.file.fnvhash = fnvHash (request.text formatDouble)
  unbroken : ∀ stmt, request.filter = some stmt → stmt.Unbroken

end CacheRequest

section Texts

variable {schema : Schema} {content : String → Option Bytes} {re2 : RE2} {requests : List CacheRequest}
  {formatDouble : UInt64 → Bytes}

/-- Requests of one text select the same rows. -/
theorem selectedBy_of_text {r r' : CacheRequest} (h : r.Allowed schema) (h' : r'.Allowed schema)
    (hnamed : r.Named formatDouble) (hnamed' : r'.Named formatDouble)
    (htext : r.text formatDouble = r'.text formatDouble) (t : Table) :
    t.selectedBy re2 r.filter = t.selectedBy re2 r'.filter := by
  -- no filter has the text that stands for none
  have hnone : ∀ stmt : Statement, stmt.prettyPrint formatDouble 0 ≠ ascii "No filter".toList := by
    intro stmt heq
    obtain ⟨c, rest, hopens, hc⟩ := stmt.prettyPrint_opens 0
    rw [heq] at hopens
    obtain rfl : 78 = c := (List.cons.inj hopens).1
    rcases hc with hc | hc <;> exact absurd hc (by decide)
  unfold CacheRequest.text at htext
  cases hfilter : r.filter with
  | none =>
    cases hfilter' : r'.filter with
    | none => rfl
    | some stmt' =>
      rw [hfilter, hfilter'] at htext
      exact absurd htext.symm (hnone stmt')
  | some stmt =>
    cases hfilter' : r'.filter with
    | none =>
      rw [hfilter, hfilter'] at htext
      exact absurd htext (hnone stmt)
    | some stmt' =>
      rw [hfilter, hfilter'] at htext
      have hprintable := (h.fits stmt hfilter).printable
      have hprintable' := (h'.fits stmt' hfilter').printable
      have hunbroken := hnamed.unbroken stmt hfilter
      have hunbroken' := hnamed'.unbroken stmt' hfilter'
      dsimp only at htext
      have htext : stmt.prettyPrint formatDouble 0 ++ [] = stmt'.prettyPrint formatDouble 0 ++ [] := by
        rw [htext]
      obtain ⟨hprinted, -⟩ := Statement.prettyPrint_append_inj
        (fun c hc => ⟨hprintable c hc, hunbroken c hc⟩) (fun c hc => ⟨hprintable' c hc, hunbroken' c hc⟩)
        (.inl rfl) (.inl rfl) htext
      unfold Table.selectedBy
      congr 1
      refine List.filter_congr fun record _ => ?_
      rw [← Statement.selects_printed, hprinted, Statement.selects_printed]

/-- Where no two texts have one hash, requests for one file select the same rows. -/
theorem apart_of_texts (hallowed : ∀ r ∈ requests, r.Allowed schema)
    (hnamed : ∀ r ∈ requests, r.Named formatDouble)
    (hhash : ∀ r ∈ requests, ∀ r' ∈ requests,
      fnvHash (r.text formatDouble) = fnvHash (r'.text formatDouble) →
        r.text formatDouble = r'.text formatDouble) : Apart schema content re2 requests := by
  intro r hr r' hr' hfile
  refine selectedBy_of_text (hallowed r hr) (hallowed r' hr') (hnamed r hr) (hnamed r' hr')
    (hhash r hr r' hr' ?_) _
  rw [← (hnamed r hr).hash, ← (hnamed r' hr').hash, hfile]

end Texts

/-- A query of a pipeline makes requests that are named by their texts. -/
theorem Pipeline.scanRequest_hash {pipeline : Pipeline} {entity : TableEntity} {request : CacheRequest}
    (h : pipeline.scanRequest entity = .ok request) :
    request.file.fnvhash = fnvHash (request.text pipeline.formatDouble) := by
  obtain ⟨attributes, -, hcache⟩ := scanRequest_eq_ok.mp h
  obtain ⟨file, hfile, h⟩ := bind_eq_ok.mp hcache
  cases h
  unfold cacheFile at hfile
  unfold CacheRequest.text
  cases hfilter : pipeline.parsed.filters.lookup entity with
  | none =>
    rw [hfilter] at hfile
    cases hfile
    rfl
  | some p =>
    rw [hfilter] at hfile
    dsimp only at hfile
    cases hstmt : p.statement? with
    | none =>
      rw [hstmt] at hfile
      cases hfile
    | some stmt =>
      rw [hstmt] at hfile
      cases hfile
      simp [hstmt]

/-- A query from the CSV files of its tables to its result.  Whatever the directory holds when the query is
built, and whatever is built later: as long as no two texts of filters have one hash and no string breaks a
text, the query is loaded without a failure, and within the limits `execute` makes the rows that the query
asks for of the CSV files exactly when the long strings of the scanned columns are followed and no row takes
a key or a cell that a scan misreads. -/
theorem buildCache_executes_iff {schema : Schema} {unset : Int} {order : HashOrder}
    {statement : SelectStatement} {pipeline : Pipeline} {d : DSU} {node : PlanJson}
    {list : List TableRef} {expr : Expr}
    (h : PlansQuery schema unset order statement pipeline d node list expr)
    (hjoinable : pipeline.Joinable node.operator) (hfilterable : pipeline.Filterable node.operator)
    {content : String → Option Bytes} {re2 : RE2} (hdocumented : RE2.Documented re2)
    (hdecides : pipeline.DecidesAsSql re2 (imdbTable schema content) node.operator)
    {outside : CacheFile → Outside} (hre2 : ∀ file, (outside file).re2 = re2)
    (horder : ∀ file attributes, schema.lookup file.table = some attributes →
      (outside file).order.Perm (List.range attributes.length))
    (hrows : ∀ table, (imdbTable schema content table).data.length < 2 ^ 64)
    {earlier : List CacheRequest} {s s' : CacheBuild} (hbefore : Builds schema content re2 earlier s)
    {newInputId : Plan → Nat} {built : Plan}
    (hbuild : pipeline.buildCache content outside newInputId node s = .ok (built, s')) :
    ∃ mine, (pipeline.tables node.operator).mapM pipeline.scanRequest = .ok mine ∧
      Builds schema content re2 (earlier ++ mine) s' ∧
      ∀ later s'', Builds schema content re2 (earlier ++ mine ++ later) s'' →
        (∀ r ∈ earlier ++ later, r.Named pipeline.formatDouble) →
        (∀ r ∈ mine, ∀ stmt, r.filter = some stmt → stmt.Unbroken) →
        (∀ r ∈ earlier ++ mine ++ later, ∀ r' ∈ earlier ++ mine ++ later,
          fnvHash (r.text pipeline.formatDouble) = fnvHash (r'.text pipeline.formatDouble) →
            r.text pipeline.formatDouble = r'.text pipeline.formatDouble) →
        (∀ f ∈ s''.files, f.2.length < 2 ^ 64) →
        ∃ plan tree tables, (pipeline.onFiles s''.files).loadJoinPipeline node = .ok plan ∧
          plan.Unfolds plan.root tree ∧ plan.inputs.mapM fromColumnar = .ok tables ∧
          ((tree.OnScans fun t k _ => OnPages plan LimitsFit t k) →
            tree.Bounded (seenCell plan.inputs tables) (tableRows tables) →
            ∀ hashKey schedules fresh fuel, tree.height ≤ fuel →
              ((∃ result table, execute hashKey fresh plan schedules fuel = .ok result ∧
                fromColumnar result = .ok table ∧ table.data.Perm
                  (answer pipeline.parsed.scope (imdbTable schema content) list expr
                    pipeline.parsed.outputAttrs)) ↔
              tree.ReadsRight plan tables)) := by
  have hschema := parseSql_schema h.parsed
  subst hschema
  obtain ⟨mine, hmine, hbuilds⟩ := Pipeline.buildCache_builds hfilterable hre2 horder hbefore hbuild
  refine ⟨mine, hmine, hbuilds, fun later s'' hlater hnamed hunbroken hhash hfiles => ?_⟩
  have hmade : ∀ r ∈ mine, r ∈ earlier ++ mine ++ later := fun r hr =>
    List.mem_append_left _ (List.mem_append_right _ hr)
  have hmineNamed : ∀ r ∈ mine, r.Named pipeline.formatDouble := by
    intro r hr
    obtain ⟨i, hi, rfl⟩ := List.getElem_of_mem hr
    have hscans := mapM_eq_ok_iff.mp hmine
    have hlt : i < (pipeline.tables node.operator).length := by rw [hscans.length_eq]; exact hi
    exact ⟨Pipeline.scanRequest_hash (hscans.get hlt hi), hunbroken _ hr⟩
  have hallNamed : ∀ r ∈ earlier ++ mine ++ later, r.Named pipeline.formatDouble := by
    intro r hr
    rcases List.mem_append.mp hr with hr | hr
    · exact (List.mem_append.mp hr).elim (fun hr => hnamed r (List.mem_append_left _ hr)) (hmineNamed r)
    · exact hnamed r (List.mem_append_right _ hr)
  have hapart : Apart pipeline.parsed.scope.schema content re2 (earlier ++ mine ++ later) :=
    apart_of_texts hlater.allowed hallNamed hhash
  obtain ⟨plan, hload⟩ := Pipeline.loadJoinPipeline_of_builds hlater hfiles hrows hmine hmade rfl hbuild
  have hjoinable' : (pipeline.onFiles s''.files).Joinable node.operator :=
    ⟨hjoinable.nonempty, hjoinable.columns, hjoinable.keys, by
      rw [Pipeline.onFiles_tables]
      exact hjoinable.count⟩
  obtain ⟨tree, hunfolds, hanswers⟩ := (h.onFiles s''.files).executes_iff hload hjoinable'
    (Pipeline.asked_of_builds hdocumented hlater hfiles hrows hmine hmade hfilterable hdecides hapart)
    (hlater.holds hfiles hrows) (Pipeline.typed_of_builds hlater hfiles hrows hmine hmade)
  exact ⟨plan, tree, _, hload, hunfolds,
    Pipeline.inputs_of_builds hlater hfiles hrows hmine hmade rfl hload, hanswers⟩

/-- The plan over the files of the two tables. -/
theorem pair_load {files : List (String × Bytes)} {l r : ColumnarTable}
    (hl : cachedTable files (pairFile "t").filename = some l)
    (hr : cachedTable files (pairFile "u").filename = some r) :
    ∃ plan, (pairPipeline.onFiles files).loadJoinPipeline pairNode = .ok plan ∧ plan.inputs = [l, r] ∧
      plan.Unfolds plan.root pairTree := by
  have hleft : (pairPipeline.onFiles files).cache (pairFile "t") = some l := hl
  have hright : (pairPipeline.onFiles files).cache (pairFile "u") = some r := hr
  rw [Pipeline.loadJoinPipeline, pairNode_operator, Pipeline.recurse_eq, Pipeline.recurseWith,
    show (pairPipeline.onFiles files).splitJoin (.scan (some "a") none) (.scan (some "b") none)
      (pairPipeline.onFiles files).parsed.outputAttrs = .ok (⟨(⟨"t", 0⟩, "x"), (⟨"u", 0⟩, "y")⟩,
        [(⟨"t", 0⟩, "x")], [(⟨"u", 0⟩, "y")]) from rfl, ok_bind]
  simp only [← Pipeline.recurse_eq, Pipeline.recurse, Pipeline.recurseScan]
  rw [show (pairPipeline.onFiles files).scanEntity (some "a") none = .ok ⟨"t", 0⟩ from rfl,
    show (pairPipeline.onFiles files).scanEntity (some "b") none = .ok ⟨"u", 0⟩ from rfl]
  simp only [ok_bind]
  rw [show (pairPipeline.onFiles files).parsed.scope.schema.lookup "t" = some [⟨.INT32, "x"⟩] from rfl,
    show (pairPipeline.onFiles files).parsed.scope.schema.lookup "u" = some [⟨.INT32, "y"⟩] from rfl,
    show (pairPipeline.onFiles files).cacheFile ⟨"t", 0⟩ = .ok (pairFile "t") from rfl,
    show (pairPipeline.onFiles files).cacheFile ⟨"u", 0⟩ = .ok (pairFile "u") from rfl]
  simp only [ok_bind, hleft, hright]
  exact ⟨_, rfl, rfl, .join rfl (.scan rfl) (.scan rfl)⟩

/-- What the files of the two tables hold. -/
theorem pair_inputTables {s : CacheBuild} {mine : List CacheRequest}
    (hmine : (pairPipeline.tables pairNode.operator).mapM pairPipeline.scanRequest = .ok mine)
    (h : Builds twoTables pairContent Comparison.itemsRE2 mine s)
    (hfiles : ∀ f ∈ s.files, f.2.length < 2 ^ 64) :
    (pairPipeline.onFiles s.files).inputTables (fileRows twoTables pairContent Comparison.itemsRE2 mine)
      pairNode.operator = [⟨pairRows "t", [.INT32]⟩, ⟨pairRows "u", [.INT32]⟩] := by
  have hrequests := pair_requests hmine
  -- whichever request was the first for a file, it has no filter
  have hrows : ∀ table ∈ ["t", "u"],
      fileRows twoTables pairContent Comparison.itemsRE2 mine (pairFile table) =
        ⟨pairRows table, [.INT32]⟩ := by
    intro table htable
    have hrequest : ∃ r ∈ mine, r.file = pairFile table := by
      simp only [List.mem_cons, List.not_mem_nil, or_false] at htable
      rw [hrequests]
      rcases htable with rfl | rfl
      · exact ⟨pairRequest "t" "x", List.mem_cons_self, rfl⟩
      · exact ⟨pairRequest "u" "y", List.mem_cons_of_mem _ List.mem_cons_self, rfl⟩
    obtain ⟨r, hr, hfile⟩ := hrequest
    obtain ⟨-, -, -, -, first, hfirst, -, -, -, hrowsEq⟩ := h.cachedTable hfiles pair_rows hr
    have hnone : first.filter = none := by
      rw [hrequests] at hfirst
      simp only [List.mem_cons, List.not_mem_nil, or_false] at hfirst
      rcases hfirst with rfl | rfl <;> rfl
    have htable' : r.file.table = table := by rw [hfile]; rfl
    rw [← hfile, hrowsEq, hnone, htable', pair_imdb htable]
    rfl
  have htables := pair_tables
  unfold Pipeline.inputTables
  rw [Pipeline.onFiles_tables, htables]
  exact congrArg₂ (fun a b => [a, b]) (hrows "t" (by simp)) (hrows "u" (by simp))

/-- The common row of the two files is what `execute` makes. -/
theorem buildCache_executes_iff_pair : ∃ built s plan result table,
    pairPipeline.buildCache pairContent (fun _ => pairOutside Comparison.itemsRE2) (fun _ => 0) pairNode
        ⟨[], ⟨[], []⟩⟩ = .ok (built, s) ∧
      (pairPipeline.onFiles s.files).loadJoinPipeline pairNode = .ok plan ∧
      execute (fun _ => 0) (fun _ _ => ⟨fun _ => 0⟩) plan (fun _ => ⟨[2], [], fun _ => 3⟩) 2 = .ok result ∧
      fromColumnar result = .ok table ∧ table.data.Perm [[.int32 2]] := by
  obtain ⟨built, s, l, r, hbuild, hl, hr, hfiles⟩ := pair_built
  have hjoinable : pairPipeline.Joinable pairNode.operator :=
    have h := @bound_joinable pairPipeline.cache
    ⟨h.nonempty, h.columns, h.keys, by rw [pair_tables]; exact show 1 + 2 * 2 < 2 ^ 64 by decide⟩
  obtain ⟨mine, hmine, hbuilds, hlater⟩ := buildCache_executes_iff pair_plans hjoinable pair_filterable
    Comparison.documented_itemsRE2 pair_decides (fun _ => rfl) (fun _ => pair_order _) pair_rows .start hbuild
  have hnone : ∀ r ∈ [] ++ mine ++ [], CacheRequest.filter r = none := by
    simp [pair_requests hmine, pairRequest]
  have htext : ∀ r ∈ [] ++ mine ++ [], CacheRequest.text pairPipeline.formatDouble r =
      ascii "No filter".toList := by
    intro r hr
    unfold CacheRequest.text
    rw [hnone r hr]
  have hunbroken : ∀ r ∈ mine, ∀ stmt, CacheRequest.filter r = some stmt → stmt.Unbroken := by
    intro r hr stmt hstmt
    rw [hnone r (by simpa using hr)] at hstmt
    cases hstmt
  obtain ⟨plan, tree, tables, hload, hunfolds, hinputs, hanswers⟩ :=
    hlater [] s (by simpa using hbuilds) (by simp) hunbroken
      (fun r hr r' hr' _ => (htext r hr).trans (htext r' hr').symm) (pair_files hl hr hfiles)
  have hname : (pairFile "t").filename ≠ (pairFile "u").filename := fun h =>
    absurd (congrArg CacheFile.table (CacheFile.filename_injective h)) (by decide)
  obtain ⟨plan', hload', hboth, hpair⟩ := @pair_load s.files l r
    (hl.cached (by rw [hfiles, List.lookup_cons, beq_false_of_ne hname, List.lookup_cons_self]))
    (hr.cached (by rw [hfiles, List.lookup_cons_self]))
  obtain rfl := Except.ok.inj (hload.symm.trans hload')
  obtain rfl : tree = pairTree := hunfolds.unique hpair
  have hdecoded : tables = [⟨pairRows "t", [.INT32]⟩, ⟨pairRows "u", [.INT32]⟩] := by
    have hbuilds : Builds pairPipeline.parsed.scope.schema pairContent Comparison.itemsRE2 mine s := hbuilds
    have hinputTables := @Pipeline.inputs_of_builds pairPipeline _ _ _ _ _ _ hbuilds
      (pair_files hl hr hfiles) pair_rows hmine (fun _ hr => hr) _ rfl _ hload
    have hrows := pair_inputTables hmine hbuilds (pair_files hl hr hfiles)
    have hinputTables : plan.inputs.mapM fromColumnar =
      .ok [⟨pairRows "t", [.INT32]⟩, ⟨pairRows "u", [.INT32]⟩] := hrows ▸ hinputTables
    exact Except.ok.inj (hinputs.symm.trans hinputTables)
  subst hdecoded
  rw [pair_answer] at hanswers
  have hlimits : pairTree.OnScans fun t k _ => OnPages plan LimitsFit t k := by
    constructor
    · intro attr hattr
      obtain rfl := List.mem_singleton.mp hattr
      exact limitsFit_of_shape (by rw [hboth]; rfl) hl.shape rfl (by decide) (by decide) (by decide)
    · intro attr hattr
      obtain rfl := List.mem_singleton.mp hattr
      exact limitsFit_of_shape (by rw [hboth]; rfl) hr.shape rfl (by decide) (by decide) (by decide)
  have hright := pair_readsRight plan (a := ⟨pairRows "t", [.INT32]⟩) (b := ⟨pairRows "u", [.INT32]⟩)
    (by decide) (by decide)
  have hfew := pair_few (seenCell plan.inputs [⟨pairRows "t", [.INT32]⟩, ⟨pairRows "u", [.INT32]⟩])
    (a := ⟨pairRows "t", [.INT32]⟩) (b := ⟨pairRows "u", [.INT32]⟩) (by decide) (by decide)
  have hresult := (hanswers hlimits hfew (fun _ => 0) (fun _ => ⟨[2], [], fun _ => 3⟩)
    (fun _ _ => ⟨fun _ => 0⟩) 2 (Nat.le_refl 2)).mpr hright
  obtain ⟨result, table, hrun, htable, hperm⟩ := hresult
  exact ⟨built, s, plan, result, table, hbuild, hload, hrun, htable, hperm⟩

end JoinOptimizer
