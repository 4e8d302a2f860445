import JoinOptimizer.Cache.Dump
import JoinOptimizer.Csv.Calls
import JoinOptimizer.Sql.Pipeline
import Mathlib.Algebra.Order.BigOperators.Group.List

/-! The directory `cache` over the runs of a program that is built to fill it (`TEAMOPT_BUILD_CACHE` in
`load_join_pipeline`): a scan dumps the rows that its filter selects, unless a file has their name. -/

namespace JoinOptimizer

open Lib CSVParser

/-! ### The names of the files -/

/-- What stands in front of the last mark, and behind it. -/
theorem append_mark_inj {α : Type} {p : α → Bool} {mark : α} (hmark : p mark = false) {xs ys us vs : List α}
    (hu : ∀ c ∈ us, p c) (hv : ∀ c ∈ vs, p c) (h : xs ++ mark :: us = ys ++ mark :: vs) :
    xs = ys ∧ us = vs := by
  have hrev := congrArg List.reverse h
  simp only [List.reverse_append, List.reverse_cons, List.append_assoc, List.singleton_append] at hrev
  have hhead : ∀ zs : List α, ∀ c ∈ (mark :: zs).head?, p c = false := by
    intro zs c hc
    obtain rfl : mark = c := by simpa using hc
    exact hmark
  obtain ⟨hback, hfront⟩ := run_append_inj (fun c hc => hu c (List.mem_reverse.mp hc))
    (fun c hc => hv c (List.mem_reverse.mp hc)) (hhead _) (hhead _) hrev
  exact ⟨List.reverse_injective (List.cons.inj hfront).2, List.reverse_injective hback⟩

/-- The name of a file tells the table and the hash. -/
theorem CacheFile.filename_injective : Function.Injective CacheFile.filename := by
  intro f g h
  have htext := congrArg String.toList h
  simp only [CacheFile.filename, String.toList_append, List.append_assoc] at htext
  have hbody := List.append_cancel_left htext
  rw [← List.append_assoc, ← List.append_assoc, ← List.append_assoc, ← List.append_assoc] at hbody
  have hbody := List.append_cancel_right hbody
  have hdigits : ∀ n : UInt64, ∀ c ∈ (toString n).toList, c.isDigit = true := by
    intro n c hc
    have hc : c ∈ (Nat.repr n.toNat).toList := hc
    rw [Nat.toList_repr] at hc
    exact Nat.isDigit_of_mem_toDigits (by decide) (by decide) hc
  obtain ⟨htable, hhash⟩ := append_mark_inj (show Char.isDigit '_' = false from rfl) (hdigits _) (hdigits _)
    (by simpa using hbody)
  have hhash : (Nat.repr f.fnvhash.toNat).toList = (Nat.repr g.fnvhash.toNat).toList := hhash
  rw [Nat.toList_repr, Nat.toList_repr] at hhash
  have hnat := congrArg (fun cs => Nat.ofDigitChars 10 cs 0) hhash
  simp only [Nat.ofDigitChars_toDigits (show 1 < 10 by decide) (Nat.le_refl 10)] at hnat
  cases f
  cases g
  exact congrArg₂ CacheFile.mk (String.ext htable) (UInt64.toNat_inj.mp hnat)

/-- `fs::path("imdb") / "{table}.csv"`. -/
def csvPath (table : String) : String := "imdb/" ++ table ++ ".csv"

theorem csvPath_injective : Function.Injective csvPath := by
  intro a b h
  exact (String.append_right_inj _).mp ((String.append_left_inj _).mp h)

/-! ### The steps -/

/-- What a scan asks of the cache: the file named for its table and the text of its filter, the attributes
of the table and the filter. -/
structure CacheRequest where
  file : CacheFile
  attributes : List Attribute
  filter : Option Statement

/-- The files of the directory, and the caches of the program that fills it. -/
structure CacheBuild where
  files : List (String × Bytes)
  caches : Caches

/-- The dump of a table, where there is no file of its name. -/
def CacheBuild.dump (content : String → Option Bytes) (out : Outside) (request : CacheRequest)
    (s : CacheBuild) : Result (Option ColumnarTable × CacheBuild) :=
  let filename := request.file.filename
  match s.files.lookup filename with
  | some _ => .ok (none, s)
  | none => do
    let path := csvPath request.file.table
    let (table, caches) ← fromCsv out s.caches (request.attributes.map (·.type)) path (content path)
      request.filter false
    let dumpTable ← DumpTable.new table
    let newtbl ← dumpTable.dump
    .ok (some table, ⟨(filename, newtbl) :: s.files, caches⟩)

/-- The table of a file of the directory. -/
def cachedTable (files : List (String × Bytes)) (filename : String) : Option ColumnarTable :=
  match files.lookup filename with
  | none => none
  | some bytes =>
    match fromCache filename (.mapped bytes) with
    | .ok mapped => some (mapped.table bytes)
    | .error _ => none

/-- The files that the scans read, each under the schema of its table. -/
def imdbFiles (schema : Schema) (content : String → Option Bytes) : CsvFiles where
  content := content
  types path := ((schema.find? fun t => csvPath t.1 = path).map fun t => t.2.map (·.type)).getD []
  header _ := false

/-- A request with the attributes of its table, whose columns are of type INT32 or VARCHAR, and a filter
that fits them. -/
structure CacheRequest.Allowed (schema : Schema) (request : CacheRequest) : Prop where
  attributes : schema.lookup request.file.table = some request.attributes
  columns : request.attributes ≠ []
  types : ∀ attr ∈ request.attributes, attr.type = .INT32 ∨ attr.type = .VARCHAR
  fits : ∀ s, request.filter = some s → s.Fits (request.attributes.map fun attr => .ofType attr.type)

/-- A directory that runs of the program can have left, with the requests of the runs in their order.  A
run may end behind any request; the next one starts with empty caches. -/
inductive Builds (schema : Schema) (content : String → Option Bytes) (re2 : RE2) :
    List CacheRequest → CacheBuild → Prop
  | start : Builds schema content re2 [] ⟨[], ⟨[], []⟩⟩
  | restart {earlier : List CacheRequest} {s : CacheBuild} (h : Builds schema content re2 earlier s) :
    Builds schema content re2 earlier { s with caches := ⟨[], []⟩ }
  | dump {earlier : List CacheRequest} {s s' : CacheBuild} {request : CacheRequest} {out : Outside}
    {table : Option ColumnarTable} (h : Builds schema content re2 earlier s)
    (hallowed : request.Allowed schema) (hre2 : out.re2 = re2)
    (horder : out.order.Perm (List.range request.attributes.length))
    (hdump : s.dump content out request = .ok (table, s')) :
    Builds schema content re2 (earlier ++ [request]) s'

theorem lookup_eq_find? {ν : Type} (m : List (String × ν)) (k : String) :
    m.lookup k = (m.find? fun p => p.1 = k).map Prod.snd := by
  induction m with
  | nil => rfl
  | cons p m ih =>
    rw [List.lookup_cons, List.find?_cons]
    by_cases hk : k = p.1
    · simp [hk]
    · simp [beq_false_of_ne hk, Ne.symm hk, ih]

theorem imdbFiles_types {schema : Schema} (content : String → Option Bytes) {table : String}
    {attributes : List Attribute} (h : schema.lookup table = some attributes) :
    (imdbFiles schema content).types (csvPath table) = attributes.map (·.type) := by
  rw [lookup_eq_find?, Option.map_eq_some_iff] at h
  obtain ⟨t, hfind, rfl⟩ := h
  simp only [imdbFiles, csvPath_injective.eq_iff, hfind]
  rfl

/-! ### What the files hold -/

section Stored

variable (schema : Schema) (content : String → Option Bytes)

/-- The rows of a table, as its file has them; nothing from elsewhere is asked for columns of type INT32 or
VARCHAR. -/
def imdbTable (table : String) : Table :=
  let out : Outside := ⟨fun _ => none, fun _ => none, fun _ _ => ⟨fun _ => 0⟩, [], 0⟩
  let types := (imdbFiles schema content).types (csvPath table)
  match (imdbFiles schema content).rows ⟨out, types, csvPath table, none, false⟩ with
  | .ok t => t
  | .error _ => ⟨[], []⟩

variable (re2 : RE2)

/-- The dump of the rows that the filter of a request selects. -/
def CacheRequest.Dumped (request : CacheRequest) (bytes : Bytes) : Prop :=
  ∃ ct, bytes = dumpBytes ct ∧ ct.columns.length ≤ metaCapacity ∧
    (imdbTable schema content request.file.table).WellTyped ∧
    (imdbTable schema content request.file.table).types = request.attributes.map (·.type) ∧
    ct.Holds ((imdbTable schema content request.file.table).selectedBy re2 request.filter)

/-- Every file holds the rows of the first request of its name, and every request has a file. -/
structure Stored (earlier : List CacheRequest) (s : CacheBuild) : Prop where
  caches : (imdbFiles schema content).Valid s.caches
  files : Kept (fun filename bytes => ∃ request,
    earlier.find? (fun r => r.file.filename = filename) = some request ∧
      request.Dumped schema content re2 bytes) s.files
  all : ∀ request ∈ earlier, ∃ bytes, s.files.lookup request.file.filename = some bytes

end Stored

/-- A table of more columns than the struct has places for is not dumped. -/
theorem DumpTable.length_le_of_new {t : ColumnarTable} {d : DumpTable} (h : DumpTable.new t = .ok d) :
    t.columns.length ≤ metaCapacity := by
  obtain ⟨tablemeta, hrun, -⟩ := bind_eq_ok.mp h
  have hplaces : ∀ i ∈ List.range t.columns.length, i < metaCapacity := by
    refine foldlM_invariant (P := fun pre _ => ∀ i ∈ pre, i < metaCapacity) hrun (by simp) ?_
    intro pre i m m' _ hpre hstep j hj
    rcases List.mem_append.mp hj with hj | hj
    · exact hpre j hj
    · obtain ⟨column, -, hset⟩ := bind_eq_ok.mp hstep
      unfold TableMeta.setColumn at hset
      split at hset
      · next hlt => rwa [List.mem_singleton.mp hj]
      · cases hset
  by_contra hlong
  exact absurd (hplaces metaCapacity (List.mem_range.mpr (Nat.lt_of_not_le hlong))) (Nat.lt_irrefl _)

/-- What is dumped of a table. -/
theorem dump_eq_ok {t : ColumnarTable} {d : DumpTable} {bytes : Bytes} (hnew : DumpTable.new t = .ok d)
    (hdump : d.dump = .ok bytes) : t.columns.length ≤ metaCapacity ∧ bytes = dumpBytes t := by
  have hcap := DumpTable.length_le_of_new hnew
  rw [DumpTable.new_eq hcap] at hnew
  obtain rfl := Except.ok.inj hnew
  rw [DumpTable.dump_eq] at hdump
  exact ⟨hcap, (Except.ok.inj hdump).symm⟩

section Steps

variable {schema : Schema} {content : String → Option Bytes} {re2 : RE2} {earlier : List CacheRequest}
  {request : CacheRequest} {s s' : CacheBuild} {out : Outside}

/-- The call of `from_csv` that a request makes. -/
def CacheRequest.call (request : CacheRequest) (out : Outside) : CsvCall :=
  ⟨out, request.attributes.map (·.type), csvPath request.file.table, request.filter, false⟩

theorem CacheRequest.Allowed.types_eq (h : request.Allowed schema) :
    (imdbFiles schema content).types (csvPath request.file.table) = request.attributes.map (·.type) :=
  imdbFiles_types content h.attributes

theorem CacheRequest.Allowed.allows (h : request.Allowed schema)
    (horder : out.order.Perm (List.range request.attributes.length)) :
    (imdbFiles schema content).Allows (request.call out) where
  types type htype := by
    obtain ⟨attr, hattr, rfl⟩ := List.mem_map.mp htype
    exact h.types attr hattr
  columns hnil := h.columns (List.map_eq_nil_iff.mp hnil)
  order := by
    rw [CacheRequest.call, List.length_map]
    exact horder
  fits s hs := by
    rw [CacheRequest.call, List.map_map]
    exact h.fits s hs
  sameTypes := h.types_eq.symm
  sameHeader := rfl

/-- The rows of a call are those of its table that its filter selects. -/
theorem CacheRequest.Allowed.rows (h : request.Allowed schema)
    (horder : out.order.Perm (List.range request.attributes.length)) {t : Table}
    (hrows : (imdbFiles schema content).rows (request.call out) = .ok t) :
    (imdbTable schema content request.file.table).WellTyped ∧
      (imdbTable schema content request.file.table).types = request.attributes.map (·.type) ∧
      t = (imdbTable schema content request.file.table).selectedBy out.re2 request.filter := by
  have hallows : (imdbFiles schema content).Allows (request.call out) := h.allows horder
  have htypes : ∀ type ∈ request.attributes.map (·.type), type = .INT32 ∨ type = .VARCHAR :=
    hallows.types
  unfold imdbTable
  unfold CsvFiles.rows CacheRequest.call at hrows
  unfold CsvFiles.rows
  dsimp only at hrows ⊢
  cases hcontent : (imdbFiles schema content).content (csvPath request.file.table) with
  | none =>
    rw [hcontent] at hrows
    cases hrows
  | some bytes =>
    rw [hcontent] at hrows
    obtain ⟨table, htable, hrows⟩ := bind_eq_ok.mp hrows
    obtain rfl := Except.ok.inj hrows
    rw [h.types_eq]
    obtain ⟨htypes', hwell⟩ := csvTable_spec htypes htable
    dsimp only
    rw [csvTable_congr htypes out, htable]
    exact ⟨hwell, htypes', rfl⟩

/-- One request. -/
theorem Stored.dump (h : Stored schema content re2 earlier s) (hallowed : request.Allowed schema)
    (hre2 : out.re2 = re2) (horder : out.order.Perm (List.range request.attributes.length))
    {table : Option ColumnarTable} (hdump : s.dump content out request = .ok (table, s')) :
    Stored schema content re2 (earlier ++ [request]) s' := by
  have hkeep : ∀ filename bytes, (∃ r, earlier.find? (fun r => r.file.filename = filename) = some r ∧
      r.Dumped schema content re2 bytes) →
      ∃ r, (earlier ++ [request]).find? (fun r => r.file.filename = filename) = some r ∧
        r.Dumped schema content re2 bytes := by
    rintro filename bytes ⟨r, hfind, hdumped⟩
    exact ⟨r, by rw [List.find?_append, hfind]; rfl, hdumped⟩
  unfold CacheBuild.dump at hdump
  dsimp only at hdump
  cases hthere : s.files.lookup request.file.filename with
  | some bytes =>
    rw [hthere] at hdump
    cases hdump
    refine ⟨h.caches, h.files.imp hkeep, fun r hr => ?_⟩
    rcases List.mem_append.mp hr with hr | hr
    · exact h.all r hr
    · exact ⟨bytes, by rw [List.mem_singleton.mp hr, hthere]⟩
  | none =>
    rw [hthere] at hdump
    obtain ⟨⟨ct, caches⟩, hcsv, hdump⟩ := bind_eq_ok.mp hdump
    obtain ⟨d, hnew, hdump⟩ := bind_eq_ok.mp hdump
    obtain ⟨bytes, hbytes, hdump⟩ := bind_eq_ok.mp hdump
    cases hdump
    obtain ⟨hcap, rfl⟩ := dump_eq_ok hnew hbytes
    have hcall : (imdbFiles schema content).call s.caches (request.call out) = .ok (ct, caches) := by
      exact hcsv
    rcases h.caches.call (hallowed.allows horder) with ⟨e, herror, -⟩ |
      ⟨ct', caches', t, hok, hvalid, -, hholds, hrows⟩
    · rw [hcall] at herror
      cases herror
    rw [hcall] at hok
    cases hok
    obtain ⟨hwell, htypes, rfl⟩ := hallowed.rows horder hrows
    -- no request before had the name
    have hnew : earlier.find? (fun r => r.file.filename = request.file.filename) = none := by
      refine List.find?_eq_none.mpr fun r hr hname => ?_
      obtain ⟨bytes, hbytes⟩ := h.all r hr
      rw [of_decide_eq_true hname, hthere] at hbytes
      cases hbytes
    refine ⟨hvalid, (h.files.imp hkeep).cons ⟨request, ?_, _, rfl, hcap, hwell, htypes, hre2 ▸ hholds⟩,
      fun r hr => ?_⟩
    · rw [List.find?_append, hnew]
      simp
    · by_cases hname : r.file.filename = request.file.filename
      · exact ⟨_, by rw [hname]; exact List.lookup_cons_self⟩
      · rcases List.mem_append.mp hr with hr | hr
        · obtain ⟨bytes, hbytes⟩ := h.all r hr
          exact ⟨bytes, by rw [List.lookup_cons, beq_false_of_ne hname]; exact hbytes⟩
        · exact absurd (by rw [List.mem_singleton.mp hr]) hname

/-- All runs. -/
theorem Builds.stored (h : Builds schema content re2 earlier s) : Stored schema content re2 earlier s := by
  induction h with
  | start => exact ⟨CsvFiles.valid_empty, .nil, by simp⟩
  | restart h ih => exact ⟨CsvFiles.valid_empty, ih.files, ih.all⟩
  | dump h hallowed hre2 horder hdump ih => exact ih.dump hallowed hre2 horder hdump

theorem Builds.allowed (h : Builds schema content re2 earlier s) : ∀ r ∈ earlier, r.Allowed schema := by
  induction h with
  | start => simp
  | restart h ih => exact ih
  | dump h hallowed hre2 horder hdump ih =>
    intro r hr
    rcases List.mem_append.mp hr with hr | hr
    · exact ih r hr
    · rwa [List.mem_singleton.mp hr]

end Steps

/-! ### What is read back -/

theorem length_dumpBytes (t : ColumnarTable) :
    (dumpBytes t).length = pageSize + (t.columns.map fun c => c.pages.length * pageSize).sum := by
  rw [dumpBytes, List.length_append, length_headerBytes, List.length_flatten, List.map_map]
  congr 2
  exact List.map_congr_left fun c _ => length_columnBytes c

/-- A file that a `size_t` measures holds as many pages as one counts. -/
theorem sized_of_dumpBytes {t : ColumnarTable} (hrows : t.numRows < 2 ^ 64)
    (hbytes : (dumpBytes t).length < 2 ^ 64) : t.Sized := by
  refine ⟨hrows, fun c hc => ?_⟩
  have hmem : c.pages.length * pageSize ∈ t.columns.map fun c => c.pages.length * pageSize :=
    List.mem_map_of_mem hc
  have hle := List.le_sum_of_mem hmem
  rw [length_dumpBytes] at hbytes
  rw [pageSize_eq] at hle hbytes
  omega

/-- The file of a request is what was dumped for the first request of its name. -/
theorem Builds.stored_first {schema : Schema} {content : String → Option Bytes} {re2 : RE2}
    {earlier : List CacheRequest} {s : CacheBuild} (h : Builds schema content re2 earlier s)
    (hfiles : ∀ f ∈ s.files, f.2.length < 2 ^ 64)
    (hrows : ∀ table, (imdbTable schema content table).data.length < 2 ^ 64) {request : CacheRequest}
    (hrequest : request ∈ earlier) :
    ∃ first ct,
      earlier.find? (fun r => r.file.filename = request.file.filename) = some first ∧
      first.file = request.file ∧
      s.files.lookup request.file.filename = some (dumpBytes ct) ∧
      fromCache request.file.filename (.mapped (dumpBytes ct)) = .ok (mappedTable ct) ∧
      (imdbTable schema content request.file.table).WellTyped ∧
      (imdbTable schema content request.file.table).types = request.attributes.map (·.type) ∧
      ct.Holds ((imdbTable schema content request.file.table).selectedBy re2 first.filter) := by
  have hstored := h.stored
  obtain ⟨bytes, hbytes⟩ := hstored.all request hrequest
  obtain ⟨first, hfind, ct, rfl, hcap, hwell, htypes, hholds⟩ := hstored.files _ _ hbytes
  have hname : first.file = request.file := by
    have hfound := List.find?_some hfind
    exact CacheFile.filename_injective (of_decide_eq_true hfound)
  have hattributes : first.attributes = request.attributes := by
    have hfirst := (h.allowed first (List.mem_of_find?_eq_some hfind)).attributes
    rw [hname, (h.allowed request hrequest).attributes] at hfirst
    exact (Option.some.inj hfirst).symm
  rw [hname] at hwell htypes hholds
  rw [hattributes] at htypes
  have hnum : ct.numRows < 2 ^ 64 := by
    rw [hholds.numRows]
    refine Nat.lt_of_le_of_lt ?_ (hrows request.file.table)
    unfold Table.selectedBy
    cases first.filter with
    | none => exact Nat.le_refl _
    | some s => exact List.length_filter_le _ _
  have hsized := sized_of_dumpBytes hnum (hfiles _ (mem_of_lookup hbytes))
  exact ⟨first, ct, hfind, hname, hbytes, fromCache_dumpBytes hcap hsized _, hwell, htypes, hholds⟩

/-- Whatever runs have filled the directory: a request of theirs finds a file of its name, every page that
is read of it lies inside, and its table holds the rows that the filter of the first request of that name
selects. -/
theorem Builds.loads_first {schema : Schema} {content : String → Option Bytes} {re2 : RE2}
    {earlier : List CacheRequest} {s : CacheBuild} (h : Builds schema content re2 earlier s)
    (hfiles : ∀ f ∈ s.files, f.2.length < 2 ^ 64)
    (hrows : ∀ table, (imdbTable schema content table).data.length < 2 ^ 64) {request : CacheRequest}
    (hrequest : request ∈ earlier) :
    ∃ first bytes mapped,
      earlier.find? (fun r => r.file.filename = request.file.filename) = some first ∧
      first.file = request.file ∧
      s.files.lookup request.file.filename = some bytes ∧
      fromCache request.file.filename (.mapped bytes) = .ok mapped ∧ mapped.Inside bytes ∧
      (imdbTable schema content request.file.table).WellTyped ∧
      (imdbTable schema content request.file.table).types = request.attributes.map (·.type) ∧
      (mapped.table bytes).Holds ((imdbTable schema content request.file.table).selectedBy re2 first.filter) := by
  obtain ⟨first, ct, hfind, hname, hbytes, hload, hwell, htypes, hholds⟩ :=
    h.stored_first hfiles hrows hrequest
  exact ⟨first, _, mappedTable ct, hfind, hname, hbytes, hload, mappedTable_inside ct, hwell, htypes, by
    rwa [mappedTable_table]⟩

/-- The files of two tables of one column: two rows and one. -/
def pairContent (path : String) : Option Bytes :=
  if path = csvPath "t" then some [49, 10, 50, 10]
  else if path = csvPath "u" then some [50, 10] else none

/-- One task, on pages of zeros. -/
def pairOutside (re2 : RE2) : Outside where
  re2 := re2
  stod := fun _ => none
  fresh := fun _ _ => ⟨fun _ => 0⟩
  order := [0]
  retRows := 0

/-- The rows of either table. -/
def pairRows (table : String) : List (List Data) :=
  if table = "t" then [[.int32 1], [.int32 2]] else [[.int32 2]]

/-- What is read of either file, and the pages that are made of it. -/
theorem pair_loads : ∀ table ∈ ["t", "u"], ∃ content t ct, pairContent (csvPath table) = some content ∧
    (∀ out, loadTable out [.INT32] false content = .ok t) ∧
    (List.range t.rows).map (recordAt t.columns) = pairRows table ∧
    compact (fun _ _ => ⟨fun _ => 0⟩) t (List.replicate ((t.rows + 7) / 8) 0xff) [0] 0 = .ok ct ∧
      ct.numRows ≤ 2 ∧ ct.columns.map (fun c => (c.type, c.pages.length)) = [(.INT32, 1)] := by
  have hread : readBuffers [49, 10, 50, 10] = [[49, 10, 50, 10]] ∧ readBuffers [50, 10] = [[50, 10]] := by
    simp [readBuffers, bufferSize]
  intro table htable
  simp only [List.mem_cons, List.not_mem_nil, or_false] at htable
  have hut : csvPath "u" ≠ csvPath "t" := fun h => absurd (csvPath_injective h) (by decide)
  rcases htable with rfl | rfl
  · refine ⟨_, ⟨2, [.int32 (.ofCells [some 1, some 2])]⟩, _, if_pos rfl, fun out => ?_, by decide, rfl,
      Nat.le_refl 2, rfl⟩
    unfold loadTable
    rw [hread.1]
    rfl
  · refine ⟨_, ⟨1, [.int32 (.ofCells [some 2])]⟩, _, (if_neg hut).trans (if_pos rfl), fun out => ?_,
      by decide, rfl, Nat.le_succ 1, rfl⟩
    unfold loadTable
    rw [hread.2]
    rfl

/-- The file of either table, without a filter. -/
def pairFile (table : String) : CacheFile := ⟨table, fnvHash (ascii "No filter".toList)⟩

/-- The request for it. -/
def pairRequest (table name : String) : CacheRequest := ⟨pairFile table, [⟨.INT32, name⟩], none⟩

/-- A column on one page, of two rows at most. -/
structure OnePage (ct : ColumnarTable) : Prop where
  rows : ct.numRows ≤ 2
  shape : ct.columns.map (fun c => (c.type, c.pages.length)) = [(.INT32, 1)]

namespace OnePage

variable {ct : ColumnarTable}

theorem capacity (h : OnePage ct) : ct.columns.length ≤ metaCapacity := by
  have hlen := congrArg List.length h.shape
  rw [List.length_map] at hlen
  rw [hlen]
  decide

theorem dumped (h : OnePage ct) : (dumpBytes ct).length < 2 ^ 64 := by
  have hpages : ct.columns.map (fun c => c.pages.length * pageSize) = [1 * pageSize] := by
    have hshape := congrArg (List.map fun p => p.2 * pageSize) h.shape
    rwa [List.map_map] at hshape
  rw [length_dumpBytes, hpages]
  exact show 8192 + (1 * 8192 + 0) < 2 ^ 64 by decide

theorem cached (h : OnePage ct) {files : List (String × Bytes)} {filename : String}
    (hlookup : files.lookup filename = some (dumpBytes ct)) : cachedTable files filename = some ct := by
  have hsized := sized_of_dumpBytes (Nat.lt_of_le_of_lt h.rows (by decide)) h.dumped
  unfold cachedTable
  rw [hlookup]
  dsimp only
  rw [fromCache_dumpBytes h.capacity hsized]
  exact congrArg some (mappedTable_table ct)

end OnePage

/-- The dump of either table, where neither the directory nor the caches know of it. -/
theorem pair_dump (re2 : RE2) {table : String} (htable : table ∈ ["t", "u"]) (name : String) {s : CacheBuild}
    (hfile : s.files.lookup (pairFile table).filename = none)
    (htables : s.caches.tables.lookup (csvPath table) = none)
    (hresults : s.caches.results.lookup (csvPath table) = none) :
    ∃ ct kept, OnePage ct ∧
      s.dump pairContent (pairOutside re2) (pairRequest table name) =
        .ok (some ct, ⟨((pairFile table).filename, dumpBytes ct) :: s.files,
          ⟨(csvPath table, kept) :: s.caches.tables, (csvPath table, ct) :: s.caches.results⟩⟩) := by
  obtain ⟨content, t, ct, hcontent, hload, -, hcompact, hrows, hshape⟩ := pair_loads table htable
  have hone : OnePage ct := ⟨hrows, hshape⟩
  refine ⟨ct, t, hone, ?_⟩
  have hselect : selectRows (pairOutside re2) (csvPath table) none t
      ⟨(csvPath table, t) :: s.caches.tables, s.caches.results⟩ =
      .ok (ct, ⟨(csvPath table, t) :: s.caches.tables, (csvPath table, ct) :: s.caches.results⟩) := by
    have hcompact : compact (pairOutside re2).fresh t (List.replicate ((t.rows + 7) / 8) 0xff)
      (pairOutside re2).order (pairOutside re2).retRows = .ok ct := hcompact
    unfold selectRows
    simp only [ok_bind, hcompact, copy_eq]
    rfl
  have hcsv : fromCsv (pairOutside re2) s.caches [.INT32] (csvPath table) (some content) none false =
      .ok (ct, ⟨(csvPath table, t) :: s.caches.tables, (csvPath table, ct) :: s.caches.results⟩) := by
    rw [fromCsv_miss fun _ => hresults]
    unfold readTable
    rw [htables]
    simp only [hload, ok_bind, hselect]
  unfold CacheBuild.dump pairRequest
  have hcontent : pairContent (csvPath (pairFile table).table) = some content := hcontent
  simp only [hfile, hcontent, List.map_cons, List.map_nil]
  have hcsv : fromCsv (pairOutside re2) s.caches [.INT32] (csvPath (pairFile table).table) (some content) none
    false = _ := hcsv
  simp only [hcsv, ok_bind, DumpTable.new_eq hone.capacity, DumpTable.dump_eq]
  rfl

theorem pair_imdb {table : String} (htable : table ∈ ["t", "u"]) :
    imdbTable twoTables pairContent table = ⟨pairRows table, [.INT32]⟩ := by
  obtain ⟨content, t, -, hsome, hload, hrows, -⟩ := pair_loads table htable
  have htypes : (imdbFiles twoTables pairContent).types (csvPath table) = [.INT32] := by
    simp only [List.mem_cons, List.not_mem_nil, or_false] at htable
    rcases htable with rfl | rfl
    · have htype : twoTables.lookup "t" = some [⟨.INT32, "x"⟩] := rfl
      exact imdbFiles_types _ htype
    · have htype : twoTables.lookup "u" = some [⟨.INT32, "y"⟩] := rfl
      exact imdbFiles_types _ htype
  have hcontent : (imdbFiles twoTables pairContent).content (csvPath table) = some content := hsome
  unfold imdbTable CsvFiles.rows
  simp only [hcontent, csvTable, htypes, hload, ok_bind, Table.selectedBy, hrows]

theorem pair_rows (table : String) : (imdbTable twoTables pairContent table).data.length < 2 ^ 64 := by
  by_cases htable : table ∈ ["t", "u"]
  · rw [pair_imdb htable]
    unfold pairRows
    split <;> decide
  · have hnone : pairContent (csvPath table) = none := by
      unfold pairContent
      simp only [csvPath_injective.eq_iff]
      simp only [List.mem_cons, List.not_mem_nil, or_false, not_or] at htable
      rw [if_neg htable.1, if_neg htable.2]
    have hcontent : (imdbFiles twoTables pairContent).content (csvPath table) = none := hnone
    simp [imdbTable, CsvFiles.rows, hcontent]

theorem pair_allowed {request : CacheRequest} (hrequest : request.file = pairFile "t")
    (hattributes : request.attributes = [⟨.INT32, "x"⟩])
    (hfits : ∀ s, request.filter = some s → s.Fits [.ofType .INT32]) : request.Allowed twoTables where
  attributes := by
    rw [hrequest, hattributes]
    rfl
  columns := by simp [hattributes]
  types := by simp [hattributes]
  fits := by simpa [hattributes] using hfits

/-- The request of a filter whose file has the same name. -/
def clashing : CacheRequest :=
  { pairRequest "t" "x" with filter := some (.comparison ⟨0, .GT, .int64 1⟩) }

/-- A run that is started later finds the file that was left, and with it the rows of all. -/
theorem loads_first_pair : ∃ s bytes mapped,
    Builds twoTables pairContent (fun _ => none) [pairRequest "t" "x", clashing] s ∧
    s.files.lookup clashing.file.filename = some bytes ∧
    fromCache clashing.file.filename (.mapped bytes) = .ok mapped ∧
    (mapped.table bytes).Holds (imdbTable twoTables pairContent "t") := by
  obtain ⟨ct, kept, hpage, hdump⟩ := @pair_dump (fun _ => none) "t" (by simp) "x" ⟨[], ⟨[], []⟩⟩ rfl rfl rfl
  have hone := Builds.start.dump (pair_allowed rfl rfl (by simp [pairRequest])) rfl (.refl _) hdump
  have hfits : ∀ s, clashing.filter = some s → s.Fits [.ofType .INT32] := by
    intro s hs
    obtain rfl := Option.some.inj hs
    exact ⟨_, rfl, .inr (.inr ⟨by decide, by decide, 1, rfl⟩)⟩
  have hfound : CacheBuild.dump pairContent (pairOutside fun _ => none) clashing
      ⟨[((pairFile "t").filename, dumpBytes ct)], ⟨[], []⟩⟩ =
      .ok (none, ⟨[((pairFile "t").filename, dumpBytes ct)], ⟨[], []⟩⟩) := by
    unfold CacheBuild.dump
    have hlookup : ([((pairFile "t").filename, dumpBytes ct)] : List (String × Bytes)).lookup
        clashing.file.filename = some (dumpBytes ct) := List.lookup_cons_self
    simp only [hlookup]
  have htwo := hone.restart.dump (pair_allowed rfl rfl hfits) rfl (.refl _) hfound
  have hfiles : ∀ f ∈ [((pairFile "t").filename, dumpBytes ct)], f.2.length < 2 ^ 64 := by
    simpa using hpage.dumped
  obtain ⟨first, bytes', mapped, hfind, hfile, hlookup, hload, -, -, -, hholds⟩ :=
    htwo.loads_first hfiles pair_rows (List.mem_append_right _ (List.mem_singleton_self _))
  have hfirst : first = pairRequest "t" "x" := by
    have hfound : ([pairRequest "t" "x", clashing] : List CacheRequest).find?
        (fun r => r.file.filename = clashing.file.filename) = some (pairRequest "t" "x") :=
      List.find?_cons_of_pos (decide_eq_true rfl)
    exact Option.some.inj (hfind.symm.trans hfound)
  subst hfirst
  exact ⟨_, bytes', mapped, htwo, hlookup, hload, hholds⟩

end JoinOptimizer
