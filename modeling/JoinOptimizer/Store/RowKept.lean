import JoinOptimizer.Store.RowScanned

/-! Which tables come back from the row store as they were.  A negative integer comes back as NULL,
and a string that shares its page with others comes back as the first bytes of the page's end
offsets. -/

namespace JoinOptimizer

open Lib ValueT

/-- The first `k` bytes of the end offsets of `k` strings of `k` bytes. -/
def offsetPrefix (k : Nat) : Bytes := ((List.range k).flatMap fun j => leBytes 2 ((j + 1) * k)).take k

/-- The page of each row of a column of strings. -/
def pagesOfRows (pages : List Page) : List Page :=
  pages.flatMap fun p => List.replicate (p.rowCount .VARCHAR) p

/-- A cell that is no long string is NULL or the prefix of the end offsets of its page. -/
def Spells (p : Page) (cell : Option Bytes) : Prop :=
  p.numRows ≠ 0xffff → ∀ s, cell = some s → s = offsetPrefix p.numNonNull

/-- A column that comes back from the row store as it was. -/
def Column.RowKept (tableId k : Nat) (column : Column) (cells : List Data) : Prop :=
  match column.type with
  | .INT32 => ∀ value, .int32 value ∈ cells → ¬ value < 0
  | .VARCHAR => PlacesKept tableId k column.pages ∧
      List.Forall₂ Spells (pagesOfRows column.pages) (cells.map VarcharWriter.project)
  | _ => False

section Offsets

@[simp] theorem length_offsetPrefix (k : Nat) : (offsetPrefix k).length = k := by
  rw [offsetPrefix, List.length_take, length_flatMap_uniform fun j => length_leBytes 2 _,
    List.length_range]
  omega

theorem leBytes_leWord (bs : List UInt8) : leBytes bs.length (leWord bs) = bs := by
  induction bs with
  | nil => rfl
  | cons b bs ih =>
    have hb : b.toNat < 256 := b.toNat_lt
    have hlow : UInt8.ofNat (b.toNat + 256 * leWord bs) = b := by
      apply UInt8.toNat_inj.mp
      rw [UInt8.toNat_ofNat']
      omega
    have hhigh : (b.toNat + 256 * leWord bs) / 256 = leWord bs := by omega
    rw [leWord, List.length_cons, leBytes, hlow, hhigh, ih]

/-- The end offsets of strings of one length. -/
theorem VarcharPage.longChars_eq {p : Page} {cs : List (Option Bytes)} (hp : VarcharPage p cs)
    (hlen : ∀ s, some s ∈ cs → s.length = p.numNonNull) : p.longChars = offsetPrefix p.numNonNull := by
  obtain ⟨k, hk⟩ : ∃ k, p.numNonNull = k := ⟨_, rfl⟩
  have hcount : cs.reduceOption.length = k := hp.nonNull.symm.trans hk
  rw [hk] at hlen ⊢
  have hend : ∀ m ≤ k, (cs.reduceOption.take m).flatten.length = m * k := by
    intro m hm
    rw [List.length_flatten, List.map_congr_left (g := fun _ => k)]
    · simp [hcount, hm]
    · intro s hs
      exact hlen s (List.reduceOption_mem_iff.mp (List.mem_of_mem_take hs))
  have hread : ∀ m ≤ k, p.read 4 (m * 2) = (List.range m).flatMap fun j => leBytes 2 ((j + 1) * k) := by
    intro m hm
    induction m with
    | zero => rfl
    | succ m ih =>
      have hoffset := hp.offsets m (by omega)
      rw [hend (m + 1) hm] at hoffset
      have hbytes := leBytes_leWord (p.read (4 + m * 2) 2)
      rw [Block.length_read] at hbytes
      rw [Nat.add_mul, Nat.one_mul, Block.read_add, ih (by omega), List.range_succ,
        List.flatMap_append, List.flatMap_singleton, ← hoffset]
      exact congrArg _ hbytes.symm
  have htake : p.read 4 k = (p.read 4 (k * 2)).take k := by
    rw [show k * 2 = k + k by omega, Block.read_add, List.take_left' (Block.length_read _ _ _)]
  rw [Page.longChars, hk, htake, hread k (Nat.le_refl k)]
  rfl

/-- The strings of a page are printed right exactly if each is the prefix of the end offsets. -/
theorem VarcharPage.printed_iff {p : Page} {cs : List (Option Bytes)} (hp : VarcharPage p cs) :
    cs.map (Option.map fun _ => p.longChars) = cs ↔ ∀ c ∈ cs, Spells p c := by
  have hshort : p.numRows ≠ 0xffff := by
    have := hp.numRows_lt
    omega
  have hmap : cs.map (Option.map fun _ => p.longChars) = cs ↔ ∀ s, some s ∈ cs → s = p.longChars := by
    conv_lhs => rhs; rw [← List.map_id cs]
    rw [List.map_inj_left]
    constructor
    · intro h s hs
      exact (Option.some.inj (h _ hs)).symm
    · rintro h (_ | s) hs
      · rfl
      · exact congrArg some (h s hs).symm
  rw [hmap]
  constructor
  · rintro h c hc - s rfl
    rw [h s hc]
    exact hp.longChars_eq fun t ht => by rw [h t ht, Page.longChars, Block.length_read]
  · intro h s hs
    have hall : ∀ t, some t ∈ cs → t = offsetPrefix p.numNonNull := fun t ht => h _ ht hshort t rfl
    rw [hp.longChars_eq fun t ht => by rw [hall t ht, length_offsetPrefix]]
    exact hall s hs

theorem forall₂_replicate_append {α β : Type} {R : α → β → Prop} {a : α} {as : List α} {bs cs : List β} :
    List.Forall₂ R (List.replicate bs.length a ++ as) (bs ++ cs) ↔
      (∀ b ∈ bs, R a b) ∧ List.Forall₂ R as cs := by
  induction bs with
  | nil => simp
  | cons b bs ih =>
    rw [List.length_cons, List.replicate_succ, List.cons_append, List.cons_append, List.forall₂_cons, ih,
      List.forall_mem_cons, and_assoc]

theorem printedVarchar_eq_iff {ps : List Page} {cs : List (Option Bytes)} (h : VarcharPages ps cs) :
    printedVarchar ps cs = cs ↔ List.Forall₂ Spells (pagesOfRows ps) cs := by
  induction h with
  | nil => simp [printedVarchar, pagesOfRows]
  | @page p cs ps rest hp _ ih =>
    rw [printedVarchar_page hp, pagesOfRows, List.flatMap_cons, hp.rowCount, forall₂_replicate_append,
      ← hp.printed_iff]
    rw [pagesOfRows] at ih
    rw [← ih]
    constructor
    · intro heq
      exact List.append_inj heq (List.length_map _)
    · rintro ⟨hfirst, hrest⟩
      rw [hfirst, hrest]
  | @long qs s ps rest hs _ ih =>
    obtain ⟨first, marks, -⟩ := id hs
    rename_i p qs
    have hzero : qs.flatMap (fun p => List.replicate (p.rowCount .VARCHAR) p) = [] := by
      rw [List.flatMap_eq_nil_iff]
      intro q hq
      rw [rowCount_continued (marks q hq), List.replicate_zero]
    have hrows : pagesOfRows (p :: qs ++ ps) = p :: pagesOfRows ps := by
      rw [pagesOfRows, List.flatMap_append, List.flatMap_cons, hzero, rowCount_first first]
      rfl
    have hspells : ∀ c, Spells p c := fun c hne => absurd first hne
    rw [printedVarchar_long hs, hrows, List.forall₂_cons, List.cons_inj_right, and_iff_right (hspells _)]
    exact ih

end Offsets

/-- A column comes back as it was if its scan completes and what comes back are its cells. -/
theorem Column.Holds.rowKept_iff {tableId k : Nat} {column : Column} {cells : List Data}
    (h : column.Holds cells) (htype : column.type = .INT32 ∨ column.type = .VARCHAR) :
    column.RowKept tableId k cells ↔ column.RowCompletes tableId k ∧ column.rowSeen cells = cells := by
  unfold Column.RowKept Column.RowCompletes Column.rowSeen
  cases h with
  | int64 _ => simp at htype
  | fp64 _ => simp at htype
  | @int32 ps cs _ =>
    simp only [map_project_cell, reduceCtorEq, false_implies, true_and]
    rw [List.map_inj_left]
    constructor
    · rintro h (_ | v) hc
      · rfl
      · have hv := h v (List.mem_map_of_mem hc)
        simp [Option.filter, hv]
    · intro h v hv hneg
      obtain ⟨c, hc, heq⟩ := List.mem_map.mp hv
      cases c with
      | none => cases heq
      | some w =>
        cases heq
        have hsame := h _ hc
        simp [Option.filter, hneg, FixedType.cell, int32Type] at hsame
  | @varchar ps cs hps =>
    have hinj : Function.Injective varcharCell := by
      rintro (_ | a) (_ | b) heq <;> cases heq <;> rfl
    simp only [map_project_varcharCell, true_implies]
    rw [(List.map_injective_iff.mpr hinj).eq_iff, printedVarchar_eq_iff hps]

/-- The rows of a table with the columns `attrs` only. -/
def Table.project (table : Table) (attrs : List (Nat × DataType)) : Table where
  data := table.data.map fun record => attrs.map fun attr => record.getD attr.1 .monostate
  types := attrs.map Prod.snd

/-- `my_copy_scan` of a table and `to_columnar_from_value` give back the rows of the table, and
`print_varchar` the strings. -/
def RowStoreLossless (fresh : Nat → Nat → Page) (inputs : List ColumnarTable) (t : Nat)
    (ct : ColumnarTable) (table : Table) (attrs : List (Nat × DataType)) : Prop :=
  ∃ results ret, myCopyScan t ct attrs = .ok results ∧
    (∀ (i : Nat) row (j : Nat) v, results[i]? = some row → row[j]? = some v → v.isVarchar = true →
      ∃ attr s, attrs[j]? = some attr ∧ (table.column attr.1)[i]? = some (.string s) ∧
        printVarchar inputs v = .ok s) ∧
    toColumnarFromValue fresh inputs results (attrs.map Prod.snd) = .ok ret ∧
    fromColumnar ret = .ok (table.project attrs)

section Records

variable {n : Nat}

theorem column_recordsOf {columns : List (List Data)} {cells : List Data} {j : Nat}
    (hcells : columns[j]? = some cells) (hlen : cells.length = n) :
    (recordsOf n columns).map (fun record => record.getD j .monostate) = cells := by
  refine List.ext_getElem (by simp [recordsOf, hlen]) fun i hi hi' => ?_
  simp [recordsOf, hcells, hi']

/-- The values of some columns row by row. -/
def rowsOfColumns (n : Nat) (columns : List (List ValueT)) : List (List ValueT) :=
  (List.range n).map fun row => columns.map fun cells => cells.getD row makeNull

theorem index_rows {columns : List (List ValueT)} {vs : List ValueT} {j : Nat}
    (hvs : columns[j]? = some vs) (hlen : vs.length = n) :
    ((rowsOfColumns n columns).mapM fun row => index row j) = .ok vs := by
  rw [rowsOfColumns, mapM_eq_ok_iff, List.forall₂_iff_get]
  refine ⟨by simp [hlen], fun i hi hi' => ?_⟩
  rw [index_eq_ok]
  simp [hvs, List.getD_eq_getElem?_getD, List.getElem?_eq_getElem (show i < vs.length from hi')]

theorem getElem?_rowsOfColumns {columns : List (List ValueT)} {i j : Nat} {row : List ValueT} {v : ValueT}
    (hrow : (rowsOfColumns n columns)[i]? = some row) (hv : row[j]? = some v) :
    i < n ∧ ∃ vs, columns[j]? = some vs ∧ vs.getD i makeNull = v := by
  rw [rowsOfColumns, List.getElem?_map, Option.map_eq_some_iff] at hrow
  obtain ⟨i', hi', rfl⟩ := hrow
  obtain ⟨hi, rfl⟩ := List.getElem?_eq_some_iff.mp hi'
  rw [List.getElem_range, List.getElem?_map, Option.map_eq_some_iff] at hv
  exact ⟨by simpa using hi, hv⟩

/-- The values of every attribute, one for each of `n` rows, stand for the cells that `seen` gives
it. -/
def StandFor (inputs : List ColumnarTable) (n : Nat) (seen : Nat × DataType → List Data)
    (attrs : List (Nat × DataType)) (columns : List (List ValueT)) : Prop :=
  List.Forall₂ (fun attr vs => vs.length = n ∧ vs.mapM (readValue inputs attr.2) = .ok (seen attr))
    attrs columns

namespace StandFor

variable {inputs : List ColumnarTable} {seen : Nat × DataType → List Data}
  {attrs : List (Nat × DataType)} {columns : List (List ValueT)}

theorem get (h : StandFor inputs n seen attrs columns) {j : Nat} (hj : j < attrs.length) :
    ∃ vs, columns[j]? = some vs ∧ vs.length = n ∧
      vs.mapM (readValue inputs attrs[j].2) = .ok (seen attrs[j]) := by
  have hj' : j < columns.length := h.length_eq ▸ hj
  exact ⟨columns[j], List.getElem?_eq_getElem hj', List.Forall₂.get h hj hj'⟩

/-- A value in a row stands for the cell of its attribute. -/
theorem cell (h : StandFor inputs n seen attrs columns) {i j : Nat} {row : List ValueT} {v : ValueT}
    (hrow : (rowsOfColumns n columns)[i]? = some row) (hv : row[j]? = some v) :
    ∃ attr d, attrs[j]? = some attr ∧ (seen attr)[i]? = some d ∧ readValue inputs attr.2 v = .ok d := by
  obtain ⟨hi, vs, hvs, rfl⟩ := getElem?_rowsOfColumns hrow hv
  have hj : j < attrs.length := h.length_eq ▸ (List.getElem?_eq_some_iff.mp hvs).1
  obtain ⟨vs', hvs', hlen, hcells⟩ := h.get hj
  obtain rfl : vs = vs' := Option.some.inj (hvs.symm.trans hvs')
  have hvi : vs[i]? = some (vs.getD i makeNull) := by
    rw [List.getD_eq_getElem?_getD, List.getElem?_eq_getElem (by omega)]
    rfl
  obtain ⟨d, hd, hread⟩ := mapM_ok_getElem? hcells hvi
  exact ⟨attrs[j], d, List.getElem?_eq_getElem hj, hd, hread⟩

/-- The columns made from the rows hold the cells. -/
theorem columnsFromValue (h : StandFor inputs n seen attrs columns) (fresh : Nat → Nat → Page)
    (hkinds : ∀ attr ∈ attrs, attr.2 = .INT32 ∨ attr.2 = .VARCHAR) :
    ∃ made, ((attrs.map Prod.snd).zipIdx.mapM fun p =>
        columnFromValue (fresh p.2) inputs (rowsOfColumns n columns) p.2 p.1) = .ok made ∧
      made.length = attrs.length ∧ ∀ (j : Nat) (hj : j < attrs.length) (hj' : j < made.length),
        made[j].type = attrs[j].2 ∧ made[j].Holds (seen attrs[j]) := by
  have hrun : ∃ made, ((attrs.map Prod.snd).zipIdx.mapM fun p =>
      columnFromValue (fresh p.2) inputs (rowsOfColumns n columns) p.2 p.1) = .ok made ∧
      List.Forall₂ (fun (p : DataType × Nat) (column : Column) => column.type = p.1 ∧
        ∀ (hj : p.2 < attrs.length), column.Holds (seen attrs[p.2])) (attrs.map Prod.snd).zipIdx made := by
    apply mapM_ok_forall₂
    rintro ⟨type, j⟩ hmem
    obtain ⟨attr, hattr, rfl⟩ : ∃ attr, attrs[j]? = some attr ∧ attr.2 = type := by
      rw [List.mk_mem_zipIdx_iff_getElem?, List.getElem?_map] at hmem
      exact Option.map_eq_some_iff.mp hmem
    obtain ⟨hj, rfl⟩ := List.getElem?_eq_some_iff.mp hattr
    obtain ⟨vs, hvs, hlen, hcells⟩ := h.get hj
    obtain ⟨column, hrun, htype, hholds⟩ := columnFromValue_holds (fresh j) (index_rows hvs hlen) hcells
      (hkinds _ (List.getElem_mem hj))
    exact ⟨column, hrun, htype, fun _ => hholds⟩
  obtain ⟨made, hmade, hspec⟩ := hrun
  have hlen : made.length = attrs.length := by
    have := hspec.length_eq
    simpa using this.symm
  refine ⟨made, hmade, hlen, fun j hj hj' => ?_⟩
  obtain ⟨htype, hholds⟩ := List.Forall₂.get hspec (i := j) (by simpa using hj) hj'
  simp only [List.get_eq_getElem, List.getElem_zipIdx, List.getElem_map, Nat.zero_add] at htype hholds
  exact ⟨htype, hholds hj⟩

end StandFor

end Records

section Tables

variable {inputs : List ColumnarTable} {ct : ColumnarTable} {table : Table} {t : Nat}
  {attrs : List (Nat × DataType)}

/-- The attributes are columns of integers and strings of the table. -/
def RowAttributes (table : Table) (attrs : List (Nat × DataType)) : Prop :=
  ∀ attr ∈ attrs, table.types[attr.1]? = some attr.2 ∧ (attr.2 = .INT32 ∨ attr.2 = .VARCHAR)

theorem ColumnarTable.Holds.attribute (h : ct.Holds table) {attr : Nat × DataType}
    (htype : table.types[attr.1]? = some attr.2) :
    ∃ column, ct.columns[attr.1]? = some column ∧ column.type = attr.2 ∧
      column.Holds (table.column attr.1) := by
  have hlt : attr.1 < ct.columns.length := by
    rw [h.width]
    exact (List.getElem?_eq_some_iff.mp htype).1
  obtain ⟨htype', hholds⟩ := h.get (List.getElem?_eq_getElem hlt)
  exact ⟨_, List.getElem?_eq_getElem hlt, Option.some.inj (htype'.symm.trans htype), hholds⟩

/-- The cells of an attribute as they come back. -/
def seenColumn (ct : ColumnarTable) (table : Table) (attr : Nat × DataType) : List Data :=
  match ct.columns[attr.1]? with
  | some column => column.rowSeen (table.column attr.1)
  | none => []

/-- The values of an attribute whose scan completes. -/
theorem copyColumn_read (h : ct.Holds table) {attr : Nat × DataType}
    (htype : table.types[attr.1]? = some attr.2) (hkind : attr.2 = .INT32 ∨ attr.2 = .VARCHAR)
    (hinput : inputs[t]? = some ct)
    (hcompletes : ∀ column, ct.columns[attr.1]? = some column → column.RowCompletes t attr.1) :
    ∃ vs, copyColumn t ct attr.1 = .ok vs ∧ vs.length = ct.numRows ∧
      vs.mapM (readValue inputs attr.2) = .ok (seenColumn ct table attr) := by
  obtain ⟨column, hcolumn, heq, hholds⟩ := h.attribute htype
  rw [← heq] at hkind ⊢
  have hlen := h.length_column attr.1
  obtain ⟨vs, hvs, hcells⟩ := hholds.copyColumn_total hcolumn hlen hkind hinput
    (hcompletes column hcolumn)
  refine ⟨vs, hvs, hholds.length_copyColumn hcolumn hlen hkind hvs, ?_⟩
  rw [hcells, seenColumn, hcolumn]

/-- The scans of all attributes complete. -/
def RowsComplete (t : Nat) (ct : ColumnarTable) (attrs : List (Nat × DataType)) : Prop :=
  ∀ attr ∈ attrs, ∀ column, ct.columns[attr.1]? = some column → column.RowCompletes t attr.1

/-- What the two functions make of a table where the scans complete. -/
theorem rowStore_reads (fresh : Nat → Nat → Page) (h : ct.Holds table)
    (hattrs : RowAttributes table attrs) (hinput : inputs[t]? = some ct)
    (hcompletes : RowsComplete t ct attrs) :
    ∃ results ret, myCopyScan t ct attrs = .ok results ∧
      (∀ (i : Nat) row (j : Nat) v, results[i]? = some row → row[j]? = some v →
        ∃ attr d, attrs[j]? = some attr ∧ (seenColumn ct table attr)[i]? = some d ∧
          readValue inputs attr.2 v = .ok d) ∧
      toColumnarFromValue fresh inputs results (attrs.map Prod.snd) = .ok ret ∧
      fromColumnar ret = .ok ⟨recordsOf ct.numRows (attrs.map (seenColumn ct table)),
        attrs.map Prod.snd⟩ := by
  obtain ⟨vss, hvss, hread⟩ := mapM_ok_forall₂ fun attr hattr =>
    copyColumn_read h (hattrs attr hattr).1 (hattrs attr hattr).2 hinput (hcompletes attr hattr)
  have hstand : StandFor inputs ct.numRows (seenColumn ct table) attrs vss := hread
  obtain ⟨columns, hcolumns, hlen, hspec⟩ := hstand.columnsFromValue fresh
    fun attr hattr => (hattrs attr hattr).2
  refine ⟨rowsOfColumns ct.numRows vss, ⟨(rowsOfColumns ct.numRows vss).length, columns⟩, ?_,
    fun i row j v => hstand.cell, bind_eq_ok.mpr ⟨columns, hcolumns, rfl⟩, ?_⟩
  · rw [myCopyScan, hvss]
    rfl
  · refine fromColumnar_eq ⟨?_, by simpa using hlen, fun j hj => ?_⟩ ?_
    · simp [rowsOfColumns, recordsOf]
    · have hj' : j < attrs.length := hlen ▸ hj
      obtain ⟨htype, hholds⟩ := hspec j hj' hj
      obtain ⟨vs, hvs, hvslen, hcells⟩ := hstand.get hj'
      have hseen : (attrs.map (seenColumn ct table))[j]? = some (seenColumn ct table attrs[j]) := by
        rw [List.getElem?_map, List.getElem?_eq_getElem hj']
        rfl
      refine ⟨by simpa using htype, ?_⟩
      show columns[j].Holds ((recordsOf ct.numRows (attrs.map (seenColumn ct table))).map _)
      rw [column_recordsOf hseen ((mapM_ok_length hcells).trans hvslen)]
      exact hholds
    · intro record hrecord
      obtain ⟨row, -, rfl⟩ := List.mem_map.mp hrecord
      simp

theorem project_eq (h : ct.Holds table) (attrs : List (Nat × DataType)) :
    table.project attrs = ⟨recordsOf ct.numRows (attrs.map fun attr => table.column attr.1),
      attrs.map Prod.snd⟩ := by
  rw [Table.project, Table.mk.injEq]
  refine ⟨List.ext_getElem (by simp [recordsOf, h.numRows]) fun i hi hi' => ?_, rfl⟩
  have hi'' : i < table.data.length := by simpa using hi
  simp [recordsOf, Table.column, hi'']

/-- The rows that come back are those of the table exactly if the cells of every attribute do. -/
theorem recordsOf_seen_iff (h : ct.Holds table)
    (hlen : ∀ attr ∈ attrs, (seenColumn ct table attr).length = ct.numRows) :
    (⟨recordsOf ct.numRows (attrs.map (seenColumn ct table)), attrs.map Prod.snd⟩ : Table) =
        table.project attrs ↔
      ∀ attr ∈ attrs, seenColumn ct table attr = table.column attr.1 := by
  rw [project_eq h]
  constructor
  · intro heq attr hattr
    obtain ⟨j, hj⟩ := List.mem_iff_getElem?.mp hattr
    have hdata := congrArg Table.data heq
    have hat : ∀ f : Nat × DataType → List Data, (attrs.map f)[j]? = some (f attr) := by
      intro f
      rw [List.getElem?_map, hj]
      rfl
    have hseen := column_recordsOf (hat (seenColumn ct table)) (hlen attr hattr)
    have hown := column_recordsOf (hat fun attr => table.column attr.1) (h.length_column attr.1)
    exact hseen.symm.trans ((congrArg _ hdata).trans hown)
  · intro hall
    rw [List.map_congr_left hall]

/-- A value of kind VARCHAR stands for the string that `print_varchar` prints. -/
theorem string_of_readValue {type : DataType} {v : ValueT} {d : Data} (hvarchar : v.isVarchar = true)
    (hread : readValue inputs type v = .ok d) : ∃ s, d = .string s ∧ printVarchar inputs v = .ok s := by
  have hmode : v.mode = 0 := by simpa [isVarchar_eq] using hvarchar
  unfold readValue at hread
  split at hread
  · obtain ⟨cell, hcell, -⟩ := bind_eq_ok.mp hread
    simp [decodeInt32, isInt32_eq, isInt32NoNull_eq, isNull_eq, hmode] at hcell
  · obtain ⟨cell, hcell, hread⟩ := bind_eq_ok.mp hread
    rw [printValue, isNull_eq, isVarchar_eq, hmode] at hcell
    obtain ⟨s, hs, hcell⟩ := bind_eq_ok.mp hcell
    cases hcell
    cases hread
    exact ⟨s, rfl, hs⟩
  · cases hread

/-- Every attribute comes back from the row store as it was. -/
def RowsKept (t : Nat) (ct : ColumnarTable) (table : Table) (attrs : List (Nat × DataType)) : Prop :=
  ∀ attr ∈ attrs, ∀ column, ct.columns[attr.1]? = some column →
    column.RowKept t attr.1 (table.column attr.1)

/-- The indices of the attributes and of their pages are `int32_t`s. -/
def RowIndicesFit (t : Nat) (ct : ColumnarTable) (attrs : List (Nat × DataType)) : Prop :=
  ∀ attr ∈ attrs, ∀ column, ct.columns[attr.1]? = some column → IndicesFit t attr.1 column.pages

theorem ColumnarTable.Holds.rowStoreLossless_iff (fresh : Nat → Nat → Page) (h : ct.Holds table)
    (hinput : inputs[t]? = some ct) (hattrs : RowAttributes table attrs) :
    (RowsKept t ct table attrs → RowStoreLossless fresh inputs t ct table attrs) ∧
    (RowIndicesFit t ct attrs → RowStoreLossless fresh inputs t ct table attrs →
      RowsKept t ct table attrs) := by
  have hkept : ∀ attr ∈ attrs, ∀ column, ct.columns[attr.1]? = some column →
      (column.RowKept t attr.1 (table.column attr.1) ↔
        column.RowCompletes t attr.1 ∧ seenColumn ct table attr = table.column attr.1) := by
    intro attr hattr column hcolumn
    obtain ⟨htype, hkind⟩ := hattrs attr hattr
    obtain ⟨htype', hholds⟩ := h.get hcolumn
    have heq : attr.2 = column.type := Option.some.inj (htype.symm.trans htype')
    rw [hholds.rowKept_iff (heq ▸ hkind), seenColumn, hcolumn]
  constructor
  · intro hall
    have hcompletes : RowsComplete t ct attrs := fun attr hattr column hcolumn =>
      ((hkept attr hattr column hcolumn).mp (hall attr hattr column hcolumn)).1
    have hseen : ∀ attr ∈ attrs, seenColumn ct table attr = table.column attr.1 := by
      intro attr hattr
      obtain ⟨column, hcolumn, -⟩ := h.attribute (hattrs attr hattr).1
      exact ((hkept attr hattr column hcolumn).mp (hall attr hattr column hcolumn)).2
    obtain ⟨results, ret, hresults, hcells, hret, htable⟩ :=
      rowStore_reads fresh h hattrs hinput hcompletes
    refine ⟨results, ret, hresults, fun i row j v hrow hv hvarchar => ?_, hret, ?_⟩
    · obtain ⟨attr, d, hattr, hd, hread⟩ := hcells i row j v hrow hv
      have hmem := List.mem_of_getElem? hattr
      rw [hseen attr hmem] at hd
      obtain ⟨s, rfl, hprint⟩ := string_of_readValue hvarchar hread
      exact ⟨attr, s, hattr, hd, hprint⟩
    · rw [htable]
      refine congrArg _ ((recordsOf_seen_iff h fun attr hattr => ?_).mpr hseen)
      rw [hseen attr hattr, h.length_column]
  · rintro hfit ⟨results, ret, hresults, -, hret, htable⟩
    obtain ⟨vss, hvss, -⟩ := bind_eq_ok.mp hresults
    have hcompletes : RowsComplete t ct attrs := by
      intro attr hattr column hcolumn
      obtain ⟨j, hj⟩ := List.mem_iff_getElem?.mp hattr
      obtain ⟨vs, -, hvs⟩ := mapM_ok_getElem? hvss hj
      exact (h.get hcolumn).2.rowCompletes hcolumn (h.length_column attr.1)
        (hfit attr hattr column hcolumn) hvs
    obtain ⟨results', ret', hresults', -, hret', htable'⟩ :=
      rowStore_reads fresh h hattrs hinput hcompletes
    obtain rfl := Except.ok.inj (hresults.symm.trans hresults')
    obtain rfl := Except.ok.inj (hret.symm.trans hret')
    have hseen := (recordsOf_seen_iff h fun attr hattr => ?_).mp
      (Except.ok.inj (htable'.symm.trans htable))
    · intro attr hattr column hcolumn
      exact (hkept attr hattr column hcolumn).mpr
        ⟨hcompletes attr hattr column hcolumn, hseen attr hattr⟩
    · obtain ⟨vs, -, hlen, hcells⟩ := copyColumn_read h (hattrs attr hattr).1 (hattrs attr hattr).2
        hinput (hcompletes attr hattr)
      exact (mapM_ok_length hcells).trans hlen

/-- A table comes back from the row store if each of its attributes does; and only then, as long as
the indices of the columns and of their pages are `int32_t`s. -/
theorem rowStore_lossless_iff {freshIn : Nat → Nat → Page} (fresh : Nat → Nat → Page)
    (hwell : table.WellTyped) (hct : toColumnar freshIn table = .ok ct)
    (hinput : inputs[t]? = some ct) (hattrs : RowAttributes table attrs) :
    (RowsKept t ct table attrs → RowStoreLossless fresh inputs t ct table attrs) ∧
    (RowIndicesFit t ct attrs → RowStoreLossless fresh inputs t ct table attrs →
      RowsKept t ct table attrs) := by
  obtain ⟨ct', hct', h⟩ := toColumnar_holds freshIn hwell
  obtain rfl : ct = ct' := Except.ok.inj (hct.symm.trans hct')
  exact h.rowStoreLossless_iff fresh hinput hattrs

end Tables

theorem VarcharPages.single {p : Page} {cs : List (Option Bytes)} (h : VarcharPages [p] cs)
    (hshort : p.numRows < 0xfffe) : VarcharPage p cs := by
  generalize hps : [p] = ps at h
  cases h with
  | nil => cases hps
  | page hp hrest =>
    cases hps
    rwa [hrest.eq_nil rfl, List.append_nil]
  | long hs _ =>
    obtain ⟨first, -, -⟩ := hs
    rw [List.cons_append, List.cons.injEq] at hps
    rw [hps.1] at hshort
    omega

/-- A string alone in its column comes back only if it is the byte 1, its own end offset. -/
theorem rowKept_single {t k : Nat} {p : Page} {s : Bytes} (hp : VarcharPage p [some s]) :
    Column.RowKept t k ⟨.VARCHAR, [p]⟩ [.string s] ↔ PlaceFits t k 0 0 ∧ s = [1] := by
  have hrows : p.numRows = 1 := hp.rows
  have hcount : p.numNonNull = 1 := hp.nonNull
  have hpage : pagesOfRows [p] = [p] := by
    simp [pagesOfRows, Page.rowCount, hrows]
  have hspells : Spells p (some s) ↔ s = [1] := by
    have hprefix : offsetPrefix 1 = [1] := by decide
    unfold Spells
    rw [hcount, hprefix, hrows]
    simp
  unfold Column.RowKept
  simp only [hpage, List.map_singleton]
  rw [List.forall₂_cons, and_iff_left List.Forall₂.nil]
  refine and_congr (a := PlacesKept t k [p]) ⟨fun h => h.short 0 p rfl (by omega) (by omega),
    fun h => ⟨?_, ?_⟩⟩ hspells
  · intro n q hq _ _
    obtain ⟨rfl, rfl⟩ : n = 0 ∧ q = p := by simpa [List.getElem?_singleton, eq_comm] using hq
    exact h
  · intro n q hq hmark
    obtain ⟨rfl, rfl⟩ : n = 0 ∧ q = p := by simpa [List.getElem?_singleton, eq_comm] using hq
    omega

/-- The page of a table of one string. -/
theorem ColumnarTable.Holds.single_page {ct : ColumnarTable} {s : Bytes} {pages : List Page}
    (h : ct.Holds ⟨[[.string s]], [.VARCHAR]⟩) (hcolumns : ct.columns = [⟨.VARCHAR, pages⟩])
    (hrows : pages.map Page.numRows = [1]) : ∃ p, pages = [p] ∧ VarcharPage p [some s] := by
  obtain ⟨p, rfl, hrow⟩ := List.map_eq_singleton_iff.mp hrows
  have hcolumn : ct.columns[0]? = some ⟨.VARCHAR, [p]⟩ := by
    rw [hcolumns]
    rfl
  have hholds := (h.get hcolumn).2
  obtain ⟨cs, hps, hcs⟩ : ∃ cs, VarcharPages [p] cs ∧ [.string s] = cs.map varcharCell := by
    generalize hcells : Table.column ⟨[[.string s]], [.VARCHAR]⟩ 0 = cells at hholds
    cases hholds with
    | varchar hps => exact ⟨_, hps, hcells⟩
  have hproject := map_project_varcharCell cs
  rw [← hcs] at hproject
  refine ⟨p, rfl, ?_⟩
  rw [← hproject] at hps
  exact hps.single (by omega)

/-- The short string of the table is the end offset of its page. -/
theorem longTable_kept {ct : ColumnarTable} {s : Bytes} {ints : List Page} {a b p : Page}
    (hcolumns : ct.columns = [⟨.INT32, ints⟩, ⟨.VARCHAR, [a, b, p]⟩]) (ha : a.numRows = 0xffff)
    (hb : b.numRows = 0xfffe) (hp : VarcharPage p [none, some [1]]) :
    RowsKept 0 ct (longTable s) [(0, .INT32), (1, .VARCHAR)] := by
  have hlast : p.numRows = 2 := hp.rows
  have hone : p.numNonNull = 1 := hp.nonNull
  intro attr hattr column hcolumn
  rw [hcolumns] at hcolumn
  rcases List.mem_cons.mp hattr with rfl | hattr
  · obtain rfl := Option.some.inj hcolumn
    intro value hvalue
    have hints : value = 5 ∨ value = 7 := by simpa [longTable, Table.column] using hvalue
    rcases hints with rfl | rfl <;> decide
  · obtain rfl := List.mem_singleton.mp hattr
    obtain rfl := Option.some.inj hcolumn
    refine ⟨⟨fun n q hq _ _ => ?_, fun n q hq hmark => ?_⟩, ?_⟩
    · have hlt : n < 3 := (List.getElem?_eq_some_iff.mp hq).1
      simp only [PlaceFits]
      omega
    · rcases n with _ | _ | _ | n
      · simp [LookAheadInside, countedPos, continuations, PlaceFits, hb, hlast]
      · obtain rfl := Option.some.inj hq
        omega
      · obtain rfl := Option.some.inj hq
        omega
      · cases hq
    · have hpages : pagesOfRows [a, b, p] = [a, p, p] := by
        simp [pagesOfRows, Page.rowCount, ha, hb, hlast]
      have hoffset : offsetPrefix 1 = [1] := by decide
      rw [hpages]
      refine .cons (fun h => absurd ha h) (.cons (fun _ _ hs => by cases hs) (.cons (fun _ s hs => ?_) .nil))
      rw [hone, hoffset]
      exact (Option.some.inj hs).symm

/-- Integers, a long string and NULLs. -/
theorem rowStore_lossless_iff_long :
    ∃ ct, toColumnar (fun _ _ => ⟨fun _ => 0⟩) (longTable (List.replicate 9000 97)) = .ok ct ∧
      RowStoreLossless (fun _ _ => ⟨fun _ => 0⟩) [ct] 0 ct (longTable (List.replicate 9000 97))
        [(0, .INT32), (1, .VARCHAR)] := by
  obtain ⟨ct, ints, a, b, p, hct, -, hcolumns, ha, hb, hp⟩ :=
    @toColumnar_longTable (fun _ _ => ⟨fun _ => 0⟩) (List.replicate 9000 97)
      (by rw [List.length_replicate]; decide) (by rw [List.length_replicate]; decide)
  have hattrs : ∀ s, RowAttributes (longTable s) [(0, .INT32), (1, .VARCHAR)] := by
    simp [RowAttributes, longTable]
  exact ⟨ct, hct, (rowStore_lossless_iff _ (longTable_wellTyped _) hct rfl (hattrs _)).1
    (longTable_kept hcolumns ha hb hp)⟩

/-- The string "x" comes back as the byte 1, the end offset of the only string of its page. -/
theorem rowStore_loses_string :
    ¬ ∀ (fresh : Nat → Nat → Page) (inputs : List ColumnarTable) (t : Nat) (ct : ColumnarTable)
      (table : Table) (attrs : List (Nat × DataType)), table.WellTyped →
      toColumnar fresh table = .ok ct → inputs[t]? = some ct → t < 32 → RowAttributes table attrs →
      RowStoreLossless fresh inputs t ct table attrs := by
  intro hall
  have hwell : Table.WellTyped ⟨[[.string [120]]], [.VARCHAR]⟩ := by
    simp [Table.WellTyped, Data.HasType]
  have hattrs : RowAttributes ⟨[[.string [120]]], [.VARCHAR]⟩ [(0, .VARCHAR)] := by
    simp [RowAttributes]
  obtain ⟨ct, hct, h⟩ := toColumnar_holds (fun _ _ => ⟨fun _ => 0⟩) hwell
  obtain ⟨pages, hcolumns, hrows⟩ : ∃ pages, ct.columns = [⟨.VARCHAR, pages⟩] ∧
      pages.map Page.numRows = [1] := by
    cases hct
    exact ⟨_, rfl, rfl⟩
  obtain ⟨p, rfl, hp⟩ := h.single_page hcolumns hrows
  have hlossless := hall _ [ct] 0 ct _ _ hwell hct rfl (by decide) hattrs
  have hcolumn : ct.columns[0]? = some ⟨.VARCHAR, [p]⟩ := by
    rw [hcolumns]
    rfl
  have hfit : RowIndicesFit 0 ct [(0, .VARCHAR)] := by
    intro attr hattr column hcolumn'
    obtain rfl := List.mem_singleton.mp hattr
    obtain rfl := Option.some.inj (hcolumn.symm.trans hcolumn')
    exact ⟨by decide, by decide, Nat.one_le_two_pow⟩
  have hkept := (h.rowStoreLossless_iff _ rfl hattrs).2 hfit hlossless (0, .VARCHAR) (by simp) _ hcolumn
  have hx := ((rowKept_single hp).mp hkept).2
  revert hx
  decide

end JoinOptimizer
