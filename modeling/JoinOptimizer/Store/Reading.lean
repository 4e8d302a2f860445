import JoinOptimizer.Store.Seen
import JoinOptimizer.Page.Encode

/-! Which cells of a base column are misread: negative integers of a column that has a NULL, and empty
strings with a string that is not empty behind them on their page. -/

namespace JoinOptimizer

open Lib

/-- The cells of a column as they are read back. -/
def Column.seen (column : Column) (cells : List Data) : List Data :=
  match column.type with
  | .INT32 => (seenInt32 (cells.map int32Type.project)).map int32Type.cell
  | .VARCHAR => (seenVarchar column.pages (cells.map VarcharWriter.project)).map varcharCell
  | _ => cells

/-- The page of each row of a column of strings, where the pages count from `n`. -/
def rowPages : Nat → List Page → List Nat
  | _, [] => []
  | n, p :: ps => List.replicate (p.rowCount .VARCHAR) n ++ rowPages (n + 1) ps

/-- A string in row `j` behind row `i` on its page. -/
def FollowedBy (pages : List Page) (i j : Nat) : Prop :=
  i < j ∧ (rowPages 0 pages)[i]? = (rowPages 0 pages)[j]?

/-- Row `i` of the column is misread. -/
def Column.Misread (column : Column) (cells : List Data) (i : Nat) : Prop :=
  match column.type with
  | .INT32 => .monostate ∈ cells ∧ ∃ value, cells[i]? = some (.int32 value) ∧ value < 0
  | .VARCHAR => cells[i]? = some (.string []) ∧
      ∃ j s, FollowedBy column.pages i j ∧ cells[j]? = some (.string s) ∧ s ≠ []
  | _ => False

/-- The cells that can be misread. -/
def Data.fragile : Data → Bool
  | .int32 value => value < 0
  | .string value => value.isEmpty
  | _ => false

/-- The cell `d` of a column of the type is misread as `e`. -/
structure Data.LostAs (type : DataType) (d e : Data) : Prop where
  before : d.fragile = true
  after : e.fragile = false
  int32 : type = .INT32 → e = .monostate

section Strings

theorem firstNonEmpty_cons {s : Bytes} (h : s ≠ []) (cs : List (Option Bytes)) :
    firstNonEmpty (some s :: cs) = s := by
  unfold firstNonEmpty
  simp [List.reduceOption_cons_of_some, h]

theorem firstNonEmpty_eq_nil {cs : List (Option Bytes)} :
    firstNonEmpty cs = [] ↔ ∀ s, some s ∈ cs → s = [] := by
  unfold firstNonEmpty
  constructor
  · intro h s hs
    by_contra hne
    have hmem : s ∈ cs.reduceOption := List.reduceOption_mem_iff.mpr hs
    obtain ⟨t, ht⟩ : ∃ t, cs.reduceOption.find? (fun s => !s.isEmpty) = some t := by
      rw [← Option.isSome_iff_exists, List.find?_isSome]
      exact ⟨s, hmem, by simpa using hne⟩
    have hpos := List.find?_some ht
    rw [ht, Option.getD_some] at h
    simp [h] at hpos
  · intro h
    have hnone : cs.reduceOption.find? (fun s => !s.isEmpty) = none := by
      rw [List.find?_eq_none]
      intro s hs
      simp [h s (List.reduceOption_mem_iff.mp hs)]
    rw [hnone]
    rfl

/-- Row `i` of the cells, whose pages are `page`, is an empty string before one that is not empty. -/
def MisreadString (page : List Nat) (cs : List (Option Bytes)) (i : Nat) : Prop :=
  cs[i]? = some (some []) ∧
    ∃ j s, (i < j ∧ page[i]? = page[j]?) ∧ cs[j]? = some (some s) ∧ s ≠ []

/-- How row `i` of the cells is read as row `i` of `seen`. -/
def ReadsString (misread : Prop) (cs seen : List (Option Bytes)) (i : Nat) : Prop :=
  ¬ misread ∧ seen[i]? = cs[i]? ∨
    misread ∧ cs[i]? = some (some []) ∧ ∃ s, seen[i]? = some (some s) ∧ s ≠ []

theorem seenPage_reads (cs : List (Option Bytes)) (i : Nat) :
    ReadsString (MisreadString [] cs i) cs (seenPage cs) i := by
  unfold ReadsString MisreadString
  rw [getElem?_seenPage]
  cases hc : cs[i]? with
  | none => simp
  | some c =>
    cases c with
    | none => simp
    | some s =>
      have hdrop : cs.drop i = some s :: cs.drop (i + 1) := by
        obtain ⟨hi, heq⟩ := List.getElem?_eq_some_iff.mp hc
        rw [List.drop_eq_getElem_cons hi, heq]
      rw [Option.map_some, Option.map_some]
      by_cases hs : s = []
      · subst hs
        by_cases hnil : firstNonEmpty (cs.drop i) = []
        · refine .inl ⟨?_, by rw [hnil]⟩
          rintro ⟨-, j, t, ⟨hij, -⟩, hj, ht⟩
          apply ht
          apply firstNonEmpty_eq_nil.mp hnil
          rw [List.mem_iff_getElem?]
          exact ⟨j - i, by rw [List.getElem?_drop]; simpa [show i + (j - i) = j by omega] using hj⟩
        · refine .inr ⟨⟨rfl, ?_⟩, rfl, _, rfl, hnil⟩
          have hlater : ∃ t, some t ∈ cs.drop i ∧ t ≠ [] := by
            by_contra hall
            apply hnil
            rw [firstNonEmpty_eq_nil]
            intro t ht
            by_contra hne
            exact hall ⟨t, ht, hne⟩
          obtain ⟨t, ht, hne⟩ := hlater
          obtain ⟨k, hk⟩ := List.mem_iff_getElem?.mp ht
          rw [List.getElem?_drop] at hk
          cases k with
          | zero =>
            rw [Nat.add_zero, hc] at hk
            exact absurd (Option.some.inj (Option.some.inj hk)).symm hne
          | succ k => exact ⟨i + (k + 1), t, ⟨by omega, rfl⟩, hk, hne⟩
      · rw [hdrop, firstNonEmpty_cons hs]
        refine .inl ⟨?_, rfl⟩
        rintro ⟨h, -⟩
        exact hs (Option.some.inj (Option.some.inj h))

/-- Rows of one page before the rows of later pages. -/
theorem reads_append {n : Nat} {later : List Nat} (hlater : ∀ m ∈ later, n < m)
    {cs rest seen seenRest : List (Option Bytes)} (hlen : seen.length = cs.length)
    (hcs : ∀ i, ReadsString (MisreadString [] cs i) cs seen i)
    (hrest : ∀ i, ReadsString (MisreadString later rest i) rest seenRest i) (i : Nat) :
    ReadsString (MisreadString (List.replicate cs.length n ++ later) (cs ++ rest) i)
      (cs ++ rest) (seen ++ seenRest) i := by
  have hpage : ∀ j, (List.replicate cs.length n ++ later)[j]? =
      if j < cs.length then some n else later[j - cs.length]? := by
    intro j
    split
    case isTrue hj => rw [List.getElem?_append_left (by simpa using hj)]; simp [hj]
    case isFalse hj => rw [List.getElem?_append_right (by simpa using hj), List.length_replicate]
  by_cases hi : i < cs.length
  · have hmisread : MisreadString (List.replicate cs.length n ++ later) (cs ++ rest) i ↔
        MisreadString [] cs i := by
      unfold MisreadString
      rw [List.getElem?_append_left hi]
      refine and_congr_right fun _ => exists_congr fun j => exists_congr fun s => ?_
      by_cases hj : j < cs.length
      · simp [hpage, hi, hj, List.getElem?_append_left hj]
      · have hne : ¬ some n = later[j - cs.length]? := by
          intro h
          exact Nat.lt_irrefl n (hlater n (List.mem_of_getElem? h.symm))
        simp [hpage, hi, hj, hne]
    have hread := hcs i
    unfold ReadsString at hread ⊢
    rw [hmisread, List.getElem?_append_left hi, List.getElem?_append_left (by omega)]
    exact hread
  · have hmisread : MisreadString (List.replicate cs.length n ++ later) (cs ++ rest) i ↔
        MisreadString later rest (i - cs.length) := by
      unfold MisreadString
      rw [List.getElem?_append_right (by omega)]
      refine and_congr_right fun _ => ⟨?_, ?_⟩
      · rintro ⟨j, s, ⟨hij, hsame⟩, hj, hs⟩
        rw [hpage, hpage, if_neg hi, if_neg (by omega)] at hsame
        rw [List.getElem?_append_right (by omega)] at hj
        exact ⟨j - cs.length, s, ⟨by omega, hsame⟩, hj, hs⟩
      · rintro ⟨j, s, ⟨hij, hsame⟩, hj, hs⟩
        refine ⟨j + cs.length, s, ⟨by omega, ?_⟩, ?_, hs⟩
        · rw [hpage, hpage, if_neg hi, if_neg (by omega), Nat.add_sub_cancel]
          exact hsame
        · rw [List.getElem?_append_right (by omega), Nat.add_sub_cancel]
          exact hj
    have hread := hrest (i - cs.length)
    unfold ReadsString at hread ⊢
    rw [hmisread, List.getElem?_append_right (by omega), List.getElem?_append_right (by omega), hlen]
    exact hread

theorem reads_single (s : Bytes) (i : Nat) :
    ReadsString (MisreadString [] [some s] i) [some s] [some s] i := by
  refine .inl ⟨?_, rfl⟩
  rintro ⟨-, j, t, ⟨hij, -⟩, hj, -⟩
  rw [List.getElem?_eq_none (by simp; omega)] at hj
  cases hj

theorem le_of_mem_rowPages {n m : Nat} {ps : List Page} (h : m ∈ rowPages n ps) : n ≤ m := by
  induction ps generalizing n with
  | nil => cases h
  | cons p ps ih =>
    rcases List.mem_append.mp h with h | h
    · exact (List.eq_of_mem_replicate h).ge
    · exact Nat.le_of_succ_le (ih h)

theorem VarcharPage.rowCount {p : Page} {cs : List (Option Bytes)} (hp : VarcharPage p cs) :
    p.rowCount .VARCHAR = cs.length := by
  have hlt := hp.numRows_lt
  unfold Page.rowCount
  rw [← hp.rows]
  simp only [if_neg (show ¬ p.numRows = 0xffff by omega), if_neg (show ¬ p.numRows = 0xfffe by omega)]

theorem rowCount_first {p : Page} (h : p.numRows = 0xffff) : p.rowCount .VARCHAR = 1 := by
  unfold Page.rowCount
  simp [h]

theorem rowCount_continued {p : Page} (h : p.numRows = 0xfffe) : p.rowCount .VARCHAR = 0 := by
  unfold Page.rowCount
  simp [h]

theorem LongString.rowCount {qs : List Page} {s : Bytes} (h : LongString qs s) :
    (qs.map (Page.rowCount .VARCHAR)).sum = 1 := by
  obtain ⟨first, marks, -⟩ := h
  rename_i p qs
  have hzero : qs.map (Page.rowCount .VARCHAR) = qs.map fun _ => 0 :=
    List.map_congr_left fun q hq => rowCount_continued (marks q hq)
  rw [List.map_cons, List.sum_cons, rowCount_first first, hzero]
  simp

/-- The pages that continue a long string have no row. -/
theorem rowPages_continued {qs : List Page} (h : ∀ q ∈ qs, q.numRows = 0xfffe) (n : Nat)
    (ps : List Page) : rowPages n (qs ++ ps) = rowPages (n + qs.length) ps := by
  induction qs generalizing n with
  | nil => rfl
  | cons q qs ih =>
    rw [List.cons_append, rowPages, rowCount_continued (h q (by simp)), ih fun q hq => h q (by simp [hq])]
    simp [Nat.add_assoc, Nat.add_comm 1]

theorem seenVarchar_reads {ps : List Page} {cs : List (Option Bytes)} (h : VarcharPages ps cs) (n : Nat) :
    ∀ i, ReadsString (MisreadString (rowPages n ps) cs i) cs (seenVarchar ps cs) i := by
  induction h generalizing n with
  | nil =>
    intro i
    exact .inl ⟨fun hmis => by simp [MisreadString] at hmis, rfl⟩
  | @page p cs ps rest hp _ ih =>
    rw [seenVarchar_page hp, rowPages, hp.rowCount]
    exact reads_append (fun m hm => le_of_mem_rowPages hm) (length_seenPage cs) (seenPage_reads cs) (ih _)
  | @long qs s ps rest hs _ ih =>
    rw [seenVarchar_long hs]
    obtain ⟨first, marks, -⟩ := hs
    rename_i p qs
    rw [List.cons_append, rowPages, rowCount_first first, rowPages_continued marks]
    have hlater : ∀ m ∈ rowPages (n + 1 + qs.length) ps, n < m := by
      intro m hm
      have := le_of_mem_rowPages hm
      omega
    exact reads_append hlater rfl (reads_single _) (ih _)

end Strings

theorem FixedPages.rowCount {ps : List Page} {cs : List (Option Int32)} (h : FixedPages int32Type ps cs) :
    Column.rowCount ⟨.INT32, ps⟩ = cs.length := by
  unfold Column.rowCount
  induction h with
  | nil => rfl
  | page hp _ ih =>
    rw [List.map_cons, List.sum_cons, ih, List.length_append, ← hp.rows]
    rfl

theorem VarcharPages.rowCount {ps : List Page} {cs : List (Option Bytes)} (h : VarcharPages ps cs) :
    Column.rowCount ⟨.VARCHAR, ps⟩ = cs.length := by
  unfold Column.rowCount
  induction h with
  | nil => rfl
  | page hp _ ih =>
    rw [List.map_cons, List.sum_cons, ih, List.length_append, hp.rowCount]
  | @long qs s ps rest hs _ ih =>
    rw [List.map_append, List.sum_append, ih, hs.rowCount, List.length_cons, Nat.add_comm]

/-- A column of integers or strings encodes a row for each cell. -/
theorem Column.Holds.rowCount {column : Column} {cells : List Data} (h : column.Holds cells)
    (htype : column.type = .INT32 ∨ column.type = .VARCHAR) : column.rowCount = cells.length := by
  cases h with
  | int64 _ => simp at htype
  | fp64 _ => simp at htype
  | int32 hps => rw [hps.rowCount, List.length_map]
  | varchar hps => rw [hps.rowCount, List.length_map]

theorem map_project_cell (cs : List (Option Int32)) :
    (cs.map int32Type.cell).map int32Type.project = cs := by
  rw [List.map_map, List.map_congr_left (g := id), List.map_id]
  rintro (_ | v) _ <;> rfl

theorem map_project_varcharCell (cs : List (Option Bytes)) :
    (cs.map varcharCell).map VarcharWriter.project = cs := by
  rw [List.map_map, List.map_congr_left (g := id), List.map_id]
  rintro (_ | v) _ <;> rfl

theorem getElem?_varcharCell {cs : List (Option Bytes)} {i : Nat} {s : Bytes} :
    (cs.map varcharCell)[i]? = some (.string s) ↔ cs[i]? = some (some s) := by
  rw [List.getElem?_map, Option.map_eq_some_iff]
  constructor
  · rintro ⟨c, hc, heq⟩
    cases c with
    | none => cases heq
    | some t =>
      cases heq
      exact hc
  · intro h
    exact ⟨some s, h, rfl⟩

/-- How row `i` of a column is read: as it is, unless it is misread. -/
theorem Column.Holds.reads {column : Column} {cells : List Data} (h : column.Holds cells) (i : Nat) :
    ¬ column.Misread cells i ∧ (column.seen cells)[i]? = cells[i]? ∨
      column.Misread cells i ∧ ∃ d e, cells[i]? = some d ∧ (column.seen cells)[i]? = some e ∧
        d.LostAs column.type e := by
  cases h with
  | int64 _ => exact .inl ⟨id, rfl⟩
  | fp64 _ => exact .inl ⟨id, rfl⟩
  | @int32 ps cs _ =>
    unfold Column.seen Column.Misread seenInt32
    simp only [map_project_cell]
    split
    case isTrue hall =>
      refine .inl ⟨?_, rfl⟩
      rintro ⟨hnull, -⟩
      obtain ⟨c, hc, heq⟩ := List.mem_map.mp hnull
      have hsome := List.all_eq_true.mp hall c hc
      cases c with
      | none => cases hsome
      | some v => cases heq
    case isFalse hall =>
      have hnull : Data.monostate ∈ cs.map int32Type.cell := by
        simp only [List.all_eq_true, not_forall] at hall
        obtain ⟨c, hc, hnone⟩ := hall
        cases c with
        | none => exact List.mem_map_of_mem hc
        | some v => exact absurd rfl hnone
      simp only [List.getElem?_map]
      cases hc : cs[i]? with
      | none => simp
      | some c =>
        cases c with
        | none => simp [FixedType.cell]
        | some v =>
          by_cases hv : v < 0
          · refine .inr ⟨⟨hnull, v, rfl, hv⟩, .int32 v, .monostate, rfl, ?_, ?_, rfl, fun _ => rfl⟩
            · simp [Option.filter, hv, FixedType.cell]
            · simp [Data.fragile, hv]
          · refine .inl ⟨?_, by simp [Option.filter, hv]⟩
            rintro ⟨-, w, hw, hneg⟩
            cases hw
            exact hv hneg
  | @varchar ps cs hps =>
    have hread := seenVarchar_reads hps 0 i
    have hmisread : Column.Misread ⟨.VARCHAR, ps⟩ (cs.map varcharCell) i ↔
        MisreadString (rowPages 0 ps) cs i := by
      unfold Column.Misread MisreadString FollowedBy
      simp only [getElem?_varcharCell]
    rw [hmisread]
    unfold Column.seen
    simp only [map_project_varcharCell, List.getElem?_map]
    rcases hread with ⟨hright, hsame⟩ | ⟨hmis, hempty, s, hs, hne⟩
    · exact .inl ⟨hright, by rw [hsame]⟩
    · refine .inr ⟨hmis, .string [], .string s, by rw [hempty]; rfl, by rw [hs]; rfl, rfl, ?_, ?_⟩
      · simpa [Data.fragile] using hne
      · intro hint32
        cases hint32

/-- The values of a scan that completes stand for the cells as they are read back. -/
theorem Column.Holds.scan_seen {inputs : List ColumnarTable} {table : ColumnarTable} {t k : Nat}
    {column : Column} {cells : List Data} (h : column.Holds cells)
    (hcolumn : table.columns[k]? = some column) (hlen : cells.length = table.numRows)
    (htype : column.type = .INT32 ∨ column.type = .VARCHAR)
    (hinput : column.type = .VARCHAR → inputs[t]? = some table)
    (hfit : column.type = .INT32 ∧ .monostate ∈ cells ∨ IndicesFit t k column.pages) {d : ColumnT}
    (hd : scanColumn t table k = .ok d) :
    (d.type = column.type ∨ d.type = .INT32 ∧ d.values = []) ∧
      d.values.mapM (decodeData inputs column.type d.originalPages) = .ok (column.seen cells) := by
  cases h with
  | int64 _ => simp at htype
  | fp64 _ => simp at htype
  | @int32 ps cs hps =>
    rw [List.length_map] at hlen
    have hfit' : cs.all Option.isSome → IndicesFit t k ps := by
      intro hall
      refine hfit.resolve_left fun hnull => ?_
      obtain ⟨c, hc, heq⟩ := List.mem_map.mp hnull.2
      obtain ⟨v, rfl⟩ := Option.isSome_iff_exists.mp (List.all_eq_true.mp hall c hc)
      cases heq
    obtain ⟨isNoNull, originalPages, vs, rfl, hdecode⟩ :=
      scanInt32_decode hfit' hcolumn hps hlen.le hd
    refine ⟨.inl (by simp), ?_⟩
    rw [ColumnT.values_ofValues, ColumnT.originalPages_ofValues]
    unfold Column.seen
    rw [map_project_cell]
    exact mapM_ok_comp hdecode int32Type.cell
  | @varchar ps cs hps =>
    rw [List.length_map] at hlen
    obtain ⟨type, vs, hvarchar, rfl, htype'⟩ := scanColumn_varchar hcolumn hps hlen.le hd
    have hindices := hfit.resolve_left (by simp)
    have hdecode := hvarchar.decode hindices (hinput rfl) hcolumn rfl (Nat.zero_le _)
    constructor
    · rcases htype' with rfl | ⟨rfl, rfl⟩
      · exact .inl (by simp)
      · have hvs := hvarchar.length_eq
        exact .inr ⟨by simp, by simpa using hvs⟩
    · rw [ColumnT.values_ofValues]
      unfold Column.seen
      rw [map_project_varcharCell]
      exact mapM_ok_comp hdecode varcharCell

end JoinOptimizer
