import JoinOptimizer.Page.Decode
import JoinOptimizer.Lib.Double
import JoinOptimizer.Lib.Sorting

/-! The comparison of cells and records, `operator<` and `operator==` of `Data` and of `std::vector`, and
what is compared: the records that `Table::from_columnar` makes. -/

namespace JoinOptimizer

open Lib

namespace Data

/-- `index()`. -/
def index : Data → Nat
  | int32 _ => 0
  | int64 _ => 1
  | fp64 _ => 2
  | string _ => 3
  | monostate => 4

/-- `operator<`: by the alternative, then by the value.  The characters of strings compare as bytes. -/
def less : Data → Data → Bool
  | int32 a, int32 b => a < b
  | int64 a, int64 b => a < b
  | fp64 a, fp64 b => Double.lt (.ofBits a) (.ofBits b)
  | string a, string b => lexLess (fun c d => c < d) a b
  | a, b => a.index < b.index

/-- `operator==`. -/
def equal : Data → Data → Bool
  | fp64 a, fp64 b => Double.eq (.ofBits a) (.ofBits b)
  | a, b => a = b

/-- The cell is no `double`. -/
def NotDouble (d : Data) : Prop := ∀ bits, d ≠ fp64 bits

theorem HasType.notDouble {d : Data} {type : DataType} (h : d.HasType type) (htype : type ≠ .FP64) :
    d.NotDouble := by
  rintro bits rfl
  cases type with
  | FP64 => exact htype rfl
  | INT32 | INT64 | VARCHAR => exact h

theorem equal_eq {a b : Data} (ha : a.NotDouble) : a.equal b = decide (a = b) := by
  unfold equal
  split
  · next a b => exact absurd rfl (ha a)
  · rfl

theorem bytes_strictTotal : StrictTotal (fun a b : UInt8 => decide (a < b)) fun _ => True where
  irrefl a _ := by simp
  trans a b c _ _ _ hab hbc := by
    simp only [decide_eq_true_eq] at hab hbc ⊢
    exact UInt8.lt_trans hab hbc
  total a b _ _ hab hba := by
    simp only [decide_eq_false_iff_not, UInt8.not_lt] at hab hba
    exact UInt8.le_antisymm hba hab

/-- Without a `double`, which may be no number, the order of cells is total. -/
theorem strictTotal : StrictTotal less NotDouble where
  irrefl a ha := by
    cases a with
    | int32 v | int64 v => simp [less]
    | fp64 bits => exact absurd rfl (ha bits)
    | string s => exact bytes_strictTotal.lex.irrefl s fun _ _ => trivial
    | monostate => rfl
  trans a b c ha hb hc hab hbc := by
    have hbytes : ∀ s t u : Bytes, lexLess (fun c d => decide (c < d)) s t →
        lexLess (fun c d => decide (c < d)) t u → lexLess (fun c d => decide (c < d)) s u := fun s t u =>
      bytes_strictTotal.lex.trans s t u (fun _ _ => trivial) (fun _ _ => trivial) fun _ _ => trivial
    cases a <;> cases b <;> cases c <;> simp [less, index] at hab hbc ⊢
    · exact Int32.lt_trans hab hbc
    · exact Int64.lt_trans hab hbc
    · exact absurd rfl (ha _)
    · exact hbytes _ _ _ hab hbc
  total a b ha hb hab hba := by
    cases a <;> cases b <;> simp [less, index] at hab hba ⊢
    · exact Int32.le_antisymm hba hab
    · exact Int64.le_antisymm hba hab
    · exact absurd rfl (ha _)
    · exact bytes_strictTotal.lex.total _ _ (fun _ _ => trivial) (fun _ _ => trivial) hab hba

end Data

/-- The cells of a column while it is filled are of its type. -/
def ColumnCursor.Typed (numRows : Nat) (type : DataType) (c : ColumnCursor) : Prop :=
  c.cells.length = numRows ∧ ∀ d ∈ c.cells, d.HasType type

namespace ColumnCursor.Typed

variable {numRows limit : Nat} {type : DataType} {c c' : ColumnCursor}

theorem set (h : c.Typed numRows type) (i rowIdx : Nat) {d : Data} (hd : d.HasType type) :
    Typed numRows type ⟨c.cells.set i d, rowIdx⟩ := by
  refine ⟨by rw [List.length_set]; exact h.1, fun d' hd' => ?_⟩
  rcases List.mem_or_eq_of_mem_set hd' with hd' | rfl
  · exact h.2 d' hd'
  · exact hd

theorem emplace (h : c.Typed numRows type) {d : Data} (hd : d.HasType type)
    (hrun : c.emplace limit d = .ok c') : c'.Typed numRows type := by
  unfold ColumnCursor.emplace at hrun
  split at hrun
  · cases hrun
  · cases hrun
    exact h.set _ _ hd

theorem fixedPage {α : Type} {T : FixedType α} (htype : ∀ v, (T.inject v).HasType T.type) {page : Page}
    (h : c.Typed numRows T.type) (hrun : decodeFixedPage T limit c page = .ok c') :
    c'.Typed numRows T.type := by
  obtain ⟨s, hloop, hs⟩ := bind_eq_ok.mp hrun
  cases hs
  refine foldlM_invariant (P := fun _ s => s.2.Typed numRows T.type) hloop h fun pre i s s' _ hs hrow => ?_
  unfold decodeFixedRow at hrow
  split at hrow
  · obtain ⟨c₁, hc₁, hrow⟩ := bind_eq_ok.mp hrow
    cases hrow
    exact hs.emplace (htype _) hc₁
  · cases hrow
    exact hs

theorem varcharPage {page : Page} (h : c.Typed numRows .VARCHAR)
    (hrun : decodeVarcharPage limit c page = .ok c') : c'.Typed numRows .VARCHAR := by
  unfold decodeVarcharPage at hrun
  split at hrun
  · exact h.emplace (by trivial) hrun
  · split at hrun
    · unfold ColumnCursor.extendLast at hrun
      split at hrun
      · cases hrun
      · split at hrun
        · cases hrun
          exact h.set _ _ (by trivial)
        · cases hrun
        · cases hrun
    · obtain ⟨s, hloop, hs⟩ := bind_eq_ok.mp hrun
      cases hs
      refine foldlM_invariant (P := fun _ s => s.2.2.Typed numRows .VARCHAR) hloop h
        fun pre i s s' _ hs hrow => ?_
      unfold decodeVarcharRow at hrow
      dsimp only at hrow
      split at hrow
      · obtain ⟨c₁, hc₁, hrow⟩ := bind_eq_ok.mp hrow
        cases hrow
        exact hs.emplace (by trivial) hc₁
      · cases hrow
        exact hs

theorem page {p : Page} (h : c.Typed numRows type) (hrun : decodePage type limit c p = .ok c') :
    c'.Typed numRows type := by
  cases type with
  | INT32 => exact fixedPage (T := int32Type) (fun _ => trivial) h hrun
  | INT64 => exact fixedPage (T := int64Type) (fun _ => trivial) h hrun
  | FP64 => exact fixedPage (T := fp64Type) (fun _ => trivial) h hrun
  | VARCHAR => exact h.varcharPage hrun

end ColumnCursor.Typed

theorem decodeColumn_typed {numRows : Nat} {column : Column} {cells : List Data}
    (h : decodeColumn numRows column = .ok cells) :
    cells.length = numRows ∧ ∀ d ∈ cells, d.HasType column.type := by
  obtain ⟨c, hrun, hc⟩ := bind_eq_ok.mp h
  cases hc
  refine foldlM_invariant (P := fun _ c => c.Typed numRows column.type) hrun ⟨by simp, fun d hd => ?_⟩
    fun pre p c c' _ hc hpage => hc.page hpage
  obtain rfl := List.eq_of_mem_replicate hd
  cases column.type <;> trivial

/-- Whatever pages are read, the cells are of the types of their columns. -/
theorem fromColumnar_wellTyped {ct : ColumnarTable} {t : Table} (h : fromColumnar ct = .ok t) :
    t.WellTyped ∧ t.types = ct.columns.map Column.type ∧ t.data.length = ct.numRows := by
  obtain ⟨columns, hcolumns, ht⟩ := bind_eq_ok.mp h
  cases ht
  refine ⟨fun record hrecord => ?_, rfl, by simp [recordsOf]⟩
  obtain ⟨row, -, rfl⟩ := List.mem_map.mp hrecord
  rw [List.forall₂_map_left_iff, List.forall₂_map_right_iff]
  refine (mapM_eq_ok_iff.mp hcolumns).flip.imp fun cells column hcells => ?_
  obtain ⟨-, htyped⟩ := decodeColumn_typed hcells
  rw [List.getD_eq_getElem?_getD]
  cases hcell : cells[row]? with
  | none => cases column.type <;> trivial
  | some d => exact htyped d (List.mem_of_getElem? hcell)

end JoinOptimizer
