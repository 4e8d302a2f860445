import JoinOptimizer.Filter.Selected

/-! Evaluation of filters on columns against evaluation on records: what each makes of one cell, and the
cells on which they part. -/

namespace JoinOptimizer

open Lib

namespace InnerColumnBase

/-- A column of `n` rows. -/
def Sized : InnerColumnBase → Nat → Prop
  | int32 column, n => column.Sized n
  | int64 column, n => column.Sized n
  | fp64 column, n => column.Sized n
  | varchar column, n => column.Sized n

/-- The cell of row `i`. -/
def cell : InnerColumnBase → Nat → Data
  | int32 column, i => (column.row? i).elim .monostate .int32
  | int64 column, i => (column.row? i).elim .monostate .int64
  | fp64 column, i => (column.row? i).elim .monostate .fp64
  | varchar column, i => (column.row? i).elim .monostate .string

theorem Sized.bitmap {base : InnerColumnBase} {n : Nat} (h : base.Sized n) :
    base.bitmap.length = (n + 7) / 8 := by
  cases base with
  | int32 column => exact InnerColumn.Sized.bitmap h
  | int64 column => exact InnerColumn.Sized.bitmap h
  | fp64 column => exact InnerColumn.Sized.bitmap h
  | varchar column => exact InnerStrings.Sized.bitmap h

end InnerColumnBase

theorem InnerColumn.elim_row_eq_monostate {α : Type} {c : InnerColumn α} {n : Nat} (h : c.Sized n)
    {inject : α → Data} (hinject : ∀ v, inject v ≠ .monostate) {i : Nat} (hi : i < n) :
    ((c.row? i).elim .monostate inject == .monostate) = !flag c.bitmap i := by
  have hlt : i < c.data.length := by rw [h.data]; exact hi
  rw [row?, isNotNull, ← flag, List.getElem?_eq_getElem hlt]
  cases flag c.bitmap i with
  | true => simpa using hinject _
  | false => rfl

/-- The bitmap of a column tells which of its cells are NULL. -/
theorem InnerColumnBase.cell_eq_monostate {base : InnerColumnBase} {n : Nat} (h : base.Sized n) {i : Nat}
    (hi : i < n) : (base.cell i == .monostate) = !flag base.bitmap i := by
  cases base with
  | int32 column => exact column.elim_row_eq_monostate h (fun _ => Data.noConfusion) hi
  | int64 column => exact column.elim_row_eq_monostate h (fun _ => Data.noConfusion) hi
  | fp64 column => exact column.elim_row_eq_monostate h (fun _ => Data.noConfusion) hi
  | varchar column =>
    rw [cell, InnerStrings.row?, InnerStrings.isNotNull, ← flag]
    cases hflag : flag column.bitmap i with
    | true => simp [bitmap, hflag]
    | false => simp [bitmap, hflag]

def Data.isInt32 : Data → Bool
  | int32 _ => true
  | _ => false

def Data.isInt64 : Data → Bool
  | int64 _ => true
  | _ => false

/-- The answer of a comparison of integers. -/
def Op.decides (op : Op) (a b : Int) : Bool :=
  match op with
  | .EQ => a = b
  | .NEQ => a ≠ b
  | .LT => a < b
  | .GT => b < a
  | .LEQ => a ≤ b
  | .GEQ => b ≤ a
  | _ => false

/-- An integer of 53 bits compares with an integer as with its `double`. -/
theorem Op.decides_roundInt (op : Op) {v : Int} (hv : v.natAbs < 2 ^ 53) (z : Int) :
    op.decides (roundInt v) (roundInt z) = op.decides v z := by
  have hless := lt_roundInt hv (z := z)
  have hgreater := roundInt_lt hv (z := z)
  rw [roundInt_of_lt hv]
  cases op with
  | EQ | NEQ | LT | GT | LEQ | GEQ => simp only [Op.decides, decide_eq_decide]; omega
  | LIKE | NOT_LIKE | IS_NULL | IS_NOT_NULL => rfl

/-- Comparisons of integers that rounding to `double` changes. -/
theorem Op.decides_roundInt_ne_iff (op : Op) (v z : Int) :
    op.decides v z ≠ op.decides (roundInt v) (roundInt z) ↔
      roundInt v = roundInt z ∧
        (v < z ∧ (op = .EQ ∨ op = .NEQ ∨ op = .LT ∨ op = .GEQ) ∨
          z < v ∧ (op = .EQ ∨ op = .NEQ ∨ op = .GT ∨ op = .LEQ)) := by
  rcases Int.lt_trichotomy v z with hvz | rfl | hzv
  · have hround : roundInt v ≤ roundInt z := roundInt_mono (Int.le_of_lt hvz)
    cases op with
    | EQ | NEQ | LT | GT | LEQ | GEQ => simp [Op.decides]; omega
    | LIKE | NOT_LIKE | IS_NULL | IS_NOT_NULL => simp [Op.decides]
  · cases op <;> simp [Op.decides]
  · have hround : roundInt z ≤ roundInt v := roundInt_mono (Int.le_of_lt hzv)
    cases op with
    | EQ | NEQ | LT | GT | LEQ | GEQ => simp [Op.decides]; omega
    | LIKE | NOT_LIKE | IS_NULL | IS_NOT_NULL => simp [Op.decides]

theorem Comparison.compareNum_ofInt (op : Op) (a b : Int) :
    compareNum op (.ofInt a) (.ofInt b) = op.decides (roundInt a) (roundInt b) := by
  cases op <;> simp [compareNum, Op.decides]

namespace Comparison

/-- The answer of a comparison on columns for one cell. -/
def selects (re2 : RE2) (c : Comparison) (cell : Data) : Bool :=
  match c.op with
  | .IS_NULL => cell == .monostate
  | .IS_NOT_NULL => !(cell == .monostate)
  | op =>
    match cell, c.value with
    | .int32 v, .int64 value => op.decides v.toInt value.toInt32.toInt
    | .int64 v, .int64 value => op.decides v.toInt value.toInt
    | .string v, .string compValue =>
      match op with
      | .LIKE => likeMatch re2 v compValue
      | .NOT_LIKE => !likeMatch re2 v compValue
      | op => compareStr op v compValue
    | _, _ => false

/-- The literal is of the kind of the column, which is not of type `double`. -/
def Fits (c : Comparison) : InnerColumnBase → Prop
  | .int32 _ | .int64 _ =>
    c.op = .IS_NULL ∨ c.op = .IS_NOT_NULL ∨
      c.op ≠ .LIKE ∧ c.op ≠ .NOT_LIKE ∧ ∃ value, c.value = .int64 value
  | .varchar _ => c.op = .IS_NULL ∨ c.op = .IS_NOT_NULL ∨ ∃ value, c.value = .string value
  | .fp64 _ => False

/-- The two evaluations part on a cell: the answer for an INT32 cell changes when the literal is cut to 32
bits; an INT64 cell and another literal become one `double`, and the comparison tells them apart. -/
def Clashes (c : Comparison) (cell : Data) : Prop :=
  match cell, c.value with
  | .int32 v, .int64 value => c.op.decides v.toInt value.toInt32.toInt ≠ c.op.decides v.toInt value.toInt
  | .int64 v, .int64 value =>
    roundInt v.toInt = roundInt value.toInt ∧
      (v.toInt < value.toInt ∧ (c.op = .EQ ∨ c.op = .NEQ ∨ c.op = .LT ∨ c.op = .GEQ) ∨
        value.toInt < v.toInt ∧ (c.op = .EQ ∨ c.op = .NEQ ∨ c.op = .GT ∨ c.op = .LEQ))
  | _, _ => False

instance (c : Comparison) (cell : Data) : Decidable (c.Clashes cell) :=
  match cell, c with
  | .int32 v, ⟨_, op, .int64 value⟩ => inferInstanceAs
      (Decidable (op.decides v.toInt value.toInt32.toInt ≠ op.decides v.toInt value.toInt))
  | .int64 v, ⟨_, op, .int64 value⟩ => inferInstanceAs (Decidable
      (roundInt v.toInt = roundInt value.toInt ∧
        (v.toInt < value.toInt ∧ (op = .EQ ∨ op = .NEQ ∨ op = .LT ∨ op = .GEQ) ∨
          value.toInt < v.toInt ∧ (op = .EQ ∨ op = .NEQ ∨ op = .GT ∨ op = .LEQ))))
  | .int32 _, ⟨_, _, .monostate⟩ | .int32 _, ⟨_, _, .fp64 _⟩ | .int32 _, ⟨_, _, .string _⟩
  | .int64 _, ⟨_, _, .monostate⟩ | .int64 _, ⟨_, _, .fp64 _⟩ | .int64 _, ⟨_, _, .string _⟩
  | .monostate, _ | .fp64 _, _ | .string _, _ => inferInstanceAs (Decidable False)

/-- The answer of a comparison that takes both integers as they are. -/
def exact (re2 : RE2) (c : Comparison) (cell : Data) : Bool :=
  match c.op with
  | .IS_NULL => cell == .monostate
  | .IS_NOT_NULL => !(cell == .monostate)
  | op =>
    match cell, c.value with
    | .int32 v, .int64 value => op.decides v.toInt value.toInt
    | .int64 v, .int64 value => op.decides v.toInt value.toInt
    | .string v, .string compValue =>
      match op with
      | .LIKE => likeMatch re2 v compValue
      | .NOT_LIKE => !likeMatch re2 v compValue
      | op => compareStr op v compValue
    | _, _ => false

/-- The six comparisons on a column of numbers. -/
theorem selectNum_spec {α : Type} [BEq α] [LT α] [DecidableLT α] [LE α] [DecidableLE α] (toInt : α → Int)
    (heq : ∀ a b : α, (a == b) = decide (toInt a = toInt b))
    (hlt : ∀ a b : α, a < b ↔ toInt a < toInt b) (hle : ∀ a b : α, a ≤ b ↔ toInt a ≤ toInt b)
    {column : InnerColumn α} {n : Nat} (h : column.Sized n) (compValue : α) {op : Op}
    (hop : op = .EQ ∨ op = .NEQ ∨ op = .LT ∨ op = .GT ∨ op = .LEQ ∨ op = .GEQ) :
    ∃ bits, selectNum op column compValue = .ok bits ∧ bits.length = (n + 7) / 8 ∧
      ∀ i < n, flag bits i = (column.row? i).any fun v => op.decides (toInt v) (toInt compValue) := by
  have hselect : ∀ p : α → Bool, (∀ v, p v = op.decides (toInt v) (toInt compValue)) →
      (column.select p).length = (n + 7) / 8 ∧ ∀ i < n, flag (column.select p) i =
        (column.row? i).any fun v => op.decides (toInt v) (toInt compValue) := fun p hp => by
    refine ⟨(column.flag_select h p).1, fun i hi => ?_⟩
    rw [column.select_row h p hi, funext hp]
  rcases hop with rfl | rfl | rfl | rfl | rfl | rfl
  · exact ⟨_, rfl, hselect _ fun v => heq v compValue⟩
  · exact ⟨_, rfl, hselect _ fun v => by simp [bne, heq, Op.decides]⟩
  · exact ⟨_, rfl, hselect _ fun v => decide_eq_decide.mpr (hlt v compValue)⟩
  · exact ⟨_, rfl, hselect _ fun v => decide_eq_decide.mpr (hlt compValue v)⟩
  · exact ⟨_, rfl, hselect _ fun v => decide_eq_decide.mpr (hle v compValue)⟩
  · exact ⟨_, rfl, hselect _ fun v => decide_eq_decide.mpr (hle compValue v)⟩

theorem six_of_ne {op : Op} (hnull : op ≠ .IS_NULL) (hnot : op ≠ .IS_NOT_NULL) (hlike : op ≠ .LIKE)
    (hnotLike : op ≠ .NOT_LIKE) :
    op = .EQ ∨ op = .NEQ ∨ op = .LT ∨ op = .GT ∨ op = .LEQ ∨ op = .GEQ := by
  cases op <;> simp_all

theorem selects_monostate (re2 : RE2) {c : Comparison} (hnull : c.op ≠ .IS_NULL)
    (hnot : c.op ≠ .IS_NOT_NULL) : c.selects re2 .monostate = false := by
  unfold selects
  split
  · next hop => exact absurd hop hnull
  · next hop => exact absurd hop hnot
  · rfl

/-- A comparison on a column answers for each of its cells. -/
theorem evalTable_selects (re2 : RE2) {c : Comparison} {table : List InnerColumnBase}
    {base : InnerColumnBase} (hbase : table[c.column]? = some base) (hfits : c.Fits base) {n : Nat}
    (h : base.Sized n) :
    ∃ bits, c.evalTable re2 table = .ok bits ∧ bits.length = (n + 7) / 8 ∧
      ∀ i < n, flag bits i = c.selects re2 (base.cell i) := by
  have hindex : index table c.column = .ok base := index_eq_ok.mpr hbase
  unfold evalTable
  rw [hindex, ok_bind]
  by_cases hnull : c.op = .IS_NULL
  · rw [if_pos hnull]
    refine ⟨_, rfl, by rw [bitmapNot_eq, List.length_map, h.bitmap], fun i hi => ?_⟩
    rw [flag_bitmapNot (by rw [h.bitmap]; omega), selects, hnull, base.cell_eq_monostate h hi]
  by_cases hnot : c.op = .IS_NOT_NULL
  · rw [if_neg hnull, if_pos hnot]
    refine ⟨_, rfl, h.bitmap, fun i hi => ?_⟩
    rw [selects, hnot]
    simp only
    rw [base.cell_eq_monostate h hi, Bool.not_not]
  rw [if_neg hnull, if_neg hnot]
  cases base with
  | fp64 column => exact hfits.elim
  | int32 column =>
    obtain ⟨hlike, hnotLike, value, hvalue⟩ := (hfits.resolve_left hnull).resolve_left hnot
    obtain ⟨bits, hok, hlen, hbits⟩ := selectNum_spec Int32.toInt
      (fun a b => by rw [beq_eq_decide, decide_eq_decide, Int32.toInt_inj])
      (fun a b => Int32.lt_iff_toInt_lt) (fun a b => Int32.le_iff_toInt_le) h value.toInt32
      (six_of_ne hnull hnot hlike hnotLike)
    refine ⟨bits, by rw [hvalue]; exact hok, hlen, fun i hi => ?_⟩
    rw [hbits i hi, selects, InnerColumnBase.cell, hvalue]
    rcases six_of_ne hnull hnot hlike hnotLike with hop | hop | hop | hop | hop | hop <;>
      cases column.row? i <;> simp [hop]
  | int64 column =>
    obtain ⟨hlike, hnotLike, value, hvalue⟩ := (hfits.resolve_left hnull).resolve_left hnot
    obtain ⟨bits, hok, hlen, hbits⟩ := selectNum_spec Int64.toInt
      (fun a b => by rw [beq_eq_decide, decide_eq_decide, Int64.toInt_inj])
      (fun a b => Int64.lt_iff_toInt_lt) (fun a b => Int64.le_iff_toInt_le) h value
      (six_of_ne hnull hnot hlike hnotLike)
    refine ⟨bits, by rw [hvalue]; exact hok, hlen, fun i hi => ?_⟩
    rw [hbits i hi, selects, InnerColumnBase.cell, hvalue]
    rcases six_of_ne hnull hnot hlike hnotLike with hop | hop | hop | hop | hop | hop <;>
      cases column.row? i <;> simp [hop]
  | varchar column =>
    obtain ⟨value, hvalue⟩ := (hfits.resolve_left hnull).resolve_left hnot
    have hmono : c.selects re2 .monostate = false := selects_monostate re2 hnull hnot
    have hselect : ∀ p : Bytes → Bool, (∀ v, p v = c.selects re2 (.string v)) →
        (column.select p).length = (n + 7) / 8 ∧ ∀ i < n,
          flag (column.select p) i = c.selects re2 ((column.row? i).elim .monostate .string) := by
      intro p hp
      obtain ⟨hlen, hbits⟩ := column.flag_select h p
      refine ⟨hlen, fun i hi => ?_⟩
      rw [hbits i hi]
      cases column.row? i with
      | none => exact hmono.symm
      | some v => exact hp v
    rw [hvalue]
    simp only [InnerColumnBase.cell]
    cases hop : c.op with
    | EQ | NEQ | LT | GT | LEQ | GEQ | LIKE | NOT_LIKE =>
      exact ⟨_, rfl, hselect _ fun v => by simp [selects, hop, hvalue, compareStr]⟩
    | IS_NULL => exact absurd hop hnull
    | IS_NOT_NULL => exact absurd hop hnot

theorem selects_eq_evalData_of_null (re2 : RE2) {c : Comparison}
    (hop : c.op = .IS_NULL ∨ c.op = .IS_NOT_NULL) (cell : Data) :
    c.selects re2 cell = c.evalData re2 cell ∧ ¬ c.Clashes cell := by
  rcases hop with hop | hop
  · refine ⟨by simp [selects, evalData, hop], ?_⟩
    cases cell <;> cases hvalue : c.value <;> simp [Clashes, hop, hvalue, Op.decides]
  · refine ⟨by simp [selects, evalData, hop], ?_⟩
    cases cell <;> cases hvalue : c.value <;> simp [Clashes, hop, hvalue, Op.decides]

theorem selects_eq_evalData_monostate (re2 : RE2) (c : Comparison) :
    c.selects re2 .monostate = c.evalData re2 .monostate := by
  cases hop : c.op <;> simp [selects, evalData, numericOfData, hop]

/-- On numbers both evaluations compare integers, each after its own conversion. -/
theorem selects_evalData_int (re2 : RE2) {c : Comparison} {value : Int64} (hvalue : c.value = .int64 value)
    (hop : c.op = .EQ ∨ c.op = .NEQ ∨ c.op = .LT ∨ c.op = .GT ∨ c.op = .LEQ ∨ c.op = .GEQ) :
    (∀ v, c.selects re2 (.int32 v) = c.op.decides v.toInt value.toInt32.toInt ∧
      c.evalData re2 (.int32 v) = c.op.decides (roundInt v.toInt) (roundInt value.toInt)) ∧
    ∀ v, c.selects re2 (.int64 v) = c.op.decides v.toInt value.toInt ∧
      c.evalData re2 (.int64 v) = c.op.decides (roundInt v.toInt) (roundInt value.toInt) := by
  simp only [← compareNum_ofInt]
  rcases hop with hop | hop | hop | hop | hop | hop <;>
    simp [selects, evalData, hop, hvalue, numericOfData, numericOfLiteral]

theorem exact_of_null (re2 : RE2) {c : Comparison} (hop : c.op = .IS_NULL ∨ c.op = .IS_NOT_NULL)
    (cell : Data) : c.exact re2 cell = c.selects re2 cell := by
  rcases hop with hop | hop <;> simp [exact, selects, hop]

theorem exact_int (re2 : RE2) {c : Comparison} {value : Int64} (hvalue : c.value = .int64 value)
    (hop : c.op = .EQ ∨ c.op = .NEQ ∨ c.op = .LT ∨ c.op = .GT ∨ c.op = .LEQ ∨ c.op = .GEQ) :
    (∀ v, c.exact re2 (.int32 v) = c.op.decides v.toInt value.toInt) ∧
      ∀ v, c.exact re2 (.int64 v) = c.op.decides v.toInt value.toInt := by
  rcases hop with hop | hop | hop | hop | hop | hop <;> simp [exact, hop, hvalue]

theorem exact_monostate (re2 : RE2) (c : Comparison) :
    c.exact re2 .monostate = c.selects re2 .monostate := by
  cases hop : c.op <;> simp [exact, selects, hop]

theorem exact_string (re2 : RE2) (c : Comparison) (v : Bytes) :
    c.exact re2 (.string v) = c.selects re2 (.string v) := by
  cases hop : c.op <;> cases hvalue : c.value <;> simp [exact, selects, hop, hvalue]

/-- An answer is another one exactly if it is inverted. -/
theorem eq_xor_ne (a b : Bool) : a = (b ^^ decide (a ≠ b)) := by
  cases a <;> cases b <;> rfl

/-- Where a comparison clashes, the evaluation on columns is wrong about an INT32 cell and the evaluation
on records about an INT64 cell; all else both answer exactly. -/
theorem evaluations_eq (re2 : RE2) {c : Comparison} {base : InnerColumnBase} (hfits : c.Fits base)
    (i : Nat) :
    c.selects re2 (base.cell i) =
        (c.exact re2 (base.cell i) ^^ ((base.cell i).isInt32 && decide (c.Clashes (base.cell i)))) ∧
      c.evalData re2 (base.cell i) =
        (c.exact re2 (base.cell i) ^^
          ((base.cell i).isInt64 && decide (c.Clashes (base.cell i)))) := by
  by_cases hnull : c.op = .IS_NULL ∨ c.op = .IS_NOT_NULL
  · obtain ⟨heq, hclash⟩ := selects_eq_evalData_of_null re2 hnull (base.cell i)
    rw [← heq, exact_of_null re2 hnull, decide_eq_false hclash, Bool.and_false, Bool.and_false,
      Bool.xor_false]
    exact ⟨rfl, rfl⟩
  obtain ⟨hnull, hnot⟩ := not_or.mp hnull
  have hmonostate : c.selects re2 .monostate = (c.exact re2 .monostate ^^ false) ∧
      c.evalData re2 .monostate = (c.exact re2 .monostate ^^ false) := by
    rw [exact_monostate, ← selects_eq_evalData_monostate, Bool.xor_false]
    exact ⟨rfl, rfl⟩
  cases base with
  | fp64 column => exact hfits.elim
  | int32 column =>
    obtain ⟨hlike, hnotLike, value, hvalue⟩ := (hfits.resolve_left hnull).resolve_left hnot
    rw [InnerColumnBase.cell]
    cases column.row? i with
    | none => exact hmonostate
    | some v =>
      have hsix := six_of_ne hnull hnot hlike hnotLike
      obtain ⟨hselects, heval⟩ := (selects_evalData_int re2 hvalue hsix).1 v
      have hsmall : v.toInt.natAbs < 2 ^ 53 := by
        have hlow := v.le_toInt
        have hhigh := v.toInt_lt
        omega
      rw [Option.elim_some, hselects, heval, Op.decides_roundInt _ hsmall, (exact_int re2 hvalue hsix).1]
      refine ⟨?_, (Bool.xor_false _).symm⟩
      simp only [Data.isInt32, Bool.true_and, Clashes, hvalue]
      exact eq_xor_ne _ _
  | int64 column =>
    obtain ⟨hlike, hnotLike, value, hvalue⟩ := (hfits.resolve_left hnull).resolve_left hnot
    rw [InnerColumnBase.cell]
    cases column.row? i with
    | none => exact hmonostate
    | some v =>
      have hsix := six_of_ne hnull hnot hlike hnotLike
      obtain ⟨hselects, heval⟩ := (selects_evalData_int re2 hvalue hsix).2 v
      rw [Option.elim_some, hselects, heval, (exact_int re2 hvalue hsix).2]
      refine ⟨(Bool.xor_false _).symm, ?_⟩
      simp only [Data.isInt64, Bool.true_and, Clashes, hvalue, ← Op.decides_roundInt_ne_iff,
        ne_comm (a := c.op.decides v.toInt value.toInt)]
      exact eq_xor_ne _ _
  | varchar column =>
    obtain ⟨value, hvalue⟩ := (hfits.resolve_left hnull).resolve_left hnot
    rw [InnerColumnBase.cell]
    cases column.row? i with
    | none => exact hmonostate
    | some v =>
      have heval : c.selects re2 (.string v) = c.evalData re2 (.string v) := by
        cases hop : c.op <;> simp [selects, evalData, hop, hvalue, numericOfData]
      rw [Option.elim_some, ← heval, exact_string]
      exact ⟨(Bool.xor_false _).symm, (Bool.xor_false _).symm⟩

end Comparison

namespace Statement

/-- The literal of every comparison is of the kind of its column. -/
def Fits (table : List InnerColumnBase) : Statement → Prop
  | comparison c => ∃ base, table[c.column]? = some base ∧ c.Fits base
  | makeAnd l r => l.Fits table ∧ r.Fits table
  | makeOr l r => l.Fits table ∧ r.Fits table
  | makeNot child => child.Fits table

/-- What the evaluation on columns makes of a record. -/
def selects (re2 : RE2) (record : List Data) : Statement → Bool
  | comparison c => c.selects re2 (record.getD c.column .monostate)
  | makeAnd l r => l.selects re2 record && r.selects re2 record
  | makeOr l r => l.selects re2 record || r.selects re2 record
  | makeNot child => !child.selects re2 record

/-- The answer of a filter whose comparisons are exact, but for those with cells of one kind that clash:
these are inverted. -/
def inverting (re2 : RE2) (record : List Data) (kind : Data → Bool) : Statement → Bool
  | comparison c =>
    let cell := record.getD c.column .monostate
    c.exact re2 cell ^^ (kind cell && decide (c.Clashes cell))
  | makeAnd l r => l.inverting re2 record kind && r.inverting re2 record kind
  | makeOr l r => l.inverting re2 record kind || r.inverting re2 record kind
  | makeNot child => !child.inverting re2 record kind

/-- On the record the filter has one answer, whether the clashing comparisons with INT32 cells are inverted
or those with INT64 cells. -/
def ClashesDecideNothing (re2 : RE2) (record : List Data) (s : Statement) : Prop :=
  s.inverting re2 record Data.isInt32 = s.inverting re2 record Data.isInt64

instance (re2 : RE2) (record : List Data) (s : Statement) :
    Decidable (s.ClashesDecideNothing re2 record) :=
  inferInstanceAs (Decidable (_ = _))

end Statement

/-- The record of the cells of row `i`. -/
def recordAt (table : List InnerColumnBase) (i : Nat) : List Data := table.map (·.cell i)

theorem recordAt_getD {table : List InnerColumnBase} {k : Nat} {base : InnerColumnBase}
    (h : table[k]? = some base) (i : Nat) : (recordAt table i).getD k .monostate = base.cell i := by
  simp [recordAt, h]

namespace Statement

/-- All bitmaps of an evaluation on columns have one size, and bit `i` answers for the record of row
`i`. -/
theorem evalTable_selects (re2 : RE2) {table : List InnerColumnBase} {n : Nat}
    (h : ∀ base ∈ table, base.Sized n) {s : Statement} (hfits : s.Fits table) :
    ∃ bits, s.evalTable re2 table = .ok bits ∧ bits.length = (n + 7) / 8 ∧
      ∀ i < n, flag bits i = s.selects re2 (recordAt table i) := by
  induction s with
  | comparison c =>
    obtain ⟨base, hbase, hc⟩ := hfits
    obtain ⟨bits, hok, hlen, hbits⟩ :=
      c.evalTable_selects re2 hbase hc (h base (List.mem_of_getElem? hbase))
    refine ⟨bits, hok, hlen, fun i hi => ?_⟩
    rw [selects, recordAt_getD hbase, hbits i hi]
  | makeAnd l r ihl ihr =>
    obtain ⟨lhs, hl, hllen, hlbits⟩ := ihl hfits.1
    obtain ⟨rhs, hr, hrlen, hrbits⟩ := ihr hfits.2
    refine ⟨List.zipWith (· &&& ·) lhs rhs, ?_, by simp [hllen, hrlen], fun i hi => ?_⟩
    · rw [Statement.evalTable, hl, hr]
      exact bitmapZip_eq _ (hllen.trans hrlen.symm)
    · rw [flag_zipWith (g := and) (fun a b k hk => testBit_and a b hk) (by omega) (by omega),
        hlbits i hi, hrbits i hi, selects]
  | makeOr l r ihl ihr =>
    obtain ⟨lhs, hl, hllen, hlbits⟩ := ihl hfits.1
    obtain ⟨rhs, hr, hrlen, hrbits⟩ := ihr hfits.2
    refine ⟨List.zipWith (· ||| ·) lhs rhs, ?_, by simp [hllen, hrlen], fun i hi => ?_⟩
    · rw [Statement.evalTable, hl, hr]
      exact bitmapZip_eq _ (hllen.trans hrlen.symm)
    · rw [flag_zipWith (g := or) (fun a b k hk => testBit_or a b hk) (by omega) (by omega),
        hlbits i hi, hrbits i hi, selects]
  | makeNot child ih =>
    obtain ⟨bits, hok, hlen, hbits⟩ := ih hfits
    refine ⟨bitmapNot bits, ?_, by rw [bitmapNot_eq, List.length_map, hlen], fun i hi => ?_⟩
    · rw [Statement.evalTable, hok]
      rfl
    · rw [flag_bitmapNot (by omega), hbits i hi, selects]

theorem Fits.of_mem_parts {table : List InnerColumnBase} {s t : Statement} (h : s.Fits table)
    (ht : t ∈ s.parts) : t.Fits table := by
  induction s with
  | comparison c =>
    rw [List.mem_singleton.mp ht]
    exact h
  | makeAnd l r ihl ihr | makeOr l r ihl ihr =>
    rcases List.mem_cons.mp ht with rfl | ht
    · exact h
    · exact (List.mem_append.mp ht).elim (ihl h.1) (ihr h.2)
  | makeNot child ih =>
    rcases List.mem_cons.mp ht with rfl | ht
    · exact h
    · exact ih h ht

/-- The evaluation on columns inverts the clashing comparisons with INT32 cells, the evaluation on the
record those with INT64 cells. -/
theorem evaluations_eq_inverting (re2 : RE2) {table : List InnerColumnBase} {s : Statement}
    (hfits : s.Fits table) (i : Nat) :
    s.selects re2 (recordAt table i) = s.inverting re2 (recordAt table i) Data.isInt32 ∧
      s.evalRecord re2 (recordAt table i) = s.inverting re2 (recordAt table i) Data.isInt64 := by
  induction s with
  | comparison c =>
    obtain ⟨base, hbase, hc⟩ := hfits
    simp only [selects, evalRecord, inverting, recordAt_getD hbase]
    exact c.evaluations_eq re2 hc i
  | makeAnd l r ihl ihr | makeOr l r ihl ihr =>
    simp only [selects, evalRecord, inverting, (ihl hfits.1).1, (ihl hfits.1).2, (ihr hfits.2).1,
      (ihr hfits.2).2, and_self]
  | makeNot child ih =>
    simp only [selects, evalRecord, inverting, (ih hfits).1, (ih hfits).2, and_self]

/-- Every bitmap of an evaluation has one byte for eight rows.  On a row the evaluation on columns answers
as the evaluation on its record exactly where the comparisons that clash on the row decide nothing. -/
theorem evalTable_agrees_iff (re2 : RE2) {table : List InnerColumnBase} {n : Nat}
    (h : ∀ base ∈ table, base.Sized n) {s : Statement} (hfits : s.Fits table) :
    (∀ t ∈ s.parts, ∃ bits, t.evalTable re2 table = .ok bits ∧ bits.length = (n + 7) / 8) ∧
      ∃ bits, s.evalTable re2 table = .ok bits ∧ ∀ i < n,
        (flag bits i = s.evalRecord re2 (recordAt table i) ↔
          s.ClashesDecideNothing re2 (recordAt table i)) := by
  refine ⟨fun t ht => ?_, ?_⟩
  · obtain ⟨bits, hok, hlen, -⟩ := evalTable_selects re2 h (hfits.of_mem_parts ht)
    exact ⟨bits, hok, hlen⟩
  · obtain ⟨bits, hok, -, hbits⟩ := evalTable_selects re2 h hfits
    refine ⟨bits, hok, fun i hi => ?_⟩
    obtain ⟨hselects, heval⟩ := evaluations_eq_inverting re2 hfits i
    rw [hbits i hi, hselects, heval]
    exact Iff.rfl

/-- A column of a number and a NULL, and a comparison with a literal that has no place in 32 bits. -/
def narrowedTable : List InnerColumnBase := [.int32 (.ofCells [some 5, none])]

def narrowed : Comparison := ⟨0, .EQ, .int64 4294967301⟩

theorem narrowed_fits : (comparison narrowed).Fits narrowedTable :=
  ⟨_, rfl, .inr (.inr ⟨by decide, by decide, _, rfl⟩)⟩

/-- A column of two integers that no `double` tells from their successors, and a filter that asks for such a
successor only where there is a NULL. -/
def wideTable : List InnerColumnBase :=
  [.int64 (.ofCells [some 9007199254740992, none, some (-9007199254740992)])]

def masked : Statement :=
  makeAnd (comparison ⟨0, .IS_NULL, .monostate⟩) (comparison ⟨0, .EQ, .int64 9007199254740993⟩)

theorem wideTable_sized : ∀ base ∈ wideTable, base.Sized 3 := by
  intro base hbase
  rw [List.mem_singleton.mp hbase]
  exact (InnerColumn.ofCells_spec [some 9007199254740992, none, some (-9007199254740992)]).1

theorem masked_fits : masked.Fits wideTable :=
  ⟨⟨_, rfl, .inl rfl⟩, _, rfl, .inr (.inr ⟨by decide, by decide, _, rfl⟩)⟩

/-- On row 0 the second comparison clashes, and the first one decides. -/
theorem evalTable_agrees_iff_masked : ∃ bits, masked.evalTable (fun _ => none) wideTable = .ok bits ∧
    Comparison.Clashes ⟨0, .EQ, .int64 9007199254740993⟩ (.int64 9007199254740992) ∧
    ∀ i < 3, flag bits i = masked.evalRecord (fun _ => none) (recordAt wideTable i) := by
  obtain ⟨-, bits, hok, hbits⟩ := evalTable_agrees_iff (fun _ => none) wideTable_sized masked_fits
  have hdecide : ∀ i < 3, masked.ClashesDecideNothing (fun _ => none) (recordAt wideTable i) := by
    decide +kernel
  exact ⟨bits, hok, by decide +kernel, fun i hi => (hbits i hi).mpr (hdecide i hi)⟩

/-- The literal is cut to the 32 bits of the column, and the row is selected although its record is not. -/
theorem evalTable_narrowed_ne :
    (comparison narrowed).Fits narrowedTable ∧
      (comparison narrowed).evalTable (fun _ => none) narrowedTable = .ok [0x01] ∧
      flag [0x01] 0 ≠ (comparison narrowed).evalRecord (fun _ => none) (recordAt narrowedTable 0) := by
  refine ⟨narrowed_fits, by decide, ?_⟩
  have hrecord : recordAt narrowedTable 0 = [.int32 5] := by decide
  have hsmall : Op.EQ.decides (roundInt 5) (roundInt 4294967301) = Op.EQ.decides 5 4294967301 :=
    Op.decides_roundInt .EQ (by decide) 4294967301
  have heval : (comparison narrowed).evalRecord (fun _ => none) [.int32 5] =
      Op.EQ.decides (roundInt 5) (roundInt 4294967301) :=
    (Comparison.selects_evalData_int (fun _ => none) (c := narrowed) rfl (.inl rfl)).1 5 |>.2
  rw [hrecord, heval, hsmall]
  decide

end Statement

end JoinOptimizer
