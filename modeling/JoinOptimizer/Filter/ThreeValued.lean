import JoinOptimizer.Filter.Agree
import JoinOptimizer.Filter.Like
import JoinOptimizer.Lib.Kleene

/-! Evaluation of filters on columns against SQL's three-valued logic, in which a comparison with NULL is
neither true nor false. -/

namespace JoinOptimizer

open Lib

/-- The answer of a comparison of strings, in the order of their bytes. -/
def Op.decidesText (op : Op) (a b : Bytes) : Bool :=
  match op with
  | .EQ => a = b
  | .NEQ => a ≠ b
  | .LT => a < b
  | .GT => b < a
  | .LEQ => a ≤ b
  | .GEQ => b ≤ a
  | _ => false

namespace Comparison

theorem compareStr_eq (op : Op) (a b : Bytes) : compareStr op a b = op.decidesText a b := by
  cases op <;> simp [compareStr, Op.decidesText, beq_eq_decide, bne]

/-- A comparison with a cell of type INT32, INT64 or VARCHAR that is not NULL. -/
def holds (c : Comparison) (cell : Data) : Bool :=
  match cell, c.value with
  | .int32 v, .int64 value => c.op.decides v.toInt value.toInt
  | .int64 v, .int64 value => c.op.decides v.toInt value.toInt
  | .string v, .string text =>
    match c.op with
    | .LIKE => LikeText text v
    | .NOT_LIKE => ¬ LikeText text v
    | op => op.decidesText v text
  | _, _ => false

/-- The truth value of a comparison in SQL. -/
def truth (c : Comparison) (cell : Data) : Truth :=
  match c.op with
  | .IS_NULL => .ofBool (cell = .monostate)
  | .IS_NOT_NULL => .ofBool (cell ≠ .monostate)
  | _ => if cell = .monostate then .unknown else .ofBool (c.holds cell)

/-- `like_match` does not answer as `LIKE`: for ASCII strings, which the documentation of RE2 speaks of,
because a wildcard has to take a line feed. -/
def LikeMissed (re2 : RE2) (str pattern : Bytes) : Prop :=
  if (str ++ pattern).all (· < 128) then
    LikeText pattern str ∧ str.count RegexItem.lineFeed ≠ pattern.count RegexItem.lineFeed
  else likeMatch re2 str pattern ≠ decide (LikeText pattern str)

instance (re2 : RE2) (str pattern : Bytes) : Decidable (LikeMissed re2 str pattern) :=
  instDecidableIte

theorem likeMatch_eq {re2 : RE2} (hre2 : RE2.Documented re2) (str pattern : Bytes) :
    likeMatch re2 str pattern =
      (decide (LikeText pattern str) ^^ decide (LikeMissed re2 str pattern)) := by
  unfold LikeMissed
  split
  · next hascii =>
    simp only [List.all_append, Bool.and_eq_true, List.all_eq_true, decide_eq_true_eq] at hascii
    obtain ⟨hstr, hpattern⟩ := hascii
    rw [Bool.eq_iff_iff, likeMatch_documented hre2 hstr hpattern, ← likeText_iff hstr]
    by_cases hlike : LikeText pattern str <;> simp [hlike]
  · exact eq_xor_ne _ _

/-- The comparison is one by `LIKE` that `like_match` does not answer as SQL does. -/
def MissesLike (re2 : RE2) (c : Comparison) (cell : Data) : Prop :=
  (c.op = .LIKE ∨ c.op = .NOT_LIKE) ∧
    match cell, c.value with
    | .string v, .string text => LikeMissed re2 v text
    | _, _ => False

instance (re2 : RE2) (c : Comparison) (cell : Data) : Decidable (c.MissesLike re2 cell) :=
  match cell, c with
  | .string v, ⟨_, op, .string text⟩ =>
    inferInstanceAs (Decidable ((op = .LIKE ∨ op = .NOT_LIKE) ∧ LikeMissed re2 v text))
  | .string _, ⟨_, op, .int64 _⟩ | .string _, ⟨_, op, .fp64 _⟩ | .string _, ⟨_, op, .monostate⟩
  | .int32 _, ⟨_, op, _⟩ | .int64 _, ⟨_, op, _⟩ | .fp64 _, ⟨_, op, _⟩ | .monostate, ⟨_, op, _⟩ =>
    inferInstanceAs (Decidable ((op = .LIKE ∨ op = .NOT_LIKE) ∧ False))

/-- The column is of type INT32 or VARCHAR, and the literal is one of its values. -/
def Matches (c : Comparison) : InnerColumnBase → Prop
  | .int32 _ => c.op = .IS_NULL ∨ c.op = .IS_NOT_NULL ∨
      c.op ≠ .LIKE ∧ c.op ≠ .NOT_LIKE ∧
        ∃ value, c.value = .int64 value ∧ -2 ^ 31 ≤ value.toInt ∧ value.toInt < 2 ^ 31
  | .varchar _ => c.op = .IS_NULL ∨ c.op = .IS_NOT_NULL ∨ ∃ value, c.value = .string value
  | _ => False

theorem Matches.fits {c : Comparison} {base : InnerColumnBase} (h : c.Matches base) : c.Fits base := by
  cases base with
  | int32 column =>
    refine h.imp_right (Or.imp_right ?_)
    rintro ⟨hlike, hnotLike, value, hvalue, -⟩
    exact ⟨hlike, hnotLike, value, hvalue⟩
  | varchar column => exact h
  | int64 column => exact h.elim
  | fp64 column => exact h.elim

theorem truth_of_ne {c : Comparison} (hnull : c.op ≠ .IS_NULL) (hnot : c.op ≠ .IS_NOT_NULL)
    (cell : Data) : c.truth cell = if cell = .monostate then .unknown else .ofBool (c.holds cell) := by
  unfold truth
  split
  · next hop => exact absurd hop hnull
  · next hop => exact absurd hop hnot
  · rfl

/-- The evaluation on columns takes a comparison with NULL as false, and is wrong where `like_match` is. -/
theorem Matches.selects_eq {re2 : RE2} (hre2 : RE2.Documented re2) {c : Comparison}
    {base : InnerColumnBase} (h : c.Matches base) (i : Nat) :
    c.selects re2 (base.cell i) =
      ((c.truth (base.cell i)).complete false ^^ decide (c.MissesLike re2 (base.cell i))) := by
  by_cases hnull : c.op = .IS_NULL
  · simp [selects, truth, MissesLike, hnull, beq_eq_decide]
  by_cases hnot : c.op = .IS_NOT_NULL
  · simp [selects, truth, MissesLike, hnot, beq_eq_decide]
  have hmonostate : c.selects re2 .monostate =
      ((c.truth .monostate).complete false ^^ decide (c.MissesLike re2 .monostate)) := by
    rw [selects_monostate re2 hnull hnot, truth_of_ne hnull hnot, decide_eq_false fun h => h.2.elim]
    rfl
  cases base with
  | int32 column =>
    obtain ⟨hlike, hnotLike, value, hvalue, hlow, hhigh⟩ := (h.resolve_left hnull).resolve_left hnot
    rw [InnerColumnBase.cell]
    cases column.row? i with
    | none => exact hmonostate
    | some v =>
      -- a literal of 32 bits is not cut
      have hvalue32 : value.toInt32.toInt = value.toInt := by
        rw [Int64.toInt_toInt32]
        exact Int.bmod_eq_of_le (by omega) (by omega)
      rw [Option.elim_some, truth_of_ne hnull hnot, if_neg (by simp), Truth.complete_ofBool,
        decide_eq_false fun h => h.2.elim, Bool.xor_false]
      have hselects := (selects_evalData_int re2 hvalue (six_of_ne hnull hnot hlike hnotLike)).1 v
      rw [hselects.1, hvalue32]
      simp only [holds, hvalue]
  | varchar column =>
    obtain ⟨value, hvalue⟩ := (h.resolve_left hnull).resolve_left hnot
    rw [InnerColumnBase.cell]
    cases column.row? i with
    | none => exact hmonostate
    | some v =>
      rw [Option.elim_some, truth_of_ne hnull hnot, if_neg (by simp), Truth.complete_ofBool]
      cases hop : c.op with
      | LIKE => simp [selects, holds, MissesLike, hop, hvalue, likeMatch_eq hre2]
      | NOT_LIKE => simp [selects, holds, MissesLike, hop, hvalue, likeMatch_eq hre2]
      | EQ | NEQ | LT | GT | LEQ | GEQ => simp [selects, holds, MissesLike, hop, hvalue, compareStr_eq]
      | IS_NULL => exact absurd hop hnull
      | IS_NOT_NULL => exact absurd hop hnot
  | int64 column => exact h.elim
  | fp64 column => exact h.elim

end Comparison

namespace Statement

/-- The truth value of a filter in SQL. -/
def truth (record : List Data) : Statement → Truth
  | comparison c => c.truth (record.getD c.column .monostate)
  | makeAnd l r => (l.truth record).and (r.truth record)
  | makeOr l r => (l.truth record).or (r.truth record)
  | makeNot child => (child.truth record).not

/-- Every comparison is with a column of type INT32 or VARCHAR and one of its values. -/
def Matches (table : List InnerColumnBase) : Statement → Prop
  | comparison c => ∃ base, table[c.column]? = some base ∧ c.Matches base
  | makeAnd l r => l.Matches table ∧ r.Matches table
  | makeOr l r => l.Matches table ∧ r.Matches table
  | makeNot child => child.Matches table

/-- The two-valued answer of a filter that stands under an odd number of `NOT`s or not.  As in SQL, a
comparison with NULL is true under an odd number of them and else false; otherwise it is always false, and a
comparison that `like_match` does not answer as SQL does is inverted. -/
def answer (re2 : RE2) (record : List Data) (sql : Bool) : Bool → Statement → Bool
  | odd, comparison c =>
    let cell := record.getD c.column .monostate
    (c.truth cell).complete (odd && sql) ^^ (!sql && decide (c.MissesLike re2 cell))
  | odd, makeAnd l r => answer re2 record sql odd l && answer re2 record sql odd r
  | odd, makeOr l r => answer re2 record sql odd l || answer re2 record sql odd r
  | odd, makeNot child => !answer re2 record sql (!odd) child

/-- On the record neither the comparisons with NULL under an odd number of `NOT`s nor those that
`like_match` does not answer as SQL does decide on the filter. -/
def DecidesAsSql (re2 : RE2) (record : List Data) (s : Statement) : Prop :=
  s.answer re2 record true false = s.answer re2 record false false

instance (re2 : RE2) (record : List Data) (s : Statement) : Decidable (s.DecidesAsSql re2 record) :=
  inferInstanceAs (Decidable (_ = _))

variable {table : List InnerColumnBase} {s : Statement}

theorem Matches.fits (h : s.Matches table) : s.Fits table := by
  induction s with
  | comparison c =>
    obtain ⟨base, hbase, hc⟩ := h
    exact ⟨base, hbase, hc.fits⟩
  | makeAnd l r ihl ihr | makeOr l r ihl ihr => exact ⟨ihl h.1, ihr h.2⟩
  | makeNot child ih => exact ih h

/-- The evaluation on columns takes every comparison with NULL as false, and `LIKE` as `like_match` does. -/
theorem Matches.selects_eq {re2 : RE2} (hre2 : RE2.Documented re2) (h : s.Matches table) (i : Nat)
    (odd : Bool) : s.selects re2 (recordAt table i) = s.answer re2 (recordAt table i) false odd := by
  induction s generalizing odd with
  | comparison c =>
    obtain ⟨base, hbase, hc⟩ := h
    simp only [selects, answer, recordAt_getD hbase, Bool.and_false, Bool.not_false, Bool.true_and]
    exact hc.selects_eq hre2 i
  | makeAnd l r ihl ihr | makeOr l r ihl ihr => rw [selects, answer, ihl h.1 odd, ihr h.2 odd]
  | makeNot child ih => rw [selects, answer, ih h (!odd)]

/-- SQL takes a comparison with NULL as what makes the filter less true: as true under an odd number of
`NOT`s. -/
theorem truth_iff_answer (re2 : RE2) (record : List Data) (s : Statement) :
    (s.truth record = .true ↔ s.answer re2 record true false = true) ∧
      (s.truth record = .false ↔ s.answer re2 record true true = false) := by
  induction s with
  | comparison c =>
    simp only [truth, answer, Bool.not_true, Bool.false_and, Bool.xor_false]
    exact ⟨Truth.complete_false.symm, Truth.complete_true.symm⟩
  | makeAnd l r ihl ihr =>
    simp only [truth, answer, Truth.and_eq_true, Truth.and_eq_false, Bool.and_eq_true,
      Bool.and_eq_false_iff, ihl.1, ihl.2, ihr.1, ihr.2, and_self]
  | makeOr l r ihl ihr =>
    simp only [truth, answer, Truth.or_eq_true, Truth.or_eq_false, Bool.or_eq_true,
      Bool.or_eq_false_iff, ihl.1, ihl.2, ihr.1, ihr.2, and_self]
  | makeNot child ih =>
    simp only [truth, answer, Truth.not_eq_true, Truth.not_eq_false, Bool.not_eq_true', Bool.not_false,
      Bool.not_true, Bool.not_eq_false', ih.1, ih.2, and_self]

/-- The evaluation on columns selects a row that SQL selects, and no other, exactly if neither comparisons
with NULL nor `like_match` decide otherwise. -/
theorem Matches.selects_iff_truth {re2 : RE2} (hre2 : RE2.Documented re2) (h : s.Matches table)
    (i : Nat) : (s.selects re2 (recordAt table i) = true ↔ s.truth (recordAt table i) = .true) ↔
      s.DecidesAsSql re2 (recordAt table i) := by
  rw [h.selects_eq hre2 i false, (truth_iff_answer re2 _ s).1, ← Bool.eq_iff_iff]
  exact eq_comm

/-- On a row the evaluation on columns answers as SQL does exactly if neither a comparison with NULL under an
odd number of `NOT`s nor one that `like_match` does not answer as SQL does decides on the filter. -/
theorem evalTable_isTrue_iff {re2 : RE2} (hre2 : RE2.Documented re2) {n : Nat}
    (h : ∀ base ∈ table, base.Sized n) (hs : s.Matches table) :
    ∃ bits, s.evalTable re2 table = .ok bits ∧ bits.length = (n + 7) / 8 ∧ ∀ i < n,
      ((flag bits i = true ↔ s.truth (recordAt table i) = .true) ↔
        s.DecidesAsSql re2 (recordAt table i)) := by
  obtain ⟨bits, hok, hlen, hbits⟩ := evalTable_selects re2 h hs.fits
  refine ⟨bits, hok, hlen, fun i hi => ?_⟩
  rw [hbits i hi]
  exact hs.selects_iff_truth hre2 i

/-- A column of numbers and one of strings, with NULLs and a line feed. -/
def nullTable : List InnerColumnBase :=
  [.int32 (.ofCells [some 5, none, some 7]), .varchar (.ofCells [some [10], some [97, 98], none])]

def notFive : Statement := makeNot (comparison ⟨0, .EQ, .int64 5⟩)

/-- `x IS NULL OR NOT x = 5 AND y LIKE '%'`. -/
def nullOrNotFive : Statement :=
  makeOr (comparison ⟨0, .IS_NULL, .monostate⟩) (makeAnd notFive (comparison ⟨1, .LIKE, .string [37]⟩))

theorem nullTable_sized : ∀ base ∈ nullTable, base.Sized 3 := by
  intro base hbase
  simp only [nullTable, List.mem_cons, List.not_mem_nil, or_false] at hbase
  rcases hbase with rfl | rfl
  · exact (InnerColumn.ofCells_spec [some 5, none, some 7]).1
  · exact (InnerStrings.ofCells_spec [some [10], some [97, 98], none]).1

theorem notFive_matches : notFive.Matches nullTable :=
  ⟨_, rfl, .inr (.inr ⟨by decide, by decide, 5, rfl, by decide, by decide⟩)⟩

theorem nullOrNotFive_matches : nullOrNotFive.Matches nullTable :=
  ⟨⟨_, rfl, .inl rfl⟩, notFive_matches, _, rfl, .inr (.inr ⟨_, rfl⟩)⟩

/-- The line feed of row 0, which is like `%`, and the NULL of row 1 do not decide. -/
theorem evalTable_isTrue_iff_nullOrNotFive : ∃ bits,
    nullOrNotFive.evalTable Comparison.itemsRE2 nullTable = .ok bits ∧
      Comparison.LikeMissed Comparison.itemsRE2 [10] [37] ∧
      ∀ i < 3, (flag bits i = true ↔ nullOrNotFive.truth (recordAt nullTable i) = .true) := by
  obtain ⟨bits, hok, -, hbits⟩ :=
    evalTable_isTrue_iff Comparison.documented_itemsRE2 nullTable_sized nullOrNotFive_matches
  have hdecide : ∀ i < 3,
      nullOrNotFive.DecidesAsSql Comparison.itemsRE2 (recordAt nullTable i) := by decide +kernel
  exact ⟨bits, hok, by decide +kernel, fun i hi => (hbits i hi).mpr (hdecide i hi)⟩

/-- The row with NULL is selected although it is unknown whether its value is another one. -/
theorem evalTable_selects_unknown : notFive.Matches nullTable ∧
    ∃ bits, notFive.evalTable Comparison.itemsRE2 nullTable = .ok bits ∧ flag bits 1 = true ∧
      notFive.truth (recordAt nullTable 1) = .unknown :=
  ⟨notFive_matches, _, rfl, by decide, by decide⟩

end Statement

end JoinOptimizer
