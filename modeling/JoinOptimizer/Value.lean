import JoinOptimizer.Data
import JoinOptimizer.Lib.BitFields

/-! `value_t` of `include/late.h`: a word that is NULL, an integer, or the place of a value in a base
table. -/

namespace JoinOptimizer

open Lib

/-- `struct value_t`. -/
structure ValueT where
  raw : BitVec 64
  deriving DecidableEq, Repr

namespace ValueT

def valueTBits : Nat := 62

def modeBits : BitVec 64 := 3#64 <<< valueTBits
def varcharMode : BitVec 64 := 0#64 <<< valueTBits
def int32Mode : BitVec 64 := 1#64 <<< valueTBits
def int32NoNullMode : BitVec 64 := 2#64 <<< valueTBits
def nullMode : BitVec 64 := 3#64 <<< valueTBits

def tableBits : Nat := 5
def columnBits : Nat := 15
def pageBits : Nat := 26
def posBits : Nat := 16

def posShift : Nat := 0
def pageShift : Nat := posShift + posBits
def columnShift : Nat := pageShift + pageBits
def tableShift : Nat := columnShift + columnBits

def posPosition : BitVec 64 := fieldMask 64 posShift posBits
def pagePosition : BitVec 64 := fieldMask 64 pageShift pageBits
def columnPosition : BitVec 64 := fieldMask 64 columnShift columnBits
def tablePosition : BitVec 64 := fieldMask 64 tableShift tableBits

def makeNull : ValueT := ⟨nullMode⟩

def isNull (v : ValueT) : Bool := v.raw &&& modeBits == nullMode

/-- `put_int32`: the conversion of a negative `v` to 64 bits sets the mode bits too. -/
def putInt32 (v : Int32) : ValueT := ⟨int32Mode ||| v.toBitVec.signExtend 64⟩

def isInt32 (v : ValueT) : Bool := v.raw &&& modeBits == int32Mode

def getInt32 (v : ValueT) : Int32 := ⟨⟨v.raw.setWidth 32⟩⟩

/-- The place `(table, column, page, pos)` under a mode. -/
def putPlace (mode : BitVec 64) (table column page pos : Int32) : Result ValueT :=
  if 32 ≤ table ∨ 32768 ≤ column ∨ 67108864 ≤ page ∨ 65536 ≤ pos then
    .error (.runtimeError "Table,column,page,pos overflow")
  else
    let p := table.toBitVec.signExtend 64 <<< tableShift |||
      column.toBitVec.signExtend 64 <<< columnShift |||
      page.toBitVec.signExtend 64 <<< pageShift |||
      pos.toBitVec.signExtend 64 <<< posShift
    .ok ⟨mode ||| p⟩

def putInt32NoNull (table column page pos : Int32) : Result ValueT :=
  putPlace int32NoNullMode table column page pos

def isInt32NoNull (v : ValueT) : Bool := v.raw &&& modeBits == int32NoNullMode

def putVarchar (table column page pos : Int32) : Result ValueT :=
  putPlace varcharMode table column page pos

def isVarchar (v : ValueT) : Bool := v.raw &&& modeBits == varcharMode

/-- A field of the place in a value; none has more than 26 bits, so that an `int32_t` holds it. -/
def getField (v : ValueT) (position : BitVec 64) (shift : Nat) : Nat :=
  (((v.raw &&& ~~~modeBits) &&& position) >>> shift).toNat

def getTable (v : ValueT) : Nat := v.getField tablePosition tableShift
def getColumn (v : ValueT) : Nat := v.getField columnPosition columnShift
def getPage (v : ValueT) : Nat := v.getField pagePosition pageShift
def getPos (v : ValueT) : Nat := v.getField posPosition posShift

/-- The mode of a value as a number. -/
def mode (v : ValueT) : Nat := v.raw.toNat / 2 ^ 62

theorem mode_lt (v : ValueT) : v.mode < 4 := by
  have := v.raw.isLt
  unfold mode
  omega

theorem and_modeBits_beq (v : ValueT) {k : Nat} (hk : k < 4) :
    (v.raw &&& modeBits == BitVec.ofNat 64 (k * 2 ^ 62)) = decide (v.mode = k) := by
  have hmask : modeBits = fieldMask 64 62 2 := by decide
  have hand := toNat_and_fieldMask v.raw (s := 62) (k := 2) (by decide) (by decide)
  have hlt := v.mode_lt
  unfold mode at hlt ⊢
  rw [hmask, Bool.beq_eq_decide_eq, decide_eq_decide, ← BitVec.toNat_inj, hand, BitVec.toNat_ofNat]
  omega

theorem isVarchar_eq (v : ValueT) : v.isVarchar = decide (v.mode = 0) :=
  v.and_modeBits_beq (k := 0) (by decide)

theorem isInt32_eq (v : ValueT) : v.isInt32 = decide (v.mode = 1) :=
  v.and_modeBits_beq (k := 1) (by decide)

theorem isInt32NoNull_eq (v : ValueT) : v.isInt32NoNull = decide (v.mode = 2) :=
  v.and_modeBits_beq (k := 2) (by decide)

theorem isNull_eq (v : ValueT) : v.isNull = decide (v.mode = 3) :=
  v.and_modeBits_beq (k := 3) (by decide)

theorem getField_eq (v : ValueT) {s k : Nat} (hsk : s + k ≤ 62)
    (hmask : ~~~modeBits &&& fieldMask 64 s k = fieldMask 64 s k) :
    v.getField (fieldMask 64 s k) s = v.raw.toNat / 2 ^ s % 2 ^ k := by
  rw [getField, BitVec.and_assoc, hmask, toNat_field _ (by omega) (by omega)]

theorem getTable_eq (v : ValueT) : v.getTable = v.raw.toNat / 2 ^ 57 % 2 ^ 5 :=
  v.getField_eq (s := 57) (k := 5) (by decide) (by decide)

theorem getColumn_eq (v : ValueT) : v.getColumn = v.raw.toNat / 2 ^ 42 % 2 ^ 15 :=
  v.getField_eq (s := 42) (k := 15) (by decide) (by decide)

theorem getPage_eq (v : ValueT) : v.getPage = v.raw.toNat / 2 ^ 16 % 2 ^ 26 :=
  v.getField_eq (s := 16) (k := 26) (by decide) (by decide)

theorem getPos_eq (v : ValueT) : v.getPos = v.raw.toNat / 2 ^ 0 % 2 ^ 16 :=
  v.getField_eq (s := 0) (k := 16) (by decide) (by decide)

/-- An `int32_t` that is not negative, in 64 bits. -/
theorem toNat_signExtend {n : Nat} (h : n < 2 ^ 31) :
    ((Int32.ofNat n).toBitVec.signExtend 64).toNat = n := by
  have hn : (Int32.ofNat n).toBitVec.toNat = n := by
    simp only [Int32.toBitVec_ofNat', BitVec.toNat_ofNat]
    omega
  have hmsb : (Int32.ofNat n).toBitVec.msb = false := by
    rw [BitVec.msb_eq_false_iff_two_mul_lt, hn]
    omega
  rw [BitVec.signExtend_eq_setWidth_of_msb_false hmsb, BitVec.toNat_setWidth, hn]
  omega

theorem toNat_signExtend_shift {n s : Nat} (h : n < 2 ^ 31) (hfit : n * 2 ^ s < 2 ^ 64) :
    ((Int32.ofNat n).toBitVec.signExtend 64 <<< s).toNat = n * 2 ^ s := by
  rw [BitVec.toNat_shiftLeft, toNat_signExtend h, Nat.shiftLeft_eq, Nat.mod_eq_of_lt hfit]

theorem ofNat_le_ofNat {m n : Nat} (hm : m < 2 ^ 31) (hn : n < 2 ^ 31) :
    Int32.ofNat m ≤ Int32.ofNat n ↔ m ≤ n := by
  rw [Int32.le_iff_toInt_le, Int32.toInt_ofNat_of_lt hm, Int32.toInt_ofNat_of_lt hn]
  exact Int.ofNat_le

/-- The limits of a place. -/
def PlaceFits (table column page pos : Nat) : Prop :=
  table < 32 ∧ column < 2 ^ 15 ∧ page < 2 ^ 26 ∧ pos < 2 ^ 16

section Place

variable {k t c p q : Nat}

theorem toNat_place (hk : k < 4) (h : PlaceFits t c p q) :
    (BitVec.ofNat 64 (k * 2 ^ 62) ||| ((Int32.ofNat t).toBitVec.signExtend 64 <<< tableShift |||
      (Int32.ofNat c).toBitVec.signExtend 64 <<< columnShift |||
      (Int32.ofNat p).toBitVec.signExtend 64 <<< pageShift |||
      (Int32.ofNat q).toBitVec.signExtend 64 <<< posShift)).toNat =
      k * 2 ^ 62 + (t * 2 ^ 57 + c * 2 ^ 42 + p * 2 ^ 16 + q) := by
  obtain ⟨ht, hc, hp, hq⟩ := h
  have h1 := toNat_signExtend_shift (n := t) (s := tableShift) (by omega)
    (by simp only [tableShift, columnShift, pageShift, posShift, columnBits, pageBits, posBits]; omega)
  have h2 := toNat_signExtend_shift (n := c) (s := columnShift) (by omega)
    (by simp only [columnShift, pageShift, posShift, pageBits, posBits]; omega)
  have h3 := toNat_signExtend_shift (n := p) (s := pageShift) (by omega)
    (by simp only [pageShift, posShift, posBits]; omega)
  have h4 := toNat_signExtend_shift (n := q) (s := posShift) (by omega)
    (by simp only [posShift]; omega)
  simp only [tableShift, columnShift, pageShift, posShift, columnBits, pageBits, posBits,
    Nat.zero_add, Nat.reduceAdd] at h1 h2 h3 h4 ⊢
  have hmode : (BitVec.ofNat 64 (k * 2 ^ 62)).toNat = k * 2 ^ 62 := by
    rw [BitVec.toNat_ofNat]
    omega
  have h12 := toNat_or_of_lt (x := (Int32.ofNat t).toBitVec.signExtend 64 <<< 57)
    (y := (Int32.ofNat c).toBitVec.signExtend 64 <<< 42) (i := 57)
    (by rw [h1]; exact Nat.dvd_mul_left _ _) (by rw [h2]; omega)
  have h123 := toNat_or_of_lt (x := (Int32.ofNat t).toBitVec.signExtend 64 <<< 57 |||
      (Int32.ofNat c).toBitVec.signExtend 64 <<< 42)
    (y := (Int32.ofNat p).toBitVec.signExtend 64 <<< 16) (i := 42)
    (by rw [h12, h1, h2]; omega) (by rw [h3]; omega)
  have h1234 := toNat_or_of_lt (x := (Int32.ofNat t).toBitVec.signExtend 64 <<< 57 |||
      (Int32.ofNat c).toBitVec.signExtend 64 <<< 42 |||
      (Int32.ofNat p).toBitVec.signExtend 64 <<< 16)
    (y := (Int32.ofNat q).toBitVec.signExtend 64 <<< 0) (i := 16)
    (by rw [h123, h12, h1, h2, h3]; omega) (by rw [h4]; omega)
  rw [toNat_or_of_lt (i := 62) (by rw [hmode]; exact Nat.dvd_mul_left _ _)
    (by rw [h1234, h123, h12, h1, h2, h3, h4]; omega), hmode, h1234, h123, h12, h1, h2, h3, h4]
  omega

/-- A place inside the limits is stored under its mode and read back. -/
theorem putPlace_ok (hk : k < 4) (h : PlaceFits t c p q) :
    ∃ v, putPlace (BitVec.ofNat 64 (k * 2 ^ 62)) (Int32.ofNat t) (Int32.ofNat c) (Int32.ofNat p)
        (Int32.ofNat q) = .ok v ∧
      v.mode = k ∧ v.getTable = t ∧ v.getColumn = c ∧ v.getPage = p ∧ v.getPos = q := by
  have hraw := toNat_place hk h
  obtain ⟨ht, hc, hp, hq⟩ := h
  have hok : ¬ ((32 : Int32) ≤ Int32.ofNat t ∨ (32768 : Int32) ≤ Int32.ofNat c ∨
      (67108864 : Int32) ≤ Int32.ofNat p ∨ (65536 : Int32) ≤ Int32.ofNat q) := by
    rintro (h | h | h | h)
    · have := (ofNat_le_ofNat (m := 32) (by decide) (by omega)).mp h
      omega
    · have := (ofNat_le_ofNat (m := 32768) (by decide) (by omega)).mp h
      omega
    · have := (ofNat_le_ofNat (m := 67108864) (by decide) (by omega)).mp h
      omega
    · have := (ofNat_le_ofNat (m := 65536) (by decide) (by omega)).mp h
      omega
  refine ⟨_, by rw [putPlace, if_neg hok], ?_, ?_, ?_, ?_, ?_⟩
  · rw [mode, hraw]
    omega
  · rw [getTable_eq, hraw]
    omega
  · rw [getColumn_eq, hraw]
    omega
  · rw [getPage_eq, hraw]
    omega
  · rw [getPos_eq, hraw]
    omega

/-- A place outside the limits is refused, as long as its indices are `int32_t`s. -/
theorem fits_of_putPlace_ok {mode : BitVec 64} (ht : t < 2 ^ 31) (hc : c < 2 ^ 31) (hp : p < 2 ^ 31)
    (hq : q < 2 ^ 31) {v : ValueT} (h : putPlace mode (Int32.ofNat t) (Int32.ofNat c)
      (Int32.ofNat p) (Int32.ofNat q) = .ok v) : PlaceFits t c p q := by
  rw [putPlace] at h
  split at h
  · cases h
  · next hok =>
    refine ⟨?_, ?_, ?_, ?_⟩
    · by_contra hn
      exact hok (.inl ((ofNat_le_ofNat (m := 32) (by decide) ht).mpr (by omega)))
    · by_contra hn
      exact hok (.inr (.inl ((ofNat_le_ofNat (m := 32768) (by decide) hc).mpr (by omega))))
    · by_contra hn
      exact hok (.inr (.inr (.inl ((ofNat_le_ofNat (m := 67108864) (by decide) hp).mpr (by omega)))))
    · by_contra hn
      exact hok (.inr (.inr (.inr ((ofNat_le_ofNat (m := 65536) (by decide) hq).mpr (by omega)))))

theorem putPlace_spec (hk : k < 4) (ht : t < 2 ^ 31) (hc : c < 2 ^ 31) (hp : p < 2 ^ 31)
    (hq : q < 2 ^ 31) {v : ValueT} (h : putPlace (BitVec.ofNat 64 (k * 2 ^ 62)) (Int32.ofNat t)
      (Int32.ofNat c) (Int32.ofNat p) (Int32.ofNat q) = .ok v) :
    v.mode = k ∧ v.getTable = t ∧ v.getColumn = c ∧ v.getPage = p ∧ v.getPos = q := by
  obtain ⟨w, hw, hspec⟩ := putPlace_ok hk (fits_of_putPlace_ok ht hc hp hq h)
  rw [h] at hw
  cases hw
  exact hspec

/-- The limit check on a place, in the `int32_t`s that its numbers are converted to. -/
def PlaceAccepted (table column page pos : Nat) : Prop :=
  ¬ (32 ≤ Int32.ofNat table ∨ 32768 ≤ Int32.ofNat column ∨ 67108864 ≤ Int32.ofNat page ∨
    65536 ≤ Int32.ofNat pos)

theorem putPlace_of_refused {mode : BitVec 64} (h : ¬ PlaceAccepted t c p q) :
    putPlace mode (Int32.ofNat t) (Int32.ofNat c) (Int32.ofNat p) (Int32.ofNat q) =
      .error (.runtimeError "Table,column,page,pos overflow") := by
  rw [putPlace, if_pos (not_not.mp h)]

/-- Whatever the other numbers of an accepted place are, its position is kept in 16 bits. -/
theorem putPlace_of_accepted (k : Nat) (h : PlaceAccepted t c p q) :
    ∃ v, putPlace (BitVec.ofNat 64 (k * 2 ^ 62)) (Int32.ofNat t) (Int32.ofNat c) (Int32.ofNat p)
        (Int32.ofNat q) = .ok v ∧ v.getPos = q % 2 ^ 16 := by
  refine ⟨_, by rw [putPlace, if_neg h], ?_⟩
  have hlow : ∀ i < 16, (BitVec.ofNat 64 (k * 2 ^ 62)).getLsbD i = false := by
    intro i hi
    rw [BitVec.getLsbD_ofNat, Nat.testBit_mul_two_pow]
    simp
    omega
  rw [getPos_eq, Nat.pow_zero, Nat.div_one]
  refine Nat.eq_of_testBit_eq fun i => ?_
  rw [Nat.testBit_mod_two_pow, Nat.testBit_mod_two_pow]
  by_cases hi : i < 16
  · rw [BitVec.testBit_toNat, BitVec.getLsbD_or, hlow i hi]
    simp only [tableShift, columnShift, pageShift, posShift, columnBits, pageBits, posBits,
      BitVec.getLsbD_or, BitVec.getLsbD_shiftLeft, BitVec.getLsbD_signExtend,
      Int32.toBitVec_ofNat', BitVec.getLsbD_ofNat]
    simp [hi, show i < 57 by omega, show i < 42 by omega, show i < 32 by omega, show i < 64 by omega]
  · simp [hi]

end Place

theorem mode_putInt32 (v : Int32) :
    (putInt32 v).mode = 1 ||| (v.toBitVec.signExtend 64).toNat / 2 ^ 62 := by
  have hmode : int32Mode.toNat / 2 ^ 62 = 1 := by decide
  rw [mode, putInt32, BitVec.toNat_or, ← Nat.shiftRight_eq_div_pow, Nat.shiftRight_or_distrib,
    Nat.shiftRight_eq_div_pow, Nat.shiftRight_eq_div_pow, hmode]

theorem getInt32_putInt32 (v : Int32) : (putInt32 v).getInt32 = v := by
  have hlow : (int32Mode ||| v.toBitVec.signExtend 64).setWidth 32 = v.toBitVec := by
    refine BitVec.eq_of_getLsbD_eq fun i hi => ?_
    have hzero : int32Mode.getLsbD i = false := by
      rw [int32Mode, valueTBits, BitVec.getLsbD_shiftLeft]
      simp
      omega
    rw [BitVec.getLsbD_setWidth, BitVec.getLsbD_or, hzero, BitVec.getLsbD_signExtend]
    simp [hi]
    omega
  rw [getInt32, putInt32, hlow]
  rfl

theorem msb_eq (v : Int32) : v.toBitVec.msb = decide (v < 0) := by
  rw [BitVec.msb_eq_toInt, decide_eq_decide, Int32.lt_iff_toInt_lt]
  rfl

/-- An integer that is not negative keeps its mode. -/
theorem mode_putInt32_of_nonneg {v : Int32} (h : ¬ v < 0) : (putInt32 v).mode = 1 := by
  have hmsb : v.toBitVec.msb = false := by simpa [msb_eq] using h
  have hlt := v.toBitVec.isLt
  have hzero : (v.toBitVec.signExtend 64).toNat / 2 ^ 62 = 0 := by
    rw [BitVec.signExtend_eq_setWidth_of_msb_false hmsb, BitVec.toNat_setWidth]
    omega
  rw [mode_putInt32, hzero]
  rfl

/-- A negative integer turns into NULL. -/
theorem mode_putInt32_of_neg {v : Int32} (h : v < 0) : (putInt32 v).mode = 3 := by
  have hmsb : v.toBitVec.msb = true := by simpa [msb_eq] using h
  have hlt := v.toBitVec.isLt
  have hthree : (v.toBitVec.signExtend 64).toNat / 2 ^ 62 = 3 := by
    rw [BitVec.toNat_signExtend, hmsb, BitVec.toNat_setWidth]
    simp only [if_true]
    omega
  rw [mode_putInt32, hthree]
  rfl

/-- The arguments `table`, `column`, `page` and `pos` of a reference. -/
structure Place where
  table : Int32
  column : Int32
  page : Int32
  pos : Int32
  deriving DecidableEq

structure Place.InRange (p : Place) : Prop where
  table : 0 ≤ p.table ∧ p.table < 32
  column : 0 ≤ p.column ∧ p.column < 32768
  page : 0 ≤ p.page ∧ p.page < 67108864
  pos : 0 ≤ p.pos ∧ p.pos < 65536

/-- `get_int32_no_null`. -/
def getInt32NoNull (v : ValueT) : Place :=
  ⟨.ofNat v.getTable, .ofNat v.getColumn, .ofNat v.getPage, .ofNat v.getPos⟩

/-- `get_varchar`. -/
def getVarchar (v : ValueT) : Place :=
  ⟨.ofNat v.getTable, .ofNat v.getColumn, .ofNat v.getPage, .ofNat v.getPos⟩

/-- The kinds that the tests of a value tell apart. -/
inductive Kind
  | varchar
  | int32
  | int32NoNull
  | null
  deriving DecidableEq

/-- The test for a kind. -/
def is (v : ValueT) : Kind → Bool
  | .varchar => v.isVarchar
  | .int32 => v.isInt32
  | .int32NoNull => v.isInt32NoNull
  | .null => v.isNull

/-- A constructor of `value_t` with its arguments. -/
inductive Encoded
  | null
  | int32 (v : Int32)
  | int32NoNull (p : Place)
  | varchar (p : Place)
  deriving DecidableEq

namespace Encoded

def kind : Encoded → Kind
  | null => .null
  | int32 _ => .int32
  | int32NoNull _ => .int32NoNull
  | varchar _ => .varchar

def InRange : Encoded → Prop
  | null | int32 _ => True
  | int32NoNull p | varchar p => p.InRange

/-- A negative integer, which `put_int32` does not keep apart from NULL. -/
def Negative : Encoded → Prop
  | int32 v => v < 0
  | _ => False

/-- The call of the constructor. -/
def put : Encoded → Result ValueT
  | null => .ok makeNull
  | int32 v => .ok (putInt32 v)
  | int32NoNull p => putInt32NoNull p.table p.column p.page p.pos
  | varchar p => putVarchar p.table p.column p.page p.pos

/-- The getter of the kind returns the arguments. -/
def ReadBack (v : ValueT) : Encoded → Prop
  | null => True
  | int32 x => v.getInt32 = x
  | int32NoNull p => v.getInt32NoNull = p
  | varchar p => v.getVarchar = p

/-- The value passes the test of its own kind and no other, and its arguments are read back. -/
structure Kept (e : Encoded) (v : ValueT) : Prop where
  kind : ∀ k, v.is k = decide (k = e.kind)
  readBack : e.ReadBack v

end Encoded

/-- The number of a kind in the mode bits. -/
def Kind.mode : Kind → Nat
  | varchar => 0
  | int32 => 1
  | int32NoNull => 2
  | null => 3

theorem is_eq (v : ValueT) (k : Kind) : v.is k = decide (v.mode = k.mode) := by
  cases k with
  | varchar => exact v.isVarchar_eq
  | int32 => exact v.isInt32_eq
  | int32NoNull => exact v.isInt32NoNull_eq
  | null => exact v.isNull_eq

theorem is_iff_of_mode {v : ValueT} {k : Kind} :
    (∀ k', v.is k' = decide (k' = k)) ↔ v.mode = k.mode := by
  constructor
  · intro h
    have hself := h k
    rw [is_eq, decide_eq_decide] at hself
    exact hself.mpr rfl
  · intro h k'
    rw [is_eq, decide_eq_decide, h]
    cases k <;> cases k' <;> decide

/-- An `int32_t` in a range from 0 on is a number below its end. -/
theorem exists_ofNat {x : Int32} {n : Nat} (hn : n < 2 ^ 31) (h : 0 ≤ x ∧ x < Int32.ofNat n) :
    ∃ m < n, x = Int32.ofNat m := by
  obtain ⟨hlow, hhigh⟩ := h
  rw [Int32.le_iff_toInt_le] at hlow
  rw [Int32.lt_iff_toInt_lt, Int32.toInt_ofNat_of_lt hn] at hhigh
  have hzero : (0 : Int32).toInt = 0 := rfl
  refine ⟨x.toInt.toNat, by omega, ?_⟩
  rw [← Int32.toInt_inj, Int32.toInt_ofNat_of_lt (by omega)]
  omega

/-- A reference in range is stored under its mode, and each of the getters reads it back. -/
theorem putPlace_inRange {k : Nat} (hk : k < 4) {p : Place} (h : p.InRange) :
    ∃ v, putPlace (BitVec.ofNat 64 (k * 2 ^ 62)) p.table p.column p.page p.pos = .ok v ∧
      v.mode = k ∧ v.getInt32NoNull = p ∧ v.getVarchar = p := by
  obtain ⟨table, column, page, pos⟩ := p
  obtain ⟨t, ht, htable⟩ := exists_ofNat (n := 32) (by decide) h.table
  obtain ⟨c, hc, hcolumn⟩ := exists_ofNat (n := 32768) (by decide) h.column
  obtain ⟨q, hq, hpage⟩ := exists_ofNat (n := 67108864) (by decide) h.page
  obtain ⟨o, ho, hpos⟩ := exists_ofNat (n := 65536) (by decide) h.pos
  simp only at htable hcolumn hpage hpos
  subst htable hcolumn hpage hpos
  obtain ⟨v, hv, hmode, htable, hcolumn, hpage, hpos⟩ := putPlace_ok hk (t := t) (c := c) (p := q) (q := o)
    ⟨by omega, by omega, by omega, by omega⟩
  refine ⟨v, hv, hmode, ?_, ?_⟩
  · rw [getInt32NoNull, htable, hcolumn, hpage, hpos]
  · rw [getVarchar, htable, hcolumn, hpage, hpos]

/-- Every call in range returns a value whose getter reads the arguments back; its mode is that of
its kind, or that of NULL for a negative integer. -/
theorem Encoded.put_ok {e : Encoded} (h : e.InRange) :
    ∃ v, e.put = .ok v ∧ e.ReadBack v ∧ (¬ e.Negative → v.mode = e.kind.mode) ∧
      (e.Negative → v.mode = 3) := by
  cases e with
  | null => exact ⟨makeNull, rfl, trivial, fun _ => by decide, fun h => h.elim⟩
  | int32 x => exact ⟨putInt32 x, rfl, getInt32_putInt32 x, mode_putInt32_of_nonneg, mode_putInt32_of_neg⟩
  | int32NoNull p =>
    obtain ⟨v, hv, hmode, hget, -⟩ := putPlace_inRange (k := 2) (by decide) h
    exact ⟨v, hv, hget, fun _ => hmode, fun h => h.elim⟩
  | varchar p =>
    obtain ⟨v, hv, hmode, -, hget⟩ := putPlace_inRange (k := 0) (by decide) h
    exact ⟨v, hv, hget, fun _ => hmode, fun h => h.elim⟩

/-- The call that made a value. -/
def origin (v : ValueT) : Encoded :=
  match v.mode with
  | 0 => .varchar v.getVarchar
  | 1 => .int32 v.getInt32
  | 2 => .int32NoNull v.getInt32NoNull
  | _ => if v.getInt32 < 0 then .int32 v.getInt32 else .null

theorem Encoded.origin_put {e : Encoded} (h : e.InRange) {v : ValueT} (hv : e.put = .ok v) :
    v.origin = e := by
  obtain ⟨w, hw, hread, hmode, hneg⟩ := e.put_ok h
  obtain rfl : v = w := Except.ok.inj (hv.symm.trans hw)
  unfold origin
  cases e with
  | null =>
    cases hv
    decide
  | int32 x =>
    have hread : v.getInt32 = x := hread
    by_cases hx : x < 0
    · rw [hneg hx, hread]
      exact if_pos hx
    · rw [hmode hx, hread]
      rfl
  | int32NoNull p =>
    rw [hmode not_false]
    exact congrArg _ hread
  | varchar p =>
    rw [hmode not_false]
    exact congrArg _ hread

/-- A value is of its own kind alone and gives its arguments back exactly when it is not made from a
negative integer; and no two calls make the same value. -/
theorem Encoded.kept_iff {e : Encoded} (h : e.InRange) :
    ((∃ v, e.put = .ok v ∧ e.Kept v) ↔ ¬ e.Negative) ∧
      ∀ e' : Encoded, e'.InRange → e'.put = e.put → e' = e := by
  obtain ⟨v, hv, hread, hmode, hneg⟩ := e.put_ok h
  refine ⟨⟨?_, fun hpos => ⟨v, hv, is_iff_of_mode.mpr (hmode hpos), hread⟩⟩, fun e' h' heq => ?_⟩
  · rintro ⟨w, hw, hkept⟩ hn
    obtain rfl : v = w := Except.ok.inj (hv.symm.trans hw)
    have hown := is_iff_of_mode.mp hkept.kind
    cases e with
    | int32 x =>
      rw [hneg hn] at hown
      exact absurd hown (show ¬ 3 = 1 by decide)
    | _ => exact hn
  · rw [← Encoded.origin_put h hv, Encoded.origin_put h' (heq.trans hv)]

theorem Encoded.kept_iff_varchar :
    ((∃ v, (Encoded.varchar ⟨3, 7, 70000, 12⟩).put = .ok v ∧ (Encoded.varchar ⟨3, 7, 70000, 12⟩).Kept v) ↔
      ¬ (Encoded.varchar ⟨3, 7, 70000, 12⟩).Negative) ∧
      ∀ e' : Encoded, e'.InRange → e'.put = (Encoded.varchar ⟨3, 7, 70000, 12⟩).put →
        e' = .varchar ⟨3, 7, 70000, 12⟩ :=
  Encoded.kept_iff ⟨by decide, by decide, by decide, by decide⟩

/-- `put_int32(-1)` is taken for NULL. -/
theorem Encoded.int32_not_kept : ¬ ∀ e : Encoded, e.InRange → ∃ v, e.put = .ok v ∧ e.Kept v := by
  intro hall
  obtain ⟨v, hv, hkept⟩ := hall (.int32 (-1)) trivial
  cases hv
  have hown := hkept.kind .int32
  revert hown
  decide

end ValueT

/-- `get_int32_value_from_page`. -/
def getInt32ValueFromPage (v : ValueT) (originalPages : List Page) : Result Int32 := do
  let page ← index originalPages v.getPage
  if 4 + v.getPos * 4 + 4 ≤ pageSize then
    .ok (int32Type.ofBytes (page.read (4 + v.getPos * 4) 4))
  else
    .error .outOfRange

end JoinOptimizer
