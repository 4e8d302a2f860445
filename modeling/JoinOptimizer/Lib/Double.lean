import Mathlib.Data.Nat.Size
import Mathlib.Data.Rat.Defs
import Mathlib.Algebra.Order.Ring.Rat
import Mathlib.Data.Int.Order.Basic

/-! Binary floating-point numbers of 64 bits, as far as comparisons tell them apart, and the conversion
of integers to them, which rounds to 53 significant bits. -/

namespace JoinOptimizer.Lib

/-- A number of 64 bits; both of its zeros are the rational 0. -/
inductive Double
  | nan
  | inf (negative : Bool)
  | finite (value : ℚ)
  deriving DecidableEq

/-- `n` to the nearest number of 53 significant bits, and of two such numbers to the even one. -/
def roundNat (n : Nat) : Nat :=
  let e := n.size - 53
  let q := n / 2 ^ e
  let r := n % 2 ^ e
  (if 2 ^ e < 2 * r ∨ 2 ^ e = 2 * r ∧ q % 2 = 1 then q + 1 else q) * 2 ^ e

def roundInt (z : Int) : Int := if z < 0 then -(roundNat z.natAbs : Int) else roundNat z.natAbs

namespace Double

def ofInt (z : Int) : Double := .finite (roundInt z)

/-- The number that a word stands for. -/
def ofBits (bits : UInt64) : Double :=
  let negative := bits.toNat / 2 ^ 63 = 1
  let exponent : Nat := bits.toNat / 2 ^ 52 % 2 ^ 11
  let fraction : Nat := bits.toNat % 2 ^ 52
  if exponent = 2047 then
    if fraction = 0 then .inf negative else .nan
  else
    let significand : Nat := if exponent = 0 then fraction else 2 ^ 52 + fraction
    let scale := max exponent 1
    let magnitude : ℚ := (significand : ℚ) * 2 ^ scale / 2 ^ 1075
    .finite (if negative then -magnitude else magnitude)

def eq : Double → Double → Bool
  | finite a, finite b => a = b
  | inf a, inf b => a == b
  | _, _ => false

def lt : Double → Double → Bool
  | finite a, finite b => a < b
  | inf a, inf b => a && !b
  | inf a, finite _ => a
  | finite _, inf b => !b
  | _, _ => false

def le (a b : Double) : Bool := lt a b || eq a b

end Double

theorem roundNat_of_lt {n : Nat} (h : n < 2 ^ 53) : roundNat n = n := by
  have hsize : n.size - 53 = 0 := Nat.sub_eq_zero_of_le (Nat.size_le.mpr h)
  unfold roundNat
  rw [hsize]
  simp [Nat.mod_one]

/-- Rounding does not lead below a power of two. -/
theorem pow_le_roundNat {n k : Nat} (h : 2 ^ k ≤ n) : 2 ^ k ≤ roundNat n := by
  by_cases hsmall : n < 2 ^ 53
  · rw [roundNat_of_lt hsmall]
    exact h
  have hsize : 53 < n.size := Nat.lt_size.mpr (Nat.le_of_not_lt hsmall)
  have hk : k < n.size := Nat.lt_size.mpr h
  let e := n.size - 53
  have hlow : 2 ^ (n.size - 1) ≤ n := Nat.lt_size.mp (by omega)
  have hq : 2 ^ 52 ≤ n / 2 ^ e := by
    rw [Nat.le_div_iff_mul_le (Nat.two_pow_pos e), ← Nat.pow_add]
    rwa [show 52 + e = n.size - 1 by omega]
  have hmul : 2 ^ k ≤ n / 2 ^ e * 2 ^ e := by
    calc 2 ^ k ≤ 2 ^ (52 + e) := Nat.pow_le_pow_right (by decide) (by omega)
      _ = 2 ^ 52 * 2 ^ e := Nat.pow_add ..
      _ ≤ n / 2 ^ e * 2 ^ e := Nat.mul_le_mul_right _ hq
  refine hmul.trans (Nat.mul_le_mul_right _ ?_)
  split
  · exact Nat.le_succ _
  · exact Nat.le_refl _

/-- Nor above one. -/
theorem roundNat_le_pow {n k : Nat} (h : n < 2 ^ k) : roundNat n ≤ 2 ^ k := by
  by_cases hsmall : n < 2 ^ 53
  · rw [roundNat_of_lt hsmall]
    exact Nat.le_of_lt h
  have hsize : 53 < n.size := Nat.lt_size.mpr (Nat.le_of_not_lt hsmall)
  have hk : n.size ≤ k := Nat.size_le.mpr h
  let e := n.size - 53
  have hq : n / 2 ^ e < 2 ^ 53 := by
    rw [Nat.div_lt_iff_lt_mul (Nat.two_pow_pos e), ← Nat.pow_add]
    exact Nat.size_le.mp (by omega)
  have hup : (n / 2 ^ e + 1) * 2 ^ e ≤ 2 ^ k := by
    calc (n / 2 ^ e + 1) * 2 ^ e ≤ 2 ^ 53 * 2 ^ e := Nat.mul_le_mul_right _ hq
      _ = 2 ^ (53 + e) := (Nat.pow_add ..).symm
      _ ≤ 2 ^ k := Nat.pow_le_pow_right (by decide) (by omega)
  refine (Nat.mul_le_mul_right _ ?_).trans hup
  split
  · exact Nat.le_refl _
  · exact Nat.le_succ _

theorem roundNat_mono {n m : Nat} (h : n ≤ m) : roundNat n ≤ roundNat m := by
  have hsize : n.size ≤ m.size := Nat.size_le_size h
  by_cases he : n.size - 53 = m.size - 53
  · unfold roundNat
    rw [he]
    generalize m.size - 53 = e
    have hpos : 0 < 2 ^ e := Nat.two_pow_pos e
    have hn := Nat.div_add_mod n (2 ^ e)
    have hm := Nat.div_add_mod m (2 ^ e)
    have hq : n / 2 ^ e ≤ m / 2 ^ e := Nat.div_le_div_right h
    apply Nat.mul_le_mul_right _
    rcases Nat.lt_or_eq_of_le hq with hlt | heq
    · split <;> split <;> omega
    · -- with the same quotient it is the remainder that decides
      rw [heq] at hn ⊢
      have hr : n % 2 ^ e ≤ m % 2 ^ e := by omega
      split <;> split <;> omega
  · have hm : m.size = m.size - 1 + 1 := by omega
    calc roundNat n ≤ 2 ^ (m.size - 1) := roundNat_le_pow (Nat.size_le.mp (by omega))
      _ ≤ roundNat m := pow_le_roundNat (Nat.lt_size.mp (by omega))

theorem roundInt_mono {a b : Int} (h : a ≤ b) : roundInt a ≤ roundInt b := by
  unfold roundInt
  split
  · next ha =>
    split
    · next hb =>
      have hround := roundNat_mono (show b.natAbs ≤ a.natAbs by omega)
      omega
    · omega
  · next ha =>
    rw [if_neg (by omega)]
    have hround := roundNat_mono (show a.natAbs ≤ b.natAbs by omega)
    omega

theorem roundInt_of_lt {z : Int} (h : z.natAbs < 2 ^ 53) : roundInt z = z := by
  unfold roundInt
  rw [roundNat_of_lt h]
  split <;> omega

/-- An integer of 53 bits compares with any integer as it does with the rounded one. -/
theorem lt_roundInt {v z : Int} (h : v.natAbs < 2 ^ 53) : v < roundInt z ↔ v < z := by
  by_cases hz : z.natAbs < 2 ^ 53
  · rw [roundInt_of_lt hz]
  · have hround := pow_le_roundNat (Nat.le_of_not_lt hz)
    unfold roundInt
    split <;> omega

theorem roundInt_lt {v z : Int} (h : v.natAbs < 2 ^ 53) : roundInt z < v ↔ z < v := by
  by_cases hz : z.natAbs < 2 ^ 53
  · rw [roundInt_of_lt hz]
  · have hround := pow_le_roundNat (Nat.le_of_not_lt hz)
    unfold roundInt
    split <;> omega

namespace Double

@[simp] theorem eq_ofInt (a b : Int) : eq (ofInt a) (ofInt b) = decide (roundInt a = roundInt b) := by
  simp [eq, ofInt]

@[simp] theorem lt_ofInt (a b : Int) : lt (ofInt a) (ofInt b) = decide (roundInt a < roundInt b) := by
  exact decide_eq_decide.mpr Rat.intCast_lt_intCast

@[simp] theorem le_ofInt (a b : Int) : le (ofInt a) (ofInt b) = decide (roundInt a ≤ roundInt b) := by
  rw [le, lt_ofInt, eq_ofInt, ← Bool.decide_or]
  exact decide_eq_decide.mpr Int.le_iff_lt_or_eq.symm

end Double

end JoinOptimizer.Lib
