import Mathlib.Algebra.Group.Nat.Hom

/-! Fields of a word: values packed side by side with shifts and `|||`, and taken out again with a mask
and a shift. -/

namespace JoinOptimizer.Lib

variable {w : Nat}

/-- The mask of the `k` bits from bit `s` on. -/
def fieldMask (w s k : Nat) : BitVec w := ((1#w <<< k) - 1#w) <<< s

theorem toNat_fieldMask {s k : Nat} (hk : k < w) (hsk : s + k ≤ w) :
    (fieldMask w s k).toNat = (2 ^ k - 1) * 2 ^ s := by
  have hpos : 0 < 2 ^ k := Nat.two_pow_pos k
  have hone : 1 % 2 ^ w = 1 := Nat.mod_eq_of_lt (Nat.one_lt_two_pow (by omega))
  have hlt : 2 ^ k < 2 ^ w := Nat.pow_lt_pow_right (by decide) hk
  have hfit : (2 ^ k - 1) * 2 ^ s < 2 ^ w := by
    calc (2 ^ k - 1) * 2 ^ s < 2 ^ k * 2 ^ s :=
          Nat.mul_lt_mul_of_pos_right (by omega) (Nat.two_pow_pos s)
      _ = 2 ^ (s + k) := by rw [Nat.pow_add, Nat.mul_comm]
      _ ≤ 2 ^ w := Nat.pow_le_pow_right (by decide) hsk
  have hshift : (1#w <<< k).toNat = 2 ^ k := by
    rw [BitVec.toNat_shiftLeft, BitVec.toNat_ofNat, hone, Nat.one_shiftLeft, Nat.mod_eq_of_lt hlt]
  have hle : 1#w ≤ 1#w <<< k := by
    rw [BitVec.le_def, hshift, BitVec.toNat_ofNat, hone]
    exact hpos
  rw [fieldMask, BitVec.toNat_shiftLeft, BitVec.toNat_sub_of_le hle, hshift, BitVec.toNat_ofNat,
    hone, Nat.shiftLeft_eq, Nat.mod_eq_of_lt hfit]

/-- A word under a mask, moved down: the field. -/
theorem toNat_field (x : BitVec w) {s k : Nat} (hk : k < w) (hsk : s + k ≤ w) :
    ((x &&& fieldMask w s k) >>> s).toNat = x.toNat / 2 ^ s % 2 ^ k := by
  rw [BitVec.toNat_ushiftRight, BitVec.toNat_and, toNat_fieldMask hk hsk,
    Nat.shiftRight_and_distrib, ← Nat.shiftLeft_eq, Nat.shiftLeft_shiftRight,
    Nat.and_two_pow_sub_one_eq_mod, Nat.shiftRight_eq_div_pow]

/-- A word under a mask, in place. -/
theorem toNat_and_fieldMask (x : BitVec w) {s k : Nat} (hk : k < w) (hsk : s + k ≤ w) :
    (x &&& fieldMask w s k).toNat = x.toNat / 2 ^ s % 2 ^ k * 2 ^ s := by
  have hfield := toNat_field x hk hsk
  have hdvd : 2 ^ s ∣ (x &&& fieldMask w s k).toNat := by
    rw [BitVec.toNat_and, toNat_fieldMask hk hsk, ← Nat.shiftLeft_eq]
    apply Nat.dvd_of_mod_eq_zero
    rw [Nat.and_mod_two_pow, Nat.shiftLeft_eq, Nat.mul_mod_left, Nat.and_zero]
  rw [BitVec.toNat_ushiftRight, Nat.shiftRight_eq_div_pow] at hfield
  rw [← hfield, Nat.div_mul_cancel hdvd]

/-- Two parts of a word that share no bit. -/
theorem toNat_or_of_lt {x y : BitVec w} {i : Nat} (hx : 2 ^ i ∣ x.toNat) (hy : y.toNat < 2 ^ i) :
    (x ||| y).toNat = x.toNat + y.toNat := by
  obtain ⟨a, ha⟩ := hx
  rw [BitVec.toNat_or, ha, Nat.two_pow_add_eq_or_of_lt hy]

end JoinOptimizer.Lib
