import JoinOptimizer.Lib.Bits
import Mathlib.Order.Monotone.Basic

/-! Loops over the slices of an index range, and loops that change each place of a list once. -/

namespace JoinOptimizer.Lib

variable {α σ : Type}

/-- Loops over consecutive slices are one loop over the whole range. -/
theorem foldl_slices (f : σ → Nat → σ) {bound : Nat → Nat} (hmono : Monotone bound) (s : σ) (k : Nat) :
    (List.range k).foldl
        (fun s i => (List.range' (bound i) (bound (i + 1) - bound i)).foldl f s) s =
      (List.range' (bound 0) (bound k - bound 0)).foldl f s := by
  induction k with
  | zero => simp
  | succ k ih =>
    have hfirst : bound 0 ≤ bound k := hmono (Nat.zero_le k)
    have hnext : bound k ≤ bound (k + 1) := hmono (Nat.le_succ k)
    have hsplit : List.range' (bound 0) (bound (k + 1) - bound 0) =
        List.range' (bound 0) (bound k - bound 0) ++
          List.range' (bound k) (bound (k + 1) - bound k) := by
      rw [show bound (k + 1) - bound 0 = (bound k - bound 0) + (bound (k + 1) - bound k) by omega,
        ← List.range'_append_1, show bound 0 + (bound k - bound 0) = bound k by omega]
    rw [List.range_succ, List.foldl_append, ih, hsplit, List.foldl_append]
    rfl

/-- The slice that an index is in. -/
theorem exists_slice {b : Nat → Nat} {k n : Nat} (hfirst : b 0 ≤ k) (hlast : k < b n) :
    ∃ i < n, b i ≤ k ∧ k < b (i + 1) := by
  induction n with
  | zero => omega
  | succ n ih =>
    by_cases hk : k < b n
    · obtain ⟨i, hi, hslice⟩ := ih hk
      exact ⟨i, Nat.lt_succ_of_lt hi, hslice⟩
    · exact ⟨n, Nat.lt_succ_self n, Nat.le_of_not_lt hk, hlast⟩

/-- A loop that changes place `i` in iteration `i`. -/
theorem getElem?_foldl_modify (g : Nat → α → α) (as : List α) (k j : Nat) :
    ((List.range k).foldl (fun as i => as.modify i (g i)) as)[j]? =
      if j < k then as[j]?.map (g j) else as[j]? := by
  induction k with
  | zero => simp
  | succ k ih =>
    rw [List.range_succ, List.foldl_append]
    simp only [List.foldl_cons, List.foldl_nil, List.getElem?_modify]
    rw [ih]
    by_cases hk : k = j
    · subst hk
      simp
    · by_cases hj : j < k
      · simp [hj, hk, Nat.lt_succ_of_lt hj]
      · have hsucc : ¬ j < k + 1 := by omega
        simp [hj, hk, hsucc]

theorem flag_zeros (k i : Nat) : flag (List.replicate k 0) i = false := by
  have h := flag_append_zeros [] k i
  rw [List.nil_append] at h
  rw [h]
  simp [flag]

/-- Setting flag `i` where `b` says so. -/
def orFlag (bs : List UInt8) (i : Nat) (b : Bool) : List UInt8 := if b then setFlag bs i else bs

@[simp] theorem length_orFlag (bs : List UInt8) (i : Nat) (b : Bool) :
    (orFlag bs i b).length = bs.length := by
  unfold orFlag
  split <;> simp

theorem flag_orFlag {bs : List UInt8} {i : Nat} (hi : i / 8 < bs.length) (b : Bool) (j : Nat) :
    flag (orFlag bs i b) j = (flag bs j || (decide (j = i) && b)) := by
  cases b with
  | true => simp [orFlag, flag_setFlag hi]
  | false => simp [orFlag]

/-- A byte with the bit of a flag or-ed into it. -/
theorem modify_or_flag (bs : List UInt8) (i : Nat) (b : Bool) :
    (bs.modify (i / 8) fun byte => byte ||| ((if b then 1 else 0) <<< UInt8.ofNat (i % 8))) =
      orFlag bs i b := by
  cases b with
  | true => rfl
  | false =>
    have hid : (fun byte : UInt8 => byte ||| ((if false then 1 else 0) <<< UInt8.ofNat (i % 8))) =
        id := by
      funext byte
      simp
    rw [hid, List.modify_id]
    rfl

/-- The flags that a loop over `n` indices has set. -/
theorem foldl_orFlag (p : Nat → Bool) (bs : List UInt8) {n : Nat} (hn : (n + 7) / 8 ≤ bs.length) :
    ((List.range n).foldl (fun bs i => orFlag bs i (p i)) bs).length = bs.length ∧
      ∀ j, flag ((List.range n).foldl (fun bs i => orFlag bs i (p i)) bs) j =
        (flag bs j || (decide (j < n) && p j)) := by
  induction n with
  | zero => simp
  | succ n ih =>
    obtain ⟨hlen, hflag⟩ := ih (by omega)
    rw [List.range_succ, List.foldl_append]
    refine ⟨by simpa using hlen, fun j => ?_⟩
    simp only [List.foldl_cons, List.foldl_nil]
    rw [flag_orFlag (by rw [hlen]; omega), hflag]
    by_cases hj : j = n
    · subst hj
      simp
    · simp [hj, show j < n + 1 ↔ j < n by omega]

/-- The bitmap of `n` flags with one more behind them. -/
def pushFlag (bs : List UInt8) (n : Nat) (b : Bool) : List UInt8 :=
  if n / 8 + 1 > bs.length then bs ++ [if b then 0x01 else 0x00]
  else if b then setFlag bs n
  else clearFlag bs n

theorem flag_append_left {bs : List UInt8} {i : Nat} (hi : i / 8 < bs.length) (cs : List UInt8) :
    flag (bs ++ cs) i = flag bs i := by
  simp only [flag, List.getD_eq_getElem?_getD, List.getElem?_append_left hi]

theorem flag_pushFlag {bs : List UInt8} {n : Nat} (hlen : bs.length = (n + 7) / 8) (b : Bool) :
    (pushFlag bs n b).length = (n + 1 + 7) / 8 ∧ flag (pushFlag bs n b) n = b ∧
      ∀ i < n, flag (pushFlag bs n b) i = flag bs i := by
  unfold pushFlag
  split
  · next hnew =>
    have hbyte : n / 8 = bs.length := by omega
    have hbit : n % 8 = 0 := by omega
    refine ⟨by simp; omega, ?_, fun i hi => flag_append_left (by omega) _⟩
    rw [flag, hbyte, hbit, List.getD_eq_getElem?_getD, List.getElem?_append_right (Nat.le_refl _),
      Nat.sub_self]
    cases b with
    | true => decide
    | false => decide
  · next hold =>
    cases b with
    | true =>
      refine ⟨by simp; omega, ?_, fun i hi => ?_⟩
      · simp [flag_setFlag (show n / 8 < bs.length by omega)]
      · simp [flag_setFlag (show n / 8 < bs.length by omega), show i ≠ n by omega]
    | false =>
      refine ⟨by simp; omega, ?_, fun i hi => ?_⟩
      · simp [flag_clearFlag]
      · simp [flag_clearFlag, show i ≠ n by omega]

theorem testBit_not (b : UInt8) {k : Nat} (hk : k < 8) : testBit (~~~ b) k = !testBit b k := by
  rw [testBit_eq_getLsbD _ hk, testBit_eq_getLsbD _ hk, UInt8.toBitVec_not, BitVec.getLsbD_not]
  simp [hk]

theorem testBit_and (a b : UInt8) {k : Nat} (hk : k < 8) :
    testBit (a &&& b) k = (testBit a k && testBit b k) := by
  rw [testBit_eq_getLsbD _ hk, testBit_eq_getLsbD _ hk, testBit_eq_getLsbD _ hk,
    UInt8.toBitVec_and, BitVec.getLsbD_and]

theorem testBit_or (a b : UInt8) {k : Nat} (hk : k < 8) :
    testBit (a ||| b) k = (testBit a k || testBit b k) := by
  rw [testBit_eq_getLsbD _ hk, testBit_eq_getLsbD _ hk, testBit_eq_getLsbD _ hk,
    UInt8.toBitVec_or, BitVec.getLsbD_or]

/-- A byte masked to one bit. -/
theorem and_bitMask (b : UInt8) {k : Nat} (hk : k < 8) :
    b &&& bitMask k = if testBit b k then bitMask k else 0 := by
  rw [testBit_eq_getLsbD _ hk, ← UInt8.toBitVec_inj, UInt8.toBitVec_and, bitMask_toBitVec hk,
    BitVec.and_twoPow]
  cases b.toBitVec.getLsbD k
  · rfl
  · simp [bitMask_toBitVec hk]

end JoinOptimizer.Lib
