import Mathlib.Data.List.Basic

/-! Bits packed into bytes, eight to a byte from the least significant bit up: testing, setting
and clearing one bit, and runs of bytes that hold a list of flags. -/

namespace JoinOptimizer.Lib

/-- `1 << k` in a byte. -/
def bitMask (k : Nat) : UInt8 := 1 <<< UInt8.ofNat k

def testBit (b : UInt8) (k : Nat) : Bool := b &&& bitMask k != 0

def setBit (b : UInt8) (k : Nat) : UInt8 := b ||| bitMask k

def clearBit (b : UInt8) (k : Nat) : UInt8 := b &&& ~~~ bitMask k

theorem bitMask_toBitVec {k : Nat} (hk : k < 8) : (bitMask k).toBitVec = BitVec.twoPow 8 k := by
  match k, hk with
  | 0, _ | 1, _ | 2, _ | 3, _ | 4, _ | 5, _ | 6, _ | 7, _ => rfl

theorem twoPow_ne_zero {k : Nat} (hk : k < 8) : BitVec.twoPow 8 k ≠ 0#8 := by
  match k, hk with
  | 0, _ | 1, _ | 2, _ | 3, _ | 4, _ | 5, _ | 6, _ | 7, _ => decide

theorem testBit_eq_getLsbD (b : UInt8) {k : Nat} (hk : k < 8) :
    testBit b k = b.toBitVec.getLsbD k := by
  have hzero : (b &&& bitMask k = 0) ↔ b.toBitVec.getLsbD k = false := by
    rw [← UInt8.toBitVec_inj, UInt8.toBitVec_and, bitMask_toBitVec hk, BitVec.and_twoPow]
    cases b.toBitVec.getLsbD k
    · simp
    · simpa using twoPow_ne_zero hk
  cases hb : b.toBitVec.getLsbD k
  · simpa [testBit] using hzero.mpr hb
  · simpa [testBit] using mt hzero.mp (by simp [hb])

theorem testBit_setBit (b : UInt8) {j k : Nat} (hj : j < 8) (hk : k < 8) :
    testBit (setBit b k) j = (testBit b j || decide (j = k)) := by
  rw [testBit_eq_getLsbD _ hj, testBit_eq_getLsbD _ hj, setBit, UInt8.toBitVec_or,
    bitMask_toBitVec hk]
  simp [BitVec.getLsbD_or, BitVec.getLsbD_twoPow, hk, eq_comm]

theorem testBit_clearBit (b : UInt8) {j k : Nat} (hj : j < 8) (hk : k < 8) :
    testBit (clearBit b k) j = (testBit b j && decide (j ≠ k)) := by
  rw [testBit_eq_getLsbD _ hj, testBit_eq_getLsbD _ hj, clearBit, UInt8.toBitVec_and,
    UInt8.toBitVec_not, bitMask_toBitVec hk]
  simp [hj]

@[simp] theorem testBit_zero (k : Nat) : testBit 0 k = false := by
  simp [testBit]

/-- Flag `i` of a run of bytes. -/
def flag (bs : List UInt8) (i : Nat) : Bool := testBit (bs.getD (i / 8) 0) (i % 8)

def setFlag (bs : List UInt8) (i : Nat) : List UInt8 := bs.modify (i / 8) fun b => setBit b (i % 8)

def clearFlag (bs : List UInt8) (i : Nat) : List UInt8 :=
  bs.modify (i / 8) fun b => clearBit b (i % 8)

@[simp] theorem length_setFlag (bs : List UInt8) (i : Nat) :
    (setFlag bs i).length = bs.length := by simp [setFlag]

@[simp] theorem length_clearFlag (bs : List UInt8) (i : Nat) :
    (clearFlag bs i).length = bs.length := by simp [clearFlag]

/-- Two flags are one only when they share the byte and the place in it. -/
theorem flag_index_eq {i j : Nat} (h : j / 8 = i / 8) : j % 8 = i % 8 ↔ j = i := by omega

theorem getD_modify (bs : List UInt8) (f : UInt8 → UInt8) (i j : Nat) :
    (bs.modify i f).getD j 0 =
      if i = j ∧ i < bs.length then f (bs.getD j 0) else bs.getD j 0 := by
  simp only [List.getD_eq_getElem?_getD, List.getElem?_modify]
  by_cases h : i = j
  · subst h
    by_cases hi : i < bs.length
    · simp [hi]
    · simp [hi]
  · simp [h]

theorem flag_setFlag {bs : List UInt8} {i : Nat} (hi : i / 8 < bs.length) (j : Nat) :
    flag (setFlag bs i) j = (flag bs j || decide (j = i)) := by
  simp only [flag, setFlag, getD_modify]
  by_cases h : i / 8 = j / 8
  · rw [if_pos ⟨h, hi⟩, testBit_setBit _ (Nat.mod_lt _ (by decide)) (Nat.mod_lt _ (by decide))]
    simp [flag_index_eq h.symm]
  · have hne : j ≠ i := fun he => h (by rw [he])
    simp [h, hne]

theorem flag_clearFlag (bs : List UInt8) (i j : Nat) :
    flag (clearFlag bs i) j = (flag bs j && decide (j ≠ i)) := by
  simp only [flag, clearFlag, getD_modify]
  by_cases h : i / 8 = j / 8
  · by_cases hi : i / 8 < bs.length
    · rw [if_pos ⟨h, hi⟩, testBit_clearBit _ (Nat.mod_lt _ (by decide)) (Nat.mod_lt _ (by decide))]
      simp [flag_index_eq h.symm]
    · have hnone : bs[j / 8]? = none := List.getElem?_eq_none (by omega)
      simp [hi, hnone]
  · have hne : j ≠ i := fun he => h (by rw [he])
    simp [h, hne]

/-- Zero bytes at the end of a run change no flag. -/
theorem flag_append_zeros (bs : List UInt8) (k i : Nat) :
    flag (bs ++ List.replicate k 0) i = flag bs i := by
  simp only [flag, List.getD_eq_getElem?_getD]
  by_cases h : i / 8 < bs.length
  · rw [List.getElem?_append_left h]
  · rw [List.getElem?_append_right (by omega), List.getElem?_eq_none (l := bs) (by omega)]
    by_cases hk : i / 8 - bs.length < k
    · simp [hk]
    · simp [hk]

/-- The first flags of the run `bs` are `fs`. -/
def HoldsFlags (bs : List UInt8) (fs : List Bool) : Prop :=
  ∀ i (h : i < fs.length), flag bs i = fs[i]

theorem HoldsFlags.nil (bs : List UInt8) : HoldsFlags bs [] := fun i h => absurd h (by simp)

theorem HoldsFlags.append_zeros {bs : List UInt8} {fs : List Bool} (h : HoldsFlags bs fs)
    (k : Nat) : HoldsFlags (bs ++ List.replicate k 0) fs := fun i hi => by
  rw [flag_append_zeros]
  exact h i hi

theorem HoldsFlags.take {bs : List UInt8} {fs : List Bool} (h : HoldsFlags bs fs) {n : Nat}
    (hn : (fs.length + 7) / 8 ≤ n) : HoldsFlags (bs.take n) fs := fun i hi => by
  rw [← h i hi, flag, flag, List.getD_eq_getElem?_getD, List.getD_eq_getElem?_getD,
    List.getElem?_take_of_lt (by omega)]

/-- One flag more, behind those that are held. -/
theorem HoldsFlags.push {bs bs' : List UInt8} {fs : List Bool} {b : Bool} (h : HoldsFlags bs fs)
    (hlast : flag bs' fs.length = b) (hrest : ∀ i, i ≠ fs.length → flag bs' i = flag bs i) :
    HoldsFlags bs' (fs ++ [b]) := by
  intro i hi
  by_cases he : i = fs.length
  · subst he
    rw [hlast, List.getElem_concat_length rfl]
  · have hlt : i < fs.length := by simp at hi; omega
    rw [List.getElem_append_left hlt, hrest i he, h i hlt]

theorem HoldsFlags.push_set {bs : List UInt8} {fs : List Bool} (h : HoldsFlags bs fs)
    (hlen : fs.length / 8 < bs.length) : HoldsFlags (setFlag bs fs.length) (fs ++ [true]) :=
  h.push (by simp [flag_setFlag hlen]) fun i hi => by simp [flag_setFlag hlen, hi]

theorem HoldsFlags.push_clear {bs : List UInt8} {fs : List Bool} (h : HoldsFlags bs fs) :
    HoldsFlags (clearFlag bs fs.length) (fs ++ [false]) :=
  h.push (by simp [flag_clearFlag]) fun i hi => by simp [flag_clearFlag, hi]

end JoinOptimizer.Lib
