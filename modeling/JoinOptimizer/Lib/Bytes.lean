import Mathlib.Data.List.Basic
import Mathlib.Tactic.Ring

/-! Blocks of memory of a fixed size, read and written as runs of bytes, and little-endian words
in them.  A write past the end of a block is lost and a read past it gives zero, so a round trip
through a block can hold only for runs that lie inside it. -/

namespace JoinOptimizer.Lib

/-- The low `w` bytes of `n`, the least significant one first. -/
def leBytes : (w : Nat) → Nat → List UInt8
  | 0, _ => []
  | w + 1, n => UInt8.ofNat n :: leBytes w (n / 256)

/-- The number that a run of bytes spells, the least significant byte first. -/
def leWord : List UInt8 → Nat
  | [] => 0
  | b :: bs => b.toNat + 256 * leWord bs

@[simp] theorem length_leBytes (w n : Nat) : (leBytes w n).length = w := by
  induction w generalizing n with
  | zero => rfl
  | succ w ih => simp [leBytes, ih]

theorem leWord_leBytes (w n : Nat) : leWord (leBytes w n) = n % 256 ^ w := by
  induction w generalizing n with
  | zero => simp [leBytes, leWord, Nat.mod_one]
  | succ w ih =>
    have hpow : 256 ^ (w + 1) = 256 * 256 ^ w := by ring
    simp only [leBytes, leWord, ih, UInt8.toNat_ofNat', hpow, Nat.mod_mul]

theorem leWord_lt (bs : List UInt8) : leWord bs < 256 ^ bs.length := by
  induction bs with
  | nil => simp [leWord]
  | cons b bs ih =>
    have hb : b.toNat < 256 := b.toNat_lt
    have hpow : 256 ^ (bs.length + 1) = 256 * 256 ^ bs.length := by ring
    simp only [leWord, List.length_cons, hpow]
    omega

/-- A block of `n` bytes. -/
structure Block (n : Nat) where
  data : Fin n → UInt8

namespace Block

variable {n : Nat}

/-- The byte at offset `i`. -/
def byte (m : Block n) (i : Nat) : UInt8 := if h : i < n then m.data ⟨i, h⟩ else 0

/-- `memcpy(m + off, bs, bs.length)`. -/
def write (m : Block n) (off : Nat) (bs : List UInt8) : Block n where
  data i := if off ≤ i.val ∧ i.val < off + bs.length then bs.getD (i.val - off) 0 else m.data i

/-- The `len` bytes from offset `off` on. -/
def read (m : Block n) (off len : Nat) : List UInt8 :=
  (List.range len).map fun k => m.byte (off + k)

/-- The little-endian word of `w` bytes at offset `off`. -/
def word (m : Block n) (off w : Nat) : Nat := leWord (m.read off w)

/-- Stores the low `w` bytes of `v` at offset `off`. -/
def writeWord (m : Block n) (off w v : Nat) : Block n := m.write off (leBytes w v)

theorem byte_write (m : Block n) (off : Nat) (bs : List UInt8) (i : Nat) :
    (m.write off bs).byte i =
      if off ≤ i ∧ i < off + bs.length ∧ i < n then bs.getD (i - off) 0 else m.byte i := by
  simp only [byte, write]
  by_cases h : i < n
  · simp [h]
  · simp [h]

theorem byte_write_of_disjoint (m : Block n) {off : Nat} {bs : List UInt8} {i : Nat}
    (h : i < off ∨ off + bs.length ≤ i) : (m.write off bs).byte i = m.byte i := by
  rw [byte_write, if_neg (by omega)]

@[simp] theorem length_read (m : Block n) (off len : Nat) : (m.read off len).length = len := by
  simp [read]

theorem getElem_read (m : Block n) (off len k : Nat) (h : k < (m.read off len).length) :
    (m.read off len)[k] = m.byte (off + k) := by
  simp [read]

theorem read_congr {m m' : Block n} {off len : Nat}
    (h : ∀ i, off ≤ i → i < off + len → m.byte i = m'.byte i) :
    m.read off len = m'.read off len := by
  simp only [read]
  refine List.map_congr_left fun k hk => h _ (by omega) ?_
  have := List.mem_range.mp hk
  omega

theorem read_write_same (m : Block n) {off : Nat} {bs : List UInt8} (h : off + bs.length ≤ n) :
    (m.write off bs).read off bs.length = bs := by
  refine List.ext_getElem (by simp) fun k hk hk' => ?_
  rw [getElem_read, byte_write, if_pos (by omega), Nat.add_sub_cancel_left]
  simp [hk']

theorem read_write_disjoint (m : Block n) {off off' len : Nat} {bs : List UInt8}
    (h : off' + len ≤ off ∨ off + bs.length ≤ off') :
    (m.write off bs).read off' len = m.read off' len :=
  read_congr fun i _ _ => byte_write_of_disjoint m (by omega)

theorem read_add (m : Block n) (off a b : Nat) :
    m.read off (a + b) = m.read off a ++ m.read (off + a) b := by
  simp [read, List.range_add, Nat.add_assoc]

/-- A run that is split in two is the two runs side by side. -/
theorem read_eq_append_iff (m : Block n) (off : Nat) (as bs : List UInt8) :
    m.read off (as.length + bs.length) = as ++ bs ↔
      m.read off as.length = as ∧ m.read (off + as.length) bs.length = bs := by
  rw [read_add]
  constructor
  · intro h
    exact List.append_inj h (by simp)
  · rintro ⟨h1, h2⟩
    rw [h1, h2]

/-- A run written behind another one makes one run of the two. -/
theorem read_write_append {m : Block n} {off : Nat} {as : List UInt8}
    (h : m.read off as.length = as) {bs : List UInt8} (hfit : off + as.length + bs.length ≤ n) :
    (m.write (off + as.length) bs).read off (as ++ bs).length = as ++ bs := by
  rw [List.length_append, read_eq_append_iff]
  refine ⟨?_, read_write_same m hfit⟩
  rw [read_write_disjoint m (by omega), h]

/-- A part of a run that a block holds is the same part of the run's bytes. -/
theorem read_sub {m : Block n} {off : Nat} {bs : List UInt8} (h : m.read off bs.length = bs)
    {a len : Nat} (ha : a + len ≤ bs.length) : m.read (off + a) len = (bs.drop a).take len := by
  conv_rhs => rw [← h]
  refine List.ext_getElem (by simp; omega) fun k hk hk' => ?_
  simp [getElem_read, Nat.add_assoc]

theorem word_writeWord_same (m : Block n) {off w v : Nat} (h : off + w ≤ n) :
    (m.writeWord off w v).word off w = v % 256 ^ w := by
  have hfit : off + (leBytes w v).length ≤ n := by simpa using h
  have hread := read_write_same m hfit
  rw [length_leBytes] at hread
  rw [word, writeWord, hread, leWord_leBytes]

theorem word_write_disjoint (m : Block n) {off off' w : Nat} {bs : List UInt8}
    (h : off' + w ≤ off ∨ off + bs.length ≤ off') :
    (m.write off bs).word off' w = m.word off' w := by
  rw [word, word, read_write_disjoint m h]

theorem word_writeWord_disjoint (m : Block n) {off off' w w' v : Nat}
    (h : off' + w ≤ off ∨ off + w' ≤ off') :
    (m.writeWord off w' v).word off' w = m.word off' w :=
  word_write_disjoint m (by simpa using h)

theorem read_writeWord_disjoint (m : Block n) {off off' len w v : Nat}
    (h : off' + len ≤ off ∨ off + w ≤ off') :
    (m.writeWord off w v).read off' len = m.read off' len :=
  read_write_disjoint m (by simpa using h)

theorem word_lt (m : Block n) (off w : Nat) : m.word off w < 256 ^ w := by
  simpa [word] using leWord_lt (m.read off w)

end Block

end JoinOptimizer.Lib
