import Mathlib.Data.List.Induction
import Mathlib.Data.Nat.Digits.Defs

/-! Text in ASCII: decimal numbers, and what can be told of a text that starts with one. -/

namespace JoinOptimizer.Lib

/-- The bytes of characters. -/
def ascii (cs : List Char) : List UInt8 := cs.map fun c => UInt8.ofNat c.toNat

def isDigit (c : UInt8) : Bool := 48 ≤ c && c ≤ 57

/-- `n` in decimal. -/
def decimal (n : Nat) : List UInt8 :=
  if n = 0 then [48] else (Nat.digits 10 n).reverse.map fun d => UInt8.ofNat (48 + d)

/-- `z` in decimal, with a minus where it is negative. -/
def decimalInt (z : Int) : List UInt8 := if z < 0 then 45 :: decimal z.natAbs else decimal z.natAbs

/-- A run of elements with a property, in front of a text that does not start with another, ends where the
run does. -/
theorem run_append_inj {α : Type} {p : α → Bool} {xs ys us vs : List α} (hx : ∀ x ∈ xs, p x)
    (hy : ∀ y ∈ ys, p y) (hu : ∀ c ∈ us.head?, p c = false) (hv : ∀ c ∈ vs.head?, p c = false)
    (h : xs ++ us = ys ++ vs) : xs = ys ∧ us = vs := by
  have hstop : ∀ ws : List α, (∀ c ∈ ws.head?, p c = false) → ws.takeWhile p = [] := by
    intro ws hws
    cases ws with
    | nil => rfl
    | cons c ws => simp [hws c rfl]
  have htake := congrArg (List.takeWhile p) h
  rw [List.takeWhile_append_of_pos hx, List.takeWhile_append_of_pos hy, hstop us hu, hstop vs hv,
    List.append_nil, List.append_nil] at htake
  subst htake
  exact ⟨rfl, List.append_cancel_left h⟩

theorem toNat_digit {n d : Nat} (hd : d ∈ Nat.digits 10 n) :
    d < 10 ∧ (UInt8.ofNat (48 + d)).toNat = 48 + d := by
  have hlt : d < 10 := Nat.digits_lt_base (by decide) hd
  refine ⟨hlt, ?_⟩
  rw [UInt8.toNat_ofNat']
  exact Nat.mod_eq_of_lt (by omega)

theorem isDigit_decimal {n : Nat} : ∀ c ∈ decimal n, isDigit c := by
  intro c hc
  unfold decimal at hc
  split at hc
  · rw [List.mem_singleton.mp hc]
    rfl
  · obtain ⟨d, hd, rfl⟩ := List.mem_map.mp hc
    obtain ⟨hlt, hround⟩ := toNat_digit (List.mem_reverse.mp hd)
    simp only [isDigit, Bool.and_eq_true, decide_eq_true_eq, UInt8.le_iff_toNat_le, hround]
    exact ⟨Nat.le_add_right _ _, show 48 + d ≤ 57 by omega⟩

theorem decimal_ne_nil (n : Nat) : decimal n ≠ [] := by
  unfold decimal
  split
  · exact List.cons_ne_nil _ _
  · next hn => simpa [Nat.digits_eq_nil_iff_eq_zero] using hn

/-- The number that digits stand for. -/
def ofDecimal (cs : List UInt8) : Nat := Nat.ofDigits 10 (cs.reverse.map fun c => c.toNat - 48)

theorem ofDecimal_decimal (n : Nat) : ofDecimal (decimal n) = n := by
  unfold decimal
  split
  · next hn => rw [hn]; rfl
  · have hsame : ∀ d ∈ Nat.digits 10 n, ((fun c : UInt8 => c.toNat - 48) ∘
        fun d => UInt8.ofNat (48 + d)) d = id d := by
      intro d hd
      rw [Function.comp_apply, (toNat_digit hd).2, Nat.add_sub_cancel_left]
      rfl
    unfold ofDecimal
    simp only [← List.map_reverse, List.reverse_reverse, List.map_map]
    rw [List.map_congr_left hsame, List.map_id, Nat.ofDigits_digits]

/-- The number of digits, read from the front. -/
theorem foldl_digits {cs : List UInt8} (h : ∀ c ∈ cs, isDigit c) :
    cs.foldl (fun (value : Int) c => value * 10 + (c.toNat - 48)) 0 = ofDecimal cs := by
  induction cs using List.reverseRecOn with
  | nil => rfl
  | append_singleton cs c ih =>
    have hc : 48 ≤ c.toNat := by
      have hdigit := h c (List.mem_append_right cs List.mem_cons_self)
      simp only [isDigit, Bool.and_eq_true, decide_eq_true_eq, UInt8.le_iff_toNat_le] at hdigit
      exact hdigit.1
    have hlast : ofDecimal (cs ++ [c]) = (c.toNat - 48) + 10 * ofDecimal cs := by
      simp [ofDecimal, Nat.ofDigits_cons]
    rw [List.foldl_append, ih fun d hd => h d (List.mem_append_left [c] hd), hlast, List.foldl_cons,
      List.foldl_nil]
    omega

theorem decimal_injective : Function.Injective decimal :=
  Function.LeftInverse.injective ofDecimal_decimal

/-- A number in front of a text that starts with no digit. -/
theorem decimal_append_inj {n m : Nat} {us vs : List UInt8} (hu : ∀ c ∈ us.head?, isDigit c = false)
    (hv : ∀ c ∈ vs.head?, isDigit c = false) (h : decimal n ++ us = decimal m ++ vs) :
    n = m ∧ us = vs := by
  obtain ⟨hdigits, hrest⟩ := run_append_inj isDigit_decimal isDigit_decimal hu hv h
  exact ⟨decimal_injective hdigits, hrest⟩

theorem decimal_head (n : Nat) : ∃ c cs, decimal n = c :: cs ∧ isDigit c := by
  obtain ⟨c, cs, hcs⟩ := List.exists_cons_of_ne_nil (decimal_ne_nil n)
  exact ⟨c, cs, hcs, isDigit_decimal c (by rw [hcs]; exact List.mem_cons_self)⟩

theorem decimalInt_append_inj {a b : Int} {us vs : List UInt8} (hu : ∀ c ∈ us.head?, isDigit c = false)
    (hv : ∀ c ∈ vs.head?, isDigit c = false) (h : decimalInt a ++ us = decimalInt b ++ vs) :
    a = b ∧ us = vs := by
  have hminus : ∀ n ws, decimal n ++ ws ≠ 45 :: (decimal b.natAbs ++ vs) ∧
      45 :: (decimal a.natAbs ++ us) ≠ decimal n ++ ws := by
    intro n ws
    obtain ⟨c, cs, hcs, hc⟩ := decimal_head n
    rw [hcs]
    constructor
    · rintro heq
      rw [(List.cons.inj heq).1] at hc
      exact absurd hc (by decide)
    · rintro heq
      rw [← (List.cons.inj heq).1] at hc
      exact absurd hc (by decide)
  unfold decimalInt at h
  split at h
  · split at h
    · obtain ⟨habs, hrest⟩ := decimal_append_inj hu hv (List.cons.inj h).2
      exact ⟨by omega, hrest⟩
    · exact absurd h (hminus _ _).2
  · split at h
    · exact absurd h (hminus _ _).1
    · obtain ⟨habs, hrest⟩ := decimal_append_inj hu hv h
      exact ⟨by omega, hrest⟩

/-- A number starts with a digit or a minus. -/
theorem decimalInt_head (z : Int) : ∃ c cs, decimalInt z = c :: cs ∧ (c = 45 ∨ isDigit c) := by
  unfold decimalInt
  split
  · exact ⟨_, _, rfl, .inl rfl⟩
  · obtain ⟨c, cs, hcs, hc⟩ := decimal_head z.natAbs
    exact ⟨c, cs, hcs, .inr hc⟩

end JoinOptimizer.Lib
