import JoinOptimizer.Lib.Loops
import Mathlib.Data.Int.Basic

/-! Binary search in a non-decreasing sequence for its first element above a bound. -/

namespace JoinOptimizer.Lib

/-- The search loop over the indices from `left` to `right`; `found` is what the elements above `bound`
met so far have made of it. -/
def searchAbove {β : Type} (seq : Int → Nat) (bound : Nat) (result : Nat → β) (left right : Int)
    (found : β) : β :=
  if left ≤ right then
    let mid := (left + right) / 2
    if seq mid > bound then
      searchAbove seq bound result left (mid - 1) (result (seq mid))
    else
      searchAbove seq bound result (mid + 1) right found
  else
    found
  termination_by (right + 1 - left).toNat
  decreasing_by all_goals omega

variable {β : Type} {seq : Int → Nat} {bound : Nat} {result : Nat → β} {k n : Int}

/-- Whatever the loop has not excluded contains the first element above the bound: index `k`, or none
if `k` is the length `n`. -/
theorem searchAbove_eq {answer : β} (hbelow : ∀ i, 0 ≤ i → i < k → seq i ≤ bound)
    (habove : ∀ i, k ≤ i → i < n → bound < seq i) (hanswer : k < n → answer = result (seq k))
    {left right : Int} {found : β} (hleft : 0 ≤ left) (hk : left ≤ k) (hk' : k ≤ right + 1)
    (hright : right < n) (hfound : k = right + 1 → found = answer) :
    searchAbove seq bound result left right found = answer := by
  fun_induction searchAbove seq bound result left right found with
  | case1 left right found hle mid hgt ih =>
    have hkmid : k ≤ mid := by
      by_contra hlt
      have := hbelow mid (by omega) (by omega)
      omega
    refine ih hleft hk (by omega) (by omega) fun heq => ?_
    have hmid : k = mid := by omega
    rw [hanswer (by omega), hmid]
  | case2 left right found hle mid hgt ih =>
    have hmidk : mid < k := by
      by_contra hge
      have := habove mid (by omega) (by omega)
      omega
    exact ih (by omega) (by omega) hk' hright hfound
  | case3 left right found hgt => exact hfound (by omega)

/-- The search loop over a sequence whose elements are read one by one. -/
def searchAboveM {ε : Type} (read : Int → Except ε Nat) (bound : Nat) (result : Nat → β)
    (left right : Int) (found : β) : Except ε β :=
  if left ≤ right then do
    let mid := (left + right) / 2
    let x ← read mid
    if x > bound then
      searchAboveM read bound result left (mid - 1) (result x)
    else
      searchAboveM read bound result (mid + 1) right found
  else
    .ok found
  termination_by (right + 1 - left).toNat
  decreasing_by all_goals omega

/-- The loop reads no other elements than those from `left` to `right`. -/
theorem searchAboveM_eq {ε : Type} {read : Int → Except ε Nat} {left right : Int} {found : β}
    (hread : ∀ i, left ≤ i → i ≤ right → read i = .ok (seq i)) :
    searchAboveM read bound result left right found =
      .ok (searchAbove seq bound result left right found) := by
  fun_induction searchAbove seq bound result left right found with
  | case1 left right found hle mid hgt ih =>
    rw [searchAboveM, if_pos hle]
    show (read mid >>= fun x => if x > bound then _ else _) = _
    rw [hread mid (by omega) (by omega), ok_bind, if_pos hgt]
    exact ih fun i h0 h1 => hread i h0 (by omega)
  | case2 left right found hle mid hgt ih =>
    rw [searchAboveM, if_pos hle]
    show (read mid >>= fun x => if x > bound then _ else _) = _
    rw [hread mid (by omega) (by omega), ok_bind, if_neg hgt]
    exact ih fun i h0 h1 => hread i (by omega) h1
  | case3 left right found hgt => rw [searchAboveM, if_neg hgt]

/-- A non-decreasing sequence has a first element above the bound, or none up to its length. -/
theorem exists_first_above {xs : Nat → Nat} {n : Nat}
    (hmono : ∀ i j, i ≤ j → j < n → xs i ≤ xs j) (bound : Nat) :
    ∃ k ≤ n, (∀ i < k, xs i ≤ bound) ∧ ∀ i, k ≤ i → i < n → bound < xs i := by
  induction n with
  | zero => exact ⟨0, Nat.le_refl 0, fun _ h => absurd h (Nat.not_lt_zero _), fun _ _ h =>
      absurd h (Nat.not_lt_zero _)⟩
  | succ n ih =>
    obtain ⟨k, hk, hbelow, habove⟩ := ih fun i j hij hj => hmono i j hij (by omega)
    by_cases hlast : bound < xs n
    · refine ⟨k, by omega, hbelow, fun i hki hi => ?_⟩
      by_cases hin : i < n
      · exact habove i hki hin
      · rwa [show i = n by omega]
    · refine ⟨n + 1, Nat.le_refl _, fun i hi => ?_, fun i hi hi' => by omega⟩
      have := hmono i n (by omega) (by omega)
      omega

end JoinOptimizer.Lib
