import JoinOptimizer.Lib.Slots

/-! Entries kept close behind their homes in an array of slots, and bitmaps that say of every home
which of the slots from it on have its entries. -/

namespace JoinOptimizer.Lib

variable {α : Type} {home : α → Nat} {xs : List (Option α)} {n i j : Nat} {a : α}

section Near

/-- Every entry is less than `n` slots behind its home, and the slots from its home to it are taken,
but for the one that `hole` names. -/
structure Near (home : α → Nat) (n : Nat) (hole : Option Nat) (xs : List (Option α)) : Prop where
  home_le : ∀ i a, slot xs i = some a → home a ≤ i
  lt : ∀ i a, slot xs i = some a → i < home a + n
  taken : ∀ i a l, slot xs i = some a → home a ≤ l → l < i → hole = some l ∨ (slot xs l).isSome

theorem near_replicate (home : α → Nat) (n s : Nat) : Near home n none (List.replicate s none) where
  home_le i a h := absurd h (slot_replicate_ne_some s i a)
  lt i a h := absurd h (slot_replicate_ne_some s i a)
  taken i a _ h := absurd h (slot_replicate_ne_some s i a)

theorem Near.withHole (h : Near home n none xs) (j : Nat) : Near home n (some j) xs where
  home_le := h.home_le
  lt := h.lt
  taken i a l ha hlow hhigh := .inr ((h.taken i a l ha hlow hhigh).resolve_left (by simp))

/-- An entry fills the hole. -/
theorem Near.put (h : Near home n (some j) xs) (hj : j < xs.length) (hlow : home a ≤ j)
    (hhigh : j < home a + n) (hbefore : ∀ l, home a ≤ l → l < j → (slot xs l).isSome) :
    Near home n none (xs.set j (some a)) where
  home_le i b hb := by
    rcases slot_of_set hb with ⟨rfl, hab⟩ | ⟨-, hb⟩
    · cases hab
      exact hlow
    · exact h.home_le i b hb
  lt i b hb := by
    rcases slot_of_set hb with ⟨rfl, hab⟩ | ⟨-, hb⟩
    · cases hab
      exact hhigh
    · exact h.lt i b hb
  taken i b l hb hfrom hto := by
    right
    rcases slot_of_set hb with ⟨rfl, hab⟩ | ⟨-, hb⟩
    · cases hab
      exact slot_set_isSome hj (hbefore l hfrom hto) a
    · rcases h.taken i b l hb hfrom hto with hhole | hl
      · cases hhole
        rw [slot_set_self hj]
        rfl
      · exact slot_set_isSome hj hl a

/-- An entry is taken out and leaves a hole. -/
theorem Near.take (h : Near home n none xs) (i : Nat) : Near home n (some i) (xs.set i none) := by
  have hleft : ∀ {l b}, slot (xs.set i none) l = some b → slot xs l = some b :=
    fun hb => ((slot_of_set hb).resolve_left (by simp)).2
  refine ⟨fun l b hb => h.home_le l b (hleft hb), fun l b hb => h.lt l b (hleft hb),
    fun l b k hb hfrom hto => ?_⟩
  by_cases hik : i = k
  · exact .inl (congrArg some hik)
  · rw [slot_set_ne hik]
    exact .inr ((h.taken l b k (hleft hb) hfrom hto).resolve_left (by simp))

end Near

section Exact

/-- Bit `b` at place `p` is set exactly when slot `p + b` has an entry with home `p`. -/
def ExactHops (home : α → Nat) (bit : Nat → Nat → Prop) (xs : List (Option α)) : Prop :=
  ∀ p b, bit p b ↔ ∃ a, slot xs (p + b) = some a ∧ home a = p

variable {bit bit' : Nat → Nat → Prop}

theorem exactHops_replicate (home : α → Nat) (s : Nat) :
    ExactHops home (fun _ _ => False) (List.replicate s none) := by
  intro p b
  simp [slot_replicate]

theorem ExactHops.put (h : ExactHops home bit xs) (hj : j < xs.length) (hfree : slot xs j = none)
    (hbit : ∀ p b, bit' p b ↔ bit p b ∨ p = home a ∧ p + b = j) :
    ExactHops home bit' (xs.set j (some a)) := by
  intro p b
  rw [hbit, h p b]
  by_cases hpb : j = p + b
  · rw [← hpb, slot_set_self hj, hfree]
    simp [eq_comm]
  · rw [slot_set_ne hpb]
    simp [Ne.symm hpb]

theorem ExactHops.take (h : ExactHops home bit xs) (ha : slot xs i = some a)
    (hbit : ∀ p b, bit' p b ↔ bit p b ∧ ¬ (p = home a ∧ p + b = i)) :
    ExactHops home bit' (xs.set i none) := by
  intro p b
  rw [hbit, h p b]
  by_cases hpb : i = p + b
  · rw [← hpb, slot_set_self (lt_of_slot ha), ha]
    simp [eq_comm]
  · rw [slot_set_ne hpb]
    simp [Ne.symm hpb]

end Exact

end JoinOptimizer.Lib
