import Mathlib.Data.List.Induction
import Mathlib.Data.List.ReduceOption

/-! Arrays of slots, each of which is free or holds one entry. -/

namespace JoinOptimizer.Lib

variable {α : Type} {xs : List (Option α)} {i j : Nat} {a : α}

/-- The entry in a slot. -/
def slot (xs : List (Option α)) (i : Nat) : Option α := xs[i]?.join

theorem slot_eq_some : slot xs i = some a ↔ xs[i]? = some (some a) := by
  unfold slot
  cases h : xs[i]? <;> simp

theorem lt_of_slot (h : slot xs i = some a) : i < xs.length :=
  (List.getElem?_eq_some_iff.mp (slot_eq_some.mp h)).1

theorem mem_reduceOption_iff_slot : a ∈ xs.reduceOption ↔ ∃ i, slot xs i = some a := by
  rw [List.reduceOption_mem_iff, List.mem_iff_getElem?]
  exact exists_congr fun i => slot_eq_some.symm

theorem slot_set_self (hi : i < xs.length) (x : Option α) : slot (xs.set i x) i = x := by
  simp [slot, hi]

theorem slot_set_ne (h : i ≠ j) (x : Option α) : slot (xs.set i x) j = slot xs j := by
  simp [slot, h]

theorem slot_of_set {x : Option α} (h : slot (xs.set i x) j = some a) :
    i = j ∧ x = some a ∨ i ≠ j ∧ slot xs j = some a := by
  by_cases hij : i = j
  · subst hij
    rw [slot_set_self (by simpa using lt_of_slot h)] at h
    exact .inl ⟨rfl, h⟩
  · rw [slot_set_ne hij] at h
    exact .inr ⟨hij, h⟩

theorem slot_replicate (n i : Nat) : slot (List.replicate n (none : Option α)) i = none := by
  unfold slot
  rw [List.getElem?_replicate]
  split <;> rfl

theorem slot_replicate_ne_some (n i : Nat) (a : α) : slot (List.replicate n none) i ≠ some a := by
  simp [slot_replicate]

theorem slot_set_isSome (hi : i < xs.length) (h : (slot xs j).isSome) (a : α) :
    (slot (xs.set i (some a)) j).isSome := by
  by_cases hij : i = j
  · subst hij
    simp [slot_set_self hi]
  · rwa [slot_set_ne hij]

/-- Every entry is in the slot that `place` gives it. -/
def InPlace (place : α → Nat) (xs : List (Option α)) : Prop := ∀ i a, slot xs i = some a → place a = i

section InPlace

variable {place : α → Nat}

theorem inPlace_replicate (n : Nat) : InPlace place (List.replicate n none) :=
  fun i a h => absurd h (slot_replicate_ne_some n i a)

theorem InPlace.set (h : InPlace place xs) (ha : place a = i) : InPlace place (xs.set i (some a)) := by
  intro j b hb
  rcases slot_of_set hb with ⟨rfl, hab⟩ | ⟨-, hb⟩
  · cases hab
    exact ha
  · exact h j b hb

theorem InPlace.eq_of_set (h : InPlace place (xs.set i (some a))) (hi : i < xs.length) : place a = i :=
  h i a (slot_set_self hi _)

end InPlace

/-- What comes into a slot and what goes out of it balance. -/
theorem reduceOption_set_perm (hi : i < xs.length) (x : Option α) :
    ((slot xs i).toList ++ (xs.set i x).reduceOption).Perm (x.toList ++ xs.reduceOption) := by
  have hslot : slot xs i = xs[i] := by
    simp [slot, hi]
  have hsplit : xs = xs.take i ++ xs[i] :: xs.drop (i + 1) := by
    rw [List.getElem_cons_drop, List.take_append_drop]
  have hcons : ∀ (y : Option α) (ys : List (Option α)),
      (y :: ys).reduceOption = y.toList ++ ys.reduceOption := by
    intro y ys
    cases y <;> simp [List.reduceOption_cons_of_some, List.reduceOption_cons_of_none]
  rw [hslot, List.set_eq_take_append_cons_drop, if_pos hi]
  conv_rhs => rw [hsplit]
  simp only [List.reduceOption_append, hcons]
  generalize (List.take i xs).reduceOption = before
  generalize (List.drop (i + 1) xs).reduceOption = behind
  -- the slot's own entry moves to the front, then the new one before it
  refine (List.Perm.append_left _ (List.perm_append_comm_assoc before x.toList behind)).trans ?_
  refine (List.perm_append_comm_assoc xs[i].toList x.toList _).trans ?_
  exact List.Perm.append_left _ (List.perm_append_comm_assoc xs[i].toList before behind)

/-- An entry put into a free slot is one entry more. -/
theorem length_reduceOption_put (hi : i < xs.length) (hfree : slot xs i = none) (a : α) :
    (xs.set i (some a)).reduceOption.length = xs.reduceOption.length + 1 := by
  have hlen := (reduceOption_set_perm hi (some a)).length_eq
  rw [hfree] at hlen
  simpa [Nat.add_comm] using hlen

/-- An entry put in the place of another is as many entries. -/
theorem length_reduceOption_swap {b : α} (hb : slot xs i = some b) (a : α) :
    (xs.set i (some a)).reduceOption.length = xs.reduceOption.length := by
  have hlen := (reduceOption_set_perm (lt_of_slot hb) (some a)).length_eq
  rw [hb] at hlen
  simpa using hlen

/-- Where the slots from a place on are all taken, there are as many entries. -/
theorem sub_le_length_reduceOption (h : ∀ j, i ≤ j → j < xs.length → (slot xs j).isSome) :
    xs.length - i ≤ xs.reduceOption.length := by
  have hdrop : (xs.drop i).reduceOption.length = (xs.drop i).length := by
    rw [List.reduceOption_length_eq_iff]
    intro x hx
    obtain ⟨k, hk⟩ := List.mem_iff_getElem?.mp hx
    rw [List.getElem?_drop] at hk
    have htaken := h (i + k) (Nat.le_add_right i k) (List.getElem?_eq_some_iff.mp hk).1
    simpa [slot, hk] using htaken
  have hsplit : xs.reduceOption = (xs.take i).reduceOption ++ (xs.drop i).reduceOption := by
    rw [← List.reduceOption_append, List.take_append_drop]
  rw [hsplit, List.length_append, hdrop, List.length_drop]
  exact Nat.le_add_left _ _

/-- The entries slot by slot. -/
theorem flatMap_slot (xs : List (Option α)) :
    ((List.range xs.length).flatMap fun i => (slot xs i).toList) = xs.reduceOption := by
  induction xs using List.reverseRecOn with
  | nil => rfl
  | append_singleton xs x ih =>
    rw [List.length_append, List.length_singleton, List.range_succ, List.flatMap_append,
      List.reduceOption_append, ← ih]
    congr 1
    · refine List.flatMap_congr fun i hi => ?_
      rw [slot, List.getElem?_append_left (List.mem_range.mp hi), slot]
    · simp [slot, List.reduceOption_singleton]

end JoinOptimizer.Lib
