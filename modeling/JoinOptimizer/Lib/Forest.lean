import Mathlib.Data.List.Nodup
import Mathlib.Data.List.Range

/-! Tables of nodes that name their children by their places, as a recursion makes them that adds the
children of a node before the node. -/

namespace JoinOptimizer.Lib

variable {α : Type} {children : α → List Nat} {start : Nat} {nodes : List α} {roots : List Nat}

section Places

variable {P : Nat → α → Prop}

theorem forall_getElem?_append {xs ys : List α} : (∀ (i : Nat) a, (xs ++ ys)[i]? = some a → P i a) ↔
    (∀ (i : Nat) a, xs[i]? = some a → P i a) ∧
      ∀ (i : Nat) a, ys[i]? = some a → P (xs.length + i) a := by
  constructor
  · intro h
    refine ⟨fun i a ha => h i a ?_, fun i a ha => h _ a ?_⟩
    · rwa [List.getElem?_append_left (List.getElem?_eq_some_iff.mp ha).1]
    · rwa [List.getElem?_append_right (Nat.le_add_right _ _), Nat.add_sub_cancel_left]
  · rintro ⟨hxs, hys⟩ i a ha
    by_cases hi : i < xs.length
    · rw [List.getElem?_append_left hi] at ha
      exact hxs i a ha
    · rw [List.getElem?_append_right (by omega)] at ha
      have hP := hys _ a ha
      rwa [Nat.add_sub_cancel' (by omega)] at hP

theorem forall_getElem?_singleton {b : α} : (∀ (i : Nat) a, [b][i]? = some a → P i a) ↔ P 0 b := by
  constructor
  · intro h
    exact h 0 b rfl
  · intro h i a ha
    obtain ⟨hi, rfl⟩ := List.getElem?_eq_some_iff.mp ha
    obtain rfl : i = 0 := by simpa using hi
    exact h

end Places

/-- The nodes from the place `start` on form a forest: a node names places before its own, and every
place is named once, by a node or as a root. -/
structure Forest (children : α → List Nat) (start : Nat) (nodes : List α) (roots : List Nat) :
    Prop where
  earlier : ∀ (i : Nat) a, nodes[i]? = some a → ∀ c ∈ children a, c < start + i
  once : (nodes.flatMap children ++ roots).Perm (List.range' start nodes.length)

namespace Forest

theorem nil : Forest children start [] [] := ⟨nofun, .refl _⟩

theorem lt_of_mem (h : Forest children start nodes roots) {r : Nat} (hr : r ∈ roots) :
    r < start + nodes.length :=
  (List.mem_range'_1.mp (h.once.mem_iff.mp (List.mem_append_right _ hr))).2

theorem append {more : List α} {moreRoots : List Nat} (h : Forest children start nodes roots)
    (h' : Forest children (start + nodes.length) more moreRoots) :
    Forest children start (nodes ++ more) (roots ++ moreRoots) := by
  refine ⟨forall_getElem?_append.mpr ⟨h.earlier, fun i a ha c hc => ?_⟩, ?_⟩
  · rw [← Nat.add_assoc]
    exact h'.earlier i a ha c hc
  · rw [List.flatMap_append, List.length_append, ← List.range'_append_1]
    refine .trans ?_ (h.once.append h'.once)
    rw [List.append_assoc, List.append_assoc]
    refine .append_left _ ?_
    rw [← List.append_assoc, ← List.append_assoc]
    exact List.perm_append_comm.append_right _

/-- A node over all roots. -/
theorem node (h : Forest children start nodes roots) {a : α} (ha : children a = roots) :
    Forest children start (nodes ++ [a]) [start + nodes.length] := by
  refine ⟨forall_getElem?_append.mpr ⟨h.earlier, forall_getElem?_singleton.mpr fun c hc => ?_⟩, ?_⟩
  · rw [ha] at hc
    exact h.lt_of_mem hc
  · have hflat : (nodes ++ [a]).flatMap children = nodes.flatMap children ++ roots := by
      rw [List.flatMap_append, List.flatMap_singleton, ha]
    rw [hflat, List.length_append, List.length_singleton, List.range'_concat, Nat.one_mul]
    exact h.once.append_right _

/-- Every node but the root has exactly one parent. -/
theorem count {root n : Nat} (h : Forest children 0 nodes [root]) (hn : n < nodes.length) :
    (nodes.flatMap children).count n = if n = root then 0 else 1 := by
  have hcount := h.once.count_eq n
  have hmem : n ∈ List.range' 0 nodes.length := List.mem_range'_1.mpr ⟨n.zero_le, by omega⟩
  rw [List.count_eq_one_of_mem List.nodup_range' hmem, List.count_append, List.count_singleton] at hcount
  by_cases hroot : n = root
  · rw [if_pos hroot]
    simp only [hroot, beq_self_eq_true, if_true] at hcount ⊢
    omega
  · rw [if_neg hroot]
    have hne : (root == n) = false := by simpa using fun heq => hroot heq.symm
    simpa [hne] using hcount

end Forest

end JoinOptimizer.Lib
