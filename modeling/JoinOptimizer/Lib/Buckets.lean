import Mathlib.Data.List.Perm.Basic
import Mathlib.Data.List.Nodup
import Mathlib.Data.List.FinRange
import Mathlib.Logic.Function.Basic
import Mathlib.Algebra.BigOperators.Group.List.Basic

/-! Elements spread over buckets, arrays that a function gives, and where each bucket starts when
the buckets lie one behind the other. -/

namespace JoinOptimizer.Lib

variable {α ω : Type}

section Spread

variable [DecidableEq ω]

/-- All buckets, with the bucket of `w` first and the others as they are whatever it becomes. -/
theorem flatMap_update_perm {ws : List ω} {w : ω} (hnodup : ws.Nodup) (hw : w ∈ ws)
    (f : ω → List α) (b : List α) :
    (ws.flatMap (Function.update f w b)).Perm (b ++ (ws.erase w).flatMap f) := by
  have hrest : (ws.erase w).flatMap (Function.update f w b) = (ws.erase w).flatMap f := by
    apply List.flatMap_congr
    intro v hv
    have hne : v ≠ w := ((List.Nodup.mem_erase_iff hnodup).mp hv).1
    rw [Function.update_of_ne hne]
  have hall := (List.perm_cons_erase hw).flatMap_right (Function.update f w b)
  rwa [List.flatMap_cons, Function.update_self, hrest] at hall

theorem flatMap_perm_of_mem {ws : List ω} {w : ω} (hnodup : ws.Nodup) (hw : w ∈ ws)
    (f : ω → List α) : (ws.flatMap f).Perm (f w ++ (ws.erase w).flatMap f) := by
  have h := flatMap_update_perm hnodup hw f (f w)
  rwa [Function.update_eq_self] at h

/-- Splitting a list by a key loses nothing. -/
theorem flatMap_filter_perm {ws : List ω} (hnodup : ws.Nodup) (key : α → ω) (xs : List α)
    (hkey : ∀ a ∈ xs, key a ∈ ws) : (ws.flatMap fun w => xs.filter (key · = w)).Perm xs := by
  induction xs with
  | nil => simp
  | cons a xs ih =>
    have hsplit : (fun w => (a :: xs).filter (key · = w)) =
        Function.update (fun w => xs.filter (key · = w)) (key a)
          (a :: xs.filter (key · = key a)) := by
      funext w
      by_cases hw : w = key a
      · subst hw
        simp
      · rw [Function.update_of_ne hw, List.filter_cons_of_neg (by simpa using Ne.symm hw)]
    have ha := hkey a (by simp)
    rw [hsplit]
    refine (flatMap_update_perm hnodup ha _ _).trans (List.Perm.cons a ?_)
    exact (flatMap_perm_of_mem hnodup ha _).symm.trans (ih fun b hb => hkey b (by simp [hb]))

end Spread

section Tab

/-- The list of the first `n` values of a function. -/
def tab (n : Nat) (f : Nat → α) : List α := (List.range n).map f

@[simp] theorem length_tab (n : Nat) (f : Nat → α) : (tab n f).length = n := by simp [tab]

theorem getElem?_tab {n i : Nat} {f : Nat → α} (hi : i < n) : (tab n f)[i]? = some (f i) := by
  simp [tab, hi]

theorem set_tab (n i : Nat) (f : Nat → α) (a : α) :
    (tab n f).set i a = tab n (Function.update f i a) := by
  apply List.ext_getElem
  · simp
  · intro j hj hj'
    simp only [tab, List.getElem_set, List.getElem_map, List.getElem_range]
    by_cases h : i = j
    · subst h
      simp
    · rw [if_neg h, Function.update_of_ne (Ne.symm h)]

theorem tab_congr {n : Nat} {f g : Nat → α} (h : ∀ i < n, f i = g i) : tab n f = tab n g :=
  List.map_congr_left fun i hi => h i (List.mem_range.mp hi)

theorem replicate_eq_tab (n : Nat) (a : α) : List.replicate n a = tab n fun _ => a := by
  simp [tab]

end Tab

section Starts

/-- The sum of the sizes of the buckets before bucket `s`. -/
def startOf (size : Nat → Nat) : Nat → Nat
  | 0 => 0
  | s + 1 => startOf size s + size s

theorem startOf_mono (size : Nat → Nat) {s s' : Nat} (h : s ≤ s') :
    startOf size s ≤ startOf size s' := by
  induction h with
  | refl => exact Nat.le_refl _
  | step _ ih => exact Nat.le_trans ih (Nat.le_add_right _ _)

/-- Places in different buckets are different. -/
theorem startOf_add_inj {size : Nat → Nat} {s s' r r' : Nat} (hr : r < size s) (hr' : r' < size s')
    (h : startOf size s + r = startOf size s' + r') : s = s' ∧ r = r' := by
  rcases Nat.lt_trichotomy s s' with hlt | rfl | hlt
  · have hle := startOf_mono size (show s + 1 ≤ s' from hlt)
    rw [startOf] at hle
    omega
  · exact ⟨rfl, by omega⟩
  · have hle := startOf_mono size (show s' + 1 ≤ s from hlt)
    rw [startOf] at hle
    omega

theorem countP_lt_succ (key : α → Nat) (xs : List α) (n : Nat) :
    xs.countP (key · < n + 1) = xs.countP (key · < n) + xs.countP (key · = n) := by
  induction xs with
  | nil => rfl
  | cons a xs ih =>
    simp only [List.countP_cons, decide_eq_true_eq]
    rw [ih]
    rcases Nat.lt_trichotomy (key a) n with h | h | h
    · simp [h, show key a < n + 1 by omega, show key a ≠ n by omega]
      omega
    · simp [h]
      omega
    · simp [show ¬ key a < n by omega, show ¬ key a < n + 1 by omega, show key a ≠ n by omega]

/-- The start of bucket `n` counts the elements whose key is smaller. -/
theorem startOf_countP (key : α → Nat) (xs : List α) (n : Nat) :
    startOf (fun s => xs.countP (key · = s)) n = xs.countP (key · < n) := by
  induction n with
  | zero => simp [startOf]
  | succ n ih => rw [startOf, ih, countP_lt_succ]

/-- In a sorted list the elements with a smaller key come first. -/
theorem lt_countP_iff_of_sorted {key : α → Nat} {xs : List α}
    (h : xs.Pairwise fun a b => key a ≤ key b) (n : Nat) {i : Nat} (hi : i < xs.length) :
    i < xs.countP (key · < n) ↔ key xs[i] < n := by
  induction xs generalizing i with
  | nil => exact absurd hi (Nat.not_lt_zero i)
  | cons a xs ih =>
    obtain ⟨hfirst, hrest⟩ := List.pairwise_cons.mp h
    by_cases ha : key a < n
    · rw [List.countP_cons_of_pos (by simpa using ha)]
      cases i with
      | zero => simpa using ha
      | succ i => simpa using ih hrest (by simpa using hi)
    · have hnone : xs.countP (key · < n) = 0 := by
        rw [List.countP_eq_zero]
        intro b hb
        have hle := hfirst b hb
        simp only [decide_eq_true_eq]
        omega
      rw [List.countP_cons_of_neg (by simpa using ha), hnone]
      have hkey : n ≤ key (a :: xs)[i] := by
        cases i with
        | zero => exact Nat.le_of_not_lt ha
        | succ i => exact (Nat.le_of_not_lt ha).trans (hfirst _ (List.getElem_mem _))
      omega

/-- The elements of a sorted list with one key are a slice of it. -/
theorem filter_eq_slice_of_sorted {key : α → Nat} {xs : List α}
    (h : xs.Pairwise fun a b => key a ≤ key b) (n : Nat) :
    xs.filter (key · = n) = (xs.drop (xs.countP (key · < n))).take (xs.countP (key · = n)) := by
  induction xs with
  | nil => rfl
  | cons a xs ih =>
    obtain ⟨hfirst, hrest⟩ := List.pairwise_cons.mp h
    have ih := ih hrest
    have hsmaller : n ≤ key a → xs.countP (key · < n) = 0 := fun hle => by
      rw [List.countP_eq_zero]
      intro b hb
      have hb := hfirst b hb
      simp only [decide_eq_true_eq]
      omega
    rcases Nat.lt_trichotomy (key a) n with ha | ha | ha
    · simp [ha, Nat.ne_of_lt ha, ih]
    · simp [ha, hsmaller (Nat.le_of_eq ha.symm), ih]
    · have hnone : xs.countP (key · = n) = 0 := by
        rw [List.countP_eq_zero]
        intro b hb
        have hle := hfirst b hb
        simp only [decide_eq_true_eq]
        omega
      simp only [hnone, List.take_zero] at ih
      simp [Nat.not_lt.mpr ha.le, Nat.ne_of_gt ha, hnone, ih]

end Starts

/-- Consecutive slices make up a range. -/
theorem flatMap_slices (n : Nat) (start : Nat → Nat) (hmono : ∀ i < n, start i ≤ start (i + 1)) :
    (List.finRange n).flatMap (fun i : Fin n => List.range' (start i) (start (i + 1) - start i)) =
      List.range' (start 0) (start n - start 0) ∧ start 0 ≤ start n := by
  induction n with
  | zero => simp
  | succ n ih =>
    obtain ⟨ih, hle⟩ := ih fun i hi => hmono i (by omega)
    have hn := hmono n (by omega)
    refine ⟨?_, by omega⟩
    have hlast : start (n + 1) - start 0 = (start n - start 0) + (start (n + 1) - start n) := by
      omega
    have hmeet : start n = start 0 + (start n - start 0) := by omega
    rw [List.finRange_succ_last, List.flatMap_append, List.flatMap_map, List.flatMap_singleton]
    simp only [Fin.val_castSucc, Fin.val_last]
    rw [ih, hlast, ← List.range'_append_1, ← hmeet]

end JoinOptimizer.Lib
