import Mathlib.Data.List.Perm.Basic
import Mathlib.Data.List.ProdSigma

/-! The pairs of rows of two tables whose keys are there and equal. -/

namespace JoinOptimizer.Lib

variable {α β α' β' κ : Type} [DecidableEq κ]

def equijoin (keyL : α → Option κ) (keyR : β → Option κ) (ls : List α) (rs : List β) :
    List (α × β) :=
  (ls ×ˢ rs).filter fun x => (keyL x.1).isSome ∧ keyL x.1 = keyR x.2

/-- The rows with the key `k`; no row has the key `none`. -/
def matching (key : α → Option κ) (k : Option κ) (xs : List α) : List α :=
  xs.filter fun a => k.isSome ∧ key a = k

variable {keyL : α → Option κ} {keyR : β → Option κ}

/-- Nested loops in either order make the same pairs. -/
theorem flatMap_flatMap_perm {γ : Type} (f : α → β → List γ) (ls : List α) (rs : List β) :
    (ls.flatMap fun a => rs.flatMap (f a)).Perm (rs.flatMap fun b => ls.flatMap (f · b)) := by
  induction ls with
  | nil => simp
  | cons a ls ih =>
    rw [List.flatMap_cons]
    exact (ih.append_left _).trans (List.flatMap_append_perm rs (f a) _)

private theorem matching_map_eq (key : α → Option κ) (k : Option κ) (xs : List α) (f : α → β) :
    (matching key k xs).map f = xs.flatMap fun a => if k.isSome ∧ key a = k then [f a] else [] := by
  unfold matching
  induction xs with
  | nil => rfl
  | cons a xs ih =>
    rw [List.flatMap_cons, ← ih]
    by_cases h : k.isSome ∧ key a = k
    · rw [List.filter_cons_of_pos (by simpa using h), if_pos h]
      rfl
    · rw [List.filter_cons_of_neg (by simpa using h), if_neg h]
      rfl

theorem equijoin_eq_flatMap (ls : List α) (rs : List β) : equijoin keyL keyR ls rs =
    ls.flatMap fun l => rs.flatMap fun r =>
      if (keyL l).isSome ∧ keyL l = keyR r then [(l, r)] else [] := by
  show List.filter _ (ls.flatMap fun l => rs.map fun r => (l, r)) = _
  rw [List.filter_flatMap]
  apply List.flatMap_congr
  intro l _
  induction rs with
  | nil => rfl
  | cons r rs ih =>
    rw [List.map_cons, List.flatMap_cons, ← ih]
    by_cases h : (keyL l).isSome ∧ keyL l = keyR r
    · rw [List.filter_cons_of_pos (by simpa using h), if_pos h]
      rfl
    · rw [List.filter_cons_of_neg (by simpa using h), if_neg h]
      rfl

/-- For each left row the right rows with its key. -/
theorem equijoin_perm_left (ls : List α) (rs : List β) : (equijoin keyL keyR ls rs).Perm
    (ls.flatMap fun l => (matching keyR (keyL l) rs).map fun r => (l, r)) := by
  rw [equijoin_eq_flatMap]
  refine List.Perm.of_eq (List.flatMap_congr fun l _ => ?_)
  rw [matching_map_eq]
  apply List.flatMap_congr
  intro r _
  simp only [eq_comm]

/-- For each right row the left rows with its key. -/
theorem equijoin_perm_right (ls : List α) (rs : List β) : (equijoin keyL keyR ls rs).Perm
    (rs.flatMap fun r => (matching keyL (keyR r) ls).map fun l => (l, r)) := by
  rw [equijoin_eq_flatMap]
  refine (flatMap_flatMap_perm _ ls rs).trans
    (List.Perm.of_eq (List.flatMap_congr fun r _ => ?_))
  rw [matching_map_eq]
  apply List.flatMap_congr
  intro l _
  by_cases h : keyL l = keyR r
  · rw [h]
  · rw [if_neg fun h' => h h'.2, if_neg fun h' => h h'.2]

theorem equijoin_perm {ls ls' : List α} {rs rs' : List β} (hl : ls.Perm ls') (hr : rs.Perm rs') :
    (equijoin keyL keyR ls rs).Perm (equijoin keyL keyR ls' rs') :=
  (hl.product hr).filter _

/-- The join of mapped rows. -/
theorem equijoin_map (f : α' → α) (g : β' → β) (ls : List α') (rs : List β') :
    equijoin keyL keyR (ls.map f) (rs.map g) =
      (equijoin (keyL ∘ f) (keyR ∘ g) ls rs).map (Prod.map f g) := by
  rw [equijoin_eq_flatMap, equijoin_eq_flatMap, List.flatMap_map, List.map_flatMap]
  apply List.flatMap_congr
  intro l _
  rw [List.flatMap_map, List.map_flatMap]
  apply List.flatMap_congr
  intro r _
  simp only [Function.comp_apply]
  split <;> rfl

theorem filter_product (p : α → Bool) (q : β → Bool) (ls : List α) (rs : List β) :
    (ls.filter p) ×ˢ (rs.filter q) = (ls ×ˢ rs).filter fun x => p x.1 && q x.2 := by
  induction ls with
  | nil => rfl
  | cons l ls ih =>
    rw [List.product_cons, List.filter_append, List.filter_map, ← ih, List.filter_cons]
    by_cases h : p l = true
    · rw [if_pos h, List.product_cons]
      simp [h, Function.comp_def]
    · rw [if_neg h]
      simp [h, Function.comp_def]

theorem equijoin_congr {κ' : Type} [DecidableEq κ'] {keyL' : α → Option κ'} {keyR' : β → Option κ'}
    {ls : List α} {rs : List β}
    (h : ∀ l ∈ ls, ∀ r ∈ rs, ((keyL l).isSome ∧ keyL l = keyR r) ↔
      ((keyL' l).isSome ∧ keyL' l = keyR' r)) :
    equijoin keyL keyR ls rs = equijoin keyL' keyR' ls rs := by
  apply List.filter_congr
  rintro ⟨l, r⟩ hx
  rw [List.mem_product] at hx
  exact decide_eq_decide.mpr (h l hx.1 r hx.2)

theorem mem_equijoin {ls : List α} {rs : List β} {l : α} {r : β} :
    (l, r) ∈ equijoin keyL keyR ls rs ↔
      l ∈ ls ∧ r ∈ rs ∧ (keyL l).isSome ∧ keyL l = keyR r := by
  unfold equijoin
  rw [List.mem_filter, List.mem_product]
  simp only [decide_eq_true_eq, and_assoc]

end JoinOptimizer.Lib
