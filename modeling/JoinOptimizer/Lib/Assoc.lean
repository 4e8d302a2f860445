import Mathlib.Data.List.Nodup
import Mathlib.Data.List.Perm.Basic

/-! Lists of keys and values, of which `lookup` finds the first. -/

namespace JoinOptimizer.Lib

variable {κ κ' ν : Type} [DecidableEq κ] [DecidableEq κ'] {m m' : List (κ × ν)} {k : κ} {v : ν}

theorem lookup_eq_none_of_not_mem (h : k ∉ m.map Prod.fst) : m.lookup k = none := by
  rw [List.lookup_eq_none_iff]
  intro p hp
  simp only [bne_iff_ne, ne_eq]
  rintro rfl
  exact h (List.mem_map_of_mem hp)

theorem mem_keys_of_lookup (h : m.lookup k = some v) : k ∈ m.map Prod.fst := by
  by_contra hnot
  rw [lookup_eq_none_of_not_mem hnot] at h
  cases h

theorem mem_of_lookup (h : m.lookup k = some v) : (k, v) ∈ m := by
  obtain ⟨pre, post, hsplit, -⟩ := List.lookup_eq_some_iff.mp h
  simp [hsplit]

/-- The value of a key that is there once. -/
theorem lookup_of_mem {item : κ × ν} (hnodup : (m.map Prod.fst).Nodup) (h : item ∈ m) :
    m.lookup item.1 = some item.2 := by
  induction m with
  | nil => cases h
  | cons p m ih =>
    rw [List.map_cons, List.nodup_cons] at hnodup
    rcases List.mem_cons.mp h with rfl | h
    · exact List.lookup_cons_self
    · have hne : item.1 ≠ p.1 := fun heq => hnodup.1 (heq ▸ List.mem_map_of_mem h)
      rw [List.lookup_cons, beq_false_of_ne hne]
      exact ih hnodup.2 h

theorem lookup_perm (h : m.Perm m') (hnodup : (m.map Prod.fst).Nodup) (k : κ) :
    m.lookup k = m'.lookup k := by
  have hnodup' : (m'.map Prod.fst).Nodup := (h.map _).nodup_iff.mp hnodup
  cases hlookup : m.lookup k with
  | some v => exact (lookup_of_mem hnodup' (h.mem_iff.mp (mem_of_lookup hlookup))).symm
  | none =>
    symm
    apply lookup_eq_none_of_not_mem
    intro hmem
    obtain ⟨item, hv, rfl⟩ := List.mem_map.mp hmem
    rw [lookup_of_mem hnodup (h.mem_iff.mpr hv)] at hlookup
    cases hlookup

/-- The value under another key. -/
theorem lookup_rename (f : κ → κ') (hinj : ∀ p ∈ m, f p.1 = f k → p.1 = k) :
    (m.map (Prod.map f id)).lookup (f k) = m.lookup k := by
  induction m with
  | nil => rfl
  | cons p m ih =>
    obtain ⟨k', v⟩ := p
    rw [List.map_cons, Prod.map, List.lookup_cons, List.lookup_cons,
      ih fun p hp => hinj p (List.mem_cons_of_mem _ hp)]
    by_cases hk : k = k'
    · simp [hk]
    · have hne : f k ≠ f k' := fun heq => hk (hinj (k', v) List.mem_cons_self heq.symm).symm
      simp [beq_false_of_ne hk, beq_false_of_ne hne]

/-- The values after one key has been given another one. -/
theorem lookup_mapIf (m : List (κ × ν)) (k k' : κ) (v : ν) :
    (m.map fun c => if c.1 = k then (c.1, v) else c).lookup k' =
      if k' = k then (m.lookup k').map fun _ => v else m.lookup k' := by
  induction m with
  | nil => simp
  | cons c m ih =>
    obtain ⟨k'', w⟩ := c
    rw [List.map_cons]
    by_cases hc : k'' = k
    · subst hc
      rw [if_pos rfl, List.lookup_cons, List.lookup_cons, ih]
      by_cases hk : k' = k''
      · simp [hk]
      · simp [hk, beq_false_of_ne hk]
    · rw [if_neg hc, List.lookup_cons, List.lookup_cons, ih]
      by_cases hk : k' = k''
      · subst hk
        simp [hc]
      · simp [beq_false_of_ne hk]

end JoinOptimizer.Lib
