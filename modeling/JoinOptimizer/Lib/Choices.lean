import JoinOptimizer.Lib.Equijoin
import Mathlib.Data.List.Forall2

/-! The ways to choose one item for each of several keys: the cross product of named lists. -/

namespace JoinOptimizer.Lib

variable {κ α β : Type}

def choices : List (κ × List α) → List (List (κ × α))
  | [] => [[]]
  | (k, xs) :: rest => xs.flatMap fun a => (choices rest).map fun c => (k, a) :: c

theorem choices_cons (k : κ) (xs : List α) (rest : List (κ × List α)) :
    choices ((k, xs) :: rest) = xs.flatMap fun a => (choices rest).map fun c => (k, a) :: c := rfl

theorem choices_singleton (k : κ) (xs : List α) : choices [(k, xs)] = xs.map fun a => [(k, a)] := by
  simp [choices, List.map_eq_flatMap]

theorem mem_choices {lists : List (κ × List α)} {c : List (κ × α)} :
    c ∈ choices lists ↔ List.Forall₂ (fun x l => x.1 = l.1 ∧ x.2 ∈ l.2) c lists := by
  induction lists generalizing c with
  | nil => simp [choices]
  | cons l lists ih =>
    obtain ⟨k, xs⟩ := l
    rw [choices_cons, List.mem_flatMap]
    constructor
    · rintro ⟨a, ha, hc⟩
      obtain ⟨rest, hrest, rfl⟩ := List.mem_map.mp hc
      exact .cons ⟨rfl, ha⟩ (ih.mp hrest)
    · intro h
      cases h with
      | @cons x _ rest _ hx hrest =>
        obtain ⟨k', a⟩ := x
        obtain ⟨rfl, ha⟩ := hx
        exact ⟨a, ha, List.mem_map_of_mem (ih.mpr hrest)⟩

theorem keys_of_mem_choices {lists : List (κ × List α)} {c : List (κ × α)} (h : c ∈ choices lists) :
    c.map Prod.fst = lists.map Prod.fst := by
  rw [mem_choices] at h
  induction h with
  | nil => rfl
  | cons hx _ ih => rw [List.map_cons, List.map_cons, hx.1, ih]

/-- The choices for two families are the pairs of choices for either. -/
theorem choices_append (lists lists' : List (κ × List α)) :
    choices (lists ++ lists') = (choices lists ×ˢ choices lists').map fun p => p.1 ++ p.2 := by
  have hproduct : ∀ cs cs' : List (List (κ × α)), (cs ×ˢ cs').map (fun p => p.1 ++ p.2) =
      cs.flatMap fun c => cs'.map fun c' => c ++ c' := by
    intro cs cs'
    show List.map _ (cs.flatMap fun c => cs'.map fun c' => (c, c')) = _
    simp [List.map_flatMap, Function.comp_def]
  rw [hproduct]
  induction lists with
  | nil => simp [choices]
  | cons l lists ih =>
    obtain ⟨k, xs⟩ := l
    rw [List.cons_append, choices_cons, choices_cons, ih, List.flatMap_assoc]
    refine List.flatMap_congr fun a _ => ?_
    rw [List.map_flatMap, List.flatMap_map]
    refine List.flatMap_congr fun c _ => ?_
    rw [List.map_map]
    rfl

theorem choices_filter (p : κ → α → Bool) (lists : List (κ × List α)) :
    choices (lists.map fun l => (l.1, l.2.filter (p l.1))) =
      (choices lists).filter fun c => c.all fun x => p x.1 x.2 := by
  induction lists with
  | nil => rfl
  | cons l lists ih =>
    obtain ⟨k, xs⟩ := l
    rw [List.map_cons, choices_cons, choices_cons, ih]
    induction xs with
    | nil => rfl
    | cons a xs ihx =>
      rw [List.flatMap_cons, List.filter_append, ← ihx, List.filter_map]
      by_cases h : p k a = true
      · rw [List.filter_cons_of_pos h, List.flatMap_cons]
        congr 2
        refine List.filter_congr fun c _ => ?_
        simp [h]
      · rw [List.filter_cons_of_neg h]
        simp [h, Function.comp_def]

/-- The choices under other keys. -/
theorem choices_rename {κ' : Type} (f : κ → κ') (lists : List (κ × List α)) :
    choices (lists.map fun l => (f l.1, l.2)) = (choices lists).map (List.map (Prod.map f id)) := by
  induction lists with
  | nil => rfl
  | cons l lists ih =>
    obtain ⟨k, xs⟩ := l
    rw [List.map_cons, choices_cons, choices_cons, ih, List.map_flatMap]
    refine List.flatMap_congr fun a _ => ?_
    rw [List.map_map, List.map_map]
    rfl

theorem exists_choice_perm {lists lists' : List (κ × List α)} (h : lists.Perm lists')
    {c' : List (κ × α)} (hc' : c' ∈ choices lists') : ∃ c ∈ choices lists, c.Perm c' := by
  obtain ⟨c, hc, hperm⟩ := List.perm_comp_forall₂ h (mem_choices.mp hc').flip
  exact ⟨c, mem_choices.mpr hc.flip, hperm⟩

/-- In another order of the keys the choices are the same, up to their order and the order within each. -/
theorem choices_perm {lists lists' : List (κ × List α)} (h : lists.Perm lists') (g : List (κ × α) → β)
    (hg : ∀ c ∈ choices lists, ∀ c', c.Perm c' → g c = g c') :
    ((choices lists).map g).Perm ((choices lists').map g) := by
  induction h generalizing g with
  | nil => exact .refl _
  | cons l h ih =>
    obtain ⟨k, xs⟩ := l
    rw [choices_cons, choices_cons, List.map_flatMap, List.map_flatMap]
    refine List.Perm.flatMap_left _ fun a ha => ?_
    rw [List.map_map, List.map_map]
    refine ih (g ∘ fun c => (k, a) :: c) fun c hc c' hperm => ?_
    exact hg _ (List.mem_flatMap.mpr ⟨a, ha, List.mem_map_of_mem hc⟩) _ (hperm.cons _)
  | swap l l' rest =>
    obtain ⟨k, xs⟩ := l
    obtain ⟨k', xs'⟩ := l'
    have hcons : ∀ (k : κ) (xs : List α) (k' : κ) (xs' : List α),
        (choices ((k, xs) :: (k', xs') :: rest)).map g =
          xs.flatMap fun a => xs'.flatMap fun b => (choices rest).map fun c =>
            g ((k, a) :: (k', b) :: c) := by
      intro k xs k' xs'
      simp only [choices_cons, List.map_flatMap, List.map_map, Function.comp_def]
    rw [hcons, hcons]
    refine (flatMap_flatMap_perm _ _ _).trans (.of_eq ?_)
    refine List.flatMap_congr fun a ha => List.flatMap_congr fun b hb => List.map_congr_left fun c hc => ?_
    refine hg _ ?_ _ (.swap _ _ c)
    exact List.mem_flatMap.mpr ⟨b, hb, List.mem_map_of_mem
      (List.mem_flatMap.mpr ⟨a, ha, List.mem_map_of_mem hc⟩)⟩
  | trans h _ ih ih' =>
    refine (ih g hg).trans (ih' g fun c hc c' hperm => ?_)
    obtain ⟨c₀, hc₀, hperm₀⟩ := exists_choice_perm h hc
    rw [← hg c₀ hc₀ c hperm₀, hg c₀ hc₀ c' (hperm₀.trans hperm)]

end JoinOptimizer.Lib
