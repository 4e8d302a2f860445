import Mathlib.Data.List.Perm.Subperm
import Mathlib.Data.List.Range

/-! Forests of parents, in which a root is its own parent, and the sets of elements that share a
root. -/

namespace JoinOptimizer.Lib

/-- Element `x` leads to the root `r` over `d` parents. -/
inductive Leads (pa : List Nat) : Nat → Nat → Nat → Prop
  | root {r : Nat} : pa[r]? = some r → Leads pa 0 r r
  | step {d x p r : Nat} : pa[x]? = some p → p ≠ x → Leads pa d p r → Leads pa (d + 1) x r

/-- The root of an element. -/
def RootOf (pa : List Nat) (x r : Nat) : Prop := ∃ d, Leads pa d x r

/-- Every element has a root. -/
def IsForest (pa : List Nat) : Prop := ∀ x < pa.length, ∃ r, RootOf pa x r

/-- Two elements that share a root. -/
def SameSet (pa : List Nat) (x y : Nat) : Prop := ∃ r, RootOf pa x r ∧ RootOf pa y r

section Leads

variable {pa : List Nat} {d e x y r s : Nat}

theorem Leads.unique (h : Leads pa d x r) (h' : Leads pa e x s) : d = e ∧ r = s := by
  induction h generalizing e with
  | root hroot =>
    cases h' with
    | root => exact ⟨rfl, rfl⟩
    | step hparent hne _ => exact absurd (Option.some.inj (hparent.symm.trans hroot)) hne
  | step hparent hne _ ih =>
    cases h' with
    | root hroot => exact absurd (Option.some.inj (hparent.symm.trans hroot)) hne
    | step hparent' _ hrest =>
      obtain rfl := Option.some.inj (hparent.symm.trans hparent')
      obtain ⟨rfl, rfl⟩ := ih hrest
      exact ⟨rfl, rfl⟩

theorem Leads.isRoot (h : Leads pa d x r) : pa[r]? = some r := by
  induction h with
  | root hroot => exact hroot
  | step _ _ _ ih => exact ih

theorem Leads.lt (h : Leads pa d x r) : x < pa.length := by
  cases h with
  | root hroot => exact (List.getElem?_eq_some_iff.mp hroot).1
  | step hparent _ _ => exact (List.getElem?_eq_some_iff.mp hparent).1

/-- The elements on the way to a root are different. -/
theorem Leads.path (h : Leads pa d x r) :
    ∃ path : List Nat, path.Nodup ∧ path.length = d + 1 ∧
      ∀ y ∈ path, ∃ e ≤ d, Leads pa e y r := by
  induction h with
  | root hroot => exact ⟨[_], by simp, rfl, fun y hy => ⟨0, Nat.le_refl 0, by
      obtain rfl := List.mem_singleton.mp hy
      exact .root hroot⟩⟩
  | @step d x p r hparent hne hrest ih =>
    obtain ⟨path, hnodup, hlen, hpath⟩ := ih
    have hx : Leads pa (d + 1) x r := .step hparent hne hrest
    refine ⟨x :: path, List.nodup_cons.mpr ⟨fun hmem => ?_, hnodup⟩, by rw [List.length_cons, hlen], ?_⟩
    · obtain ⟨e, he, hlead⟩ := hpath x hmem
      have := (hx.unique hlead).1
      omega
    · intro y hy
      rcases List.mem_cons.mp hy with rfl | hy
      · exact ⟨d + 1, Nat.le_refl _, hx⟩
      · obtain ⟨e, he, hlead⟩ := hpath y hy
        exact ⟨e, by omega, hlead⟩

/-- A way to a root is shorter than the forest is large. -/
theorem Leads.depth_lt (h : Leads pa d x r) : d < pa.length := by
  obtain ⟨path, hnodup, hlen, hpath⟩ := h.path
  have hsub : path ⊆ List.range pa.length := by
    intro y hy
    obtain ⟨e, -, hlead⟩ := hpath y hy
    exact List.mem_range.mpr hlead.lt
  have hle := (List.subperm_of_subset hnodup hsub).length_le
  rw [List.length_range] at hle
  omega

end Leads

section RootOf

variable {pa : List Nat} {x y z r s : Nat}

theorem RootOf.unique (h : RootOf pa x r) (h' : RootOf pa x s) : r = s := by
  obtain ⟨d, hd⟩ := h
  obtain ⟨e, he⟩ := h'
  exact (hd.unique he).2

theorem RootOf.isRoot (h : RootOf pa x r) : pa[r]? = some r := h.choose_spec.isRoot

theorem RootOf.lt (h : RootOf pa x r) : x < pa.length := h.choose_spec.lt

theorem rootOf_self (h : pa[r]? = some r) : RootOf pa r r := ⟨0, .root h⟩

theorem SameSet.symm (h : SameSet pa x y) : SameSet pa y x := by
  obtain ⟨r, hx, hy⟩ := h
  exact ⟨r, hy, hx⟩

/-- A parent may be replaced by the root. -/
theorem RootOf.set_of (hx : RootOf pa x r) (h : RootOf pa z s) : RootOf (pa.set x r) z s := by
  obtain ⟨d, h⟩ := h
  have hself : ∀ t : Nat, pa[t]? = some t → (pa.set x r)[t]? = some t := by
    intro t ht
    rw [List.getElem?_set]
    split
    · next heq =>
      subst heq
      rw [if_pos hx.lt, hx.unique (rootOf_self ht)]
    · exact ht
  induction h with
  | root hroot => exact rootOf_self (hself _ hroot)
  | @step d z p s hparent hne hrest ih =>
    by_cases hzx : z = x
    · subst hzx
      have hz : RootOf pa z s := ⟨d + 1, .step hparent hne hrest⟩
      obtain rfl := hx.unique hz
      have hset : (pa.set z r)[z]? = some r := by
        rw [List.getElem?_set_self hz.lt]
      by_cases hrz : r = z
      · rw [hrz] at hset ⊢
        exact rootOf_self hset
      · exact ⟨1, .step hset hrz (.root (hself r hz.isRoot))⟩
    · obtain ⟨e, he⟩ := ih
      refine ⟨e + 1, .step ?_ hne he⟩
      rw [List.getElem?_set_ne (Ne.symm hzx)]
      exact hparent

theorem RootOf.set_iff (hpa : IsForest pa) (hx : RootOf pa x r) :
    RootOf (pa.set x r) z s ↔ RootOf pa z s := by
  refine ⟨fun h => ?_, hx.set_of⟩
  obtain ⟨t, ht⟩ := hpa z (by simpa using h.lt)
  rwa [h.unique (hx.set_of ht)]

/-- The root `r` is put below the root `s`. -/
theorem RootOf.link (hr : pa[r]? = some r) (hs : pa[s]? = some s) (h : RootOf pa z y) :
    RootOf (pa.set r s) z (if y = r then s else y) := by
  obtain ⟨d, h⟩ := h
  have hlt := (List.getElem?_eq_some_iff.mp hr).1
  have hset : (pa.set r s)[r]? = some s := by rw [List.getElem?_set_self hlt]
  induction h with
  | @root t hroot =>
    by_cases htr : t = r
    · subst htr
      rw [if_pos rfl]
      by_cases hst : s = t
      · rw [hst] at hset ⊢
        exact rootOf_self hset
      · refine ⟨1, .step hset hst (.root ?_)⟩
        rw [List.getElem?_set_ne (Ne.symm hst)]
        exact hs
    · rw [if_neg htr]
      apply rootOf_self
      rw [List.getElem?_set_ne (Ne.symm htr)]
      exact hroot
  | @step d z p t hparent hne _ ih =>
    obtain ⟨e, he⟩ := ih
    have hzr : r ≠ z := by
      rintro rfl
      exact hne (Option.some.inj (hparent.symm.trans hr))
    refine ⟨e + 1, .step ?_ hne he⟩
    rw [List.getElem?_set_ne hzr]
    exact hparent

theorem IsForest.link (hpa : IsForest pa) (hr : pa[r]? = some r) (hs : pa[s]? = some s) :
    IsForest (pa.set r s) := by
  intro z hz
  obtain ⟨y, hy⟩ := hpa z (by simpa using hz)
  exact ⟨_, hy.link hr hs⟩

/-- A function that agrees on every set of the forest agrees on the sets behind a link exactly if it
agrees on the two that are linked. -/
theorem respects_link {α : Type} {f : Nat → α} (hpa : IsForest pa) (hx : RootOf pa x r)
    (hy : RootOf pa y s) :
    (∀ i j, SameSet (pa.set r s) i j → f i = f j) ↔
      (∀ i j, SameSet pa i j → f i = f j) ∧ f x = f y := by
  have hlink : ∀ z t, RootOf pa z t → RootOf (pa.set r s) z (if t = r then s else t) :=
    fun z t h => h.link hx.isRoot hy.isRoot
  constructor
  · intro h
    refine ⟨fun i j hij => ?_, ?_⟩
    · obtain ⟨t, hi, hj⟩ := hij
      exact h i j ⟨_, hlink i t hi, hlink j t hj⟩
    · have hys : RootOf (pa.set r s) y s := by simpa using hlink y s hy
      exact h x y ⟨s, by simpa using hlink x r hx, hys⟩
  · rintro ⟨h, hxy⟩ i j ⟨t, hi, hj⟩
    have hlength : (pa.set r s).length = pa.length := List.length_set
    obtain ⟨u, hu⟩ := hpa i (by rw [← hlength]; exact hi.lt)
    obtain ⟨v, hv⟩ := hpa j (by rw [← hlength]; exact hj.lt)
    have htu := hi.unique (hlink i u hu)
    have htv := hj.unique (hlink j v hv)
    by_cases hur : u = r
    · by_cases hvr : v = r
      · exact h i j ⟨r, hur ▸ hu, hvr ▸ hv⟩
      · rw [if_pos hur] at htu
        rw [if_neg hvr] at htv
        rw [h i x ⟨r, hur ▸ hu, hx⟩, hxy]
        exact h y j ⟨s, hy, by rwa [← htu, htv]⟩
    · by_cases hvr : v = r
      · rw [if_neg hur] at htu
        rw [if_pos hvr] at htv
        rw [h j x ⟨r, hvr ▸ hv, hx⟩, hxy]
        exact h i y ⟨s, by rwa [← htv, htu], hy⟩
      · rw [if_neg hur] at htu
        rw [if_neg hvr] at htv
        exact h i j ⟨t, by rwa [htu], by rwa [htv]⟩

end RootOf

end JoinOptimizer.Lib
