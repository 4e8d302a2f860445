import Mathlib.Algebra.BigOperators.Group.List.Basic
import Mathlib.Data.List.Induction

/-! Lists kept in pages of a bounded size: an element is appended to the last page or, if that is
full, to a new one.  The page an element lies on depends on the number of elements before it and not on
what they are. -/

namespace JoinOptimizer.Lib

variable {α β : Type} {cap : Nat}

def pushPage (cap : Nat) (pages : List (List α)) (a : α) : List (List α) :=
  match pages.getLast? with
  | some last => if last.length = cap then pages ++ [[a]] else pages.dropLast ++ [last ++ [a]]
  | none => [[a]]

/-- The elements `as` appended one after the other to the pages `pages`. -/
def pushPages (cap : Nat) (pages : List (List α)) (as : List α) : List (List α) :=
  as.foldl (pushPage cap) pages

/-- The elements `as` in pages. -/
def paged (cap : Nat) (as : List α) : List (List α) := pushPages cap [] as

@[simp] theorem pushPage_nil (a : α) : pushPage cap [] a = [[a]] := rfl

theorem pushPage_concat (pages : List (List α)) (last : List α) (a : α) :
    pushPage cap (pages ++ [last]) a =
      if last.length = cap then pages ++ [last] ++ [[a]] else pages ++ [last ++ [a]] := by
  simp [pushPage]

theorem pushPages_append (pages : List (List α)) (as bs : List α) :
    pushPages cap pages (as ++ bs) = pushPages cap (pushPages cap pages as) bs :=
  List.foldl_append

theorem paged_append (as bs : List α) : paged cap (as ++ bs) = pushPages cap (paged cap as) bs :=
  pushPages_append [] as bs

theorem paged_concat (as : List α) (a : α) :
    paged cap (as ++ [a]) = pushPage cap (paged cap as) a :=
  paged_append as [a]

theorem flatten_pushPage (pages : List (List α)) (a : α) :
    (pushPage cap pages a).flatten = pages.flatten ++ [a] := by
  rcases List.eq_nil_or_concat pages with rfl | ⟨init, last, rfl⟩
  · rfl
  · rw [List.concat_eq_append, pushPage_concat]
    split <;> simp

@[simp] theorem flatten_paged (cap : Nat) (as : List α) : (paged cap as).flatten = as := by
  induction as using List.reverseRecOn with
  | nil => rfl
  | append_singleton as a ih => rw [paged_concat, flatten_pushPage, ih]

theorem pushPage_map (f : α → β) (pages : List (List α)) (a : α) :
    pushPage cap (pages.map (List.map f)) (f a) = (pushPage cap pages a).map (List.map f) := by
  rcases List.eq_nil_or_concat pages with rfl | ⟨init, last, rfl⟩
  · rfl
  · rw [List.concat_eq_append, List.map_append, List.map_singleton, pushPage_concat,
      pushPage_concat, List.length_map]
    split <;> simp

/-- Pages do not depend on what they hold. -/
theorem paged_map (f : α → β) (as : List α) :
    paged cap (as.map f) = (paged cap as).map (List.map f) := by
  induction as using List.reverseRecOn with
  | nil => rfl
  | append_singleton as a ih =>
    rw [List.map_append, List.map_singleton, paged_concat, ih, pushPage_map, paged_concat]

theorem length_of_mem_pushPage (hcap : 0 < cap) {pages : List (List α)} {a : α}
    (h : ∀ page ∈ pages, 0 < page.length ∧ page.length ≤ cap) :
    ∀ page ∈ pushPage cap pages a, 0 < page.length ∧ page.length ≤ cap := by
  rcases List.eq_nil_or_concat pages with rfl | ⟨init, last, rfl⟩
  · intro page hpage
    obtain rfl : page = [a] := by simpa using hpage
    exact ⟨Nat.one_pos, hcap⟩
  · rw [List.concat_eq_append] at h ⊢
    rw [pushPage_concat]
    have hlast := h last (by simp)
    intro page hpage
    split at hpage
    · rcases List.mem_append.mp hpage with hpage | hpage
      · exact h page hpage
      · obtain rfl : page = [a] := by simpa using hpage
        exact ⟨Nat.one_pos, hcap⟩
    · next hroom =>
      rcases List.mem_append.mp hpage with hpage | hpage
      · exact h page (by simp [hpage])
      · obtain rfl : page = last ++ [a] := by simpa using hpage
        simp only [List.length_append, List.length_singleton]
        omega

theorem length_of_mem_paged (hcap : 0 < cap) {as : List α} :
    ∀ page ∈ paged cap as, 0 < page.length ∧ page.length ≤ cap := by
  induction as using List.reverseRecOn with
  | nil => exact fun page hpage => absurd hpage (by simp [paged, pushPages])
  | append_singleton as a ih =>
    rw [paged_concat]
    exact length_of_mem_pushPage hcap ih

/-- Full pages and a last one that has room or is full, but is not empty. -/
structure Packed (cap : Nat) (full : List (List α)) (last : List α) : Prop where
  full : ∀ page ∈ full, page.length = cap
  pos : 0 < last.length
  le : last.length ≤ cap

namespace Packed

variable {full : List (List α)} {last : List α}

theorem concat (h : Packed cap full last) (hroom : last.length ≠ cap) (a : α) :
    Packed cap full (last ++ [a]) := by
  have := h.le
  refine ⟨h.full, by simp, ?_⟩
  simp only [List.length_append, List.length_singleton]
  omega

theorem next (h : Packed cap full last) (hfull : last.length = cap) (a : α) :
    Packed cap (full ++ [last]) [a] := by
  have := h.pos
  refine ⟨fun page hpage => ?_, Nat.one_pos, by simp; omega⟩
  rcases List.mem_append.mp hpage with hpage | hpage
  · exact h.full page hpage
  · obtain rfl : page = last := by simpa using hpage
    exact hfull

theorem length_flatten (h : Packed cap full last) :
    (full ++ [last]).flatten.length = full.length * cap + last.length := by
  have hfull : (full.map List.length).sum = full.length * cap := by
    rw [List.map_congr_left h.full, List.map_const', List.sum_replicate_nat]
  rw [List.length_flatten, List.map_append, List.sum_append, hfull, List.map_singleton,
    List.sum_singleton]

end Packed

/-- All pages but the last are full. -/
theorem packed_paged (hcap : 0 < cap) (as : List α) (a : α) :
    ∃ full last, paged cap (as ++ [a]) = full ++ [last] ∧ Packed cap full last := by
  induction as using List.reverseRecOn generalizing a with
  | nil => exact ⟨[], [a], rfl, by simp, Nat.one_pos, hcap⟩
  | append_singleton as b ih =>
    obtain ⟨full, last, hpages, hpacked⟩ := ih b
    rw [paged_concat, hpages, pushPage_concat]
    split
    case isTrue hfull => exact ⟨full ++ [last], [a], rfl, hpacked.next hfull a⟩
    case isFalse hroom => exact ⟨full, last ++ [a], rfl, hpacked.concat hroom a⟩

/-- At most one page has room. -/
theorem length_paged_le (hcap : 0 < cap) (as : List α) :
    (paged cap as).length * cap ≤ as.length + cap := by
  rcases List.eq_nil_or_concat as with rfl | ⟨as, a, rfl⟩
  · simp [paged, pushPages]
  · rw [List.concat_eq_append]
    obtain ⟨full, last, hpages, hpacked⟩ := packed_paged hcap as a
    have hlen := hpacked.length_flatten
    rw [← hpages, flatten_paged] at hlen
    rw [hlen, hpages, List.length_append, List.length_singleton, Nat.succ_mul]
    omega

end JoinOptimizer.Lib
