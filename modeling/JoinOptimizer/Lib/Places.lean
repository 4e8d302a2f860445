import Mathlib.Data.List.Induction
import JoinOptimizer.Lib.Buckets

/-! Rows on pages and the place of each. -/

namespace JoinOptimizer.Lib

variable {α β : Type}

/-- The rows of a page with the number of the page and their slot on it. -/
def placedOn (page : List α) (p : Nat) : List (α × Nat × Nat) := page.zipIdx.map fun (a, s) => (a, p, s)

/-- The rows of some pages with the number of their page and their slot on it. -/
def placed (pages : List (List α)) : List (α × Nat × Nat) :=
  pages.zipIdx.flatMap fun (page, p) => placedOn page p

/-- The row at a place. -/
def rowAt (pages : List (List α)) (p s : Nat) : Option α := pages[p]?.bind fun page => page[s]?

theorem rowAt_eq_some {pages : List (List α)} {a : α} {p s : Nat} :
    rowAt pages p s = some a ↔ ∃ page, pages[p]? = some page ∧ page[s]? = some a :=
  Option.bind_eq_some_iff

theorem mem_placed {pages : List (List α)} {a : α} {p s : Nat} :
    (a, p, s) ∈ placed pages ↔ rowAt pages p s = some a := by
  rw [rowAt_eq_some]
  simp only [placed, placedOn, List.mem_flatMap, List.mem_map, Prod.exists,
    List.mem_zipIdx_iff_getElem?, Prod.mk.injEq]
  constructor
  · rintro ⟨page, p', hpage, a', s', ha, rfl, rfl, rfl⟩
    exact ⟨page, hpage, ha⟩
  · rintro ⟨page, hpage, ha⟩
    exact ⟨page, p, hpage, a, s, ha, rfl, rfl, rfl⟩

theorem map_fst_placed (pages : List (List α)) : (placed pages).map Prod.fst = pages.flatten := by
  have hpage : ∀ x : List α × Nat, (placedOn x.1 x.2).map Prod.fst = x.1 := by
    intro x
    rw [placedOn, List.map_map]
    exact List.zipIdx_map_fst 0 x.1
  unfold placed
  rw [List.map_flatMap, List.flatMap_congr fun x _ => hpage x, List.flatMap_def,
    List.zipIdx_map_fst]

theorem placed_map (f : α → β) (pages : List (List α)) :
    placed (pages.map (List.map f)) = (placed pages).map fun x => (f x.1, x.2) := by
  unfold placed placedOn
  rw [List.zipIdx_map, List.flatMap_map, List.map_flatMap]
  apply List.flatMap_congr
  rintro ⟨page, p⟩ _
  simp [List.zipIdx_map, Function.comp_def]

theorem rowAt_map (f : α → β) (pages : List (List α)) (p s : Nat) :
    rowAt (pages.map (List.map f)) p s = (rowAt pages p s).map f := by
  unfold rowAt
  rw [List.getElem?_map]
  cases pages[p]? <;> simp

/-- The numbers of the pages and the pages themselves make the same rows. -/
theorem flatMap_range_placedOn {γ : Type} (pages : List (List α)) (g : α × Nat × Nat → List γ) :
    ((List.range pages.length).flatMap fun p => (placedOn (pages[p]?.getD []) p).flatMap g) =
      (placed pages).flatMap g := by
  unfold placed
  rw [List.flatMap_assoc]
  have hzip : pages.zipIdx = (List.range pages.length).map fun p => (pages[p]?.getD [], p) := by
    apply List.ext_getElem
    · simp
    · intro i hi hi'
      have hlt : i < pages.length := by simpa using hi
      simp [hlt]
  rw [hzip, List.flatMap_map]

end JoinOptimizer.Lib
