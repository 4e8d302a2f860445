import JoinOptimizer.Lib.SlotMaps
import Mathlib.Algebra.Ring.Nat

/-! Tables that grow: an insertion that finds no room builds the table anew, twice as large, with insertions
that may do the same.  It returns where a table that is large enough always has room, and it ends where there
is no memory for a larger one. -/

namespace JoinOptimizer.Lib

/-- Calls of one another, each on a table of twice the size, until the size is `enough`. -/
theorem growth_induction {σ : Type} {size : σ → Nat} {enough : Nat} {P : Nat → σ → Prop}
    (hlarge : ∀ n t, enough ≤ size t → P (n + 1) t)
    (hsmall : ∀ n t, size t < enough → (∀ u, 2 * size t ≤ size u → P (n + 1) u) → P (n + 2) t)
    {depth : Nat} {t : σ} (hdepth : enough ≤ size t * 2 ^ depth) : P (depth + 1) t := by
  induction depth generalizing t with
  | zero => exact hlarge 0 t (by simpa using hdepth)
  | succ depth ih =>
    rcases Nat.lt_or_ge (size t) enough with hless | hge
    · refine hsmall depth t hless fun u hsize => ih ?_
      rw [Nat.pow_succ, Nat.mul_comm _ 2, ← Nat.mul_assoc, Nat.mul_comm _ 2] at hdepth
      exact Nat.le_trans hdepth (Nat.mul_le_mul_right _ hsize)
    · exact hlarge _ t hge

variable {ε σ κ ν : Type} [DecidableEq κ]

/-- The insertion adds its pair to the map that the table stands for.  The table gets no smaller, and larger
only while it has less than `enough`. -/
def Returns (insert : σ → κ × ν → Except ε σ) (Stores : σ → (κ → Option ν) → Prop) (size : σ → Nat)
    (enough : Nat) (t : σ) (m : κ → Option ν) (item : κ × ν) : Prop :=
  ∃ t', insert t item = .ok t' ∧ Stores t' (insertNew m item) ∧ size t ≤ size t' ∧
    size t' ≤ max (size t) (2 * enough)

variable {Stores : σ → (κ → Option ν) → Prop} {size : σ → Nat} {enough : Nat}

/-- Insertions one after the other, where each returns. -/
theorem foldlM_returns (insert : σ → κ × ν → Except ε σ) {allowed : (κ → Option ν) → κ × ν → Prop} {t : σ}
    {m : κ → Option ν} {items : List (κ × ν)}
    (hreturns : ∀ u m item, Stores u m → allowed m item → size t ≤ size u →
      Returns insert Stores size enough u m item)
    (hallowed : ∀ pre item post, items = pre ++ item :: post → allowed (pre.foldl insertNew m) item)
    (ht : Stores t m) :
    ∃ t', items.foldlM insert t = .ok t' ∧ Stores t' (items.foldl insertNew m) ∧ size t ≤ size t' ∧
      size t' ≤ max (size t) (2 * enough) := by
  refine foldlM_total_prefix (P := fun pre u => Stores u (pre.foldl insertNew m) ∧ size t ≤ size u ∧
    size u ≤ max (size t) (2 * enough)) items t ⟨ht, Nat.le_refl _, Nat.le_max_left ..⟩ ?_
  intro pre item post u hsplit ⟨hu, hlow, hhigh⟩
  obtain ⟨u', hrun, hu', hmore, hmost⟩ := hreturns u _ item hu (hallowed pre item post hsplit) hlow
  refine ⟨u', hrun, ?_, Nat.le_trans hlow hmore, by omega⟩
  rw [List.foldl_concat]
  exact hu'

/-- Calls of one another as deep as it takes to double the size until it is enough. -/
theorem returns_of_growth (insert : Nat → σ → κ × ν → Except ε σ) (allowed : (κ → Option ν) → κ × ν → Prop)
    (hlarge : ∀ n t m item, Stores t m → allowed m item → enough ≤ size t →
      Returns (insert (n + 1)) Stores size enough t m item)
    (hsmall : ∀ n t m item, Stores t m → allowed m item → size t < enough →
      (∀ u m item, Stores u m → allowed m item → 2 * size t ≤ size u →
        Returns (insert (n + 1)) Stores size enough u m item) →
      Returns (insert (n + 2)) Stores size enough t m item)
    {depth : Nat} {t : σ} {m : κ → Option ν} {item : κ × ν} (ht : Stores t m) (hitem : allowed m item)
    (hdepth : enough ≤ size t * 2 ^ depth) :
    Returns (insert (depth + 1)) Stores size enough t m item :=
  growth_induction (P := fun n t => ∀ m item, Stores t m → allowed m item →
      Returns (insert n) Stores size enough t m item)
    (fun n t hsize m item ht hitem => hlarge n t m item ht hitem hsize)
    (fun n t hless hgrown m item ht hitem => hsmall n t m item ht hitem hless
      fun u m item hu hitem hsize => hgrown u hsize m item hu hitem) hdepth m item ht hitem

/-- The insertion adds its pair to the map that the table stands for, which gets no smaller, or fails with
`e`. -/
def Ends (insert : σ → κ × ν → Except ε σ) (Stores : σ → (κ → Option ν) → Prop) (size : σ → Nat) (e : ε)
    (t : σ) (m : κ → Option ν) (item : κ × ν) : Prop :=
  (∃ t', insert t item = .ok t' ∧ Stores t' (insertNew m item) ∧ size t ≤ size t') ∨ insert t item = .error e

/-- Insertions one after the other, where each ends. -/
theorem foldlM_ends (insert : σ → κ × ν → Except ε σ) {e : ε} {allowed : (κ → Option ν) → κ × ν → Prop} {t : σ}
    {m : κ → Option ν} {items : List (κ × ν)}
    (hends : ∀ u m item, Stores u m → allowed m item → size t ≤ size u → Ends insert Stores size e u m item)
    (hallowed : ∀ pre item post, items = pre ++ item :: post → allowed (pre.foldl insertNew m) item)
    (ht : Stores t m) :
    (∃ t', items.foldlM insert t = .ok t' ∧ Stores t' (items.foldl insertNew m) ∧ size t ≤ size t') ∨
      items.foldlM insert t = .error e := by
  refine foldlM_total_or (P := fun pre u => Stores u (pre.foldl insertNew m) ∧ size t ≤ size u) items t
    ⟨ht, Nat.le_refl _⟩ ?_
  intro pre item post u hsplit ⟨hu, hlow⟩
  rcases hends u _ item hu (hallowed pre item post hsplit) hlow with ⟨u', hrun, hu', hmore⟩ | herror
  · rw [List.foldl_concat]
    exact .inl ⟨u', hrun, hu', Nat.le_trans hlow hmore⟩
  · exact .inr herror

/-- Calls of one another as deep as it takes to double the size past a limit: on a table past it an insertion
makes no further call. -/
theorem ends_of_growth (insert : Nat → σ → κ × ν → Except ε σ) {e : ε}
    (allowed : (κ → Option ν) → κ × ν → Prop) {limit : Nat}
    (hlarge : ∀ n t m item, Stores t m → allowed m item → limit < size t →
      Ends (insert (n + 1)) Stores size e t m item)
    (hsmall : ∀ n t m item, Stores t m → allowed m item → size t ≤ limit →
      (∀ u m item, Stores u m → allowed m item → 2 * size t ≤ size u →
        Ends (insert (n + 1)) Stores size e u m item) →
      Ends (insert (n + 2)) Stores size e t m item)
    {depth : Nat} {t : σ} {m : κ → Option ν} {item : κ × ν} (ht : Stores t m) (hitem : allowed m item)
    (hdepth : limit < size t * 2 ^ depth) : Ends (insert (depth + 1)) Stores size e t m item :=
  growth_induction
    (P := fun n t => ∀ m item, Stores t m → allowed m item → Ends (insert n) Stores size e t m item)
    (fun n t hsize m item ht hitem => hlarge n t m item ht hitem hsize)
    (fun n t hless hgrown m item ht hitem => hsmall n t m item ht hitem (Nat.le_of_lt_succ hless)
      fun u m item hu hitem hsize => hgrown u hsize m item hu hitem) hdepth m item ht hitem

end JoinOptimizer.Lib
