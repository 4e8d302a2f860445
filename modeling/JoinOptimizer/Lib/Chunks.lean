import Mathlib.Data.List.Basic

/-! Machines that read their input in chunks.  Where it makes no difference to cut the input behind its
first element, it makes no difference how it is cut. -/

namespace JoinOptimizer.Lib

variable {α ε σ τ : Type}

/-- Two outcomes that `R` relates where both are values and `E` where both are errors. -/
inductive Agree (E : ε → ε → Prop) (R : σ → σ → Prop) : Except ε σ → Except ε σ → Prop
  | ok {s t : σ} : R s t → Agree E R (.ok s) (.ok t)
  | error {e f : ε} : E e f → Agree E R (.error e) (.error f)

namespace Agree

variable {E : ε → ε → Prop} {R : σ → σ → Prop} {S : τ → τ → Prop} {x y z : Except ε σ}

theorem symm (hE : Std.Symm E) (hR : Std.Symm R) (h : Agree E R x y) : Agree E R y x := by
  cases h with
  | ok h => exact .ok (hR.symm _ _ h)
  | error h => exact .error (hE.symm _ _ h)

theorem trans (hE : IsTrans ε E) (hR : IsTrans σ R) (hxy : Agree E R x y) (hyz : Agree E R y z) :
    Agree E R x z := by
  cases hxy with
  | ok hxy =>
    cases hyz with
    | ok hyz => exact .ok (hR.trans _ _ _ hxy hyz)
  | error hxy =>
    cases hyz with
    | error hyz => exact .error (hE.trans _ _ _ hxy hyz)

theorem bind (h : Agree E R x y) {f g : σ → Except ε τ}
    (hfg : ∀ s t, R s t → Agree E S (f s) (g t)) : Agree E S (x >>= f) (y >>= g) := by
  cases h with
  | ok h => exact hfg _ _ h
  | error h => exact .error h

end Agree

/-- A machine for which `R`-related states are as good as each other, and which may be stopped behind the
first element of its input. -/
structure Resumable (E : ε → ε → Prop) (R : σ → σ → Prop) (exec : σ → List α → Except ε σ) : Prop where
  symmE : Std.Symm E
  transE : IsTrans ε E
  symm : Std.Symm R
  trans : IsTrans σ R
  respects : ∀ {s t : σ} {xs : List α}, R s t → xs ≠ [] → Agree E R (exec s xs) (exec t xs)
  cut : ∀ {s : σ} {x : α} {xs : List α}, R s s → xs ≠ [] →
    Agree E R (exec s (x :: xs)) (exec s [x] >>= fun t => exec t xs)

namespace Resumable

variable {E : ε → ε → Prop} {R : σ → σ → Prop} {exec : σ → List α → Except ε σ}

theorem left (h : Resumable E R exec) {s t : σ} (hst : R s t) : R s s :=
  h.trans.trans _ _ _ hst (h.symm.symm _ _ hst)

theorem right (h : Resumable E R exec) {s t : σ} (hst : R s t) : R t t :=
  h.trans.trans _ _ _ (h.symm.symm _ _ hst) hst

theorem append (h : Resumable E R exec) {s : σ} (hs : R s s) {xs ys : List α} (hxs : xs ≠ [])
    (hys : ys ≠ []) : Agree E R (exec s (xs ++ ys)) (exec s xs >>= fun t => exec t ys) := by
  induction xs generalizing s with
  | nil => exact absurd rfl hxs
  | cons x xs ih =>
    cases xs with
    | nil => exact h.cut hs hys
    | cons x' xs =>
      have hone : Agree E R (exec s [x]) (exec s [x]) := h.respects hs (by simp)
      have hrest : Agree E R (exec s [x] >>= fun t => exec t (x' :: xs ++ ys))
          (exec s [x] >>= fun t => exec t (x' :: xs) >>= fun u => exec u ys) := by
        apply hone.bind
        intro t u htu
        refine (h.respects htu (by simp)).trans h.transE h.trans ?_
        exact ih (h.right htu) (by simp)
      have hjoin : Agree E R (exec s (x :: x' :: xs) >>= fun u => exec u ys)
          ((exec s [x] >>= fun t => exec t (x' :: xs)) >>= fun u => exec u ys) :=
        (h.cut hs (by simp)).bind fun t u htu => h.respects htu hys
      rw [bind_assoc] at hjoin
      refine (h.cut hs (by simp)).trans h.transE h.trans ?_
      exact hrest.trans h.transE h.trans (hjoin.symm h.symmE h.symm)

/-- All at once or in chunks. -/
theorem chunks (h : Resumable E R exec) {s : σ} (hs : R s s) {chunks : List (List α)}
    (hne : chunks ≠ []) (hchunks : ∀ chunk ∈ chunks, chunk ≠ []) :
    Agree E R (exec s chunks.flatten) (chunks.foldlM exec s) := by
  induction chunks generalizing s with
  | nil => exact absurd rfl hne
  | cons chunk rest ih =>
    have hchunk : chunk ≠ [] := hchunks chunk (by simp)
    cases rest with
    | nil =>
      rw [List.flatten_singleton, List.foldlM_cons]
      have hsame := h.respects hs hchunk
      have hpure : (exec s chunk >>= fun t => [].foldlM exec t) = exec s chunk := by
        simp only [List.foldlM_nil, bind_pure]
      rw [hpure]
      exact hsame
    | cons next rest =>
      have hnext : next ≠ [] := hchunks next (by simp)
      rw [List.flatten_cons, List.foldlM_cons]
      refine (h.append hs hchunk (by simp [hnext])).trans h.transE h.trans ?_
      apply (h.respects hs hchunk).bind
      intro t u htu
      refine (h.respects htu (by simp [hnext])).trans h.transE h.trans ?_
      exact ih (h.right htu) (by simp) fun chunk' hmem => hchunks chunk' (List.mem_cons_of_mem _ hmem)

end Resumable

end JoinOptimizer.Lib
