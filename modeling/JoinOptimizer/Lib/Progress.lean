import Mathlib.Tactic.ByContra

/-! Progress of a step system whose steps may be noise, such as a wake-up that nothing has caused: what is
left to do, where every other step leaves less of it and one is always possible. -/

namespace JoinOptimizer.Lib

variable {σ : Type}

/-- A run that stays busy until its last step, of `moves` steps and `wakes` steps that are noise. -/
inductive BusyRun (step noise : σ → σ → Prop) (busy : σ → Prop) : (moves wakes : Nat) → σ → σ → Prop
  | start (s : σ) : BusyRun step noise busy 0 0 s s
  | move {moves wakes : Nat} {s t u : σ} : BusyRun step noise busy moves wakes s t → busy t → step t u →
      ¬ noise t u → BusyRun step noise busy (moves + 1) wakes s u
  | wake {moves wakes : Nat} {s t u : σ} : BusyRun step noise busy moves wakes s t → busy t → step t u →
      noise t u → BusyRun step noise busy moves (wakes + 1) s u

/-- While the system is busy a step is possible that is no noise; every such step lowers the effort that
is left, and noise raises it by one at most. -/
structure Progress (step noise : σ → σ → Prop) (busy Inv : σ → Prop) (effort : σ → Nat) : Prop where
  keeps : ∀ s t, Inv s → step s t → Inv t
  goes : ∀ s, Inv s → busy s → ∃ t, step s t ∧ ¬ noise s t
  lowers : ∀ s t, Inv s → busy s → step s t → ¬ noise s t → effort t < effort s
  raises : ∀ s t, Inv s → busy s → step s t → noise s t → effort t ≤ effort s + 1

namespace Progress

variable {step noise : σ → σ → Prop} {busy Inv : σ → Prop} {effort : σ → Nat}
  (h : Progress step noise busy Inv effort)
include h

/-- What a busy run has done and what is left after it: no more than was left before it, and one for each
noise. -/
theorem bounded {moves wakes : Nat} {s t : σ} (hs : Inv s) (hrun : BusyRun step noise busy moves wakes s t) :
    Inv t ∧ moves + effort t ≤ effort s + wakes := by
  induction hrun with
  | start => exact ⟨hs, by omega⟩
  | move _ hbusy hstep hmove ih =>
    obtain ⟨hinv, hle⟩ := ih hs
    have hlt := h.lowers _ _ hinv hbusy hstep hmove
    exact ⟨h.keeps _ _ hinv hstep, by omega⟩
  | wake _ hbusy hstep hnoise ih =>
    obtain ⟨hinv, hle⟩ := ih hs
    have hraise := h.raises _ _ hinv hbusy hstep hnoise
    exact ⟨h.keeps _ _ hinv hstep, by omega⟩

/-- An endless run whose noise ends does not stay busy. -/
theorem eventually {run : Nat → σ} (hs : Inv (run 0)) (hstep : ∀ n, step (run n) (run (n + 1)))
    {last : Nat} (hquiet : ∀ n, last ≤ n → ¬ noise (run n) (run (n + 1))) : ∃ n, ¬ busy (run n) := by
  by_contra hbusy
  have hbusy : ∀ n, busy (run n) := not_exists_not.mp hbusy
  have hinv : ∀ n, Inv (run n) := by
    intro n
    induction n with
    | zero => exact hs
    | succ n ih => exact h.keeps _ _ ih (hstep n)
  have hless : ∀ n, n + effort (run (last + n)) ≤ effort (run last) := by
    intro n
    induction n with
    | zero => simp
    | succ n ih =>
      have hlt := h.lowers _ _ (hinv _) (hbusy _) (hstep (last + n)) (hquiet _ (Nat.le_add_right _ _))
      rw [← Nat.add_assoc last n 1]
      omega
  have := hless (effort (run last) + 1)
  omega

end Progress

end JoinOptimizer.Lib
