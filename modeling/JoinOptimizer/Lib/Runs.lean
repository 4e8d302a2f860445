import JoinOptimizer.Lib.Loops

/-! What holds of every step of a run.  A run takes its operations in order from a state; it ends at
an operation that its caller may not ask for or that fails. -/

namespace JoinOptimizer.Lib

variable {ε σ α : Type}

/-- `P` holds of every step that the run makes. -/
def Always (step : σ → α → Except ε σ) (allowed P : σ → α → Prop) : σ → List α → Prop
  | _, [] => True
  | s, a :: as => allowed s a → P s a ∧ ∀ s', step s a = .ok s' → Always step allowed P s' as

variable {step : σ → α → Except ε σ} {allowed P good Inv : σ → α → Prop}

/-- Where an invariant makes `P` and `good` the same for one step, and `good` steps keep it, `P` holds of
every step of a run exactly when `good` does. -/
theorem always_iff {Inv : σ → Prop}
    (hiff : ∀ s a, Inv s → allowed s a → (P s a ↔ good s a))
    (hkeep : ∀ s a s', Inv s → allowed s a → good s a → step s a = .ok s' → Inv s')
    (as : List α) {s : σ} (hs : Inv s) :
    Always step allowed P s as ↔ Always step allowed good s as := by
  induction as generalizing s with
  | nil => exact Iff.rfl
  | cons a as ih =>
    refine forall_congr' fun hallowed => ?_
    rw [hiff s a hs hallowed]
    refine and_congr_right fun hgood => forall_congr' fun s' => imp_congr_right fun hstep => ?_
    exact ih (hkeep s a s' hs hallowed hgood hstep)

/-- Where every operation may be asked for, what good steps keep holds at the end of a run all of whose
steps are good. -/
theorem Always.invariant {Inv : List α → σ → Prop} (hall : ∀ s a, allowed s a)
    (hstep : ∀ pre s a s', Inv pre s → good s a → step s a = .ok s' → Inv (pre ++ [a]) s')
    {as : List α} {s s' : σ} (hgood : Always step allowed good s as) (hrun : as.foldlM step s = .ok s')
    {pre : List α} (hs : Inv pre s) : Inv (pre ++ as) s' := by
  induction as generalizing s pre with
  | nil =>
    cases hrun
    simpa using hs
  | cons a as ih =>
    obtain ⟨t, ht, hrest⟩ := foldlM_cons_eq_ok.mp hrun
    obtain ⟨hnow, hlater⟩ := hgood (hall s a)
    simpa using ih (hlater t ht) hrest (hstep pre s a t hs hnow ht)

/-- What holds of every step of a run holds of every step of a part of it from the start. -/
theorem Always.of_append {as bs : List α} {s : σ} (h : Always step allowed P s (as ++ bs)) :
    Always step allowed P s as := by
  induction as generalizing s with
  | nil => trivial
  | cons a as ih =>
    intro hallowed
    obtain ⟨hnow, hlater⟩ := h hallowed
    exact ⟨hnow, fun s' hs' => ih (hlater s' hs')⟩

end JoinOptimizer.Lib
