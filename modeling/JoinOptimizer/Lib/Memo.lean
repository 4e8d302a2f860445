import JoinOptimizer.Lib.Assoc
import JoinOptimizer.Lib.Loops

/-! Tables of answers that are kept: what they hold belongs to their keys, and the calls that use them
are answered as calls without them. -/

namespace JoinOptimizer.Lib

section Kept

variable {κ α : Type} [DecidableEq κ] {R : κ → α → Prop} {kept : List (κ × α)} {k : κ} {a : α}

/-- What a table has for a key belongs to it. -/
def Kept (R : κ → α → Prop) (kept : List (κ × α)) : Prop := ∀ k a, kept.lookup k = some a → R k a

theorem Kept.nil : Kept R [] := fun _ _ h => by cases h

theorem Kept.imp {R' : κ → α → Prop} (h : Kept R kept) (himp : ∀ k a, R k a → R' k a) : Kept R' kept :=
  fun k a hk => himp k a (h k a hk)

/-- A further entry. -/
theorem Kept.cons (h : Kept R kept) (hk : R k a) : Kept R ((k, a) :: kept) := by
  intro k' a' h'
  rw [List.lookup_cons] at h'
  by_cases heq : k' = k
  · subst heq
    rw [beq_self_eq_true] at h'
    exact Option.some.inj h' ▸ hk
  · rw [beq_false_of_ne heq] at h'
    exact h k' a' h'

end Kept

section Calls

variable {ε σ α β γ : Type}

/-- The answers to calls that are made one after the other. -/
def answers (step : σ → α → Except ε (β × σ)) : σ → List α → Except ε (List β × σ)
  | s, [] => .ok ([], s)
  | s, a :: as => do
    let (b, s) ← step s a
    let (bs, s) ← answers step s as
    .ok (b :: bs, s)

/-- Where `plain` tells what `view` finds in the answer to a call, whatever the calls before it have kept,
it does for all calls. -/
theorem answers_view {step : σ → α → Except ε (β × σ)} {plain : α → Except ε γ} {view : β → Except ε γ}
    {Inv : σ → Prop} {as : List α}
    (hstep : ∀ s, ∀ a ∈ as, Inv s → (∃ e, step s a = .error e ∧ plain a = .error e) ∨
      ∃ b s' c, step s a = .ok (b, s') ∧ Inv s' ∧ view b = .ok c ∧ plain a = .ok c)
    {s : σ} (hs : Inv s) :
    (answers step s as >>= fun r => r.1.mapM view) = as.mapM plain := by
  induction as generalizing s with
  | nil => rfl
  | cons a as ih =>
    have hlater := fun s' hs' => @ih (fun s b hb => hstep s b (List.mem_cons_of_mem a hb)) s' hs'
    rw [List.mapM_cons, answers]
    rcases hstep s a List.mem_cons_self hs with ⟨e, herror, hplain⟩ | ⟨b, s', c, hok, hs', hview, hplain⟩
    · rw [herror, hplain]
      rfl
    · rw [hok, hplain, ok_bind, ok_bind, ← hlater s' hs']
      cases hrun : answers step s' as with
      | error e => simp only [hrun, error_bind]
      | ok r => simp only [hrun, ok_bind, List.mapM_cons, hview]

end Calls

end JoinOptimizer.Lib
