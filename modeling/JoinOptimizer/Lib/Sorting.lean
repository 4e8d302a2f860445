import Mathlib.Data.List.Sort
import Mathlib.Data.List.Perm.Basic

/-! Sorting by an order that is strict and total on the elements at hand, and the order of lists by their
first difference. -/

namespace JoinOptimizer.Lib

variable {α : Type}

/-- `less` is a strict and total order of the elements that `P` holds for. -/
structure StrictTotal (less : α → α → Bool) (P : α → Prop) : Prop where
  irrefl : ∀ a, P a → less a a = false
  trans : ∀ a b c, P a → P b → P c → less a b → less b c → less a c
  total : ∀ a b, P a → P b → less a b = false → less b a = false → a = b

/-- Whether a list comes before another: at the first place where one element is less, or by its length. -/
def lexLess (less : α → α → Bool) : List α → List α → Bool
  | _, [] => false
  | [], _ :: _ => true
  | a :: as, b :: bs => less a b || (!less b a && lexLess less as bs)

/-- The elements in ascending order. -/
def ascending (less : α → α → Bool) (l : List α) : List α := l.mergeSort fun a b => !less b a

theorem ascending_perm (less : α → α → Bool) (l : List α) : (ascending less l).Perm l :=
  List.mergeSort_perm l _

namespace StrictTotal

variable {less : α → α → Bool} {P : α → Prop} (h : StrictTotal less P)
include h

theorem asymm {a b : α} (ha : P a) (hb : P b) (hab : less a b) : less b a = false := by
  rw [Bool.eq_false_iff]
  intro hba
  have haa := h.trans a b a ha hb ha hab hba
  rw [h.irrefl a ha] at haa
  cases haa

/-- What is not less is transitive too. -/
theorem trans_not {a b c : α} (ha : P a) (hb : P b) (hc : P c) (hab : less b a = false)
    (hbc : less c b = false) : less c a = false := by
  rw [Bool.eq_false_iff]
  intro hca
  cases hba : less a b with
  | true =>
    have hcb := h.trans c a b hc ha hb hca hba
    rw [hbc] at hcb
    cases hcb
  | false =>
    obtain rfl := h.total a b ha hb hba hab
    rw [hbc] at hca
    cases hca

/-- The order of lists. -/
theorem lex : StrictTotal (lexLess less) fun as => ∀ a ∈ as, P a where
  irrefl as hP := by
    induction as with
    | nil => rfl
    | cons a as ih =>
      simp only [lexLess, h.irrefl a (hP a List.mem_cons_self), Bool.false_or, Bool.not_false,
        Bool.true_and]
      exact ih fun a' ha' => hP a' (List.mem_cons_of_mem _ ha')
  trans as bs cs hP hQ hR hab hbc := by
    induction as generalizing bs cs with
    | nil =>
      cases cs with
      | nil => cases bs <;> cases hbc
      | cons c cs => rfl
    | cons a as ih =>
      cases bs with
      | nil => cases hab
      | cons b bs =>
        cases cs with
        | nil => cases hbc
        | cons c cs =>
          have ha := hP a List.mem_cons_self
          have hb := hQ b List.mem_cons_self
          have hc := hR c List.mem_cons_self
          simp only [lexLess, Bool.or_eq_true, Bool.and_eq_true, Bool.not_eq_true'] at hab hbc ⊢
          rcases hab with hab | ⟨hba, hab⟩
          · rcases hbc with hbc | ⟨hcb, -⟩
            · exact .inl (h.trans a b c ha hb hc hab hbc)
            · refine .inl ?_
              cases hless : less b c with
              | true => exact h.trans a b c ha hb hc hab hless
              | false => rwa [← h.total b c hb hc hless hcb]
          · rcases hbc with hbc | ⟨hcb, hbc⟩
            · refine .inl ?_
              cases hless : less a b with
              | true => exact h.trans a b c ha hb hc hless hbc
              | false => rwa [h.total a b ha hb hless hba]
            · refine .inr ⟨h.trans_not ha hb hc hba hcb, ?_⟩
              exact ih bs cs (fun x hx => hP x (List.mem_cons_of_mem _ hx))
                (fun x hx => hQ x (List.mem_cons_of_mem _ hx))
                (fun x hx => hR x (List.mem_cons_of_mem _ hx)) hab hbc
  total as bs hP hQ hab hba := by
    induction as generalizing bs with
    | nil =>
      cases bs with
      | nil => rfl
      | cons b bs => cases hab
    | cons a as ih =>
      cases bs with
      | nil => cases hba
      | cons b bs =>
        simp only [lexLess, Bool.or_eq_false_iff, Bool.and_eq_false_iff, Bool.not_eq_false'] at hab hba
        obtain ⟨hless, hab⟩ := hab
        obtain ⟨hgreater, hba⟩ := hba
        rw [hgreater] at hab
        rw [hless] at hba
        obtain rfl := h.total a b (hP a List.mem_cons_self) (hQ b List.mem_cons_self) hless hgreater
        exact congrArg (a :: ·) (ih bs (fun x hx => hP x (List.mem_cons_of_mem _ hx))
          (fun x hx => hQ x (List.mem_cons_of_mem _ hx)) (by simpa using hab) (by simpa using hba))

/-- The elements are ascending. -/
theorem pairwise_ascending {l : List α} (hl : ∀ a ∈ l, P a) :
    (ascending less l).Pairwise fun a b => less b a = false := by
  -- on the elements at hand the order is one of a type
  have hattach : ascending less l =
      ((l.attachWith P hl).mergeSort fun a b => !less b.1 a.1).map Subtype.val := by
    rw [List.map_mergeSort (s := fun a b => !less b a) fun _ _ _ _ => rfl, List.attachWith_map_subtype_val]
    rfl
  rw [hattach, List.pairwise_map]
  refine (List.pairwise_mergeSort (fun a b c hab hbc => ?_) (fun a b => ?_) _).imp fun hab => by simpa using hab
  · simp only [Bool.not_eq_true'] at hab hbc ⊢
    exact h.trans_not a.2 b.2 c.2 hab hbc
  · cases hless : less b.1 a.1 with
    | true => simp [h.asymm b.2 a.2 hless]
    | false => rfl

/-- A list is the ascending one of its elements exactly when it is ascending. -/
theorem eq_ascending_iff {l l' : List α} (hl : ∀ a ∈ l', P a) :
    l = ascending less l' ↔ (l.Pairwise fun a b => less b a = false) ∧ l.Perm l' := by
  constructor
  · rintro rfl
    exact ⟨h.pairwise_ascending hl, ascending_perm less l'⟩
  · rintro ⟨hpairwise, hperm⟩
    refine (hperm.trans (ascending_perm less l').symm).eq_of_pairwise (fun a b ha hb hab hba => ?_) hpairwise
      (h.pairwise_ascending hl)
    exact h.total a b (hl a (hperm.mem_iff.mp ha)) (hl b ((ascending_perm less l').mem_iff.mp hb)) hba hab

end StrictTotal

end JoinOptimizer.Lib
