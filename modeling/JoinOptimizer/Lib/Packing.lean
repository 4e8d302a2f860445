import Mathlib.Data.List.Basic

/-! Elements packed into boxes in the order they come.  An element joins the open box if there is room
for it and opens the next box otherwise; a solitary element has a box of its own. -/

namespace JoinOptimizer.Lib

variable {α : Type}

/-- A way to pack: which box has room for which element, and which elements are solitary. -/
structure Packing (α : Type) where
  room : List α → α → Bool
  solitary : α → Bool

namespace Packing

variable {P Q : Packing α}

/-- The open box closed; an empty one is no box. -/
def close : List α → List (List α)
  | [] => []
  | a :: as => [a :: as]

/-- The closed boxes and the open one behind the next element. -/
def place (P : Packing α) (s : List (List α) × List α) (a : α) : List (List α) × List α :=
  if P.solitary a then (s.1 ++ close s.2 ++ [[a]], [])
  else if P.room s.2 a then (s.1, s.2 ++ [a])
  else (s.1 ++ [s.2], [a])

/-- The boxes of the elements from the open box `cur` on. -/
def boxes (P : Packing α) : List α → List α → List (List α)
  | cur, [] => close cur
  | cur, a :: as =>
    if P.solitary a then close cur ++ [a] :: P.boxes [] as
    else if P.room cur a then P.boxes (cur ++ [a]) as
    else cur :: P.boxes [a] as

section Place

variable {s : List (List α) × List α} {a : α}

theorem place_of_room (hsolitary : P.solitary a = false) (hroom : P.room s.2 a = true) :
    P.place s a = (s.1, s.2 ++ [a]) := by
  simp [place, hsolitary, hroom]

theorem place_of_full (hsolitary : P.solitary a = false) (hfull : P.room s.2 a = false) :
    P.place s a = (s.1 ++ [s.2], [a]) := by
  simp [place, hsolitary, hfull]

end Place

theorem close_of_ne_nil {cur : List α} (h : cur ≠ []) : close cur = [cur] := by
  cases cur with
  | nil => exact absurd rfl h
  | cons a as => rfl

@[simp] theorem flatten_close (cur : List α) : (close cur).flatten = cur := by
  cases cur <;> simp [close]

theorem foldl_place (P : Packing α) (as : List α) (done : List (List α)) (cur : List α) :
    (as.foldl P.place (done, cur)).1 ++ close (as.foldl P.place (done, cur)).2 =
      done ++ P.boxes cur as := by
  induction as generalizing done cur with
  | nil => rfl
  | cons a as ih =>
    rw [List.foldl_cons, place, boxes]
    split
    · rw [ih]
      simp
    · split
      · rw [ih]
      · rw [ih]
        simp

@[simp] theorem flatten_boxes (P : Packing α) (cur as : List α) :
    (P.boxes cur as).flatten = cur ++ as := by
  induction as generalizing cur with
  | nil => simp [boxes]
  | cons a as ih =>
    rw [boxes]
    split
    · simp [ih]
    · split
      · rw [ih]
        simp
      · rw [List.flatten_cons, ih]
        simp

/-- Where an empty box has room for everything, no box stays empty. -/
theorem ne_nil_of_mem_boxes (hroom : ∀ a, P.room [] a = true) {cur as box : List α}
    (h : box ∈ P.boxes cur as) : box ≠ [] := by
  have hclose {cur : List α} (h : box ∈ close cur) : box ≠ [] := by
    cases cur with
    | nil => cases h
    | cons a as =>
      rw [List.mem_singleton.mp h]
      simp
  induction as generalizing cur with
  | nil => exact hclose h
  | cons a as ih =>
    rw [boxes] at h
    split at h
    · rcases List.mem_append.mp h with h | h
      · exact hclose h
      · rcases List.mem_cons.mp h with rfl | h
        · simp
        · exact ih h
    · split at h
      · exact ih h
      · next hfull =>
        rcases List.mem_cons.mp h with rfl | h
        · rintro rfl
          exact hfull (hroom a)
        · exact ih h

/-- The open box is a prefix of the first box. -/
theorem boxes_of_ne_nil (P : Packing α) {cur : List α} (h : cur ≠ []) (as : List α) :
    ∃ more rest, P.boxes cur as = (cur ++ more) :: rest := by
  induction as generalizing cur with
  | nil => exact ⟨[], [], by rw [boxes, close_of_ne_nil h, List.append_nil]⟩
  | cons a as ih =>
    rw [boxes]
    split
    · exact ⟨[], _, by rw [close_of_ne_nil h, List.append_nil, List.singleton_append]⟩
    · split
      · obtain ⟨more, rest, heq⟩ := ih (show cur ++ [a] ≠ [] by simp)
        exact ⟨a :: more, rest, by rw [heq]; simp⟩
      · exact ⟨[], _, by rw [List.append_nil]⟩

/-- Boxes of one number of elements each are the same boxes. -/
theorem boxes_eq_of_length {cur as : List α}
    (h : (P.boxes cur as).map List.length = (Q.boxes cur as).map List.length) :
    P.boxes cur as = Q.boxes cur as := by
  rw [List.eq_iff_flatten_eq]
  exact ⟨by rw [flatten_boxes, flatten_boxes], h⟩

/-- Wherever an element comes to a box of `P`, the two ways to pack find the same room in it. -/
def SameRoom (P Q : Packing α) : List α → List α → Prop
  | _, [] => True
  | cur, a :: as =>
    if P.solitary a then SameRoom P Q [] as
    else P.room cur a = Q.room cur a ∧
      if P.room cur a then SameRoom P Q (cur ++ [a]) as else SameRoom P Q [a] as

/-- A way to pack that never finds less room makes other boxes as soon as it finds more. -/
theorem boxes_eq_iff (hsolitary : P.solitary = Q.solitary)
    (hroom : ∀ cur a, P.room cur a = true → Q.room cur a = true) (cur as : List α) :
    P.boxes cur as = Q.boxes cur as ↔ SameRoom P Q cur as := by
  induction as generalizing cur with
  | nil => simp [boxes, SameRoom]
  | cons a as ih =>
    rw [boxes, boxes, SameRoom, ← hsolitary]
    split
    · rw [List.append_cancel_left_eq, List.cons.injEq, ih]
      simp
    · by_cases hP : P.room cur a = true
      · simp only [hP, hroom cur a hP, if_true, true_and]
        exact ih (cur ++ [a])
      · by_cases hQ : Q.room cur a = true
        · obtain ⟨more, rest, heq⟩ := Q.boxes_of_ne_nil (show cur ++ [a] ≠ [] by simp) as
          rw [if_neg hP, if_pos hQ, heq]
          constructor
          · intro h
            have hlen := congrArg List.length (List.cons.inj h).1
            simp only [List.length_append, List.length_singleton] at hlen
            omega
          · rintro ⟨h, -⟩
            exact absurd (h.trans hQ) hP
        · rw [if_neg hP, if_neg hQ, if_neg hP, List.cons.injEq, ih]
          simp [hP, hQ]

/-- Elements that both ways to pack find room for leave the question to those behind them. -/
theorem sameRoom_append {cur as bs : List α} (hsolitary : ∀ a ∈ as, P.solitary a = false)
    (hroom : ∀ pre a post, as = pre ++ a :: post →
      P.room (cur ++ pre) a = true ∧ Q.room (cur ++ pre) a = true) :
    SameRoom P Q cur (as ++ bs) ↔ SameRoom P Q (cur ++ as) bs := by
  induction as generalizing cur with
  | nil => simp
  | cons a as ih =>
    obtain ⟨hP, hQ⟩ := hroom [] a as rfl
    rw [List.append_nil] at hP hQ
    have hnext : SameRoom P Q (cur ++ [a]) (as ++ bs) ↔ SameRoom P Q (cur ++ [a] ++ as) bs :=
      ih (fun b hb => hsolitary b (by simp [hb]))
      fun pre b post h => by
        rw [List.append_assoc]
        exact hroom (a :: pre) b post (by rw [h]; rfl)
    rw [List.cons_append, SameRoom]
    simp only [hsolitary a (by simp), hP, hQ]
    simpa using hnext

end Packing

end JoinOptimizer.Lib
