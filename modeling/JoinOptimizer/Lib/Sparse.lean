import Mathlib.Data.List.ReduceOption

/-! Lists with holes.  A list of optional values is stored as its values packed together and one
flag for each place; the rank of a place is the index of its value among the packed ones. -/

namespace JoinOptimizer.Lib

variable {α β : Type}

/-- The number of values before place `i`. -/
def rank (cs : List (Option α)) (i : Nat) : Nat := (cs.take i).reduceOption.length

@[simp] theorem rank_zero (cs : List (Option α)) : rank cs 0 = 0 := rfl

@[simp] theorem rank_length (cs : List (Option α)) :
    rank cs cs.length = cs.reduceOption.length := by simp [rank]

theorem reduceOption_take_succ {cs : List (Option α)} {i : Nat} (h : i < cs.length) :
    (cs.take (i + 1)).reduceOption = (cs.take i).reduceOption ++ cs[i].toList := by
  rw [List.take_succ_eq_append_getElem h, List.reduceOption_append, List.reduceOption_singleton]

theorem rank_succ_of_some {cs : List (Option α)} {i : Nat} (h : i < cs.length) {v : α}
    (hv : cs[i] = some v) : rank cs (i + 1) = rank cs i + 1 := by
  simp [rank, reduceOption_take_succ h, hv]

theorem rank_succ_of_none {cs : List (Option α)} {i : Nat} (h : i < cs.length)
    (hv : cs[i] = none) : rank cs (i + 1) = rank cs i := by
  simp [rank, reduceOption_take_succ h, hv]

theorem reduceOption_split (cs : List (Option α)) (i : Nat) :
    cs.reduceOption = (cs.take i).reduceOption ++ (cs.drop i).reduceOption := by
  rw [← List.reduceOption_append, List.take_append_drop]

/-- The packed values up to a place are a prefix of all of them. -/
theorem take_rank (cs : List (Option α)) (i : Nat) :
    cs.reduceOption.take (rank cs i) = (cs.take i).reduceOption := by
  rw [reduceOption_split cs i, rank, List.take_left]

/-- The packed values from a place on are the rest. -/
theorem drop_rank (cs : List (Option α)) (i : Nat) :
    cs.reduceOption.drop (rank cs i) = (cs.drop i).reduceOption := by
  rw [reduceOption_split cs i, rank, List.drop_left]

theorem rank_le (cs : List (Option α)) (i : Nat) : rank cs i ≤ cs.reduceOption.length := by
  have h := congrArg List.length (take_rank cs i)
  rw [List.length_take] at h
  have : rank cs i = (cs.take i).reduceOption.length := rfl
  omega

/-- The value at a place is the packed value at its rank. -/
theorem getElem?_rank {cs : List (Option α)} {i : Nat} (h : i < cs.length) {v : α}
    (hv : cs[i] = some v) : cs.reduceOption[rank cs i]? = some v := by
  have hsucc := rank_succ_of_some h hv
  have hle := rank_le cs (i + 1)
  have htake := take_rank cs (i + 1)
  rw [reduceOption_take_succ h, hv, hsucc] at htake
  have hget := congrArg (fun l => l[rank cs i]?) htake
  simpa [List.getElem?_append, rank] using hget

theorem rank_lt {cs : List (Option α)} {i : Nat} (h : i < cs.length) {v : α}
    (hv : cs[i] = some v) : rank cs i < cs.reduceOption.length := by
  have := rank_le cs (i + 1)
  rw [rank_succ_of_some h hv] at this
  omega

theorem getElem_rank {cs : List (Option α)} {i : Nat} (h : i < cs.length) {v : α}
    (hv : cs[i] = some v) (hr : rank cs i < cs.reduceOption.length) :
    cs.reduceOption[rank cs i] = v := by
  have := getElem?_rank h hv
  rw [List.getElem?_eq_getElem hr] at this
  exact Option.some.inj this

/-- Runs of one length laid end to end: the `j`-th starts at `j` times the length. -/
theorem length_flatMap_uniform {f : α → List β} {w : Nat} (hf : ∀ a, (f a).length = w)
    (as : List α) : (as.flatMap f).length = as.length * w := by
  induction as with
  | nil => simp
  | cons a as ih => simp [hf, ih, Nat.add_mul, Nat.add_comm]

theorem slice_flatMap_uniform {f : α → List β} {w : Nat} (hf : ∀ a, (f a).length = w)
    (as : List α) {j : Nat} (hj : j < as.length) :
    ((as.flatMap f).drop (j * w)).take w = f as[j] := by
  induction as generalizing j with
  | nil => simp at hj
  | cons a as ih =>
    cases j with
    | zero => simp [← hf a]
    | succ j =>
      have hlt : j < as.length := by simpa using hj
      rw [List.flatMap_cons, List.drop_append, List.drop_eq_nil_of_le, List.nil_append, hf,
        Nat.add_mul, Nat.one_mul, Nat.add_sub_cancel, ih hlt]
      · rfl
      · rw [hf, Nat.add_mul]
        omega

/-- Runs laid end to end: those before a run, the run, and those behind it. -/
theorem flatten_split (ls : List (List β)) {j : Nat} (hj : j < ls.length) :
    ls.flatten = (ls.take j).flatten ++ (ls[j] ++ (ls.drop (j + 1)).flatten) := by
  rw [← List.flatten_cons, ← List.drop_eq_getElem_cons hj, ← List.flatten_append,
    List.take_append_drop]

/-- Runs laid end to end: a run starts where the runs before it end. -/
theorem slice_flatten (ls : List (List β)) {j : Nat} (hj : j < ls.length) :
    (ls.flatten.drop (ls.take j).flatten.length).take ls[j].length = ls[j] := by
  rw [flatten_split ls hj, List.drop_left, List.take_left]

/-- What is left of a list behind its first `n` elements. -/
theorem getElem?_of_drop {as rest : List α} {n : Nat} {a : α} (h : as.drop n = a :: rest) :
    as[n]? = some a := by
  rw [← List.head?_drop, h]
  rfl

theorem drop_of_drop {as front rest : List α} {n : Nat} (h : as.drop n = front ++ rest) :
    as.drop (n + front.length) = rest := by
  rw [← List.drop_drop, h, List.drop_left]

theorem mem_of_drop {as front rest : List α} {n i : Nat} {a : α} (h : as.drop n = front ++ rest)
    (hn : n ≤ i) (hi : i < n + front.length) (ha : as[i]? = some a) : a ∈ front := by
  have hget : (as.drop n)[i - n]? = some a := by
    rw [List.getElem?_drop, Nat.add_sub_cancel' hn, ha]
  rw [h, List.getElem?_append_left (by omega)] at hget
  exact List.mem_of_getElem? hget

theorem drop_succ_of_drop {as rest : List α} {n : Nat} {a : α} (h : as.drop n = a :: rest) :
    as.drop (n + 1) = rest :=
  drop_of_drop (show as.drop n = [a] ++ rest from h)

end JoinOptimizer.Lib
