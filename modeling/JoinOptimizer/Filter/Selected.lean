import JoinOptimizer.Filter.InnerColumn
import JoinOptimizer.Lib.Slices
import Mathlib.Data.List.GetD
import Mathlib.Data.List.Induction

/-! The bits that the operations on columns and bitmaps compute. -/

namespace JoinOptimizer

open Lib

theorem beginIdx_zero (numThreads numTasks : Nat) : beginIdx numThreads numTasks 0 = 0 := by
  simp [beginIdx]

theorem beginIdx_last {numThreads : Nat} (h : 0 < numThreads) (numTasks : Nat) :
    beginIdx numThreads numTasks numThreads = numTasks := by
  have hrem : numTasks % numThreads < numThreads := Nat.mod_lt _ h
  have hsum := Nat.div_add_mod numTasks numThreads
  unfold beginIdx
  rw [Nat.min_eq_right (by omega)]
  exact hsum

theorem beginIdx_mono (numThreads numTasks : Nat) : Monotone (beginIdx numThreads numTasks) := by
  intro i j hij
  have hmul : i * (numTasks / numThreads) ≤ j * (numTasks / numThreads) := Nat.mul_le_mul_right _ hij
  unfold beginIdx
  omega

/-- A task that loops over the places between two bounds is a loop over all of them. -/
theorem filterTpRun_eq {σ : Type} {task : σ → Nat → Nat → σ} (f : σ → Nat → σ) (bound : Nat → Nat)
    (hmono : Monotone bound) (numTasks : Nat)
    (htask : ∀ s first last, first < last → last ≤ numTasks →
      task s first last = (List.range' (bound first) (bound last - bound first)).foldl f s) (s : σ) :
    filterTpRun task numTasks s =
      (List.range' (bound 0) (bound numTasks - bound 0)).foldl f s := by
  let first (threadId : Nat) : Nat := bound (beginIdx filterThreads numTasks threadId)
  have hbegin : Monotone (beginIdx filterThreads numTasks) := beginIdx_mono filterThreads numTasks
  have hlast : beginIdx filterThreads numTasks filterThreads = numTasks :=
    beginIdx_last (by decide) numTasks
  have hslices := foldl_slices f (show Monotone first from hmono.comp hbegin) s filterThreads
  simp only [first, beginIdx_zero, hlast] at hslices
  rw [← hslices]
  refine List.foldl_ext _ _ _ fun t threadId hmem => ?_
  have hlt : threadId < filterThreads := List.mem_range.mp hmem
  dsimp only
  split
  · next hslice =>
    have hle := hbegin (show threadId + 1 ≤ filterThreads from hlt)
    rw [hlast] at hle
    exact htask t _ _ hslice hle
  · next hslice =>
    have heq : beginIdx filterThreads numTasks (threadId + 1) =
        beginIdx filterThreads numTasks threadId :=
      Nat.le_antisymm (Nat.le_of_not_lt hslice) (hbegin (Nat.le_succ threadId))
    rw [heq, Nat.sub_self]
    rfl

theorem filterTpRun_loop {σ : Type} (f : σ → Nat → σ) (numTasks : Nat) (s : σ) :
    filterTpRun (fun s first last => (List.range' first (last - first)).foldl f s) numTasks s =
      (List.range numTasks).foldl f s := by
  rw [filterTpRun_eq f (fun i => i) monotone_id numTasks (fun _ _ _ _ _ => rfl) s]
  simp [List.range_eq_range']

/-- A loop over offsets from a base. -/
theorem foldl_range_offset {σ : Type} (f : σ → Nat → σ) (base n : Nat) (s : σ) :
    (List.range n).foldl (fun s i => f s (base + i)) s = (List.range' base n).foldl f s := by
  rw [List.range'_eq_map_range, List.foldl_map]

namespace InnerColumn

variable {α : Type}

/-- A column of `n` rows. -/
structure Sized (c : InnerColumn α) (n : Nat) : Prop where
  data : c.data.length = n
  bitmap : c.bitmap.length = (n + 7) / 8

theorem selectRow_eq (p : α → Bool) (c : InnerColumn α) (byteBegin : Nat) (output : List UInt8) (i : Nat) :
    selectRow p c byteBegin output i =
      orFlag output (byteBegin * 8 + i)
        (flag c.bitmap (byteBegin * 8 + i) && (c.data[byteBegin * 8 + i]?).any p) := by
  have hbyte : byteBegin + i / 8 = (byteBegin * 8 + i) / 8 := by omega
  have hbit : i % 8 = (byteBegin * 8 + i) % 8 := by omega
  have hlt : (byteBegin * 8 + i) % 8 < 8 := Nat.mod_lt _ (by decide)
  rw [← modify_or_flag, selectRow, hbyte, hbit, and_bitMask _ hlt, flag]
  congr 1
  funext byte
  congr 1
  cases testBit (c.bitmap.getD ((byteBegin * 8 + i) / 8) 0) ((byteBegin * 8 + i) % 8) with
  | false => simp
  | true =>
    cases (c.data[byteBegin * 8 + i]?).any p with
    | false => simp
    | true => simp [bitMask]

/-- A comparison selects the rows that are not NULL and satisfy it. -/
theorem flag_select {c : InnerColumn α} {n : Nat} (h : c.Sized n) (p : α → Bool) :
    (c.select p).length = (n + 7) / 8 ∧
      ∀ i, flag (c.select p) i = (decide (i < n) && (flag c.bitmap i && (c.data[i]?).any p)) := by
  have hmono : Monotone fun byte => min (byte * 8) n := fun a b hab =>
    min_le_min_right n (Nat.mul_le_mul_right 8 hab)
  have hselect : c.select p = (List.range n).foldl
      (fun bs i => orFlag bs i (flag c.bitmap i && (c.data[i]?).any p))
      (List.replicate ((n + 7) / 8) 0) := by
    unfold select
    rw [h.data, h.bitmap, filterTpRun_eq _ _ hmono ((n + 7) / 8) ?_]
    · simp only [Nat.zero_mul, Nat.zero_min, Nat.sub_zero]
      rw [Nat.min_eq_right (by omega), ← List.range_eq_range']
    · intro s first last hslice hlast
      rw [Nat.min_eq_left (show first * 8 ≤ n by omega), ← foldl_range_offset]
      exact List.foldl_ext _ _ _ fun t i _ => selectRow_eq p c first t i
  obtain ⟨hlen, hflag⟩ := foldl_orFlag (fun i => flag c.bitmap i && (c.data[i]?).any p)
    (List.replicate ((n + 7) / 8) 0) (n := n) (by simp)
  rw [hselect]
  refine ⟨by simpa using hlen, fun i => ?_⟩
  rw [hflag, flag_zeros, Bool.false_or]

/-- `is_not_null`. -/
def isNotNull (c : InnerColumn α) (idx : Nat) : Bool :=
  testBit (c.bitmap.getD (idx / 8) 0) (idx % 8)

/-- Row `i`, or nothing where it is NULL. -/
def row? (c : InnerColumn α) (i : Nat) : Option α := if c.isNotNull i then c.data[i]? else none

theorem sized_empty : (empty : InnerColumn α).Sized 0 := by
  constructor <;> rfl

theorem bitmapPushBack_eq {c : InnerColumn α} {n : Nat} (hdata : c.data.length = n + 1) (notNull : Bool) :
    c.bitmapPushBack notNull = { c with bitmap := pushFlag c.bitmap n notNull } := by
  have hguard : (c.data.length + 7) / 8 > c.bitmap.length ↔ n / 8 + 1 > c.bitmap.length := by omega
  have hlast : c.data.length - 1 = n := by omega
  unfold bitmapPushBack pushFlag
  simp only [hguard, hlast]
  split
  · rfl
  · split
    · rfl
    · rfl

/-- A row behind the others leaves them as they are. -/
theorem Sized.push {c : InnerColumn α} {n : Nat} (h : c.Sized n) (v : α) (notNull : Bool) :
    let pushed := bitmapPushBack { c with data := c.data ++ [v] } notNull
    pushed.Sized (n + 1) ∧ pushed.row? n = (if notNull then some v else none) ∧
      ∀ i < n, pushed.row? i = c.row? i := by
  obtain ⟨hlen, hlast, hothers⟩ := flag_pushFlag h.bitmap notNull
  intro pushed
  have hpushed : pushed = ⟨c.data ++ [v], pushFlag c.bitmap n notNull⟩ :=
    bitmapPushBack_eq (by simp [h.data]) notNull
  have hnull : ∀ i, pushed.isNotNull i = flag (pushFlag c.bitmap n notNull) i := fun i => by
    rw [hpushed]
    rfl
  rw [hpushed] at hnull ⊢
  refine ⟨⟨by simp [h.data], hlen⟩, ?_, fun i hi => ?_⟩
  · rw [row?, hnull, hlast]
    cases notNull with
    | true => simp [← h.data]
    | false => rfl
  · rw [row?, row?, hnull, hothers i hi]
    change (if c.isNotNull i then _ else _) = _
    rw [List.getElem?_append_left (by rw [h.data]; exact hi)]

theorem Sized.pushBack {c : InnerColumn α} {n : Nat} (h : c.Sized n) (v : α) :
    (c.pushBack v).Sized (n + 1) ∧ (c.pushBack v).row? n = some v ∧
      ∀ i < n, (c.pushBack v).row? i = c.row? i :=
  h.push v true

theorem Sized.pushBackNull [Inhabited α] {c : InnerColumn α} {n : Nat} (h : c.Sized n) :
    c.pushBackNull.Sized (n + 1) ∧ c.pushBackNull.row? n = none ∧
      ∀ i < n, c.pushBackNull.row? i = c.row? i :=
  h.push default false

/-- The column that calls of `push_back` and `push_back_null` build. -/
def ofCells [Inhabited α] (cells : List (Option α)) : InnerColumn α :=
  cells.foldl (fun c cell => cell.elim c.pushBackNull c.pushBack) empty

theorem ofCells_spec [Inhabited α] (cells : List (Option α)) :
    (ofCells cells).Sized cells.length ∧
      ∀ i (h : i < cells.length), (ofCells cells).row? i = cells[i] := by
  induction cells using List.reverseRecOn with
  | nil => exact ⟨sized_empty, fun i h => absurd h (Nat.not_lt_zero i)⟩
  | append_singleton cells cell ih =>
    obtain ⟨hsized, hrows⟩ := ih
    have hpush : (ofCells (cells ++ [cell])).Sized (cells.length + 1) ∧
        (ofCells (cells ++ [cell])).row? cells.length = cell ∧
        ∀ i < cells.length, (ofCells (cells ++ [cell])).row? i = (ofCells cells).row? i := by
      rw [ofCells, List.foldl_append]
      cases cell with
      | none => exact hsized.pushBackNull
      | some v => exact hsized.pushBack v
    obtain ⟨hnext, hlast, hothers⟩ := hpush
    refine ⟨by simpa using hnext, fun i h => ?_⟩
    by_cases hi : i < cells.length
    · rw [hothers i hi, hrows i hi, List.getElem_append_left hi]
    · obtain rfl : i = cells.length := by simp at h; omega
      simp [hlast]

theorem select_row {c : InnerColumn α} {n : Nat} (h : c.Sized n) (p : α → Bool) {i : Nat} (hi : i < n) :
    flag (c.select p) i = (c.row? i).any p := by
  rw [(flag_select h p).2, row?, isNotNull, ← flag]
  cases flag c.bitmap i with
  | true => simp [hi]
  | false => simp

end InnerColumn

namespace InnerStrings

/-- A column of `n` rows. -/
structure Sized (c : InnerStrings) (n : Nat) : Prop where
  row : c.row = n
  bitmap : c.bitmap.length = (n + 7) / 8

/-- The offsets end inside the characters, and the last of them at their end. -/
structure Ends (c : InnerStrings) (n : Nat) : Prop where
  offsets : c.offsets.length = n
  within : ∀ offset ∈ c.offsets, offset ≤ c.data.length
  last : (if n = 0 then 0 else c.offsets.getD (n - 1) 0) = c.data.length

/-- `is_not_null`. -/
def isNotNull (c : InnerStrings) (idx : Nat) : Bool :=
  testBit (c.bitmap.getD (idx / 8) 0) (idx % 8)

/-- Row `i`, or nothing where it is NULL. -/
def row? (c : InnerStrings) (i : Nat) : Option Bytes :=
  if c.isNotNull i then some (c.value i) else none

theorem sized_empty : empty.Sized 0 := by
  constructor <;> rfl

theorem ends_empty : empty.Ends 0 :=
  ⟨rfl, by simp [empty], rfl⟩

theorem selectBit_eq (p : Bytes → Bool) (c : InnerStrings) (byteIdx : Nat) (ret : List UInt8)
    {bitIdx : Nat} (hbit : bitIdx < 8) :
    selectBit p c byteIdx ret bitIdx =
      orFlag ret (byteIdx * 8 + bitIdx)
        (decide (byteIdx * 8 + bitIdx < c.row) && (c.row? (byteIdx * 8 + bitIdx)).any p) := by
  have hdiv : (byteIdx * 8 + bitIdx) / 8 = byteIdx := by omega
  have hmod : (byteIdx * 8 + bitIdx) % 8 = bitIdx := by omega
  unfold selectBit
  dsimp only
  split
  · next hrow => simp [orFlag, Nat.not_lt.mpr hrow]
  · next hrow =>
    rw [← modify_or_flag, hdiv, hmod, row?, isNotNull, hdiv, hmod]
    cases testBit (c.bitmap.getD byteIdx 0) bitIdx with
    | true => simp [Nat.not_le.mp hrow]
    | false => simp

/-- A comparison selects the rows that are not NULL and satisfy it. -/
theorem flag_select {c : InnerStrings} {n : Nat} (h : c.Sized n) (p : Bytes → Bool) :
    (c.select p).length = (n + 7) / 8 ∧
      ∀ i < n, flag (c.select p) i = (c.row? i).any p := by
  have hmono : Monotone fun byte => byte * 8 := fun a b hab => Nat.mul_le_mul_right 8 hab
  let bits (i : Nat) : Bool := decide (i < c.row) && (c.row? i).any p
  have hselect : c.select p = (List.range ((n + 7) / 8 * 8)).foldl (fun bs i => orFlag bs i (bits i))
      (List.replicate ((n + 7) / 8) 0) := by
    have hslices := foldl_slices (fun bs i => orFlag bs i (bits i)) hmono
      (List.replicate ((n + 7) / 8) 0) ((n + 7) / 8)
    simp only [Nat.zero_mul, Nat.sub_zero, ← List.range_eq_range'] at hslices
    rw [select, h.row, h.bitmap, filterTpRun_loop, ← hslices]
    refine List.foldl_ext _ _ _ fun bs byteIdx _ => ?_
    rw [show (byteIdx + 1) * 8 - byteIdx * 8 = 8 by omega, ← foldl_range_offset]
    exact List.foldl_ext _ _ _ fun bs bitIdx hmem =>
      selectBit_eq p c byteIdx bs (List.mem_range.mp hmem)
  obtain ⟨hlen, hflag⟩ := foldl_orFlag bits (List.replicate ((n + 7) / 8) 0)
    (n := (n + 7) / 8 * 8) (by simp; omega)
  rw [hselect]
  refine ⟨by simpa using hlen, fun i hi => ?_⟩
  have hrow : i < c.row := by rw [h.row]; exact hi
  rw [hflag, flag_zeros, Bool.false_or]
  simp [bits, hrow, show i < (n + 7) / 8 * 8 by omega]

theorem bitmapPushBack_eq (c : InnerStrings) (notNull : Bool) :
    c.bitmapPushBack notNull =
      { c with bitmap := pushFlag c.bitmap c.row notNull, row := c.row + 1 } := by
  unfold bitmapPushBack pushFlag
  split
  · rfl
  · split
    · rfl
    · rfl

theorem value_append {c : InnerStrings} {n : Nat} (h : c.Ends n) {i : Nat} (hi : i < n) (str : Bytes)
    (offset : Nat) (bitmap : List UInt8) (row : Nat) :
    (InnerStrings.mk (c.data ++ str) (c.offsets ++ [offset]) bitmap row).value i = c.value i := by
  have hi' : i < c.offsets.length := by rw [h.offsets]; exact hi
  have hend : c.offsets.getD i 0 ≤ c.data.length := by
    rw [List.getD_eq_getElem _ _ hi']
    exact h.within _ (List.getElem_mem hi')
  have hfirst : (c.offsets ++ [offset]).getD (i - 1) 0 = c.offsets.getD (i - 1) 0 := by
    rw [List.getD_append _ _ _ _ (by omega)]
  have hlast : (c.offsets ++ [offset]).getD i 0 = c.offsets.getD i 0 := List.getD_append _ _ _ _ hi'
  simp only [value]
  rw [hfirst, hlast]
  generalize (if i = 0 then 0 else c.offsets.getD (i - 1) 0) = first
  by_cases hle : first ≤ c.data.length
  · rw [List.drop_append_of_le_length hle,
      List.take_append_of_le_length (by rw [List.length_drop]; omega)]
  · have hzero : c.offsets.getD i 0 - first = 0 := by omega
    rw [hzero, List.take_zero, List.take_zero]

theorem Sized.push {c : InnerStrings} {n : Nat} (h : c.Sized n) (he : c.Ends n) (str : Bytes)
    (notNull : Bool) :
    let pushed := bitmapPushBack
      { c with data := c.data ++ str, offsets := c.offsets ++ [(c.data ++ str).length] } notNull
    pushed.Sized (n + 1) ∧ pushed.Ends (n + 1) ∧
      pushed.row? n = (if notNull then some str else none) ∧ ∀ i < n, pushed.row? i = c.row? i := by
  obtain ⟨hlen, hlast, hothers⟩ := flag_pushFlag h.bitmap notNull
  intro pushed
  have hpushed : pushed = ⟨c.data ++ str, c.offsets ++ [(c.data ++ str).length],
      pushFlag c.bitmap n notNull, n + 1⟩ := by
    rw [← h.row]
    exact bitmapPushBack_eq _ notNull
  have hnull : ∀ i, pushed.isNotNull i = flag (pushFlag c.bitmap n notNull) i := fun i => by
    rw [hpushed]
    rfl
  rw [hpushed] at hnull ⊢
  have hbehind : (c.offsets ++ [(c.data ++ str).length]).getD n 0 = (c.data ++ str).length := by
    rw [List.getD_append_right _ _ _ _ (by rw [he.offsets]), he.offsets, Nat.sub_self]
    rfl
  refine ⟨⟨rfl, hlen⟩, ⟨by simp [he.offsets], ?_, ?_⟩, ?_, fun i hi => ?_⟩
  · intro offset hmem
    rcases List.mem_append.mp hmem with hmem | hmem
    · have hle := he.within offset hmem
      simp only [List.length_append]
      omega
    · rw [List.mem_singleton.mp hmem]
  · simpa using hbehind
  · rw [row?, hnull, hlast]
    cases notNull with
    | false => rfl
    | true =>
      have hfirst : (if n = 0 then 0 else (c.offsets ++ [(c.data ++ str).length]).getD (n - 1) 0) =
          c.data.length := by
        rw [← he.last]
        split
        · rfl
        · rw [List.getD_append _ _ _ _ (by rw [he.offsets]; omega)]
      simp only [value]
      rw [hfirst, hbehind, List.drop_left, List.length_append, Nat.add_sub_cancel_left,
        List.take_length]
  · rw [row?, row?, hnull, hothers i hi, value_append he hi]
    rfl

theorem Sized.pushBack {c : InnerStrings} {n : Nat} (h : c.Sized n) (he : c.Ends n) (str : Bytes) :
    (c.pushBack str).Sized (n + 1) ∧ (c.pushBack str).Ends (n + 1) ∧
      (c.pushBack str).row? n = some str ∧ ∀ i < n, (c.pushBack str).row? i = c.row? i :=
  h.push he str true

theorem Sized.pushBackNull {c : InnerStrings} {n : Nat} (h : c.Sized n) (he : c.Ends n) :
    c.pushBackNull.Sized (n + 1) ∧ c.pushBackNull.Ends (n + 1) ∧
      c.pushBackNull.row? n = none ∧ ∀ i < n, c.pushBackNull.row? i = c.row? i := by
  have hpush := h.push he [] false
  rw [List.append_nil] at hpush
  exact hpush

/-- The column that calls of `push_back` and `push_back_null` build. -/
def ofCells (cells : List (Option Bytes)) : InnerStrings :=
  cells.foldl (fun c cell => cell.elim c.pushBackNull c.pushBack) empty

theorem ofCells_spec (cells : List (Option Bytes)) :
    (ofCells cells).Sized cells.length ∧ (ofCells cells).Ends cells.length ∧
      ∀ i (h : i < cells.length), (ofCells cells).row? i = cells[i] := by
  induction cells using List.reverseRecOn with
  | nil => exact ⟨sized_empty, ends_empty, fun i h => absurd h (Nat.not_lt_zero i)⟩
  | append_singleton cells cell ih =>
    obtain ⟨hsized, hends, hrows⟩ := ih
    have hpush : (ofCells (cells ++ [cell])).Sized (cells.length + 1) ∧
        (ofCells (cells ++ [cell])).Ends (cells.length + 1) ∧
        (ofCells (cells ++ [cell])).row? cells.length = cell ∧
        ∀ i < cells.length, (ofCells (cells ++ [cell])).row? i = (ofCells cells).row? i := by
      rw [ofCells, List.foldl_append]
      cases cell with
      | none => exact hsized.pushBackNull hends
      | some str => exact hsized.pushBack hends str
    obtain ⟨hnext, hnextEnds, hlast, hothers⟩ := hpush
    refine ⟨by simpa using hnext, by simpa using hnextEnds, fun i h => ?_⟩
    by_cases hi : i < cells.length
    · rw [hothers i hi, hrows i hi, List.getElem_append_left hi]
    · obtain rfl : i = cells.length := by simp at h; omega
      simp [hlast]

end InnerStrings

theorem bitmapNot_eq (bitmap : List UInt8) : bitmapNot bitmap = bitmap.map (~~~ ·) := by
  unfold bitmapNot
  rw [filterTpRun_loop]
  refine List.ext_getElem? fun j => ?_
  rw [getElem?_foldl_modify, List.getElem?_map]
  split
  · rfl
  · next hj => rw [List.getElem?_eq_none (Nat.le_of_not_lt hj)]; rfl

theorem flag_bitmapNot {bitmap : List UInt8} {i : Nat} (hi : i / 8 < bitmap.length) :
    flag (bitmapNot bitmap) i = !flag bitmap i := by
  have hlt : i % 8 < 8 := Nat.mod_lt _ (by decide)
  rw [bitmapNot_eq, flag, flag, ← testBit_not _ hlt]
  simp [hi]

theorem bitmapZip_eq (f : UInt8 → UInt8 → UInt8) {lhs rhs : List UInt8} (h : lhs.length = rhs.length) :
    bitmapZip f lhs rhs = .ok (List.zipWith f lhs rhs) := by
  unfold bitmapZip
  rw [if_pos h, filterTpRun_loop]
  congr 1
  simp only [List.set_eq_modify]
  refine List.ext_getElem? fun j => ?_
  rw [getElem?_foldl_modify, List.getElem?_zipWith]
  split
  · next hj => simp [hj, h ▸ hj]
  · next hj => simp [hj]

/-- An operation on each bit, from the operation on bytes. -/
theorem flag_zipWith {f : UInt8 → UInt8 → UInt8} {g : Bool → Bool → Bool}
    (hf : ∀ a b k, k < 8 → testBit (f a b) k = g (testBit a k) (testBit b k)) {lhs rhs : List UInt8}
    {i : Nat} (hl : i / 8 < lhs.length) (hr : i / 8 < rhs.length) :
    flag (List.zipWith f lhs rhs) i = g (flag lhs i) (flag rhs i) := by
  have hlt : i % 8 < 8 := Nat.mod_lt _ (by decide)
  rw [flag, flag, flag, ← hf _ _ _ hlt]
  simp [hl, hr]

end JoinOptimizer
