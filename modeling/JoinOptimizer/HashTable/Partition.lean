import JoinOptimizer.HashTable.Build

/-! The first two phases of `build_parallel`: in whatever order the workers run, every pair ends up
in one chunk of the list of its partition. -/

namespace JoinOptimizer

open Lib

variable {hashKey : Int32 → BitVec 64} {T P : Nat}

/-- Each array element of `s` hangs a list of chunks with the entries `xs`, at addresses that no
other list uses; no chunk is empty or overfull. -/
structure ChunkLists.Holds (s : ChunkLists T P) (addr : ListRef T P → List Nat)
    (xs : ListRef T P → List (List HTEntry)) : Prop where
  owns : Owns s.heap (Partitions.chunkList ∘ s.partitions) addr xs
  total : ∀ r, (s.partitions r).totalCount = (xs r).flatten.length
  filled : ∀ r, ∀ c ∈ xs r, 0 < c.length ∧ c.length ≤ entriesPerChunk

theorem ChunkLists.holds_new :
    (ChunkLists.new : ChunkLists T P).Holds (fun _ => []) fun _ => [] where
  owns := ⟨fun _ => .nil, fun _ _ _ => List.disjoint_nil_left _⟩
  total _ := rfl
  filled _ _ h := by cases h

theorem deref_eq_ok {heap : Heap HTEntry} {p : Nat} {c : Chunk} :
    deref heap p = .ok c ↔ heap.get p = some c := by
  unfold deref
  split <;> simp_all

theorem checkIndex_of_lt {n i : Nat} (h : i < n) : checkIndex n i = .ok ⟨i, h⟩ := by
  unfold checkIndex
  rw [dif_pos h]

theorem getPartition_lt (hashKey : Int32 → BitVec 64) (key : Int32) :
    getPartition hashKey key < numPartitions := by
  have := (hashKey key).isLt
  unfold getPartition partitionBits numPartitions
  rw [BitVec.toNat_ushiftRight, Nat.shiftRight_eq_div_pow]
  omega

section Worker

variable {ω : Type} [DecidableEq ω] {heap : Heap HTEntry} {root : ω → Option Nat}
  {addr : ω → List Nat} {xs : ω → List (List HTEntry)}

/-- `openChunk` leaves the entries of a list as they are and returns its first chunk, which has
room. -/
theorem openChunk_spec (ho : Owns heap root addr xs) (o : ω)
    (hfilled : ∀ c ∈ xs o, 0 < c.length ∧ c.length ≤ entriesPerChunk) :
    ∃ heap' first addr' n rest, openChunk heap (root o) = .ok (heap', first) ∧
      Owns heap' (Function.update root o (some first)) addr'
        (Function.update xs o (n.data :: rest)) ∧
      heap'.get first = some n ∧ n.data.length < entriesPerChunk ∧
      n.data ++ rest.flatten = (xs o).flatten ∧
      ∀ c ∈ rest, 0 < c.length ∧ c.length ≤ entriesPerChunk := by
  have hpush := ho.push o []
  have hnew := Heap.get_new_self heap ⟨[], root o⟩
  have hroom : ([] : List HTEntry).length < entriesPerChunk := by decide
  have hchain := ho.chain o
  unfold openChunk
  generalize hroot : root o = r at hchain hpush hnew
  generalize haddr : addr o = ps at hchain
  generalize hxs : xs o = ys at hchain hfilled
  rw [hxs] at hpush
  cases hchain with
  | nil =>
    refine ⟨_, _, _, _, [], ?_, hpush, hnew, hroom, rfl, by simp⟩
    simp only [deref_eq_ok.mpr hnew, ok_bind]
    rfl
  | @cons p n ps zs hget hrest =>
    simp only [deref_eq_ok.mpr hget, ok_bind]
    by_cases hfull : Chunk.isFull n = true
    · rw [if_pos hfull]
      exact ⟨_, _, _, _, n.data :: zs, rfl, hpush, hnew, hroom, rfl, hfilled⟩
    · rw [if_neg hfull]
      refine ⟨heap, p, addr, n, zs, rfl, ?_, hget, ?_, rfl, fun c hc => hfilled c (by simp [hc])⟩
      · rwa [← hroot, ← hxs, Function.update_eq_self, Function.update_eq_self]
      · have hle := (hfilled n.data (by simp)).2
        unfold Chunk.isFull at hfull
        rw [beq_iff_eq] at hfull
        omega

theorem lastChunk_eq {l : Nat} {init : List Nat} {p fuel : Nat} {ys : List (List HTEntry)}
    (hc : Chain heap (some p) (init ++ [l]) ys) (hfuel : init.length < fuel) :
    lastChunk heap fuel p = .ok l := by
  induction init generalizing p fuel ys with
  | nil =>
    obtain ⟨fuel, rfl⟩ : ∃ m, fuel = m + 1 := ⟨fuel - 1, by simp at hfuel; omega⟩
    unfold lastChunk
    cases hc with
    | cons hget hrest =>
      rw [deref_eq_ok.mpr hget, ok_bind, hrest.eq_nil.1]
  | cons q init ih =>
    obtain ⟨fuel, rfl⟩ : ∃ m, fuel = m + 1 := ⟨fuel - 1, by simp at hfuel; omega⟩
    unfold lastChunk
    cases hc with
    | cons hget hrest =>
      rw [deref_eq_ok.mpr hget, ok_bind]
      generalize hnext : Node.next _ = next at hrest
      cases next with
      | none => cases init <;> cases hrest
      | some next => exact ih hrest (by simpa using hfuel)

/-- `appendChunks` moves the list of `o'` behind the list of `o`. -/
theorem appendChunks_spec (ho : Owns heap root addr xs) {o o' : ω} (hne : o ≠ o') {first : Nat}
    (hfirst : root o' = some first) :
    ∃ heap' head addr', appendChunks heap (root o) first = .ok (heap', head) ∧
      Owns heap' (Function.update (Function.update root o' none) o (some head)) addr'
        (Function.update (Function.update xs o' []) o (xs o ++ xs o')) := by
  unfold appendChunks
  have hchain := ho.chain o
  cases hhead : root o with
  | none =>
    rw [hhead] at hchain
    have hmove := ho.move hne
    rw [hfirst] at hmove
    rw [hchain.eq_nil_of_none.2]
    exact ⟨heap, first, _, rfl, hmove⟩
  | some head =>
    rw [hhead] at hchain
    -- the addresses of a list that is not empty end with the address of its last chunk
    rcases List.eq_nil_or_concat (addr o) with hnil | ⟨init, l, hlast⟩
    · rw [hnil] at hchain
      cases hchain.eq_nil.1
    · rw [List.concat_eq_append] at hlast
      have hlen := hchain.length_le
      rw [hlast] at hchain hlen
      obtain ⟨n, hget⟩ := hchain.get_of_mem (p := l) (by simp)
      have hwalk : lastChunk heap (heap.length + 1) head = .ok l := by
        apply lastChunk_eq hchain
        simp only [List.length_append, List.length_singleton] at hlen
        omega
      have hlink := ho.link hne hlast hget
      have hroot : Function.update root o' none =
          Function.update (Function.update root o' none) o (some head) := by
        rw [← hhead, ← Function.update_of_ne hne none root, Function.update_eq_self]
      rw [hfirst, hroot] at hlink
      refine ⟨heap.put l { n with next := some first }, head, _, ?_, hlink⟩
      simp only [hwalk, ok_bind, deref_eq_ok.mpr hget]

end Worker

/-- The entry of a pair. -/
def pairEntry (pair : Int32 × UInt32) : HTEntry := { key := pair.1, keyPos := pair.2 }

/-- One round of a partition worker adds its entry to the list of the worker for the partition of
the entry, and changes no other list. -/
theorem partitionEntry_spec (hashKey : Int32 → BitVec 64) {s : ChunkLists T P} {addr : ListRef T P → List Nat}
    {xs : ListRef T P → List (List HTEntry)} (hs : s.Holds addr xs)
    {temp : List (Int32 × UInt32)} {i : Nat} {pair : Int32 × UInt32} (hi : i < 2 ^ 64)
    (htemp : temp[i]? = some pair) (t : Fin T) {q : Fin P} (hq : getPartition hashKey pair.1 = q) :
    ∃ s' addr' ys, partitionEntry hashKey temp t i s = .ok s' ∧
      s'.Holds addr' (Function.update xs (.thread t q) ys) ∧
      ys.flatten.Perm (pairEntry pair :: (xs (.thread t q)).flatten) := by
  obtain ⟨heap, first, addr', n, rest, hopen, howns, hget, hroom, hflat, hrest⟩ :=
    openChunk_spec hs.owns (.thread t q) (hs.filled _)
  have hindex : index temp ((i : Int) % 2 ^ 64).toNat = .ok pair := by
    rw [index_eq_ok, ← htemp]
    congr 1
    omega
  have hcheck : checkIndex P (getPartition hashKey pair.1) = .ok q := by
    rw [hq]
    exact checkIndex_of_lt q.isLt
  have hput := howns.put_head (n.data ++ [pairEntry pair]) (Function.update_self ..) hget
  simp only [Function.update_self, List.tail_cons, Function.update_idem] at hput
  have hperm : (n.data ++ [pairEntry pair] ++ rest.flatten).Perm
      (pairEntry pair :: (xs (.thread t q)).flatten) := by
    rw [← hflat, List.append_assoc]
    exact List.perm_middle
  refine ⟨{ heap := heap.put first { n with data := n.data ++ [pairEntry pair] },
            partitions := Function.update s.partitions (.thread t q)
              { chunkList := some first,
                totalCount := (s.partitions (.thread t q)).totalCount + 1 } },
    addr', (n.data ++ [pairEntry pair]) :: rest, ?_, ⟨?_, ?_, ?_⟩, hperm⟩
  · have hinsert : Chunk.insert n ⟨pair.1, pair.2⟩ =
        .ok { n with data := n.data ++ [pairEntry pair] } := if_pos hroom
    unfold partitionEntry
    rw [hindex]
    simp only [ok_bind]
    rw [hcheck]
    simp only [ok_bind]
    rw [show openChunk s.heap (s.partitions (.thread t q)).chunkList = _ from hopen]
    simp only [ok_bind]
    rw [deref_eq_ok.mpr hget]
    simp only [ok_bind]
    rw [hinsert]
    rfl
  · simpa only [Function.comp_update] using hput
  · intro r
    by_cases hr : r = .thread t q
    · subst hr
      have hlen := hperm.length_eq
      simp only [Function.update_self, hs.total]
      simp only [List.length_cons] at hlen
      exact hlen.symm
    · simp only [Function.update_of_ne hr]
      exact hs.total r
  · intro r c hc
    by_cases hr : r = .thread t q
    · subst hr
      rw [Function.update_self] at hc
      rcases List.mem_cons.mp hc with rfl | hc
      · simp only [List.length_append, List.length_singleton]
        omega
      · exact hrest c hc
    · rw [Function.update_of_ne hr] at hc
      exact hs.filled r c hc

/-- One round of a merge worker moves a list of the thread to the list of the partition. -/
theorem mergeList_spec {s : ChunkLists T P} {addr : ListRef T P → List Nat}
    {xs : ListRef T P → List (List HTEntry)} (hs : s.Holds addr xs) (i : Fin P) (j : Fin T) :
    ∃ s' addr', mergeList i j s = .ok s' ∧
      s'.Holds addr' (Function.update (Function.update xs (.thread j i) []) (.global i)
        (xs (.global i) ++ xs (.thread j i))) := by
  have hne : (ListRef.global i : ListRef T P) ≠ .thread j i := by intro h; cases h
  unfold mergeList
  cases hfirst : (s.partitions (.thread j i)).chunkList with
  | none =>
    have hthread := hs.owns.chain (.thread j i)
    rw [Function.comp_apply, hfirst] at hthread
    refine ⟨s, addr, by simp only [hfirst], ?_⟩
    rw [hthread.eq_nil_of_none.2, List.append_nil, ← hthread.eq_nil_of_none.2,
      Function.update_eq_self, Function.update_eq_self]
    exact hs
  | some first =>
    obtain ⟨heap, head, addr', happend, howns⟩ := appendChunks_spec hs.owns hne hfirst
    rw [Function.comp_apply] at happend
    simp only [hfirst, happend, ok_bind]
    refine ⟨_, addr', rfl, ⟨?_, ?_, ?_⟩⟩
    · simpa only [Function.comp_update] using howns
    · intro r
      by_cases hr : r = .global i
      · subst hr
        simp only [Function.update_self, hs.total, List.flatten_append, List.length_append]
      · simp only [Function.update_of_ne hr]
        by_cases hr' : r = .thread j i
        · subst hr'
          simp
        · simp only [Function.update_of_ne hr']
          exact hs.total r
    · intro r c hc
      by_cases hr : r = .global i
      · subst hr
        rw [Function.update_self] at hc
        rcases List.mem_append.mp hc with hc | hc
        · exact hs.filled _ c hc
        · exact hs.filled _ c hc
      · rw [Function.update_of_ne hr] at hc
        by_cases hr' : r = .thread j i
        · subst hr'
          rw [Function.update_self] at hc
          cases hc
        · rw [Function.update_of_ne hr'] at hc
          exact hs.filled r c hc

/-- The entries of partition `q` in the list of the partition and the lists of all threads. -/
def ofPartition (xs : ListRef T P → List (List HTEntry)) (q : Fin P) : List HTEntry :=
  (xs (.global q)).flatten ++ (List.finRange T).flatMap fun t => (xs (.thread t q)).flatten

/-- The entries of partition `q` with those of thread `t` first. -/
theorem ofPartition_perm (xs : ListRef T P → List (List HTEntry)) (t : Fin T) (q : Fin P) :
    (ofPartition xs q).Perm ((xs (.thread t q)).flatten ++ ((xs (.global q)).flatten ++
      ((List.finRange T).erase t).flatMap fun t => (xs (.thread t q)).flatten)) := by
  unfold ofPartition
  have ht := flatMap_perm_of_mem (List.nodup_finRange T) (List.mem_finRange t)
    fun t => (xs (.thread t q)).flatten
  refine (ht.append_left _).trans ?_
  rw [← List.append_assoc, ← List.append_assoc]
  exact List.perm_append_comm.append_right _

theorem ofPartition_update_thread {xs : ListRef T P → List (List HTEntry)} {t : Fin T} {q : Fin P}
    {ys : List (List HTEntry)} {e : HTEntry}
    (hys : ys.flatten.Perm (e :: (xs (.thread t q)).flatten)) :
    (ofPartition (Function.update xs (.thread t q) ys) q).Perm (e :: ofPartition xs q) := by
  refine (ofPartition_perm _ t q).trans (List.Perm.trans ?_ ((ofPartition_perm xs t q).symm.cons e))
  have hothers : ((List.finRange T).erase t).flatMap
      (fun t' => (Function.update xs (.thread t q) ys (.thread t' q)).flatten) =
      ((List.finRange T).erase t).flatMap fun t' => (xs (.thread t' q)).flatten := by
    apply List.flatMap_congr
    intro t' ht'
    have hne := ((List.nodup_finRange T).mem_erase_iff.mp ht').1
    rw [Function.update_of_ne (by simpa using hne)]
  rw [hothers, Function.update_self, Function.update_of_ne (by simp)]
  exact hys.append_right _

theorem ofPartition_update_of_ne {xs : ListRef T P → List (List HTEntry)} {t : Fin T}
    {q q' : Fin P} (ys : List (List HTEntry)) (hq : q' ≠ q) :
    ofPartition (Function.update xs (.thread t q) ys) q' = ofPartition xs q' := by
  simp [ofPartition, hq]

theorem ofPartition_move (xs : ListRef T P → List (List HTEntry)) (t : Fin T) (q q' : Fin P) :
    (ofPartition (Function.update (Function.update xs (.thread t q) []) (.global q)
      (xs (.global q) ++ xs (.thread t q))) q').Perm (ofPartition xs q') := by
  by_cases hq : q' = q
  · subst hq
    refine (ofPartition_perm _ t q').trans (List.Perm.trans ?_ (ofPartition_perm xs t q').symm)
    have hothers : ((List.finRange T).erase t).flatMap
        (fun t' => (Function.update (Function.update xs (.thread t q') []) (.global q')
          (xs (.global q') ++ xs (.thread t q')) (.thread t' q')).flatten) =
        ((List.finRange T).erase t).flatMap fun t' => (xs (.thread t' q')).flatten := by
      apply List.flatMap_congr
      intro t' ht'
      have hne := ((List.nodup_finRange T).mem_erase_iff.mp ht').1
      rw [Function.update_of_ne (by simp), Function.update_of_ne (by simpa using hne)]
    rw [hothers, Function.update_of_ne (by simp), Function.update_self, Function.update_self,
      List.flatten_append, List.flatten_nil, List.nil_append, ← List.append_assoc]
    exact List.perm_append_comm.append_right _
  · simp [ofPartition, hq]

section Slices

variable {count : Nat}

theorem sliceStart_eq (i : Nat) : sliceStart T count i = i * (count / T) + min i (count % T) := by
  induction i with
  | zero => simp [sliceStart]
  | succ i ih =>
    rw [sliceStart, ih, Nat.succ_mul]
    split <;> omega

theorem sliceStart_all (hT : 0 < T) : sliceStart T count T = count := by
  rw [sliceStart_eq, Nat.min_eq_right (Nat.mod_lt _ hT).le]
  exact Nat.div_add_mod count T

theorem toInt_of_lt {n : Nat} (hn : n < 2 ^ 31) : toInt n = n := by
  unfold toInt
  rw [Int.bmod_eq_of_le] <;> omega

theorem sliceStart_mono {i j : Nat} (h : i ≤ j) : sliceStart T count i ≤ sliceStart T count j := by
  induction h with
  | refl => exact Nat.le_refl _
  | step _ ih => exact Nat.le_trans ih (Nat.le_add_right _ _)

theorem partitionJobs_eq (hT : 0 < T) (hcount : count < 2 ^ 31) (t : Fin T) :
    partitionJobs T count t = (List.range' (sliceStart T count t)
      (sliceStart T count (t + 1) - sliceStart T count t)).map Int.ofNat := by
  have hend : sliceStart T count (t + 1) ≤ sliceStart T count T := sliceStart_mono t.isLt
  have hstart : sliceStart T count t ≤ sliceStart T count (t + 1) := sliceStart_mono (Nat.le_succ _)
  rw [sliceStart_all hT] at hend
  unfold partitionJobs intRange
  rw [toInt_of_lt (by omega), toInt_of_lt (by omega), List.range'_eq_map_range, List.map_map]
  rw [show ((sliceStart T count (t + 1) : Int) - sliceStart T count t).toNat =
    sliceStart T count (t + 1) - sliceStart T count t by omega]
  rfl

/-- The partition workers have every index below `count` once. -/
theorem partitionJobs_flatMap (hT : 0 < T) (hcount : count < 2 ^ 31) :
    (List.finRange T).flatMap (partitionJobs T count) = (List.range count).map Int.ofNat := by
  have hslices := (flatMap_slices T (sliceStart T count) fun i _ =>
    sliceStart_mono (Nat.le_succ i)).1
  rw [sliceStart_all hT, sliceStart, Nat.sub_zero, ← List.range_eq_range'] at hslices
  rw [← hslices, List.map_flatMap]
  exact List.flatMap_congr fun t _ => partitionJobs_eq hT hcount t

theorem mergeStart_succ {i : Nat} : mergeStart T P (i + 1) = mergeStart T P i + mergeCount T P i := by
  unfold mergeStart mergeCount
  rcases Nat.lt_trichotomy (i + 1) (P % T) with h | h | h
  · rw [if_pos h, if_pos (by omega), if_pos (by omega), Nat.succ_mul]
  · rw [if_neg (by omega), if_pos (by omega), if_pos (by omega), ← h, Nat.succ_mul, Nat.mul_succ]
    omega
  · rw [if_neg (by omega), if_neg (by omega), if_neg (by omega), Nat.succ_mul]
    omega

theorem mergeStart_all (hT : 0 < T) : mergeStart T P T = P := by
  unfold mergeStart
  rw [if_neg (Nat.mod_lt P hT).le.not_gt]
  exact Nat.div_add_mod P T

/-- The merge workers have every partition and every thread. -/
theorem mem_mergeJobs (hT : 0 < T) (i : Fin P) (j : Fin T) :
    ∃ t : Fin T, ((i : Nat), j) ∈ mergeJobs T P t := by
  have hslices := (flatMap_slices T (mergeStart T P) fun i _ => by
    rw [mergeStart_succ]
    exact Nat.le_add_right _ _).1
  have hzero : mergeStart T P 0 = 0 := by
    unfold mergeStart
    split
    · simp
    case isFalse h => simp at h; simpa using h
  rw [mergeStart_all hT, hzero, Nat.sub_zero, ← List.range_eq_range'] at hslices
  have hi : (i : Nat) ∈ List.range P := List.mem_range.mpr i.isLt
  rw [← hslices, List.mem_flatMap] at hi
  obtain ⟨t, _, hmem⟩ := hi
  rw [mergeStart_succ, Nat.add_sub_cancel_left] at hmem
  refine ⟨t, List.mem_flatMap.mpr ⟨i, hmem, ?_⟩⟩
  simp

theorem lt_of_mem_mergeJobs (hT : 0 < T) {t : Fin T} {i : Nat} {j : Fin T}
    (h : (i, j) ∈ mergeJobs T P t) : i < P := by
  obtain ⟨i', hi', hmem⟩ := List.mem_flatMap.mp h
  simp only [List.mem_map, Prod.mk.injEq] at hmem
  obtain ⟨_, _, rfl, _⟩ := hmem
  have hmono : ∀ {a b : Nat}, a ≤ b → mergeStart T P a ≤ mergeStart T P b := by
    intro a b hab
    induction hab with
    | refl => exact Nat.le_refl _
    | step _ ih =>
      rw [mergeStart_succ]
      exact Nat.le_trans ih (Nat.le_add_right _ _)
  have hend := hmono (show (t : Nat) + 1 ≤ T from t.isLt)
  rw [mergeStart_all hT, mergeStart_succ] at hend
  have := (List.mem_range'_1.mp hi').2
  omega

end Slices

section Phases

variable {temp : List (Int32 × UInt32)} {count : Nat}

/-- The entry that round `i` of a partition worker stores. -/
def entryAt (temp : List (Int32 × UInt32)) (i : Int) : HTEntry :=
  pairEntry (temp[i.toNat]?.getD (0, 0))

theorem entryAt_range (hle : count ≤ temp.length) :
    ((List.range count).map Int.ofNat).map (entryAt temp) = (temp.take count).map pairEntry := by
  apply List.ext_getElem
  · simp [hle]
  · intro i hi hi'
    have hlt : i < temp.length := by simp at hi; omega
    simp [entryAt, hlt]

/-- What the partition workers have stored after the rounds `pre`. -/
theorem partitionRounds_spec (temp : List (Int32 × UInt32))
    (hrange : ∀ key, getPartition hashKey key < P) (steps : List (Fin T × Int))
    (hsteps : ∀ step ∈ steps, ∃ i : Nat, step.2 = i ∧ i < temp.length ∧ i < 2 ^ 64) :
    ∃ s : ChunkLists T P, steps.foldlM (fun s (t, i) => partitionEntry hashKey temp t i s)
        ChunkLists.new = .ok s ∧
      ∃ addr xs, s.Holds addr xs ∧ ∀ q : Fin P, (ofPartition xs q).Perm
        ((steps.map fun step => entryAt temp step.2).filter
          fun e => getPartition hashKey e.key = q) := by
  apply foldlM_total (P := fun (pre : List (Fin T × Int)) (s : ChunkLists T P) =>
    ∃ addr xs, s.Holds addr xs ∧ ∀ q : Fin P, (ofPartition xs q).Perm
      ((pre.map fun step => entryAt temp step.2).filter fun e => getPartition hashKey e.key = q))
  · refine ⟨_, _, ChunkLists.holds_new, fun q => ?_⟩
    simp [ofPartition]
  · rintro pre ⟨t, i⟩ s hmem ⟨addr, xs, hs, hperm⟩
    obtain ⟨i', rfl, hi', hword⟩ := hsteps _ hmem
    obtain ⟨s', addr', ys, hstep, hs', hys⟩ := partitionEntry_spec hashKey hs
      hword (List.getElem?_eq_getElem hi') t (q := ⟨_, hrange temp[i'].1⟩) rfl
    refine ⟨s', hstep, addr', _, hs', fun q => ?_⟩
    have hentry : entryAt temp i' = pairEntry temp[i'] := by
      simp [entryAt, List.getElem?_eq_getElem hi']
    rw [List.map_append, List.filter_append, List.map_singleton, hentry]
    by_cases hq : q = ⟨_, hrange temp[i'].1⟩
    · subst hq
      refine (ofPartition_update_thread hys).trans ?_
      rw [List.filter_cons_of_pos (by simp [pairEntry]), List.filter_nil]
      exact ((hperm _).cons _).trans (List.perm_append_singleton _ _).symm
    · rw [ofPartition_update_of_ne ys hq, List.filter_cons_of_neg, List.filter_nil,
        List.append_nil]
      · exact hperm q
      · intro h
        exact hq (Fin.ext (of_decide_eq_true h).symm)

/-- The merge workers leave every partition with the entries it had, and after the rounds `pre` the
lists that these rounds moved are empty. -/
theorem mergeRounds_spec {s : ChunkLists T P} {addr : ListRef T P → List Nat}
    {xs : ListRef T P → List (List HTEntry)} (hs : s.Holds addr xs)
    (steps : List (Fin T × Nat × Fin T)) (hsteps : ∀ step ∈ steps, step.2.1 < P) :
    ∃ s', steps.foldlM (fun s (_, i, j) => do mergeList (← checkIndex P i) j s) s = .ok s' ∧
      ∃ addr' ys, s'.Holds addr' ys ∧ (∀ q, (ofPartition ys q).Perm (ofPartition xs q)) ∧
        ∀ step ∈ steps, ∀ q : Fin P, step.2.1 = q → ys (.thread step.2.2 q) = [] := by
  apply foldlM_total (P := fun (pre : List (Fin T × Nat × Fin T)) (s' : ChunkLists T P) =>
    ∃ addr' ys, s'.Holds addr' ys ∧ (∀ q, (ofPartition ys q).Perm (ofPartition xs q)) ∧
      ∀ step ∈ pre, ∀ q : Fin P, step.2.1 = q → ys (.thread step.2.2 q) = [])
  · exact ⟨addr, xs, hs, fun q => .refl _, by simp⟩
  · rintro pre ⟨t, i, j⟩ s' hmem ⟨addr', ys, hs', hperm, hempty⟩
    have hi : i < P := hsteps _ hmem
    obtain ⟨s'', addr'', hstep, hs''⟩ := mergeList_spec hs' ⟨i, hi⟩ j
    refine ⟨s'', ?_, addr'', _, hs'', fun q => ?_, ?_⟩
    · simp only [checkIndex_of_lt hi, ok_bind]
      exact hstep
    · exact (ofPartition_move ys j ⟨i, hi⟩ q).trans (hperm q)
    · intro step hin q hq
      rw [Function.update_of_ne (by simp)]
      by_cases hmoved : ListRef.thread step.2.2 q = ListRef.thread j ⟨i, hi⟩
      · rw [hmoved, Function.update_self]
      · rw [Function.update_of_ne hmoved]
        rcases List.mem_append.mp hin with hin | hin
        · exact hempty step hin q hq
        · rw [List.mem_singleton.mp hin] at hq hmoved
          exact absurd (congrArg _ (Fin.ext hq.symm)) hmoved

/-- Every merge worker has an element of `merge_args` exactly when there are not more workers than
partitions. -/
theorem startMergeWorkers_eq_ok : startMergeWorkers T P = .ok () ↔ T ≤ P := by
  rw [startMergeWorkers, forM_eq_ok]
  constructor
  · intro hall
    by_contra hlt
    obtain ⟨i, hi, -⟩ := bind_eq_ok.mp (hall P (List.mem_range.mpr (by omega)))
    rw [checkIndex, dif_neg (Nat.lt_irrefl P)] at hi
    cases hi
  · intro hle i hi
    rw [checkIndex_of_lt ((List.mem_range.mp hi).trans_le hle)]
    rfl

/-- Whatever the schedules of the two phases: each global partition ends up with the pairs whose key
belongs to it, in chunks that no other list shares, and the threads keep none. -/
theorem partitionAndMerge_spec (hT : 0 < T) (hthreads : T ≤ P) (hcount : count < 2 ^ 31)
    (hle : count ≤ temp.length)
    (hrange : ∀ key, getPartition hashKey key < P)
    (partitionSchedule mergeSchedule : List (Fin T)) :
    ∃ s addr xs, partitionAndMerge hashKey T P partitionSchedule mergeSchedule temp count = .ok s ∧
      s.Holds addr xs ∧ (∀ t q, xs (.thread t q) = []) ∧
      ∀ q : Fin P, (xs (.global q)).flatten.Perm
        (((temp.take count).map pairEntry).filter fun e => getPartition hashKey e.key = q) := by
  have hall : ∀ t, t ∈ List.finRange T := List.mem_finRange
  have hrounds := interleave_perm (List.nodup_finRange T) hall partitionSchedule
    (partitionJobs T count)
  have hmerges := interleave_perm (List.nodup_finRange T) hall mergeSchedule (mergeJobs T P)
  -- the rounds of the partition workers are the indices below `count`
  have hindices : ((interleave (List.finRange T) partitionSchedule (partitionJobs T count)).map
      Prod.snd).Perm ((List.range count).map Int.ofNat) := by
    rw [← partitionJobs_flatMap hT hcount, ← map_snd_allJobs]
    exact hrounds.map _
  obtain ⟨s, hs, addr, xs, hholds, hperm⟩ := partitionRounds_spec temp hrange
    (interleave (List.finRange T) partitionSchedule (partitionJobs T count)) (by
      intro step hstep
      have hmem := hindices.subset (List.mem_map_of_mem hstep)
      simp only [List.mem_map, List.mem_range] at hmem
      obtain ⟨i, hi, heq⟩ := hmem
      exact ⟨i, heq.symm, by omega, by omega⟩)
  obtain ⟨s', hs', addr', ys, hholds', hperm', hempty⟩ := mergeRounds_spec hholds
    (interleave (List.finRange T) mergeSchedule (mergeJobs T P)) (by
      rintro ⟨t, i, j⟩ hstep
      exact lt_of_mem_mergeJobs hT (mem_allJobs.mp (hmerges.subset hstep)).2)
  have hmoved : ∀ t q, ys (.thread t q) = [] := by
    intro j q
    obtain ⟨t, ht⟩ := mem_mergeJobs hT q j
    have hin := hmerges.symm.subset (mem_allJobs.mpr ⟨hall t, ht⟩)
    exact hempty _ hin q rfl
  refine ⟨s', addr', ys, ?_, hholds', hmoved, fun q => ?_⟩
  · exact bind_eq_ok.mpr ⟨s, hs, bind_eq_ok.mpr ⟨(), startMergeWorkers_eq_ok.mpr hthreads, hs'⟩⟩
  · have hglobal : ofPartition ys q = (ys (.global q)).flatten := by
      simp [ofPartition, hmoved]
    rw [← hglobal, ← entryAt_range hle]
    refine (hperm' q).trans ((hperm q).trans (List.Perm.filter _ ?_))
    have hentries := hindices.map (entryAt temp)
    rwa [List.map_map] at hentries

end Phases

section Delete

/-- Deleting a list leaves every other chunk as it was. -/
theorem deleteChunks_spec {heap : Heap HTEntry} {root : Option Nat} {ps : List Nat}
    {xs : List (List HTEntry)} (hc : Chain heap root ps xs) {fuel : Nat}
    (hfuel : ps.length ≤ fuel) :
    ∃ heap', deleteChunks fuel heap root = .ok heap' ∧ heap'.length = heap.length ∧
      ∀ p, p ∉ ps → heap'.get p = heap.get p := by
  induction ps generalizing heap root xs fuel with
  | nil =>
    rw [hc.eq_nil.1]
    exact ⟨heap, by cases fuel <;> rfl, rfl, fun _ _ => rfl⟩
  | cons p ps ih =>
    obtain ⟨fuel, rfl⟩ : ∃ m, fuel = m + 1 := ⟨fuel - 1, by simp at hfuel; omega⟩
    have hnodup := List.nodup_cons.mp hc.nodup
    cases hc with
    | cons hget hrest =>
      -- the rest of the list does not use the address that is deleted
      have hsame : ∀ q ∈ ps, (heap.delete p).get q = heap.get q := by
        intro q hq
        apply Heap.get_delete_of_ne
        rintro rfl
        exact hnodup.1 hq
      have hrest' := hrest.frame hsame
      obtain ⟨heap', hrun, hlen, hsame⟩ := ih hrest' (by simpa using hfuel)
      refine ⟨heap', ?_, ?_, ?_⟩
      · unfold deleteChunks
        rw [deref_eq_ok.mpr hget, ok_bind]
        exact hrun
      · rw [hlen]
        exact List.length_set
      · intro q hq
        rw [List.mem_cons, not_or] at hq
        rw [hsame q hq.2, Heap.get_delete_of_ne hq.1]

/-- Every chunk is deleted at most once. -/
theorem deleteLists_ok {s : ChunkLists T P} {addr : ListRef T P → List Nat}
    {xs : ListRef T P → List (List HTEntry)} (hs : s.Holds addr xs) :
    ∃ heap, deleteLists s = .ok heap := by
  have hnodup : ((List.finRange P).map (ListRef.global (T := T)) ++
      (List.finRange T).flatMap fun t => (List.finRange P).map (ListRef.thread t)).Nodup := by
    rw [List.nodup_append']
    refine ⟨?_, ?_, ?_⟩
    · exact (List.nodup_finRange P).map fun a b h => ListRef.global.inj h
    · rw [List.nodup_flatMap]
      refine ⟨fun t _ => ?_, ?_⟩
      · exact (List.nodup_finRange P).map fun a b h => (ListRef.thread.inj h).2
      · refine (List.nodup_finRange T).imp fun hne r hr hr' => hne ?_
        obtain ⟨q, _, rfl⟩ := List.mem_map.mp hr
        obtain ⟨q', _, h⟩ := List.mem_map.mp hr'
        exact (ListRef.thread.inj h).1.symm
    · intro r hr hr'
      obtain ⟨q, _, rfl⟩ := List.mem_map.mp hr
      obtain ⟨t, _, h⟩ := List.mem_flatMap.mp hr'
      obtain ⟨q', _, h⟩ := List.mem_map.mp h
      cases h
  unfold deleteLists
  generalize (List.finRange P).map ListRef.global ++ _ = roots at hnodup
  have hrun := foldlM_total_prefix
    (f := fun heap r => deleteChunks heap.length heap (s.partitions r).chunkList)
    (P := fun pre heap => heap.length = s.heap.length ∧
      ∀ p, (∀ r ∈ pre, p ∉ addr r) → heap.get p = s.heap.get p)
    roots s.heap ⟨rfl, fun _ _ => rfl⟩ (by
      rintro pre r post heap hsplit ⟨hlen, hsame⟩
      rw [hsplit] at hnodup
      have hfresh : r ∉ pre := fun h =>
        (List.nodup_append.mp hnodup).2.2 r h r (by simp) rfl
      have hchain := (hs.owns.chain r).frame fun p hp => hsame p fun r' hr' h =>
        hs.owns.disjoint r r' (fun e => hfresh (e ▸ hr')) hp h
      obtain ⟨heap', hdel, hlen', hsame'⟩ := deleteChunks_spec hchain hchain.length_le
      refine ⟨heap', hdel, hlen'.trans hlen, fun p hp => ?_⟩
      rw [hsame' p (hp r (by simp)), hsame p fun r' hr' => hp r' (by simp [hr'])])
  obtain ⟨heap, hrun, -⟩ := hrun
  exact ⟨heap, hrun⟩

end Delete

section Partitioned

/-- The first two phases have left the pairs at the partitions of their keys: each global partition
has a list of chunks that ends and shares no chunk with another, and the threads have no list, so
that the final loop and the destructors delete every chunk at most once. -/
structure ChunkLists.Partitioned (hashKey : Int32 → BitVec 64) (s : ChunkLists T P)
    (pairs : List (Int32 × UInt32)) (addr : Fin P → List Nat)
    (chunks : Fin P → List (List HTEntry)) : Prop where
  chain : ∀ q, Chain s.heap (s.partitions (.global q)).chunkList (addr q) (chunks q)
  acyclic : ∀ q, (addr q).Nodup
  disjoint : ∀ q q', q ≠ q' → (addr q).Disjoint (addr q')
  filled : ∀ q, ∀ c ∈ chunks q, 1 ≤ c.length ∧ c.length ≤ entriesPerChunk
  entries : ∀ q, (chunks q).flatten.Perm
    ((pairs.filter fun pair => getPartition hashKey pair.1 = q).map pairEntry)
  total : ∀ q, (s.partitions (.global q)).totalCount =
    (pairs.filter fun pair => getPartition hashKey pair.1 = q).length
  threads : ∀ t q, s.partitions (.thread t q) = ⟨none, 0⟩
  deleted : ∃ heap, deleteLists s = .ok heap

/-- A `Partitions` without chunks is as its constructor made it. -/
theorem ChunkLists.Holds.partitions_eq {s : ChunkLists T P} {addr : ListRef T P → List Nat}
    {xs : ListRef T P → List (List HTEntry)} (hs : s.Holds addr xs) {r : ListRef T P}
    (hr : xs r = []) : s.partitions r = ⟨none, 0⟩ := by
  have hchain := hs.owns.chain r
  have htotal := hs.total r
  rw [hr] at hchain htotal
  have hroot : (s.partitions r).chunkList = none := hchain.root_eq_none
  calc s.partitions r = ⟨(s.partitions r).chunkList, (s.partitions r).totalCount⟩ := rfl
    _ = ⟨none, 0⟩ := by rw [hroot, htotal]; rfl

theorem partitionAndMerge_partitioned (hT : 0 < T) (hthreads : T ≤ P)
    {temp : List (Int32 × UInt32)} {count : Nat} (hcount : count < 2 ^ 31) (hle : count ≤ temp.length)
    (hrange : ∀ key, getPartition hashKey key < P)
    (partitionSchedule mergeSchedule : List (Fin T)) :
    ∃ s addr chunks,
      partitionAndMerge hashKey T P partitionSchedule mergeSchedule temp count = .ok s ∧
      s.Partitioned hashKey (temp.take count) addr chunks := by
  obtain ⟨s, addr, xs, hrun, hholds, hmoved, hperm⟩ :=
    partitionAndMerge_spec hT hthreads hcount hle hrange partitionSchedule mergeSchedule
  have hentries : ∀ q, (xs (.global q)).flatten.Perm
      (((temp.take count).filter fun pair => getPartition hashKey pair.1 = q).map pairEntry) := by
    intro q
    have h := hperm q
    rwa [List.filter_map] at h
  refine ⟨s, fun q => addr (.global q), fun q => xs (.global q), hrun, ?_⟩
  refine ⟨fun q => hholds.owns.chain (.global q), fun q => (hholds.owns.chain (.global q)).nodup,
    fun q q' hne => hholds.owns.disjoint _ _ fun h => hne (ListRef.global.inj h),
    fun q => hholds.filled (.global q), hentries, fun q => ?_,
    fun t q => hholds.partitions_eq (hmoved t q), deleteLists_ok hholds⟩
  rw [hholds.total, (hentries q).length_eq, List.length_map]

/-- Three threads and 16 partitions, with a hash that has the key in its top bits. -/
theorem partitionAndMerge_partitioned_three : ∃ (s : ChunkLists 3 16) (addr : Fin 16 → List Nat)
    (chunks : Fin 16 → List (List HTEntry)),
    partitionAndMerge (fun key => key.toBitVec.setWidth 64 <<< 60) 3 16 [2, 0] [1]
      [(1, 10), (2, 20), (17, 30), (3, 40)] 3 = .ok s ∧
    s.Partitioned (fun key => key.toBitVec.setWidth 64 <<< 60) [(1, 10), (2, 20), (17, 30)] addr chunks :=
  partitionAndMerge_partitioned (by decide) (by decide) (by decide) (by decide)
    (fun key => getPartition_lt _ key) [2, 0] [1]

end Partitioned

end JoinOptimizer
