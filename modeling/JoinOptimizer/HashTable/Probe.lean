import JoinOptimizer.HashTable.Directory

/-! What a probe of a built table returns, whatever calls the table has seen before. -/

namespace JoinOptimizer

open Lib

variable {hashKey : Int32 → BitVec 64}

/-- The positions with which the pairs store the key `k`. -/
def rowsOf (pairs : List (Int32 × UInt32)) (k : Int32) : List UInt32 :=
  (pairs.filter (·.1 = k)).map Prod.snd

section Probe

variable {t : UnchainedHashTable} {es : List HTEntry}

/-- The loop of `probe` over the entries of one slot. -/
theorem probeLoop_eq {start n : Nat} {bs : List HTEntry} (hlen : bs.length = n)
    (hget : ∀ r < n, t.entries[start + r]? = bs[r]?) (k : Int32) (out : List UInt32) :
    (List.range' start n).foldlM (fun out i => do
      let e ← index t.entries i
      if e.key = k then .ok (out ++ [e.keyPos]) else .ok out) out =
      (.ok (out ++ (bs.filter (·.key = k)).map (·.keyPos)) : Result (List UInt32)) := by
  subst hlen
  apply foldlM_trajectory fun i => out ++ ((bs.take i).filter (·.key = k)).map (·.keyPos)
  · simp
  · simp
  · intro i hi
    rw [List.length_range'] at hi
    have hentry : index t.entries (start + i) = .ok bs[i] := by
      rw [index_eq_ok, hget i hi, List.getElem?_eq_getElem hi]
    have htake : bs.take (i + 1) = bs.take i ++ [bs[i]] := List.take_succ_eq_append_getElem hi
    rw [List.getElem_range', Nat.one_mul, hentry]
    simp only [ok_bind, htake, List.filter_append, List.map_append]
    by_cases hk : bs[i].key = k
    · simp [hk]
    · simp [hk]

/-- A probe of a table appends the positions of the entries with the key, in the order in which they
lie in its slot. -/
theorem probe_eq (ht : t.Indexes hashKey es) (k : Int32) (out : List UInt32) :
    t.probe hashKey k out = .ok (out ++
      ((bucket hashKey es (slotOf hashKey ⟨k, 0⟩)).filter (·.key = k)).map (·.keyPos)) := by
  have hslot := slotOf_lt hashKey ⟨k, 0⟩
  obtain ⟨w, hword, hpointer, hbloom⟩ := ht.word _ hslot
  have hlen := ht.sorted.1
  have hle := slotStart_le hashKey es hslot.le
  have hsize : t.entries.length = es.length := hlen
  have hnext : slotStart hashKey es (slotOf hashKey ⟨k, 0⟩ + 1) =
      slotStart hashKey es (slotOf hashKey ⟨k, 0⟩) +
        countOf hashKey es (slotOf hashKey ⟨k, 0⟩) := rfl
  unfold UnchainedHashTable.probe
  rw [show (dirHashId (hashKey k)).toNat = slotOf hashKey ⟨k, 0⟩ from rfl]
  generalize slotOf hashKey ⟨k, 0⟩ = s at *
  simp only [hword, ok_bind, hpointer]
  by_cases hend : slotStart hashKey es s ≥ t.entries.length
  · rw [if_pos hend, bucket_eq_nil hslot (by omega)]
    simp
  · rw [if_neg hend]
    by_cases hmask : extractBloom w &&& bloomMask k ≠ bloomMask k
    · -- no entry of the slot has the key, or its bits would be there
      have hnone : (bucket hashKey es s).filter (·.key = k) = [] := by
        rw [List.filter_eq_nil_iff]
        intro e he hk
        have hcover := hbloom e he
        rw [of_decide_eq_true hk] at hcover
        exact hmask hcover
      rw [if_pos hmask, hnone]
      simp
    · rw [if_neg hmask]
      have hstop : t.slotEnd s = .ok (slotStart hashKey es (s + 1)) := by
        unfold UnchainedHashTable.slotEnd
        rw [ht.dirSize]
        by_cases hlast : s = directorySize - 1
        · rw [if_pos hlast, hsize, ← slotStart_all hashKey es]
          rw [show s + 1 = directorySize by omega]
        · obtain ⟨w', hword', hpointer', -⟩ := ht.word (s + 1) (by omega)
          rw [if_neg hlast, hword', ok_bind, hpointer']
      rw [hstop, ok_bind, hnext, Nat.add_sub_cancel_left]
      exact probeLoop_eq (length_bucket hashKey es s) (ht.sorted.2 s hslot) k out

/-- The entries with a key are all in its slot. -/
theorem bucket_filter (es : List HTEntry) (k : Int32) :
    (bucket hashKey es (slotOf hashKey ⟨k, 0⟩)).filter (·.key = k) = es.filter (·.key = k) := by
  unfold bucket
  rw [List.filter_filter]
  apply List.filter_congr
  intro e _
  by_cases hk : e.key = k
  · subst hk
    simp [slotOf]
  · simp [hk]

end Probe

section Build

variable {T P : Nat}

/-- A table as the constructor makes it and every call leaves it. -/
structure UnchainedHashTable.Ready (t : UnchainedHashTable) : Prop where
  dirSize : t.dirSize = directorySize
  directory : t.directory.length = directorySize

theorem UnchainedHashTable.ready_new : UnchainedHashTable.new.Ready :=
  ⟨rfl, List.length_replicate⟩

/-- `build_parallel` completes under every schedule, and the table then indexes the entries of the
first `count` pairs. -/
theorem buildParallel_spec (hashKey : Int32 → BitVec 64) {t : UnchainedHashTable} (ht : t.Ready) {count : Nat}
    (hle : count ≤ t.tempKeysPos.length) (hcount : count < 2 ^ 31)
    (partitionSchedule mergeSchedule : List (Fin numThreads)) :
    ∃ t' es, t.buildParallel hashKey partitionSchedule mergeSchedule count = .ok t' ∧
      t'.Indexes hashKey es ∧ es.Perm ((t.tempKeysPos.take count).map pairEntry) := by
  obtain ⟨lists, addr, xs, hlists, hholds, -, hperm⟩ := partitionAndMerge_spec (by decide) (by decide) hcount
    hle (getPartition_lt hashKey) partitionSchedule mergeSchedule
  have hall : (allEntries xs).Perm ((t.tempKeysPos.take count).map pairEntry) := by
    refine (List.Perm.flatMap_left _ fun q _ => hperm q).trans ?_
    refine (List.Perm.of_eq ?_).trans (flatMap_filter_perm (List.nodup_finRange numPartitions)
      (fun e => ⟨_, getPartition_lt hashKey e.key⟩) _ fun e _ => List.mem_finRange _)
    simp only [Fin.ext_iff]
  have hlen : (allEntries xs).length = count := by
    rw [hall.length_eq]
    simp [hle]
  obtain ⟨t', hbuilt, hindexes, -⟩ := buildDirectory_spec hashKey hholds ht.dirSize
    ht.directory (by omega)
  obtain ⟨heap, hdeleted⟩ := deleteLists_ok hholds
  refine ⟨t', allEntries xs, ?_, hindexes, hall⟩
  unfold UnchainedHashTable.buildParallel
  rw [hlists, ok_bind, ← hlen, hbuilt, ok_bind, hdeleted]
  rfl

/-- After the build a probe appends the positions that the pairs have with its key. -/
theorem buildParallel_hits (hashKey : Int32 → BitVec 64) {t : UnchainedHashTable} (ht : t.Ready) {count : Nat}
    (hle : count ≤ t.tempKeysPos.length) (hcount : count < 2 ^ 31)
    (partitionSchedule mergeSchedule : List (Fin numThreads)) :
    ∃ t', t.buildParallel hashKey partitionSchedule mergeSchedule count = .ok t' ∧
      ∃ hits : Int32 → List UInt32, (∀ k out, t'.probe hashKey k out = .ok (out ++ hits k)) ∧
        ∀ k, (hits k).Perm (rowsOf (t.tempKeysPos.take count) k) := by
  obtain ⟨t', es, hbuilt, hindexes, hperm⟩ :=
    buildParallel_spec hashKey ht hle hcount partitionSchedule mergeSchedule
  refine ⟨t', hbuilt, _, fun k out => probe_eq hindexes k out, fun k => ?_⟩
  rw [bucket_filter]
  have hrows := (hperm.filter (·.key = k)).map (·.keyPos)
  rw [List.filter_map, List.map_map] at hrows
  exact hrows

end Build

section History

/-- The calls that change a table.  `sort` is what a call of `build` has for `std::sort`, the schedules
are how the threads of a call of `build_parallel` interleave. -/
inductive Call
  | insertTempKey (key : Int32) (keyPos : UInt32)
  | build (sort : List TempVec → List TempVec) (count : Nat)
  | buildParallel (partitionSchedule mergeSchedule : List (Fin numThreads)) (count : Nat)

variable (hashKey) in
def Call.run (t : UnchainedHashTable) : Call → Result UnchainedHashTable
  | .insertTempKey key keyPos => .ok (t.insertTempKey key keyPos)
  | .build sort count => t.build hashKey sort count
  | .buildParallel partitionSchedule mergeSchedule count =>
    t.buildParallel hashKey partitionSchedule mergeSchedule count

theorem fillEmpty_length {dirSize count : Nat} {directory directory' : List (BitVec 64)}
    (h : fillEmpty dirSize count directory = .ok directory') :
    directory'.length = directory.length := by
  obtain ⟨⟨filled, next⟩, hrun, hret⟩ := bind_eq_ok.mp h
  cases hret
  refine foldlM_invariant (P := fun _ st => st.1.length = directory.length) hrun rfl ?_
  rintro _ p ⟨d, next⟩ st' _ hlen hstep
  obtain ⟨entry, _, hstep⟩ := bind_eq_ok.mp hstep
  split at hstep <;> cases hstep
  · simpa using hlen
  · exact hlen

theorem buildRuns_length {tmp : List TempVec} {entries : List HTEntry} {count fuel idx : Nat}
    {directory directory' : List (BitVec 64)}
    (h : buildRuns tmp entries count fuel idx directory = .ok directory') :
    directory'.length = directory.length := by
  induction fuel generalizing idx directory with
  | zero => cases h
  | succ fuel ih =>
    unfold buildRuns at h
    split at h
    · obtain ⟨v, _, h⟩ := bind_eq_ok.mp h
      obtain ⟨stop, _, h⟩ := bind_eq_ok.mp h
      obtain ⟨bloom, _, h⟩ := bind_eq_ok.mp h
      obtain ⟨_, _, h⟩ := bind_eq_ok.mp h
      simpa using ih h
    · cases h
      rfl

theorem forChunks_invariant {σ : Type} {f : σ → HTEntry → Result σ} {Q : σ → Prop}
    (hstep : ∀ a e a', Q a → f a e = .ok a' → Q a') {heap : Heap HTEntry} {fuel : Nat}
    {root : Option Nat} {a a' : σ} (ha : Q a) (h : forChunks f heap fuel root a = .ok a') : Q a' := by
  induction fuel generalizing root a with
  | zero =>
    cases root with
    | none =>
      cases h
      exact ha
    | some p => cases h
  | succ fuel ih =>
    cases root with
    | none =>
      cases h
      exact ha
    | some p =>
      unfold forChunks at h
      obtain ⟨chunk, _, h⟩ := bind_eq_ok.mp h
      obtain ⟨b, hb, h⟩ := bind_eq_ok.mp h
      refine ih ?_ h
      exact foldlM_invariant (P := fun _ => Q) hb ha fun _ e a a' _ => hstep a e a'

theorem forPartitions_invariant {T P : Nat} {σ : Type} {f : σ → HTEntry → Result σ} {Q : σ → Prop}
    (hstep : ∀ a e a', Q a → f a e = .ok a' → Q a') {s : ChunkLists T P} {a a' : σ} (ha : Q a)
    (h : forPartitions f s a = .ok a') : Q a' :=
  foldlM_invariant (P := fun _ => Q) h ha fun _ _ _ _ _ hq hrun => forChunks_invariant hstep hq hrun

theorem buildDirectory_ready {T P : Nat} {lists : ChunkLists T P} {t t' : UnchainedHashTable}
    {count : Nat} (ht : t.Ready) (h : buildDirectory hashKey lists t count = .ok t') : t'.Ready := by
  obtain ⟨⟨counts, counted⟩, hcounted, h⟩ := bind_eq_ok.mp h
  obtain ⟨⟨counts', placed, pos⟩, hplaced, h⟩ := bind_eq_ok.mp h
  obtain ⟨⟨_, entries⟩, _, h⟩ := bind_eq_ok.mp h
  obtain ⟨filled, hfilled, h⟩ := bind_eq_ok.mp h
  cases h
  refine ⟨ht.dirSize, ?_⟩
  have hcountedLen : counted.length = directorySize := by
    refine forPartitions_invariant (Q := fun st => st.2.length = directorySize) ?_ ?_ hcounted
    · rintro ⟨_, d⟩ e st' hlen hstep
      obtain ⟨n, _, hstep⟩ := bind_eq_ok.mp hstep
      obtain ⟨w, _, hstep⟩ := bind_eq_ok.mp hstep
      cases hstep
      simpa using hlen
    · simpa using ht.directory
  have hplacedLen : placed.length = directorySize := by
    refine foldlM_invariant (P := fun _ st => st.2.1.length = directorySize) hplaced hcountedLen ?_
    rintro _ i ⟨_, d, _⟩ st' _ hlen hstep
    obtain ⟨w, _, hstep⟩ := bind_eq_ok.mp hstep
    obtain ⟨n, _, hstep⟩ := bind_eq_ok.mp hstep
    cases hstep
    simpa using hlen
  exact (fillEmpty_length hfilled).trans hplacedLen

/-- Every call leaves a table ready. -/
theorem Call.run_ready {t t' : UnchainedHashTable} {call : Call} (ht : t.Ready)
    (h : call.run hashKey t = .ok t') : t'.Ready := by
  cases call with
  | insertTempKey key keyPos =>
    cases h
    exact ⟨ht.dirSize, ht.directory⟩
  | build sort count =>
    obtain ⟨tmp, _, h⟩ := bind_eq_ok.mp h
    obtain ⟨entries, _, h⟩ := bind_eq_ok.mp h
    obtain ⟨runs, hruns, h⟩ := bind_eq_ok.mp h
    obtain ⟨filled, hfilled, h⟩ := bind_eq_ok.mp h
    cases h
    refine ⟨ht.dirSize, ?_⟩
    show filled.length = directorySize
    rw [fillEmpty_length hfilled, buildRuns_length hruns, List.length_map, ht.directory]
  | buildParallel partitionSchedule mergeSchedule count =>
    obtain ⟨lists, _, h⟩ := bind_eq_ok.mp h
    obtain ⟨built, hbuilt, h⟩ := bind_eq_ok.mp h
    obtain ⟨_, _, h⟩ := bind_eq_ok.mp h
    cases h
    exact buildDirectory_ready ht hbuilt

/-- A table after any history of calls. -/
theorem ready_of_history {calls : List Call} {t : UnchainedHashTable}
    (h : calls.foldlM (Call.run hashKey) UnchainedHashTable.new = .ok t) : t.Ready :=
  foldlM_invariant (P := fun _ => UnchainedHashTable.Ready) h UnchainedHashTable.ready_new
    fun _ _ _ _ _ ht hrun => Call.run_ready ht hrun

/-- After any history, for any pairs and under every schedule of the threads: the parallel build
completes, and each probe then appends the positions of the pairs with its key, each as often as the
pairs have it. -/
theorem probe_buildParallel (hashKey : Int32 → BitVec 64) {calls : List Call}
    {t : UnchainedHashTable}
    (hhistory : calls.foldlM (Call.run hashKey) UnchainedHashTable.new = .ok t)
    (pairs : List (Int32 × UInt32)) {count : Nat} (hle : count ≤ pairs.length)
    (hcount : count < 2 ^ 31) (partitionSchedule mergeSchedule : List (Fin numThreads)) :
    ∃ t', ({ t with tempKeysPos := pairs }).buildParallel hashKey partitionSchedule mergeSchedule
        count = .ok t' ∧
      ∀ k out, ∃ rows, t'.probe hashKey k out = .ok (out ++ rows) ∧
        rows.Perm (rowsOf (pairs.take count) k) := by
  have hready := ready_of_history hhistory
  obtain ⟨t', hbuilt, hits, hprobe, hperm⟩ := buildParallel_hits hashKey
    (t := { t with tempKeysPos := pairs }) ⟨hready.dirSize, hready.directory⟩ hle hcount
    partitionSchedule mergeSchedule
  exact ⟨t', hbuilt, fun k out => ⟨hits k, hprobe k out, hperm k⟩⟩

/-- Keys that share a slot, one of them negative and one twice, and a thread that runs late. -/
theorem probe_buildParallel_shared_slot :
    ∃ t', ({ UnchainedHashTable.new with
        tempKeysPos := [(7, 1), (-2, 5), (7, 9)] }).buildParallel (fun _ => 0) [1, 0] [2] 3 = .ok t' ∧
      ∀ k out, ∃ rows, t'.probe (fun _ => 0) k out = .ok (out ++ rows) ∧
        rows.Perm (rowsOf [(7, 1), (-2, 5), (7, 9)] k) :=
  @probe_buildParallel (fun _ => 0) [.insertTempKey 7 1, .insertTempKey (-2) 5] _ rfl
    [(7, 1), (-2, 5), (7, 9)] 3 (by decide) (by decide) [1, 0] [2]

end History

end JoinOptimizer
