import JoinOptimizer.HashTable.Probe

/-! `build`: entries sorted by slot, a word for every run of one slot, and the words of the empty slots
taken from the next slot that has entries. -/

namespace JoinOptimizer

open Lib

variable {hashKey : Int32 → BitVec 64}

section Sorted

variable {es : List HTEntry}

theorem slotStart_eq_countP (hashKey : Int32 → BitVec 64) (es : List HTEntry) (s : Nat) :
    slotStart hashKey es s = es.countP (slotOf hashKey · < s) :=
  startOf_countP (slotOf hashKey) es s

theorem slotStart_succ (hashKey : Int32 → BitVec 64) (es : List HTEntry) (s : Nat) :
    slotStart hashKey es (s + 1) = slotStart hashKey es s + countOf hashKey es s := rfl

theorem slotStart_perm {es' : List HTEntry} (h : es.Perm es') (s : Nat) :
    slotStart hashKey es s = slotStart hashKey es' s := by
  rw [slotStart_eq_countP, slotStart_eq_countP, h.countP_eq]

/-- The entries before a slot's start are those of smaller slots. -/
theorem lt_slotStart_iff (h : es.Pairwise fun a b => slotOf hashKey a ≤ slotOf hashKey b) (s : Nat)
    {i : Nat} (hi : i < es.length) : i < slotStart hashKey es s ↔ slotOf hashKey es[i] < s := by
  rw [slotStart_eq_countP]
  exact lt_countP_iff_of_sorted h s hi

theorem bucket_eq_slice (h : es.Pairwise fun a b => slotOf hashKey a ≤ slotOf hashKey b) (s : Nat) :
    bucket hashKey es s = (es.drop (slotStart hashKey es s)).take (countOf hashKey es s) := by
  rw [slotStart_eq_countP]
  exact filter_eq_slice_of_sorted h s

/-- Entries sorted by slot hold every bucket at its place. -/
theorem sorted_self (h : es.Pairwise fun a b => slotOf hashKey a ≤ slotOf hashKey b) :
    Sorted hashKey es es := by
  refine ⟨rfl, fun s _ r hr => ?_⟩
  rw [bucket_eq_slice h, List.getElem?_take_of_lt hr, List.getElem?_drop]

end Sorted

section Runs

variable {es : List HTEntry} {tmp : List TempVec} {count : Nat}

/-- The sorted temporary entries, with their slots. -/
structure SortedRuns (hashKey : Int32 → BitVec 64) (tmp : List TempVec) (es : List HTEntry) (count : Nat) :
    Prop where
  entries : tmp.map TempVec.entry = es
  slots : ∀ v ∈ tmp, v.dirHashId = dirHashId (hashKey v.entry.key)
  length : es.length = count
  sorted : es.Pairwise fun a b => slotOf hashKey a ≤ slotOf hashKey b

theorem SortedRuns.get (h : SortedRuns hashKey tmp es count) {i : Nat} (hi : i < es.length) :
    ∃ v, index tmp i = .ok v ∧ v.entry = es[i] ∧ v.dirHashId.toNat = slotOf hashKey es[i] := by
  obtain ⟨rfl, hslots, -, -⟩ := h
  rw [List.length_map] at hi
  refine ⟨tmp[i], index_of_lt hi, by simp, ?_⟩
  rw [hslots _ (List.getElem_mem hi), List.getElem_map]
  rfl

/-- The end of a run is where the next slot starts. -/
theorem runEnd_eq (h : SortedRuns hashKey tmp es count) {p : BitVec 16} {fuel i : Nat}
    (hlow : slotStart hashKey es p.toNat ≤ i) (hhigh : i ≤ slotStart hashKey es (p.toNat + 1))
    (hfuel : count < i + fuel) :
    runEnd tmp count p fuel i = .ok (slotStart hashKey es (p.toNat + 1)) := by
  have hle := slotStart_le hashKey es (s := p.toNat + 1) (by unfold directorySize; omega)
  induction fuel generalizing i with
  | zero =>
    have hlen := h.length
    omega
  | succ fuel ih =>
    unfold runEnd
    by_cases hcount : i < count
    · have hi : i < es.length := by rw [h.length]; exact hcount
      obtain ⟨v, hv, -, hslot⟩ := h.get hi
      have hbelow := lt_slotStart_iff h.sorted p.toNat hi
      have hwithin := lt_slotStart_iff h.sorted (p.toNat + 1) hi
      rw [if_pos hcount, hv, ok_bind]
      by_cases hsame : v.dirHashId = p
      · have hp : slotOf hashKey es[i] = p.toNat := by rw [← hslot, hsame]
        rw [if_pos hsame]
        exact ih (by omega) (by omega) (by omega)
      · have hp : slotOf hashKey es[i] ≠ p.toNat := fun he =>
          hsame (BitVec.eq_of_toNat_eq (hslot.trans he))
        rw [if_neg hsame]
        congr 1
        omega
    · have hlen := h.length
      rw [if_neg hcount]
      congr 1
      omega

/-- The bloom bits of entries. -/
def bloomOf (es : List HTEntry) : BitVec 16 := es.foldl (fun filter e => filter ||| bloomMask e.key) 0

theorem bloomOf_concat (es : List HTEntry) (e : HTEntry) :
    bloomOf (es ++ [e]) = bloomOf es ||| bloomMask e.key := by
  simp [bloomOf]

theorem bloomOf_covers {es : List HTEntry} {e : HTEntry} (he : e ∈ es) :
    bloomOf es &&& bloomMask e.key = bloomMask e.key := by
  induction es using List.reverseRecOn with
  | nil => cases he
  | append_singleton es b ih =>
    rw [bloomOf_concat]
    rcases List.mem_append.mp he with h | h
    · rw [BitVec.and_comm, BitVec.and_or_distrib_left, BitVec.and_comm _ (bloomOf es), ih h]
      ext i
      simp
      grind
    · rw [List.mem_singleton.mp h]
      ext i
      simp
      grind

theorem bloomFilter_eq {start stop : Nat} (hle : start ≤ stop) (hstop : stop ≤ es.length) :
    bloomFilter es start stop = .ok (bloomOf ((es.drop start).take (stop - start))) := by
  have hlen : ((es.drop start).take (stop - start)).length = stop - start := by simp; omega
  unfold bloomFilter
  apply foldlM_trajectory fun i => bloomOf ((es.drop start).take i)
  · rfl
  · rw [List.length_range']
  · intro i hi
    rw [List.length_range'] at hi
    have hentry : index es (start + i) = .ok es[start + i] := index_of_lt (by omega)
    have htake : (es.drop start).take (i + 1) = (es.drop start).take i ++ [es[start + i]] := by
      rw [List.take_succ_eq_append_getElem (by simp; omega), List.getElem_drop]
    rw [List.getElem_range', Nat.one_mul, hentry, ok_bind, htake, bloomOf_concat, bloomMask]
    simp only [BitVec.or_assoc]

/-- The word of slot `s` when the runs before `idx` are done. -/
def runWord (hashKey : Int32 → BitVec 64) (es : List HTEntry) (count idx s : Nat) : BitVec 64 :=
  if slotStart hashKey es s < idx ∧ countOf hashKey es s ≠ 0 then
    makeDirectoryEntry (BitVec.ofNat 64 (slotStart hashKey es s)) (bloomOf (bucket hashKey es s))
  else makeDirectoryEntry (BitVec.ofNat 64 count) 0

theorem runWord_next {s : Nat} (hs : countOf hashKey es s ≠ 0) :
    Function.update (runWord hashKey es count (slotStart hashKey es s)) s
        (makeDirectoryEntry (BitVec.ofNat 64 (slotStart hashKey es s)) (bloomOf (bucket hashKey es s))) =
      runWord hashKey es count (slotStart hashKey es (s + 1)) := by
  funext q
  have hsucc := slotStart_succ hashKey es s
  by_cases hq : q = s
  · subst hq
    rw [Function.update_self, runWord, if_pos ⟨by omega, hs⟩]
  · rw [Function.update_of_ne hq]
    have hiff : slotStart hashKey es q < slotStart hashKey es s ∧ countOf hashKey es q ≠ 0 ↔
        slotStart hashKey es q < slotStart hashKey es (s + 1) ∧ countOf hashKey es q ≠ 0 := by
      have hqsucc := slotStart_succ hashKey es q
      rcases Nat.lt_or_gt_of_ne hq with hlt | hgt
      · have hmono := slotStart_mono hashKey es (show q + 1 ≤ s from hlt)
        omega
      · have hmono := slotStart_mono hashKey es (show s + 1 ≤ q from hgt)
        omega
    unfold runWord
    simp only [hiff]

theorem runWord_all (hlen : es.length = count) {q : Nat} (hq : count ≤ slotStart hashKey es q) :
    tab directorySize (runWord hashKey es count (slotStart hashKey es q)) =
      tab directorySize (runWord hashKey es count count) := by
  apply tab_congr
  intro s hs
  have hsucc := slotStart_succ hashKey es s
  have hle := slotStart_le hashKey es (s := s + 1) hs
  have hiff : slotStart hashKey es s < slotStart hashKey es q ∧ countOf hashKey es s ≠ 0 ↔
      slotStart hashKey es s < count ∧ countOf hashKey es s ≠ 0 := by omega
  unfold runWord
  simp only [hiff]

/-- The loop over the runs, from the start of any slot on. -/
theorem buildRuns_eq (h : SortedRuns hashKey tmp es count) {fuel q : Nat}
    (hfuel : count < slotStart hashKey es q + fuel) :
    buildRuns tmp es count fuel (slotStart hashKey es q)
        (tab directorySize (runWord hashKey es count (slotStart hashKey es q))) =
      .ok (tab directorySize (runWord hashKey es count count)) := by
  have hlen := h.length
  induction fuel generalizing q with
  | zero =>
    have hle : slotStart hashKey es q ≤ es.length := by
      rw [slotStart_eq_countP]
      exact List.countP_le_length
    omega
  | succ fuel ih =>
    unfold buildRuns
    by_cases hcount : slotStart hashKey es q < count
    · have hi : slotStart hashKey es q < es.length := by rw [hlen]; exact hcount
      obtain ⟨v, hv, -, hslot⟩ := h.get hi
      rw [if_pos hcount, hv, ok_bind]
      generalize hs : slotOf hashKey es[slotStart hashKey es q] = s at hslot
      have hslotLt : s < directorySize := hs ▸ slotOf_lt hashKey _
      -- the entry at the start of a slot is the first of its own slot
      have hstart : slotStart hashKey es q = slotStart hashKey es s := by
        have hqs := (lt_slotStart_iff h.sorted q hi).not
        have hss := (lt_slotStart_iff h.sorted s hi).not
        have hmono := slotStart_mono hashKey es (show q ≤ s by omega)
        omega
      have hnext := (lt_slotStart_iff h.sorted (s + 1) hi).mpr (by omega)
      have hsucc := slotStart_succ hashKey es s
      have hend := slotStart_le hashKey es (s := s + 1) hslotLt
      have hrun : runEnd tmp count v.dirHashId (count + 1) (slotStart hashKey es q) =
          .ok (slotStart hashKey es (s + 1)) := by
        rw [← hslot] at hnext hsucc hstart ⊢
        exact runEnd_eq h (by omega) (by omega) (by omega)
      have hbloom : bloomFilter es (slotStart hashKey es q) (slotStart hashKey es (s + 1)) =
          .ok (bloomOf (bucket hashKey es s)) := by
        rw [bloomFilter_eq (by omega) hend, bucket_eq_slice h.sorted, hstart, hsucc,
          Nat.add_sub_cancel_left]
      simp only [hrun, hbloom, ok_bind, hslot, index_tab hslotLt, set_tab]
      rw [hstart, runWord_next (by omega)]
      exact ih (by omega)
    · rw [if_neg hcount, runWord_all hlen (by omega)]

end Runs

section Fill

variable {count : Nat} {W : Nat → BitVec 64}

/-- The word that the loop over the empty slots leaves in the slot that has `d` slots from it on. -/
def backWord (count : Nat) (W : Nat → BitVec 64) : Nat → BitVec 64
  | 0 => makeDirectoryEntry (BitVec.ofNat 64 count) 0
  | d + 1 =>
    if extractPointer (W (directorySize - (d + 1))) = count then backWord count W d
    else W (directorySize - (d + 1))

theorem fillEmpty_back : fillEmpty directorySize count (tab directorySize W) =
    .ok (tab directorySize fun s => backWord count W (directorySize - s)) := by
  have hrun : (List.range directorySize).reverse.foldlM (fillSlot count)
      (tab directorySize W, makeDirectoryEntry (BitVec.ofNat 64 count) 0) =
      .ok (tab directorySize (fun s => backWord count W (directorySize - s)),
        backWord count W directorySize) := by
    apply foldlM_trajectory fun k =>
      (tab directorySize (fun s => if directorySize - k ≤ s then backWord count W (directorySize - s) else W s),
        backWord count W k)
    · congr 1
      exact tab_congr fun s hs => if_neg (by omega)
    · rw [List.length_reverse, List.length_range]
      congr 1
      exact tab_congr fun s _ => if_pos (by omega)
    · intro k hk
      rw [List.length_reverse, List.length_range] at hk
      have hslot : directorySize - (k + 1) < directorySize := by omega
      rw [List.getElem_reverse, List.getElem_range, List.length_range,
        show directorySize - 1 - k = directorySize - (k + 1) by omega]
      have hback : backWord count W (directorySize - (directorySize - (k + 1))) = backWord count W (k + 1) := by
        rw [show directorySize - (directorySize - (k + 1)) = k + 1 by omega]
      have hword : (if directorySize - k ≤ directorySize - (k + 1) then
          backWord count W (directorySize - (directorySize - (k + 1))) else W (directorySize - (k + 1))) =
          W (directorySize - (k + 1)) := if_neg (by omega)
      unfold fillSlot
      simp only [index_tab hslot, ok_bind, hword, set_tab]
      by_cases hempty : extractPointer (W (directorySize - (k + 1))) = count
      · have hnext : backWord count W (k + 1) = backWord count W k := if_pos hempty
        rw [if_pos hempty, hnext]
        congr 2
        apply tab_congr
        intro s _
        by_cases hs : s = directorySize - (k + 1)
        · subst hs
          rw [Function.update_self, if_pos (Nat.le_refl _), hback, hnext]
        · rw [Function.update_of_ne hs]
          simp only [show directorySize - k ≤ s ↔ directorySize - (k + 1) ≤ s by omega]
      · have hnext : backWord count W (k + 1) = W (directorySize - (k + 1)) := if_neg hempty
        rw [if_neg hempty, hnext]
        congr 2
        apply tab_congr
        intro s _
        by_cases hs : s = directorySize - (k + 1)
        · subst hs
          rw [if_neg (by omega), if_pos (Nat.le_refl _), hback, hnext]
        · simp only [show directorySize - k ≤ s ↔ directorySize - (k + 1) ≤ s by omega]
  unfold fillEmpty
  rw [hrun]
  rfl

end Fill

section Build

variable {es : List HTEntry} {count : Nat}

theorem backWord_pointer (hlen : es.length = count) (hsmall : count < 2 ^ 48) {d : Nat}
    (hd : d ≤ directorySize) :
    extractPointer (backWord count (runWord hashKey es count count) d) =
      slotStart hashKey es (directorySize - d) := by
  induction d with
  | zero => rw [backWord, extractPointer_makeDirectoryEntry hsmall, Nat.sub_zero, slotStart_all, hlen]
  | succ d ih =>
    have hslot : directorySize - (d + 1) + 1 = directorySize - d := by omega
    have hsucc := slotStart_succ hashKey es (directorySize - (d + 1))
    have hle := slotStart_le hashKey es (s := directorySize - (d + 1)) (by omega)
    rw [hslot] at hsucc
    unfold backWord runWord
    by_cases hrun : slotStart hashKey es (directorySize - (d + 1)) < count ∧
        countOf hashKey es (directorySize - (d + 1)) ≠ 0
    · rw [if_pos hrun, extractPointer_makeDirectoryEntry (by omega), if_neg (by omega),
        extractPointer_makeDirectoryEntry (by omega)]
    · rw [if_neg hrun, extractPointer_makeDirectoryEntry hsmall, if_pos rfl]
      have hend := slotStart_le hashKey es (s := directorySize - d) (by omega)
      refine (ih (by omega)).trans ?_
      omega

/-- A slot with entries keeps the word of its run. -/
theorem backWord_eq (hlen : es.length = count) (hsmall : count < 2 ^ 48) {s : Nat} (hs : s < directorySize)
    (hempty : bucket hashKey es s ≠ []) :
    backWord count (runWord hashKey es count count) (directorySize - s) =
      makeDirectoryEntry (BitVec.ofNat 64 (slotStart hashKey es s)) (bloomOf (bucket hashKey es s)) := by
  have hcount : countOf hashKey es s ≠ 0 := by
    rw [← length_bucket]
    exact fun h => hempty (List.length_eq_zero_iff.mp h)
  have hsucc := slotStart_succ hashKey es s
  have hle := slotStart_le hashKey es (s := s + 1) hs
  have hword : runWord hashKey es count count s = makeDirectoryEntry
      (BitVec.ofNat 64 (slotStart hashKey es s)) (bloomOf (bucket hashKey es s)) :=
    if_pos ⟨by omega, hcount⟩
  rw [show directorySize - s = directorySize - (s + 1) + 1 by omega, backWord,
    show directorySize - (directorySize - (s + 1) + 1) = s by omega, hword,
    extractPointer_makeDirectoryEntry (by omega), if_neg (by omega)]

/-- What `std::sort` does with the temporary entries; it need not be stable. -/
structure SortsBySlot (sort : List TempVec → List TempVec) : Prop where
  perm : ∀ tmp, (sort tmp).Perm tmp
  sorted : ∀ tmp, (sort tmp).Pairwise fun a b => a.dirHashId ≤ b.dirHashId

/-- The temporary entry of a pair. -/
def tempVec (hashKey : Int32 → BitVec 64) (pair : Int32 × UInt32) : TempVec :=
  { dirHashId := dirHashId (hashKey pair.1), entry := pairEntry pair }

theorem mapM_range {ε α β : Type} (xs : List α) {f : Nat → Except ε β} {g : α → β} {count : Nat}
    (hle : count ≤ xs.length) (h : ∀ i (hi : i < xs.length), f i = .ok (g xs[i])) :
    (List.range count).mapM f = .ok ((xs.take count).map g) := by
  rw [mapM_eq_ok_iff, List.forall₂_iff_get]
  refine ⟨by simp [hle], fun i hi hi' => ?_⟩
  simp only [List.length_range] at hi
  simpa using h i (by omega)

theorem sortedRuns {sort : List TempVec → List TempVec} (hsort : SortsBySlot sort)
    (hashKey : Int32 → BitVec 64) (pairs : List (Int32 × UInt32)) :
    SortedRuns hashKey (sort (pairs.map (tempVec hashKey)))
      ((sort (pairs.map (tempVec hashKey))).map TempVec.entry) pairs.length := by
  have hperm := hsort.perm (pairs.map (tempVec hashKey))
  have hslots : ∀ v ∈ sort (pairs.map (tempVec hashKey)), v.dirHashId = dirHashId (hashKey v.entry.key) := by
    intro v hv
    obtain ⟨pair, -, rfl⟩ := List.mem_map.mp (hperm.mem_iff.mp hv)
    rfl
  refine ⟨rfl, hslots, by rw [List.length_map, hperm.length_eq, List.length_map], ?_⟩
  refine List.Pairwise.map _ (fun a b hab => hab) ((hsort.sorted _).imp_of_mem ?_)
  intro a b ha hb hab
  show (dirHashId (hashKey a.entry.key)).toNat ≤ (dirHashId (hashKey b.entry.key)).toNat
  rw [← hslots a ha, ← hslots b hb]
  exact hab

/-- `build` completes for every sort, and the table then indexes the sorted entries. -/
theorem build_spec (hashKey : Int32 → BitVec 64) {sort : List TempVec → List TempVec}
    (hsort : SortsBySlot sort) {t : UnchainedHashTable} (ht : t.Ready) {count : Nat}
    (hle : count ≤ t.tempKeysPos.length) (hsmall : count < 2 ^ 48) :
    ∃ t' es, t.build hashKey sort count = .ok t' ∧ t'.Indexes hashKey es ∧
      es.Perm ((t.tempKeysPos.take count).map pairEntry) := by
  let pairs := t.tempKeysPos.take count
  let tmp := sort (pairs.map (tempVec hashKey))
  let es := tmp.map TempVec.entry
  have hlen : pairs.length = count := by simp [pairs, hle]
  have hruns : SortedRuns hashKey tmp es count := hlen ▸ sortedRuns hsort hashKey pairs
  have htmpLen : tmp.length = count := by
    rw [← hruns.length]
    exact (List.length_map _).symm
  have hentries : (List.range count).mapM (fun i => do .ok (← index tmp i).entry) =
      (.ok es : Result (List HTEntry)) := by
    have hmap := mapM_range (f := fun i => (do .ok (← index tmp i).entry : Result HTEntry))
      (g := TempVec.entry) tmp htmpLen.ge fun i hi => by rw [index_of_lt hi]; rfl
    rwa [List.take_of_length_le htmpLen.le] at hmap
  have hdirectory : t.directory.map (fun _ => makeDirectoryEntry (BitVec.ofNat 64 count) 0) =
      tab directorySize (runWord hashKey es count 0) := by
    rw [List.map_const', ht.directory, replicate_eq_tab]
    exact tab_congr fun s _ => (if_neg (by omega)).symm
  have hbuild : buildRuns tmp es count (count + 1) 0 (tab directorySize (runWord hashKey es count 0)) =
      .ok (tab directorySize (runWord hashKey es count count)) := by
    have hstart : slotStart hashKey es 0 = 0 := rfl
    rw [← hstart]
    exact buildRuns_eq hruns (by omega)
  refine ⟨{ t with
      entries := es,
      directory := tab directorySize fun s =>
        backWord count (runWord hashKey es count count) (directorySize - s) },
    es, ?_, ⟨ht.dirSize, length_tab _ _, sorted_self hruns.sorted, ?_⟩, ?_⟩
  · unfold UnchainedHashTable.build
    refine bind_eq_ok.mpr ⟨pairs.map (tempVec hashKey), ?_, ?_⟩
    · exact mapM_range _ hle fun i hi => by rw [index_of_lt hi]; rfl
    dsimp only
    rw [hentries, ok_bind, hdirectory, hbuild, ok_bind, ht.dirSize, fillEmpty_back, ok_bind]
  · intro s hs
    refine ⟨_, index_tab hs, ?_, fun e he => ?_⟩
    · rw [backWord_pointer hruns.length hsmall (by omega)]
      congr 1
      omega
    · rw [backWord_eq hruns.length hsmall hs (List.ne_nil_of_mem he), extractBloom_makeDirectoryEntry]
      exact bloomOf_covers he
  · refine ((hsort.perm _).map TempVec.entry).trans ?_
    rw [List.map_map]
    exact .refl _

end Build

namespace UnchainedHashTable

/-- The pointer of slot `s`. -/
def pointer (t : UnchainedHashTable) (s : Nat) : Nat := extractPointer (t.directory.getD s 0)

/-- The pointer behind slot `s`. -/
def pointerEnd (t : UnchainedHashTable) (count s : Nat) : Nat :=
  if s + 1 < directorySize then t.pointer (s + 1) else count

/-- The entries from the pointer of slot `s` to the next. -/
def slotEntries (t : UnchainedHashTable) (count s : Nat) : List HTEntry :=
  (t.entries.drop (t.pointer s)).take (t.pointerEnd count s - t.pointer s)

variable {t : UnchainedHashTable} {es : List HTEntry}

theorem Indexes.pointer_eq (h : t.Indexes hashKey es) {s : Nat} (hs : s < directorySize) :
    t.pointer s = slotStart hashKey es s := by
  obtain ⟨w, hword, hpointer, -⟩ := h.word s hs
  rw [pointer, List.getD_eq_getElem?_getD, index_eq_ok.mp hword]
  exact hpointer

theorem Indexes.slotEntries_eq (h : t.Indexes hashKey es) {s : Nat} (hs : s < directorySize) :
    t.slotEntries es.length s = bucket hashKey es s := by
  have hend : t.pointerEnd es.length s = slotStart hashKey es s + countOf hashKey es s := by
    rw [← slotStart_succ]
    unfold pointerEnd
    split
    · next hnext => exact h.pointer_eq hnext
    · next hlast =>
      rw [← slotStart_all hashKey es]
      congr 1
      omega
  rw [slotEntries, hend, h.pointer_eq hs, Nat.add_sub_cancel_left]
  apply List.ext_getElem?
  intro r
  by_cases hr : r < countOf hashKey es s
  · rw [List.getElem?_take_of_lt hr, List.getElem?_drop, h.sorted.2 s hs r hr]
  · rw [List.getElem?_eq_none (by simp; omega), List.getElem?_eq_none (by rw [length_bucket]; omega)]

end UnchainedHashTable

/-- After any history, for any pairs, sort and schedule: both builds complete, their slots have the same
pointers and the same entries, those of the pairs that hash to the slot, and a probe finds the same
positions in both tables. -/
theorem build_agrees_buildParallel (hashKey : Int32 → BitVec 64) {calls : List Call}
    {t : UnchainedHashTable}
    (hhistory : calls.foldlM (Call.run hashKey) UnchainedHashTable.new = .ok t)
    (pairs : List (Int32 × UInt32)) {count : Nat} (hle : count ≤ pairs.length)
    (hcount : count < 2 ^ 31) {sort : List TempVec → List TempVec} (hsort : SortsBySlot sort)
    (partitionSchedule mergeSchedule : List (Fin numThreads)) :
    ∃ serial parallel,
      ({ t with tempKeysPos := pairs }).build hashKey sort count = .ok serial ∧
      ({ t with tempKeysPos := pairs }).buildParallel hashKey partitionSchedule mergeSchedule count =
        .ok parallel ∧
      serial.directory.length = directorySize ∧ parallel.directory.length = directorySize ∧
      (∀ s < directorySize, serial.pointer s = parallel.pointer s ∧ serial.pointer s ≤ count ∧
        ∀ s' < s, serial.pointer s' ≤ serial.pointer s) ∧
      (∀ s < directorySize,
        (serial.slotEntries count s).Perm (parallel.slotEntries count s) ∧
        (serial.slotEntries count s).Perm (bucket hashKey ((pairs.take count).map pairEntry) s)) ∧
      ∀ k out, ∃ rows rows', serial.probe hashKey k out = .ok (out ++ rows) ∧
        parallel.probe hashKey k out = .ok (out ++ rows') ∧ rows.Perm rows' := by
  have hready : ({ t with tempKeysPos := pairs } : UnchainedHashTable).Ready :=
    ⟨(ready_of_history hhistory).dirSize, (ready_of_history hhistory).directory⟩
  obtain ⟨serial, es, hserial, hindexes, hperm⟩ := build_spec hashKey hsort hready hle (by omega)
  obtain ⟨parallel, es', hparallel, hindexes', hperm'⟩ :=
    buildParallel_spec hashKey hready hle hcount partitionSchedule mergeSchedule
  have hsame : es.Perm es' := hperm.trans hperm'.symm
  have hlen : es.length = count := by
    rw [hperm.length_eq]
    simp [hle]
  have hlen' : es'.length = count := hsame.length_eq.symm.trans hlen
  refine ⟨serial, parallel, hserial, hparallel, hindexes.directory, hindexes'.directory, ?_, ?_, ?_⟩
  · intro s hs
    refine ⟨?_, ?_, fun s' hs' => ?_⟩
    · rw [hindexes.pointer_eq hs, hindexes'.pointer_eq hs, slotStart_perm hsame]
    · rw [hindexes.pointer_eq hs, ← hlen]
      exact slotStart_le hashKey es hs.le
    · rw [hindexes.pointer_eq hs, hindexes.pointer_eq (hs'.trans hs)]
      exact slotStart_mono hashKey es hs'.le
  · intro s hs
    have hentries := hindexes.slotEntries_eq hs
    have hentries' := hindexes'.slotEntries_eq hs
    rw [hlen] at hentries
    rw [hlen'] at hentries'
    rw [hentries, hentries']
    exact ⟨hsame.filter _, hperm.filter _⟩
  · intro k out
    refine ⟨_, _, probe_eq hindexes k out, probe_eq hindexes' k out, ?_⟩
    rw [bucket_filter, bucket_filter]
    exact (hsame.filter _).map _

/-- Merge sort as one such sort. -/
def mergeBySlot (tmp : List TempVec) : List TempVec := tmp.mergeSort fun a b => a.dirHashId ≤ b.dirHashId

theorem sortsBySlot_mergeBySlot : SortsBySlot mergeBySlot := by
  constructor
  · exact fun tmp => List.mergeSort_perm tmp _
  · intro tmp
    have hsorted : (mergeBySlot tmp).Pairwise fun a b => decide (a.dirHashId ≤ b.dirHashId) = true :=
      List.pairwise_mergeSort
        (fun a b c hab hbc => by simp only [decide_eq_true_eq] at *; exact BitVec.le_trans hab hbc)
        (fun a b => by simpa using BitVec.le_total a.dirHashId b.dirHashId) tmp
    exact hsorted.imp fun h => by simpa using h

/-- Three keys of one slot, negative ones among them, after a build of other pairs. -/
theorem build_agrees_buildParallel_shared_slot :
    ∃ serial parallel,
      ({ UnchainedHashTable.new with tempKeysPos := [(7, 1), (-2, 5), (7, 9)] }).build (fun _ => 0)
        mergeBySlot 3 = .ok serial ∧
      ({ UnchainedHashTable.new with tempKeysPos := [(7, 1), (-2, 5), (7, 9)] }).buildParallel (fun _ => 0)
        [1, 0] [2] 3 = .ok parallel ∧
      ∀ s < directorySize, serial.pointer s = parallel.pointer s := by
  obtain ⟨serial, parallel, hserial, hparallel, -, -, hpointers, -⟩ :=
    @build_agrees_buildParallel (fun _ => 0) [.insertTempKey 7 1] _ rfl [(7, 1), (-2, 5), (7, 9)] 3
      (by decide) (by decide) mergeBySlot sortsBySlot_mergeBySlot [1, 0] [2]
  exact ⟨serial, parallel, hserial, hparallel, fun s hs => (hpointers s hs).1⟩

end JoinOptimizer
