import JoinOptimizer.HashTable.Partition

/-! The third phase of `build_parallel`: a counting sort of the entries by slot, the start of each
slot in the directory, and bloom bits for every key of a slot. -/

namespace JoinOptimizer

open Lib

variable {hashKey : Int32 → BitVec 64}

section Words

theorem extractBloom_eq (w : BitVec 64) : extractBloom w = w.setWidth 16 := by
  apply BitVec.eq_of_toNat_eq
  unfold extractBloom
  rw [BitVec.toNat_setWidth, BitVec.toNat_setWidth, BitVec.toNat_and]
  show (w.toNat &&& (2 ^ 16 - 1)) % 2 ^ 16 = _
  rw [Nat.and_two_pow_sub_one_eq_mod, Nat.mod_mod]

theorem extractBloom_or (w : BitVec 64) (b : BitVec 16) :
    extractBloom (w ||| b.setWidth 64) = extractBloom w ||| b := by
  rw [extractBloom_eq, extractBloom_eq, BitVec.setWidth_or, BitVec.setWidth_setWidth_of_le _ (by omega),
    BitVec.setWidth_eq]

theorem extractBloom_makeDirectoryEntry (p : BitVec 64) (b : BitVec 16) :
    extractBloom (makeDirectoryEntry p b) = b := by
  have hzero : (p <<< 16).setWidth 16 = 0 := by
    apply BitVec.eq_of_toNat_eq
    rw [BitVec.toNat_setWidth, BitVec.toNat_shiftLeft, Nat.shiftLeft_eq]
    simp
  unfold makeDirectoryEntry
  rw [extractBloom_or, extractBloom_eq, hzero]
  exact BitVec.zero_or

theorem extractPointer_makeDirectoryEntry {n : Nat} (hn : n < 2 ^ 48) (b : BitVec 16) :
    extractPointer (makeDirectoryEntry (BitVec.ofNat 64 n) b) = n := by
  have hlow : (b.setWidth 64) >>> 16 = 0#64 := by
    apply BitVec.eq_of_toNat_eq
    rw [BitVec.toNat_ushiftRight, BitVec.toNat_setWidth, Nat.shiftRight_eq_div_pow]
    have := b.isLt
    simp
    omega
  unfold extractPointer makeDirectoryEntry
  rw [BitVec.ushiftRight_or_distrib, hlow, BitVec.or_zero, BitVec.toNat_ushiftRight,
    BitVec.toNat_shiftLeft, BitVec.toNat_ofNat, Nat.shiftLeft_eq, Nat.shiftRight_eq_div_pow]
  omega

end Words

theorem slotOf_lt (hashKey : Int32 → BitVec 64) (e : HTEntry) :
    slotOf hashKey e < directorySize := by
  unfold directorySize
  exact (dirHashId (hashKey e.key)).isLt

theorem index_tab {α : Type} {n i : Nat} {f : Nat → α} (hi : i < n) : index (tab n f) i = .ok (f i) :=
  index_eq_ok.mpr (getElem?_tab hi)

section Chunks

variable {T P : Nat} {σ : Type} {f : σ → HTEntry → Result σ}

theorem forChunks_eq {heap : Heap HTEntry} {root : Option Nat} {ps : List Nat}
    {xs : List (List HTEntry)} (hc : Chain heap root ps xs) {fuel : Nat} (hfuel : ps.length ≤ fuel)
    (a : σ) : forChunks f heap fuel root a = xs.flatten.foldlM f a := by
  induction hc generalizing fuel a with
  | nil => cases fuel <;> rfl
  | cons hget _ ih =>
    obtain ⟨fuel, rfl⟩ : ∃ m, fuel = m + 1 := ⟨fuel - 1, by simp at hfuel; omega⟩
    unfold forChunks
    rw [deref_eq_ok.mpr hget, ok_bind, List.flatten_cons, List.foldlM_append]
    apply congrArg
    funext b
    exact ih (by simpa using hfuel) b

/-- The entries in the order in which the loops of phase 3 visit them. -/
def allEntries (xs : ListRef T P → List (List HTEntry)) : List HTEntry :=
  (List.finRange P).flatMap fun q => (xs (.global q)).flatten

theorem forPartitions_eq {s : ChunkLists T P} {addr : ListRef T P → List Nat}
    {xs : ListRef T P → List (List HTEntry)} (hs : s.Holds addr xs) (a : σ) :
    forPartitions f s a = (allEntries xs).foldlM f a := by
  unfold forPartitions allEntries
  rw [foldlM_flatMap]
  apply congrArg (fun g => (List.finRange P).foldlM g a)
  funext b q
  have hc := hs.owns.chain (.global q)
  exact forChunks_eq hc hc.length_le b

end Chunks

section Count

variable (hashKey) (count : Nat)

/-- The entries of a slot. -/
def bucket (es : List HTEntry) (s : Nat) : List HTEntry := es.filter (slotOf hashKey · = s)

def countOf (es : List HTEntry) (s : Nat) : Nat := es.countP (slotOf hashKey · = s)

theorem length_bucket (es : List HTEntry) (s : Nat) :
    (bucket hashKey es s).length = countOf hashKey es s :=
  List.countP_eq_length_filter.symm

/-- The word of a slot after the entries `es` are counted. -/
def countedWord (es : List HTEntry) (s : Nat) : BitVec 64 :=
  (bucket hashKey es s).foldl (fun w e => w ||| (bloomMask e.key).setWidth 64)
    (makeDirectoryEntry (BitVec.ofNat 64 count) 0)

variable {hashKey count}

theorem bucket_concat (es : List HTEntry) (e : HTEntry) :
    bucket hashKey (es ++ [e]) = Function.update (bucket hashKey es) (slotOf hashKey e)
      (bucket hashKey es (slotOf hashKey e) ++ [e]) := by
  funext s
  unfold bucket
  by_cases hs : s = slotOf hashKey e
  · subst hs
    simp
  · rw [Function.update_of_ne hs]
    simp [Ne.symm hs]

theorem countOf_concat (es : List HTEntry) (e : HTEntry) :
    countOf hashKey (es ++ [e]) = Function.update (countOf hashKey es) (slotOf hashKey e)
      (countOf hashKey es (slotOf hashKey e) + 1) := by
  funext s
  rw [← length_bucket, bucket_concat]
  by_cases hs : s = slotOf hashKey e
  · subst hs
    simp [length_bucket]
  · rw [Function.update_of_ne hs, Function.update_of_ne hs, length_bucket]

theorem countedWord_concat (es : List HTEntry) (e : HTEntry) :
    countedWord hashKey count (es ++ [e]) =
      Function.update (countedWord hashKey count es) (slotOf hashKey e)
        (countedWord hashKey count es (slotOf hashKey e) ||| (bloomMask e.key).setWidth 64) := by
  funext s
  unfold countedWord
  rw [bucket_concat]
  by_cases hs : s = slotOf hashKey e
  · subst hs
    simp
  · rw [Function.update_of_ne hs, Function.update_of_ne hs]

theorem countEntries_eq (es : List HTEntry) :
    es.foldlM (countEntry hashKey) (tab directorySize fun _ => 0,
        tab directorySize fun _ => makeDirectoryEntry (BitVec.ofNat 64 count) 0) =
      .ok (tab directorySize (countOf hashKey es),
        tab directorySize (countedWord hashKey count es)) := by
  have hrun := foldlM_total (f := countEntry hashKey) (P := fun pre st => st =
    (tab directorySize (countOf hashKey pre), tab directorySize (countedWord hashKey count pre)))
    es _ rfl (by
      rintro pre e _ - rfl
      have hslot := slotOf_lt hashKey e
      refine ⟨_, ?_, rfl⟩
      unfold countEntry
      simp only [index_tab hslot, ok_bind, set_tab]
      rw [countOf_concat, countedWord_concat])
  obtain ⟨_, hrun, rfl⟩ := hrun
  exact hrun

/-- The bloom bits of a slot cover every key in it. -/
theorem countedWord_covers {es : List HTEntry} {e : HTEntry} (he : e ∈ es) :
    extractBloom (countedWord hashKey count es (slotOf hashKey e)) &&& bloomMask e.key =
      bloomMask e.key := by
  have hmem : e ∈ bucket hashKey es (slotOf hashKey e) := by simpa [bucket] using he
  unfold countedWord
  generalize bucket hashKey es (slotOf hashKey e) = bs at hmem
  induction bs using List.reverseRecOn with
  | nil => cases hmem
  | append_singleton bs b ih =>
    rw [List.foldl_append, List.foldl_cons, List.foldl_nil, extractBloom_or]
    rcases List.mem_append.mp hmem with h | h
    · rw [BitVec.and_comm, BitVec.and_or_distrib_left, BitVec.and_comm _ (extractBloom _), ih h]
      ext i
      simp
      grind
    · rw [List.mem_singleton.mp h]
      ext i
      simp
      grind

end Count

section Place

/-- Where slot `s` starts among the entries. -/
def slotStart (hashKey : Int32 → BitVec 64) (es : List HTEntry) (s : Nat) : Nat :=
  startOf (countOf hashKey es) s

theorem slotStart_all (hashKey : Int32 → BitVec 64) (es : List HTEntry) :
    slotStart hashKey es directorySize = es.length := by
  show startOf (fun s => es.countP (slotOf hashKey · = s)) directorySize = _
  rw [startOf_countP, List.countP_eq_length]
  intro e _
  exact decide_eq_true (slotOf_lt hashKey e)

theorem slotStart_le (hashKey : Int32 → BitVec 64) (es : List HTEntry) {s : Nat} (hs : s ≤ directorySize) :
    slotStart hashKey es s ≤ es.length := by
  rw [← slotStart_all hashKey]
  exact startOf_mono _ hs

/-- The word of a slot that starts at its place and has the bloom bits of `W`. -/
def placedWord (hashKey : Int32 → BitVec 64) (es : List HTEntry) (W : Nat → BitVec 64) (s : Nat) :
    BitVec 64 :=
  makeDirectoryEntry (BitVec.ofNat 64 (slotStart hashKey es s)) (extractBloom (W s))

theorem placeSlots_eq (es : List HTEntry) (W : Nat → BitVec 64) :
    (List.range directorySize).foldlM placeSlot
        (tab directorySize (countOf hashKey es), tab directorySize W, 0) =
      .ok (tab directorySize fun _ => 0, tab directorySize (placedWord hashKey es W), es.length) := by
  refine foldlM_range_trajectory (fun i =>
    (tab directorySize fun s => if s < i then 0 else countOf hashKey es s,
      tab directorySize fun s => if s < i then placedWord hashKey es W s else W s,
      slotStart hashKey es i)) ?_ ?_ ?_
  · simp [slotStart, startOf]
  · simp only [slotStart_all]
    rw [tab_congr fun i hi => if_pos hi, tab_congr fun i hi => if_pos hi]
  · intro i hi
    unfold placeSlot
    simp only [index_tab hi, ok_bind, set_tab, Nat.lt_irrefl, if_false]
    congr 2
    · apply tab_congr
      intro s _
      by_cases hs : s = i
      · subst hs
        simp
      · rw [Function.update_of_ne hs]
        simp [show s < i + 1 ↔ s < i by omega]
    · congr 1
      apply tab_congr
      intro s _
      by_cases hs : s = i
      · subst hs
        simp [placedWord]
      · rw [Function.update_of_ne hs]
        simp [show s < i + 1 ↔ s < i by omega]

/-- Every slot of `entries` holds its bucket. -/
def Sorted (hashKey : Int32 → BitVec 64) (es entries : List HTEntry) : Prop :=
  entries.length = es.length ∧ ∀ s < directorySize, ∀ r < countOf hashKey es s,
    entries[slotStart hashKey es s + r]? = (bucket hashKey es s)[r]?

theorem slotStart_add_lt (hashKey : Int32 → BitVec 64) {es : List HTEntry} {s r : Nat} (hs : s < directorySize)
    (hr : r < countOf hashKey es s) : slotStart hashKey es s + r < es.length := by
  have hle := slotStart_le hashKey es (s := s + 1) hs
  unfold slotStart at hle ⊢
  rw [startOf] at hle
  omega

/-- One round of the second loop puts its entry behind those of its slot that were placed before. -/
theorem placeEntry_spec {pre post : List HTEntry} {e : HTEntry} {placed : List HTEntry}
    {W : Nat → BitVec 64} (hlen : placed.length = (pre ++ e :: post).length)
    (hsmall : (pre ++ e :: post).length < 2 ^ 48)
    (hbuckets : ∀ s < directorySize, ∀ r < countOf hashKey pre s,
      placed[slotStart hashKey (pre ++ e :: post) s + r]? = (bucket hashKey pre s)[r]?) :
    ∃ placed', placeEntry hashKey
        (tab directorySize (placedWord hashKey (pre ++ e :: post) W))
        (tab directorySize (countOf hashKey pre), placed) e =
          .ok (tab directorySize (countOf hashKey (pre ++ [e])), placed') ∧
      placed'.length = (pre ++ e :: post).length ∧
      ∀ s < directorySize, ∀ r < countOf hashKey (pre ++ [e]) s,
        placed'[slotStart hashKey (pre ++ e :: post) s + r]? =
          (bucket hashKey (pre ++ [e]) s)[r]? := by
  have hslot := slotOf_lt hashKey e
  generalize hes : pre ++ e :: post = es at *
  -- the counts of the whole list leave room for the entries before and for this one
  have hroom : ∀ s, countOf hashKey (pre ++ [e]) s ≤ countOf hashKey es s := by
    intro s
    rw [← hes, List.append_cons pre e post]
    exact (List.sublist_append_left (pre ++ [e]) post).countP_le
  have hn : countOf hashKey (pre ++ [e]) (slotOf hashKey e) =
      countOf hashKey pre (slotOf hashKey e) + 1 := by
    rw [countOf_concat, Function.update_self]
  have hlt : slotStart hashKey es (slotOf hashKey e) + countOf hashKey pre (slotOf hashKey e) <
      es.length := by
    apply slotStart_add_lt hashKey hslot
    have := hroom (slotOf hashKey e)
    omega
  have hstart := slotStart_le hashKey es hslot.le
  refine ⟨placed.set (slotStart hashKey es (slotOf hashKey e) +
    countOf hashKey pre (slotOf hashKey e)) e, ?_, ?_, ?_⟩
  · unfold placeEntry
    simp only [index_tab hslot, ok_bind, set_tab]
    rw [show extractPointer (placedWord hashKey es W (slotOf hashKey e)) = _ from
      extractPointer_makeDirectoryEntry (by omega) _]
    rw [index_of_lt (by omega), ok_bind, countOf_concat]
  · rw [List.length_set, hlen]
  · intro s hs r hr
    rw [bucket_concat]
    by_cases hown : s = slotOf hashKey e
    · subst hown
      rw [Function.update_self]
      rcases Nat.lt_or_ge r (countOf hashKey pre (slotOf hashKey e)) with h | h
      · rw [List.getElem?_set_ne (by omega), hbuckets _ hs r h,
          List.getElem?_append_left (by rwa [length_bucket])]
      · obtain rfl : r = countOf hashKey pre (slotOf hashKey e) := by omega
        rw [List.getElem?_set_self (by omega), ← length_bucket, List.getElem?_concat_length]
    · rw [Function.update_of_ne hown]
      rw [countOf_concat, Function.update_of_ne hown] at hr
      have hne : slotStart hashKey es (slotOf hashKey e) + countOf hashKey pre (slotOf hashKey e) ≠
          slotStart hashKey es s + r := by
        intro heq
        have h := startOf_add_inj (by have := hroom (slotOf hashKey e); omega)
          (by
            have := hroom s
            rw [countOf_concat, Function.update_of_ne hown] at this
            omega) heq
        exact hown h.1.symm
      rw [List.getElem?_set_ne hne]
      exact hbuckets s hs r hr

theorem placeEntries_spec (hashKey : Int32 → BitVec 64) (es entries : List HTEntry) (W : Nat → BitVec 64)
    (hlen : entries.length = es.length) (hsmall : es.length < 2 ^ 48) :
    ∃ counts placed, es.foldlM (placeEntry hashKey (tab directorySize (placedWord hashKey es W)))
        (tab directorySize fun _ => 0, entries) = .ok (counts, placed) ∧
      Sorted hashKey es placed := by
  have hrun := foldlM_total_prefix
    (f := placeEntry hashKey (tab directorySize (placedWord hashKey es W)))
    (P := fun pre st => st.1 = tab directorySize (countOf hashKey pre) ∧
      st.2.length = es.length ∧ ∀ s < directorySize, ∀ r < countOf hashKey pre s,
        st.2[slotStart hashKey es s + r]? = (bucket hashKey pre s)[r]?)
    es (tab directorySize fun _ => 0, entries) ⟨rfl, hlen, fun _ _ _ h => by cases h⟩ (by
      rintro pre e post ⟨counts, placed⟩ rfl ⟨rfl, hplaced, hbuckets⟩
      obtain ⟨placed', hstep, hrest⟩ := placeEntry_spec hplaced hsmall hbuckets
      exact ⟨_, hstep, rfl, hrest⟩)
  obtain ⟨⟨counts, placed⟩, hst, -, hlen', hbuckets⟩ := hrun
  exact ⟨counts, placed, hst, hlen', hbuckets⟩

end Place

section Fill

variable {count : Nat} {W : Nat → BitVec 64}

/-- The word that `fillEmpty` leaves in a slot. -/
def filledWord (count : Nat) (W : Nat → BitVec 64) (s : Nat) : BitVec 64 :=
  if extractPointer (W s) = count then makeDirectoryEntry (BitVec.ofNat 64 count) 0 else W s

/-- `next` before the round for the slot before `s`. -/
def nextWord (count : Nat) (W : Nat → BitVec 64) (s : Nat) : BitVec 64 :=
  if s < directorySize then filledWord count W s
  else makeDirectoryEntry (BitVec.ofNat 64 count) 0

/-- The directory when the slots from `p` on are done. -/
def filledFrom (count : Nat) (W : Nat → BitVec 64) (p s : Nat) : BitVec 64 :=
  if p ≤ s then filledWord count W s else W s

theorem fillSlot_eq (hmono : ∀ s s', s ≤ s' → s' < directorySize →
      extractPointer (W s) ≤ extractPointer (W s'))
    (hle : ∀ s < directorySize, extractPointer (W s) ≤ count) {p : Nat} (hp : p < directorySize) :
    fillSlot count (tab directorySize (filledFrom count W (p + 1)), nextWord count W (p + 1)) p =
      .ok (tab directorySize (filledFrom count W p), nextWord count W p) := by
  have hword : filledFrom count W (p + 1) p = W p := if_neg (by omega)
  have hset : Function.update (filledFrom count W (p + 1)) p (filledWord count W p) =
      filledFrom count W p := by
    funext s
    unfold filledFrom
    by_cases hs : s = p
    · subst hs
      simp
    · rw [Function.update_of_ne hs]
      simp [show p + 1 ≤ s ↔ p ≤ s by omega]
  have hthis : nextWord count W p = filledWord count W p := if_pos hp
  unfold fillSlot
  simp only [index_tab hp, ok_bind, hword]
  by_cases hempty : extractPointer (W p) = count
  · -- the slots behind an empty one at the end are empty too
    have hnext : nextWord count W (p + 1) = makeDirectoryEntry (BitVec.ofNat 64 count) 0 := by
      unfold nextWord
      split
      case isTrue h =>
        have hge := hmono p (p + 1) (by omega) h
        have := hle (p + 1) h
        exact if_pos (by omega)
      case isFalse => rfl
    have hfilled : filledWord count W p = makeDirectoryEntry (BitVec.ofNat 64 count) 0 := if_pos hempty
    rw [if_pos hempty, set_tab, hnext, ← hfilled, hset, hthis]
  · have hfilled : filledWord count W p = W p := if_neg hempty
    rw [if_neg hempty, hthis, ← hset, hfilled, ← hword, Function.update_eq_self]

/-- Where the pointers grow with the slot, the loop over the empty slots changes nothing but the
bloom bits of slots at the end. -/
theorem fillEmpty_eq (hmono : ∀ s s', s ≤ s' → s' < directorySize →
      extractPointer (W s) ≤ extractPointer (W s'))
    (hle : ∀ s < directorySize, extractPointer (W s) ≤ count) :
    fillEmpty directorySize count (tab directorySize W) =
      .ok (tab directorySize (filledWord count W)) := by
  have hrun : (List.range directorySize).reverse.foldlM (fillSlot count)
      (tab directorySize W, makeDirectoryEntry (BitVec.ofNat 64 count) 0) =
      .ok (tab directorySize (filledWord count W), nextWord count W 0) := by
    apply foldlM_trajectory fun k => (tab directorySize (filledFrom count W (directorySize - k)),
      nextWord count W (directorySize - k))
    · have hnext : nextWord count W directorySize = makeDirectoryEntry (BitVec.ofNat 64 count) 0 :=
        if_neg (Nat.lt_irrefl _)
      have hdone : tab directorySize (filledFrom count W directorySize) = tab directorySize W :=
        tab_congr fun s hs => if_neg (by omega)
      rw [Nat.sub_zero, hnext, hdone]
    · have hall : tab directorySize (filledFrom count W 0) =
          tab directorySize (filledWord count W) := tab_congr fun s _ => if_pos (Nat.zero_le s)
      rw [List.length_reverse, List.length_range, Nat.sub_self, hall]
    · intro k hk
      rw [List.length_reverse, List.length_range] at hk
      have hstep := fillSlot_eq hmono hle (p := directorySize - (k + 1)) (by omega)
      rw [show directorySize - (k + 1) + 1 = directorySize - k by omega] at hstep
      rw [List.getElem_reverse, List.getElem_range, List.length_range,
        show directorySize - 1 - k = directorySize - (k + 1) by omega]
      exact hstep
  unfold fillEmpty
  rw [hrun]
  rfl

end Fill

section Build

variable {T P : Nat} {es : List HTEntry}

theorem slotStart_mono (hashKey : Int32 → BitVec 64) (es : List HTEntry) {s s' : Nat} (h : s ≤ s') :
    slotStart hashKey es s ≤ slotStart hashKey es s' := startOf_mono _ h

/-- The words of the slots before the last loop of the third phase. -/
def sortedWord (hashKey : Int32 → BitVec 64) (es : List HTEntry) : Nat → BitVec 64 :=
  placedWord hashKey es (countedWord hashKey es.length es)

theorem extractPointer_sortedWord (hashKey : Int32 → BitVec 64) (hsmall : es.length < 2 ^ 48) {s : Nat}
    (hs : s ≤ directorySize) :
    extractPointer (sortedWord hashKey es s) = slotStart hashKey es s := by
  have := slotStart_le hashKey es hs
  exact extractPointer_makeDirectoryEntry (by omega) _

theorem extractPointer_filledWord (hsmall : es.length < 2 ^ 48) {s : Nat} (hs : s < directorySize) :
    extractPointer (filledWord es.length (sortedWord hashKey es) s) = slotStart hashKey es s := by
  have hword := extractPointer_sortedWord hashKey hsmall hs.le
  unfold filledWord
  split
  case isTrue h => rw [extractPointer_makeDirectoryEntry hsmall, ← h, hword]
  case isFalse => exact hword

/-- A slot that starts behind the last entry has no entry. -/
theorem bucket_eq_nil {s : Nat} (hs : s < directorySize)
    (hstart : slotStart hashKey es s = es.length) : bucket hashKey es s = [] := by
  have hle := slotStart_le hashKey es (s := s + 1) hs
  unfold slotStart at hle hstart
  rw [startOf] at hle
  rw [← List.length_eq_zero_iff, length_bucket]
  omega

theorem filledWord_covers (hsmall : es.length < 2 ^ 48) {s : Nat} (hs : s < directorySize)
    {e : HTEntry} (he : e ∈ bucket hashKey es s) :
    extractBloom (filledWord es.length (sortedWord hashKey es) s) &&& bloomMask e.key =
      bloomMask e.key := by
  have hstart : slotStart hashKey es s ≠ es.length := by
    intro h
    rw [bucket_eq_nil hs h] at he
    cases he
  have hword : filledWord es.length (sortedWord hashKey es) s = sortedWord hashKey es s := by
    apply if_neg
    rwa [extractPointer_sortedWord hashKey hsmall hs.le]
  obtain ⟨hmem, hslot⟩ := List.mem_filter.mp he
  have hslot := of_decide_eq_true hslot
  subst hslot
  rw [hword]
  unfold sortedWord placedWord
  rw [extractBloom_makeDirectoryEntry]
  exact countedWord_covers hmem

/-- What a table says of the entries `es`: they lie sorted by slot, the pointer of each slot is its
start, and its bloom bits cover its keys. -/
structure UnchainedHashTable.Indexes (hashKey : Int32 → BitVec 64) (t : UnchainedHashTable)
    (es : List HTEntry) : Prop where
  dirSize : t.dirSize = directorySize
  directory : t.directory.length = directorySize
  sorted : Sorted hashKey es t.entries
  word : ∀ s < directorySize, ∃ w, index t.directory s = .ok w ∧
    extractPointer w = slotStart hashKey es s ∧
    ∀ e ∈ bucket hashKey es s, extractBloom w &&& bloomMask e.key = bloomMask e.key

theorem length_resize {α : Type} (xs : List α) (n : Nat) (a : α) : (resize xs n a).length = n := by
  simp [resize]
  omega

/-- The third phase sorts the entries of the global partitions and keeps the temporary pairs. -/
theorem buildDirectory_spec (hashKey : Int32 → BitVec 64) {lists : ChunkLists T P} {addr : ListRef T P → List Nat}
    {xs : ListRef T P → List (List HTEntry)} (hs : lists.Holds addr xs) {t : UnchainedHashTable}
    (hsize : t.dirSize = directorySize) (hdir : t.directory.length = directorySize)
    (hsmall : (allEntries xs).length < 2 ^ 48) :
    ∃ t', buildDirectory hashKey lists t (allEntries xs).length = .ok t' ∧
      t'.Indexes hashKey (allEntries xs) ∧ t'.tempKeysPos = t.tempKeysPos := by
  have hlists : ∀ {σ : Type} (f : σ → HTEntry → Result σ) (a : σ),
      forPartitions f lists a = (allEntries xs).foldlM f a := fun f a => forPartitions_eq hs a
  generalize allEntries xs = es at hsmall hlists
  have hstart : t.directory.map (fun _ => makeDirectoryEntry (BitVec.ofNat 64 es.length) 0) =
      tab directorySize fun _ => makeDirectoryEntry (BitVec.ofNat 64 es.length) 0 := by
    rw [List.map_const', hdir, replicate_eq_tab]
  obtain ⟨counts, placed, hplace, hsorted⟩ := placeEntries_spec hashKey es
    (resize t.entries es.length ⟨0, 0⟩) (countedWord hashKey es.length es) (length_resize ..) hsmall
  have hfill : fillEmpty directorySize es.length (tab directorySize (sortedWord hashKey es)) =
      .ok (tab directorySize (filledWord es.length (sortedWord hashKey es))) := by
    apply fillEmpty_eq
    · intro s s' h h'
      rw [extractPointer_sortedWord hashKey hsmall (by omega),
        extractPointer_sortedWord hashKey hsmall h'.le]
      exact slotStart_mono hashKey es h
    · intro s h
      rw [extractPointer_sortedWord hashKey hsmall h.le]
      exact slotStart_le hashKey es h.le
  refine ⟨{ t with
      entries := placed,
      directory := tab directorySize (filledWord es.length (sortedWord hashKey es)) },
    ?_, ⟨hsize, length_tab _ _, hsorted, ?_⟩, rfl⟩
  · unfold buildDirectory
    rw [hstart, hsize, replicate_eq_tab]
    dsimp only
    rw [hlists, countEntries_eq, ok_bind]
    dsimp only
    rw [placeSlots_eq, ok_bind]
    dsimp only
    rw [hlists, hplace, ok_bind]
    dsimp only
    rw [show placedWord hashKey es (countedWord hashKey es.length es) = sortedWord hashKey es from rfl,
      hfill, ok_bind]
  · intro s h
    exact ⟨_, index_tab h, extractPointer_filledWord hsmall h,
      fun e he => filledWord_covers hsmall h he⟩

end Build

end JoinOptimizer
