import JoinOptimizer.Data
import JoinOptimizer.Lib.Runs
import JoinOptimizer.Lib.Slots
import Mathlib.Data.List.Nodup
import Mathlib.Data.List.Perm.Basic

/-! The cuckoo hash table of `include/cuckoo.h`.  `insert` computes the slot of `T1` once, for the key
that it is called with, and puts each pair that it carries back from `T2` into that same slot. -/

namespace JoinOptimizer.Cuckoo

open Lib

/-- `HashTable<Key, Value>`; a node that is not occupied is a free slot, and its key and value are
never read. -/
structure HashTable (κ ν : Type) where
  size : Nat
  T1 : List (Option (κ × ν))
  T2 : List (Option (κ × ν))
  occupiedCount : Nat

namespace HashTable

variable {κ ν : Type} (hasher : κ → Nat)

/-- The constructor. -/
def new (s : Nat) : HashTable κ ν := ⟨s, List.replicate s none, List.replicate s none, 0⟩

/-- `hash_func`. -/
def hashFunc (h : HashTable κ ν) (k : κ) : Nat := hasher k % h.size

/-- `hash_func2`. -/
def hashFunc2 (h : HashTable κ ν) (k : κ) : Nat := hasher k / h.size % h.size

/-- `find`. -/
def find [DecidableEq κ] (h : HashTable κ ν) (key : κ) : Option ν :=
  match (slot h.T1 (h.hashFunc hasher key)).filter (fun e => e.1 = key) with
  | some e => some e.2
  | none => ((slot h.T2 (h.hashFunc2 hasher key)).filter (fun e => e.1 = key)).map Prod.snd

/-- `T1[k] = e`. -/
def put1 (h : HashTable κ ν) (k : Nat) (e : κ × ν) : HashTable κ ν := { h with T1 := h.T1.set k (some e) }

/-- `T2[k] = e`. -/
def put2 (h : HashTable κ ν) (k : Nat) (e : κ × ν) : HashTable κ ν := { h with T2 := h.T2.set k (some e) }

/-- `occupied_count++`. -/
def count (h : HashTable κ ν) : HashTable κ ν := { h with occupiedCount := h.occupiedCount + 1 }

/-- The loop of `insert` with the slot `k` of `T1`, for as many iterations as `fuel`: the table, and the
pair still carried when the loop ends without a free slot. -/
def insertLoop (k : Nat) : Nat → Nat → HashTable κ ν → κ × ν → HashTable κ ν × Option (κ × ν)
  | 0, _, h, cur => (h, some cur)
  | fuel + 1, timesMoved, h, cur =>
    if timesMoved ≤ h.size then
      match slot h.T1 k with
      | none => ((h.put1 k cur).count, none)
      | some e =>
        let h := h.put1 k cur
        if timesMoved + 1 = h.size then (h, some e)
        else
          let k2 := h.hashFunc2 hasher e.1
          match slot h.T2 k2 with
          | none => ((h.put2 k2 e).count, none)
          | some e' => insertLoop k fuel (timesMoved + 2) (h.put2 k2 e) e'
    else (h, some cur)

/-- The pairs in the order in which `rehash` collects them. -/
def items (h : HashTable κ ν) : List (κ × ν) :=
  (List.range h.size).flatMap fun i => (slot h.T1 i).toList ++ (slot h.T2 i).toList

/-- `rehash`, with the `insert` that it calls. -/
def rehash (insert : HashTable κ ν → κ × ν → Result (HashTable κ ν)) (h : HashTable κ ν) :
    Result (HashTable κ ν) :=
  h.items.foldlM insert (new (2 * h.size))

/-- `insert` makes room first where half of the slots of one table are taken. -/
def makeRoom (insert : HashTable κ ν → κ × ν → Result (HashTable κ ν)) (h : HashTable κ ν) :
    Result (HashTable κ ν) :=
  if h.size / 2 ≤ h.occupiedCount then rehash insert h else .ok h

/-- `insert`, with calls of `insert` in one another as deep as `fuel`. -/
def insert : Nat → HashTable κ ν → κ × ν → Result (HashTable κ ν)
  | 0, _, _ => .error .outOfFuel
  | fuel + 1, h, item => do
    let h ← makeRoom (insert fuel) h
    match h.insertLoop hasher (h.hashFunc hasher item.1) (h.size + 1) 0 item with
    | (h, none) => .ok h
    | (h, some cur) => do
      let h ← rehash (insert fuel) h
      insert fuel h cur

/-- The pairs in the table. -/
def stored (h : HashTable κ ν) : List (κ × ν) := h.T1.reduceOption ++ h.T2.reduceOption

/-- Two tables of `size` slots and the number of pairs in them. -/
structure Sized (h : HashTable κ ν) : Prop where
  pos : 0 < h.size
  T1 : h.T1.length = h.size
  T2 : h.T2.length = h.size
  counted : h.occupiedCount = h.stored.length

/-- Every pair is in a slot computed from its own key. -/
structure Placed (h : HashTable κ ν) : Prop where
  T1 : InPlace (fun e => h.hashFunc hasher e.1) h.T1
  T2 : InPlace (fun e => h.hashFunc2 hasher e.1) h.T2

/-- The table is the map of some pairs. -/
structure IsMap [DecidableEq κ] (h : HashTable κ ν) (pairs : List (κ × ν)) : Prop where
  placed : h.Placed hasher
  found : ∀ e ∈ pairs, h.find hasher e.1 = some e.2
  absent : ∀ k, (∀ e ∈ pairs, e.1 ≠ k) → h.find hasher k = none

/-- The loop would carry a pair `e'` back from `T2` into the slot of the new key, which is not its
own, and then leave with the new pair in `T2`. -/
def Misplaces (h : HashTable κ ν) (item : κ × ν) : Prop :=
  ∃ e e', slot h.T1 (h.hashFunc hasher item.1) = some e ∧
    slot h.T2 (h.hashFunc2 hasher e.1) = some e' ∧
    slot h.T2 (h.hashFunc2 hasher item.1) = none ∧ h.hashFunc hasher e'.1 ≠ h.hashFunc hasher item.1

/-- Neither the loop of this call nor one of the calls that its rehashes make misplaces a pair. -/
def Clean : Nat → HashTable κ ν → κ × ν → Prop
  | 0, _, _ => True
  | fuel + 1, h, item =>
    (h.size / 2 ≤ h.occupiedCount →
      Always (insert hasher fuel) (fun _ _ => True) (Clean fuel) (new (2 * h.size)) h.items) ∧
    ∀ h₁, makeRoom (insert hasher fuel) h = .ok h₁ →
      ¬ h₁.Misplaces hasher item ∧
      ∀ h₂ cur, h₁.insertLoop hasher (h₁.hashFunc hasher item.1) (h₁.size + 1) 0 item = (h₂, some cur) →
        Always (insert hasher fuel) (fun _ _ => True) (Clean fuel) (new (2 * h₂.size)) h₂.items ∧
        ∀ h₃, rehash (insert hasher fuel) h₂ = .ok h₃ → Clean fuel h₃ cur

section Slots

variable {hasher} {h : HashTable κ ν} {k : Nat} {e : κ × ν}

theorem mem_stored : e ∈ h.stored ↔ (∃ i, slot h.T1 i = some e) ∨ ∃ i, slot h.T2 i = some e := by
  unfold stored
  rw [List.mem_append, mem_reduceOption_iff_slot, mem_reduceOption_iff_slot]

@[simp] theorem stored_count : h.count.stored = h.stored := rfl

theorem put1_perm (hk : k < h.T1.length) :
    ((slot h.T1 k).toList ++ (h.put1 k e).stored).Perm (e :: h.stored) := by
  have hput := List.Perm.append_right h.T2.reduceOption (reduceOption_set_perm hk (some e))
  simpa [stored, put1] using hput

theorem put2_perm (hk : k < h.T2.length) :
    ((slot h.T2 k).toList ++ (h.put2 k e).stored).Perm (e :: h.stored) := by
  have hput := List.Perm.append_left h.T1.reduceOption (reduceOption_set_perm hk (some e))
  refine (List.perm_append_comm_assoc _ _ _).trans (hput.trans ?_)
  exact List.perm_middle

theorem items_perm (hs : h.Sized) : h.items.Perm h.stored := by
  have hsplit := List.flatMap_append_perm (List.range h.size) (fun i => (slot h.T1 i).toList)
    (fun i => (slot h.T2 i).toList)
  have h1 := flatMap_slot h.T1
  have h2 := flatMap_slot h.T2
  rw [hs.T1] at h1
  rw [hs.T2] at h2
  rw [h1, h2] at hsplit
  exact hsplit.symm

theorem hashFunc_lt (hs : h.Sized) (key : κ) : h.hashFunc hasher key < h.size := Nat.mod_lt _ hs.pos

theorem hashFunc2_lt (hs : h.Sized) (key : κ) : h.hashFunc2 hasher key < h.size := Nat.mod_lt _ hs.pos

theorem sized_put {t : HashTable κ ν} (hs : h.Sized) (hsize : t.size = h.size)
    (h1 : t.T1.length = h.T1.length) (h2 : t.T2.length = h.T2.length)
    (hcount : t.occupiedCount = t.stored.length) : t.Sized :=
  ⟨hsize ▸ hs.pos, by rw [h1, hs.T1, hsize], by rw [h2, hs.T2, hsize], hcount⟩

theorem put1_free (hs : h.Sized) (hk : k < h.size) (hfree : slot h.T1 k = none) :
    (h.put1 k e).count.Sized ∧ (h.put1 k e).count.stored.Perm (e :: h.stored) := by
  have hperm := put1_perm (e := e) (hs.T1.symm ▸ hk)
  rw [hfree, Option.toList_none, List.nil_append] at hperm
  refine ⟨sized_put hs rfl (by simp [put1, count]) rfl ?_, hperm⟩
  rw [stored_count, hperm.length_eq]
  simp [count, put1, hs.counted]

theorem put2_free (hs : h.Sized) (hk : k < h.size) (hfree : slot h.T2 k = none) :
    (h.put2 k e).count.Sized ∧ (h.put2 k e).count.stored.Perm (e :: h.stored) := by
  have hperm := put2_perm (e := e) (hs.T2.symm ▸ hk)
  rw [hfree, Option.toList_none, List.nil_append] at hperm
  refine ⟨sized_put hs rfl rfl (by simp [put2, count]) ?_, hperm⟩
  rw [stored_count, hperm.length_eq]
  simp [count, put2, hs.counted]

theorem put1_swap (hs : h.Sized) {e' : κ × ν} (hfull : slot h.T1 k = some e') :
    (h.put1 k e).Sized ∧ (e' :: (h.put1 k e).stored).Perm (e :: h.stored) := by
  have hperm := put1_perm (e := e) (lt_of_slot hfull)
  rw [hfull] at hperm
  refine ⟨sized_put hs rfl (by simp [put1]) rfl ?_, hperm⟩
  have hlen := hperm.length_eq
  simpa [put1, hs.counted] using hlen.symm

theorem put2_swap (hs : h.Sized) {e' : κ × ν} (hfull : slot h.T2 k = some e') :
    (h.put2 k e).Sized ∧ (e' :: (h.put2 k e).stored).Perm (e :: h.stored) := by
  have hperm := put2_perm (e := e) (lt_of_slot hfull)
  rw [hfull] at hperm
  refine ⟨sized_put hs rfl rfl (by simp [put2]) ?_, hperm⟩
  have hlen := hperm.length_eq
  simpa [put2, hs.counted] using hlen.symm

end Slots

section Loop

variable {hasher} {h h' : HashTable κ ν} {k fuel timesMoved : Nat} {cur : κ × ν} {out : Option (κ × ν)}

theorem insertLoop_stop (hlt : h.size < timesMoved) :
    h.insertLoop hasher k fuel timesMoved cur = (h, some cur) := by
  cases fuel with
  | zero => rfl
  | succ fuel => exact if_neg (by omega)

theorem insertLoop_free (hle : timesMoved ≤ h.size) (hfree : slot h.T1 k = none) :
    h.insertLoop hasher k (fuel + 1) timesMoved cur = ((h.put1 k cur).count, none) := by
  rw [insertLoop, if_pos hle, hfree]

/-- The iteration that breaks off. -/
theorem insertLoop_last {e : κ × ν} (hlast : timesMoved + 1 = h.size) (he : slot h.T1 k = some e) :
    h.insertLoop hasher k (fuel + 1) timesMoved cur = (h.put1 k cur, some e) := by
  rw [insertLoop, if_pos (by omega), he]
  exact if_pos hlast

/-- An iteration that finds `T1[k]` taken and is not the last. -/
theorem insertLoop_swap {e : κ × ν} (hle : timesMoved ≤ h.size) (hne : timesMoved + 1 ≠ h.size)
    (he : slot h.T1 k = some e) :
    h.insertLoop hasher k (fuel + 1) timesMoved cur =
      match slot h.T2 (h.hashFunc2 hasher e.1) with
      | none => (((h.put1 k cur).put2 (h.hashFunc2 hasher e.1) e).count, none)
      | some e' => ((h.put1 k cur).put2 (h.hashFunc2 hasher e.1) e).insertLoop hasher k fuel
          (timesMoved + 2) e' := by
  rw [insertLoop, if_pos hle, he]
  exact if_neg hne

/-- The loop loses no pair: with the one that it still carries, the pairs are the old ones and the new
one. -/
theorem insertLoop_keeps (hs : h.Sized) (hk : k < h.size)
    (hloop : h.insertLoop hasher k fuel timesMoved cur = (h', out)) :
    h'.Sized ∧ (out.toList ++ h'.stored).Perm (cur :: h.stored) := by
  induction fuel generalizing h timesMoved cur with
  | zero =>
    cases hloop
    exact ⟨hs, List.Perm.refl _⟩
  | succ fuel ih =>
    by_cases hle : timesMoved ≤ h.size
    · cases he : slot h.T1 k with
      | none =>
        rw [insertLoop_free hle he] at hloop
        cases hloop
        exact put1_free hs hk he
      | some e =>
        obtain ⟨hs₁, hperm₁⟩ := put1_swap (e := cur) hs he
        by_cases hlast : timesMoved + 1 = h.size
        · rw [insertLoop_last hlast he] at hloop
          cases hloop
          exact ⟨hs₁, hperm₁⟩
        · rw [insertLoop_swap hle hlast he] at hloop
          cases he' : slot h.T2 (h.hashFunc2 hasher e.1) with
          | none =>
            rw [he'] at hloop
            cases hloop
            obtain ⟨hs₂, hperm₂⟩ := put2_free (e := e) hs₁ (hashFunc2_lt hs₁ e.1) he'
            exact ⟨hs₂, hperm₂.trans hperm₁⟩
          | some e' =>
            rw [he'] at hloop
            obtain ⟨hs₂, hperm₂⟩ := put2_swap (h := h.put1 k cur) (e := e) hs₁ he'
            obtain ⟨hs', hperm'⟩ := ih hs₂ hk hloop
            exact ⟨hs', hperm'.trans (hperm₂.trans hperm₁)⟩
    · rw [insertLoop_stop (by omega)] at hloop
      cases hloop
      exact ⟨hs, List.Perm.refl _⟩

/-- Once the slots of `T2` of the carried pair and of the one in `T1[k]` are both taken, they stay so,
and the loop ends without a free slot. -/
theorem insertLoop_carries {e : κ × ν} (hplaced : InPlace (fun e => h.hashFunc2 hasher e.1) h.T2)
    (he : slot h.T1 k = some e) (hk2 : (slot h.T2 (h.hashFunc2 hasher e.1)).isSome)
    (hcur : (slot h.T2 (h.hashFunc2 hasher cur.1)).isSome) :
    (h.insertLoop hasher k fuel timesMoved cur).2 ≠ none := by
  induction fuel generalizing h timesMoved cur e with
  | zero => simp [insertLoop]
  | succ fuel ih =>
    obtain ⟨e', he'⟩ := Option.isSome_iff_exists.mp hk2
    have hlt := lt_of_slot he'
    by_cases hle : timesMoved ≤ h.size
    · by_cases hlast : timesMoved + 1 = h.size
      · simp [insertLoop_last hlast he]
      · rw [insertLoop_swap hle hlast he, he']
        refine ih (e := cur) (hplaced.set rfl) (slot_set_self (lt_of_slot he) _) ?_ ?_
        · exact slot_set_isSome hlt hcur e
        · -- the pair just taken out had its own slot there, which the carried one now has
          have hsame : h.hashFunc2 hasher e'.1 = h.hashFunc2 hasher e.1 := hplaced _ _ he'
          refine slot_set_isSome hlt ?_ e
          show (slot h.T2 (h.hashFunc2 hasher e'.1)).isSome
          rw [hsame]
          exact hk2
    · simp [insertLoop_stop (show h.size < timesMoved by omega)]

/-- The iteration with a pair `cur` carried back from the slot of `T2` that now has `e`: the pair that
it finds in `T1[k]` gets a free slot only where `cur` is then in its own. -/
theorem insertLoop_placed_back {e item : κ × ν} (hp1 : InPlace (fun e => h.hashFunc hasher e.1) h.T1)
    (hp2 : InPlace (fun e => h.hashFunc2 hasher e.1) h.T2) (hitem : slot h.T1 k = some item)
    (hown : h.hashFunc2 hasher cur.1 = h.hashFunc2 hasher e.1)
    (he : slot h.T2 (h.hashFunc2 hasher e.1) = some e)
    (hloop : h.insertLoop hasher k fuel timesMoved cur = (h', none))
    (hgood : slot h.T2 (h.hashFunc2 hasher item.1) = none → h.hashFunc hasher cur.1 = k) :
    h'.Placed hasher := by
  have hlt := lt_of_slot hitem
  cases fuel with
  | zero => cases hloop
  | succ fuel =>
    by_cases hle : timesMoved ≤ h.size
    · by_cases hlast : timesMoved + 1 = h.size
      · rw [insertLoop_last hlast hitem] at hloop
        cases hloop
      · rw [insertLoop_swap hle hlast hitem] at hloop
        cases hfree : slot h.T2 (h.hashFunc2 hasher item.1) with
        | none =>
          rw [hfree] at hloop
          cases hloop
          exact ⟨hp1.set (hgood hfree), hp2.set rfl⟩
        | some x =>
          rw [hfree] at hloop
          -- both pairs now wait for slots that are taken
          refine absurd (congrArg Prod.snd hloop)
            (insertLoop_carries (e := cur) (hp2.set rfl) (slot_set_self hlt _) ?_ ?_)
          · refine slot_set_isSome (lt_of_slot hfree) ?_ item
            show (slot h.T2 (h.hashFunc2 hasher cur.1)).isSome
            rw [hown, he]
            rfl
          · refine slot_set_isSome (lt_of_slot hfree) ?_ item
            have hsame : h.hashFunc2 hasher x.1 = h.hashFunc2 hasher item.1 := hp2 _ _ hfree
            show (slot h.T2 (h.hashFunc2 hasher x.1)).isSome
            rw [hsame, hfree]
            rfl
    · rw [insertLoop_stop (by omega)] at hloop
      cases hloop

/-- The loop ends in one of its first two iterations or not in a free slot. -/
theorem insertLoop_placed (hs : h.Sized) (hp : h.Placed hasher)
    (hloop : h.insertLoop hasher (h.hashFunc hasher cur.1) fuel 0 cur = (h', none))
    (hgood : ¬ h.Misplaces hasher cur) : h'.Placed hasher := by
  obtain ⟨k, hk⟩ : ∃ k, h.hashFunc hasher cur.1 = k := ⟨_, rfl⟩
  have hlt : k < h.T1.length := by
    rw [← hk, hs.T1]
    exact hashFunc_lt hs cur.1
  have hp1 := hp.T1.set (a := cur) hk
  rw [hk] at hloop
  cases fuel with
  | zero => cases hloop
  | succ fuel =>
    cases he : slot h.T1 k with
    | none =>
      rw [insertLoop_free (Nat.zero_le _) he] at hloop
      cases hloop
      exact ⟨hp1, hp.T2⟩
    | some e =>
      by_cases hone : 0 + 1 = h.size
      · rw [insertLoop_last hone he] at hloop
        cases hloop
      · rw [insertLoop_swap (Nat.zero_le _) hone he] at hloop
        have hp2 := hp.T2.set (a := e) (i := h.hashFunc2 hasher e.1) rfl
        cases he' : slot h.T2 (h.hashFunc2 hasher e.1) with
        | none =>
          rw [he'] at hloop
          cases hloop
          exact ⟨hp1, hp2⟩
        | some e' =>
          rw [he'] at hloop
          refine insertLoop_placed_back (h := (h.put1 k cur).put2 (h.hashFunc2 hasher e.1) e) (e := e)
            hp1 hp2 (slot_set_self hlt _) (hp.T2 _ _ he') (slot_set_self (lt_of_slot he') _) hloop
            fun hfree => ?_
          by_contra hne
          refine hgood ⟨e, e', hk ▸ he, he', ?_, fun h => hne (h.trans hk)⟩
          by_contra htaken
          have hsome := slot_set_isSome (lt_of_slot he') (Option.isSome_iff_ne_none.mpr htaken) e
          exact Option.isSome_iff_ne_none.mp hsome hfree

/-- The condition leaves out no other case: where it fails, the loop leaves a pair in a slot that is not its
own. -/
theorem insertLoop_misplaces (hs : h.Sized) (hfew : h.occupiedCount < h.size / 2)
    (hbad : h.Misplaces hasher cur) :
    ∃ h', h.insertLoop hasher (h.hashFunc hasher cur.1) (h.size + 1) 0 cur = (h', none) ∧
      ¬ h'.Placed hasher := by
  obtain ⟨e, e', he, he', hfree, hne⟩ := hbad
  obtain ⟨k, hk⟩ : ∃ k, h.hashFunc hasher cur.1 = k := ⟨_, rfl⟩
  rw [hk] at he hne ⊢
  have hlt := lt_of_slot he
  have htwo : 2 ≤ h.occupiedCount := by
    have h1 := List.length_pos_of_mem (mem_reduceOption_iff_slot.mpr ⟨_, he⟩)
    have h2 := List.length_pos_of_mem (mem_reduceOption_iff_slot.mpr ⟨_, he'⟩)
    rw [hs.counted, stored, List.length_append]
    omega
  have hother : h.hashFunc2 hasher e.1 ≠ h.hashFunc2 hasher cur.1 := by
    intro hsame
    rw [hsame, hfree] at he'
    cases he'
  obtain ⟨n, hn⟩ : ∃ n, h.size = n + 1 := ⟨h.size - 1, by omega⟩
  obtain ⟨t, ht⟩ : ∃ t, t = (h.put1 k cur).put2 (h.hashFunc2 hasher e.1) e := ⟨_, rfl⟩
  have hcur : slot t.T1 k = some cur := by
    rw [ht]
    exact slot_set_self hlt _
  have hfree' : slot t.T2 (h.hashFunc2 hasher cur.1) = none := by
    rw [ht]
    exact (slot_set_ne hother _).trans hfree
  have hsize : t.size = h.size := by rw [ht]; rfl
  have hcur2 : t.hashFunc2 hasher cur.1 = h.hashFunc2 hasher cur.1 := by rw [ht]; rfl
  refine ⟨((t.put1 k e').put2 (h.hashFunc2 hasher cur.1) cur).count, ?_, fun hp => ?_⟩
  · rw [insertLoop_swap (Nat.zero_le _) (by omega) he, he']
    show insertLoop hasher k h.size (0 + 2) _ e' = _
    rw [← ht, hn, insertLoop_swap (by omega) (by omega) hcur, hcur2, hfree']
  · have hown := hp.T1.eq_of_set (lt_of_slot hcur)
    rw [ht] at hown
    exact hne hown

/-- The loop ends within the iterations that `insert` allows it: more change nothing. -/
theorem insertLoop_fuel (hfuel : h.size < timesMoved + 2 * fuel) :
    h.insertLoop hasher k (fuel + 1) timesMoved cur = h.insertLoop hasher k fuel timesMoved cur := by
  induction fuel generalizing h timesMoved cur with
  | zero => rw [insertLoop_stop (by omega), insertLoop_stop (by omega)]
  | succ fuel ih =>
    by_cases hle : timesMoved ≤ h.size
    · cases he : slot h.T1 k with
      | none => rw [insertLoop_free hle he, insertLoop_free hle he]
      | some e =>
        by_cases hlast : timesMoved + 1 = h.size
        · rw [insertLoop_last hlast he, insertLoop_last hlast he]
        · rw [insertLoop_swap hle hlast he, insertLoop_swap hle hlast he]
          cases slot h.T2 (h.hashFunc2 hasher e.1) with
          | none => rfl
          | some e' =>
            apply ih
            show h.size < _
            omega
    · rw [insertLoop_stop (by omega), insertLoop_stop (by omega)]

end Loop

/-- The table holds some pairs, each in a slot of its own key. -/
structure Stores (h : HashTable κ ν) (pairs : List (κ × ν)) : Prop where
  sized : h.Sized
  placed : h.Placed hasher
  perm : h.stored.Perm pairs

section Stores

variable {hasher} {h h' : HashTable κ ν} {pairs : List (κ × ν)} {fuel : Nat}

theorem new_stores {s : Nat} (hs : 0 < s) : (new s : HashTable κ ν).Stores hasher [] where
  sized := ⟨hs, by simp [new], by simp [new], by simp [new, stored]⟩
  placed := ⟨inPlace_replicate s, inPlace_replicate s⟩
  perm := by simp [new, stored]

/-- What one insertion keeps, a sequence of them keeps. -/
theorem stores_of_always {t t' : HashTable κ ν} {ps : List (κ × ν)}
    (hinsert : ∀ (t : HashTable κ ν) ps item t', t.Stores hasher ps → Clean hasher fuel t item →
      insert hasher fuel t item = .ok t' → t'.Stores hasher (ps ++ [item]))
    (hclean : Always (insert hasher fuel) (fun _ _ => True) (Clean hasher fuel) t ps)
    (hrun : ps.foldlM (insert hasher fuel) t = .ok t') (h₀ : t.Stores hasher []) :
    t'.Stores hasher ps := by
  have hkeep : ∀ pre (s : HashTable κ ν) item s', s.Stores hasher pre → Clean hasher fuel s item →
      insert hasher fuel s item = .ok s' → s'.Stores hasher (pre ++ [item]) :=
    fun pre s => hinsert s pre
  exact Always.invariant (fun _ _ => trivial) hkeep hclean hrun h₀

/-- `rehash` stores all pairs anew, the misplaced ones too. -/
theorem rehash_stores (hs : h.Sized) (hperm : h.stored.Perm pairs)
    (hinsert : ∀ (t : HashTable κ ν) ps item t', t.Stores hasher ps → Clean hasher fuel t item →
      insert hasher fuel t item = .ok t' → t'.Stores hasher (ps ++ [item]))
    (hclean : Always (insert hasher fuel) (fun _ _ => True) (Clean hasher fuel) (new (2 * h.size))
      h.items)
    (hrun : rehash (insert hasher fuel) h = .ok h') : h'.Stores hasher pairs := by
  have hnew : (new (2 * h.size) : HashTable κ ν).Stores hasher [] := new_stores (by have := hs.pos; omega)
  have hrest := stores_of_always hinsert hclean hrun hnew
  exact ⟨hrest.sized, hrest.placed, hrest.perm.trans ((items_perm hs).trans hperm)⟩

theorem insert_stores {item : κ × ν} (h₀ : h.Stores hasher pairs) (hclean : Clean hasher fuel h item)
    (hrun : insert hasher fuel h item = .ok h') : h'.Stores hasher (pairs ++ [item]) := by
  induction fuel generalizing h h' pairs item with
  | zero => cases hrun
  | succ fuel ih =>
    have hinsert : ∀ (t : HashTable κ ν) ps item t', t.Stores hasher ps → Clean hasher fuel t item →
        insert hasher fuel t item = .ok t' → t'.Stores hasher (ps ++ [item]) :=
      fun t ps item t' ht hc hr => ih ht hc hr
    obtain ⟨hfirst, hrest⟩ := hclean
    obtain ⟨h₁, hrun₁, hrun⟩ := bind_eq_ok.mp hrun
    have hs₁ : h₁.Stores hasher pairs := by
      unfold makeRoom at hrun₁
      split at hrun₁
      next hfull => exact rehash_stores h₀.sized h₀.perm hinsert (hfirst hfull) hrun₁
      next =>
        cases hrun₁
        exact h₀
    obtain ⟨hgood, hcarried⟩ := hrest h₁ hrun₁
    have hk : h₁.hashFunc hasher item.1 < h₁.size := hashFunc_lt hs₁.sized item.1
    split at hrun
    next h₂ hloop =>
      cases hrun
      obtain ⟨hs₂, hperm₂⟩ := insertLoop_keeps hs₁.sized hk hloop
      refine ⟨hs₂, insertLoop_placed hs₁.sized hs₁.placed hloop hgood, hperm₂.trans ?_⟩
      exact (hs₁.perm.cons item).trans (List.perm_append_singleton item pairs).symm
    next h₂ cur hloop =>
      obtain ⟨h₃, hrun₃, hrun⟩ := bind_eq_ok.mp hrun
      obtain ⟨hs₂, hperm₂⟩ := insertLoop_keeps hs₁.sized hk hloop
      obtain ⟨hclean₂, hclean₃⟩ := hcarried h₂ cur hloop
      have hs₃ := rehash_stores hs₂ (List.Perm.refl _) hinsert hclean₂ hrun₃
      have hs₄ := ih hs₃ (hclean₃ h₃ hrun₃) hrun
      refine ⟨hs₄.sized, hs₄.placed, hs₄.perm.trans ?_⟩
      refine (List.perm_append_singleton cur h₂.stored).trans (hperm₂.trans ?_)
      exact (hs₁.perm.cons item).trans (List.perm_append_singleton item pairs).symm

theorem mem_of_find [DecidableEq κ] {key : κ} {v : ν} (hfind : h.find hasher key = some v) :
    (key, v) ∈ h.stored := by
  rw [mem_stored]
  unfold find at hfind
  split at hfind
  next e he =>
    obtain ⟨he, hkey⟩ := Option.filter_eq_some_iff.mp he
    cases hfind
    exact .inl ⟨_, by simpa [← of_decide_eq_true hkey] using he⟩
  next =>
    obtain ⟨e, he, rfl⟩ := Option.map_eq_some_iff.mp hfind
    obtain ⟨he, hkey⟩ := Option.filter_eq_some_iff.mp he
    exact .inr ⟨_, by simpa [← of_decide_eq_true hkey] using he⟩

theorem find_of_mem [DecidableEq κ] (h₀ : h.Stores hasher pairs) (hkeys : (pairs.map Prod.fst).Nodup)
    {e : κ × ν} (hmem : e ∈ pairs) : h.find hasher e.1 = some e.2 := by
  have huniq : ∀ v, (e.1, v) ∈ h.stored → v = e.2 := by
    intro v hv
    exact congrArg Prod.snd (List.inj_on_of_nodup_map hkeys (h₀.perm.mem_iff.mp hv) hmem rfl)
  have hsome : h.find hasher e.1 ≠ none := by
    rcases mem_stored.mp (h₀.perm.mem_iff.mpr hmem) with ⟨i, hi⟩ | ⟨i, hi⟩
    · have hplace : h.hashFunc hasher e.1 = i := h₀.placed.T1 i e hi
      simp [find, hplace, hi, Option.filter]
    · have hplace : h.hashFunc2 hasher e.1 = i := h₀.placed.T2 i e hi
      unfold find
      split
      · simp
      · simp [hplace, hi, Option.filter]
  obtain ⟨v, hv⟩ := Option.ne_none_iff_exists'.mp hsome
  rw [hv, huniq v (mem_of_find hv)]

theorem Stores.isMap [DecidableEq κ] (h₀ : h.Stores hasher pairs)
    (hkeys : (pairs.map Prod.fst).Nodup) : h.IsMap hasher pairs where
  placed := h₀.placed
  found _ hmem := find_of_mem h₀ hkeys hmem
  absent k hk := by
    cases hfind : h.find hasher k with
    | none => rfl
    | some v => exact absurd rfl (hk _ (h₀.perm.mem_iff.mp (mem_of_find hfind)))

/-- A loop that ends in a free slot leaves the map of the old pairs and the new one exactly when it
misplaces none. -/
theorem insertLoop_isMap_iff [DecidableEq κ] {item : κ × ν} (h₀ : h.Stores hasher pairs)
    (hkeys : ((pairs ++ [item]).map Prod.fst).Nodup) (hfew : h.occupiedCount < h.size / 2)
    (hloop : h.insertLoop hasher (h.hashFunc hasher item.1) (h.size + 1) 0 item = (h', none)) :
    h'.IsMap hasher (pairs ++ [item]) ↔ ¬ h.Misplaces hasher item := by
  constructor
  · intro hmap hbad
    obtain ⟨t, ht, hnot⟩ := insertLoop_misplaces h₀.sized hfew hbad
    cases hloop.symm.trans ht
    exact hnot hmap.placed
  · intro hgood
    obtain ⟨hs', hperm⟩ := insertLoop_keeps h₀.sized (hashFunc_lt h₀.sized _) hloop
    have hall := (h₀.perm.cons item).trans (List.perm_append_singleton item pairs).symm
    exact Stores.isMap ⟨hs', insertLoop_placed h₀.sized h₀.placed hloop hgood, hperm.trans hall⟩ hkeys

end Stores

/-- After every insertion of a run in which no loop misplaces a pair, the table is the map of the pairs
inserted until then. -/
theorem insert_isMap [DecidableEq κ] {s : Nat} (hs : 0 < s) {fuel : Nat} {pairs : List (κ × ν)}
    (hkeys : (pairs.map Prod.fst).Nodup)
    (hclean : Always (insert hasher fuel) (fun _ _ => True) (Clean hasher fuel) (new s) pairs)
    {before : List (κ × ν)} (hbefore : before <+: pairs) {h : HashTable κ ν}
    (hrun : before.foldlM (insert hasher fuel) (new s) = .ok h) : h.IsMap hasher before := by
  obtain ⟨later, rfl⟩ := hbefore
  have hstores := stores_of_always (fun t ps item t' h₀ hc hr => insert_stores h₀ hc hr)
    hclean.of_append hrun (new_stores hs)
  rw [List.map_append] at hkeys
  exact Stores.isMap hstores (List.Nodup.of_append_left hkeys)

theorem insert_isMap_two : ∃ h : HashTable Nat Nat,
    [(1, 100), (11, 200)].foldlM (insert id 1) (new 10) = .ok h ∧
      h.IsMap id [(1, 100), (11, 200)] := by
  have hrun : ∃ h : HashTable Nat Nat,
      [(1, 100), (11, 200)].foldlM (insert id 1) (new 10) = .ok h := ⟨_, rfl⟩
  obtain ⟨h, hrun⟩ := hrun
  refine ⟨h, hrun, insert_isMap id (s := 10) (by decide) (by decide) ?_ (List.prefix_refl _) hrun⟩
  refine fun _ => ⟨⟨fun h => absurd h (by decide), ?_⟩, ?_⟩
  · intro h₁ hrun
    cases hrun
    exact ⟨fun ⟨_, _, he, _⟩ => (nomatch he), fun h₂ cur hloop => (nomatch hloop)⟩
  · intro t ht _
    cases ht
    refine ⟨⟨fun h => absurd h (by decide), ?_⟩, fun _ _ => trivial⟩
    intro h₁ hrun
    cases hrun
    refine ⟨?_, fun h₂ cur hloop => (nomatch hloop)⟩
    rintro ⟨_, _, he, he', _⟩
    cases he
    cases he'

/-- The keys 11, 21, 12 and 32 of the hash function `std::hash<int>`, in this order: 32 takes the slot of 12
in `T1`, 12 that of 11 in `T2`, and 11 the one in `T1` that was computed for 32. -/
theorem insert_loses_key :
    ¬ ∀ (s fuel : Nat) (pairs : List (Nat × Nat)) (h : HashTable Nat Nat), 0 < s →
      (pairs.map Prod.fst).Nodup → pairs.foldlM (insert id fuel) (new s) = .ok h →
      h.IsMap id pairs := by
  intro hall
  have h := hall 10 1 [(11, 1), (21, 2), (12, 3), (32, 4)] _ (by decide) (by decide) rfl
  have hfound := h.found (11, 1) (by decide)
  revert hfound
  decide

end HashTable

end JoinOptimizer.Cuckoo
