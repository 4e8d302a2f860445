import JoinOptimizer.HashTable.Hopscotch
import JoinOptimizer.HashTable.Robinhood
import JoinOptimizer.Lib.Growth
import Mathlib.Data.Finset.Card

/-! Which insertions return, and which run out of memory, in the tables that grow. -/

namespace JoinOptimizer

open Lib

/-- The keys of the map are among some. -/
def KeysIn {κ ν : Type} (keys : Finset κ) (m : κ → Option ν) : Prop := ∀ k v, m k = some v → k ∈ keys

section KeysIn

variable {κ ν : Type} [DecidableEq κ] {keys : Finset κ} {m : κ → Option ν}

theorem KeysIn.insertNew (h : KeysIn keys m) {item : κ × ν} (hitem : item.1 ∈ keys) :
    KeysIn keys (insertNew m item) := by
  intro k v hk
  rw [insertNew_apply] at hk
  rcases Option.or_eq_some_iff.mp hk with hk | ⟨-, hk⟩
  · exact h k v hk
  · split at hk
    next heq => exact heq ▸ hitem
    next => cases hk

/-- There are no more entries in the slots than keys. -/
theorem KeysIn.card {α : Type} {pair : α → κ × ν} {xs : List (Option α)} (h : KeysIn keys m)
    (hmap : SlotMap pair xs m) : xs.reduceOption.length ≤ keys.card := by
  have hcard := List.toFinset_card_of_nodup hmap.nodup_keys
  rw [List.length_map, List.length_map] at hcard
  rw [← hcard]
  refine Finset.card_le_card fun k hk => ?_
  obtain ⟨e, he, rfl⟩ := List.mem_map.mp (List.mem_toFinset.mp hk)
  obtain ⟨a, ha, rfl⟩ := List.mem_map.mp he
  obtain ⟨i, hi⟩ := mem_reduceOption_iff_slot.mp ha
  exact h _ _ (hmap.of_slot hi)

end KeysIn

namespace Robinhood

/-- Half of the slots of a table are fewer than its load. -/
theorem lt_maxLoad {n size : Nat} (h : 4 * (n + 1) ≤ size) : n < maxLoad size := by
  obtain ⟨k, hk⟩ : ∃ k, size.size = k + 2 := by
    have htwo : 2 ≤ size.size := Nat.lt_size.mpr (by omega)
    exact ⟨size.size - 2, by omega⟩
  have hlow : 2 ^ (k + 1) ≤ size := Nat.lt_size.mp (by omega)
  have hhigh : size < 2 ^ (k + 2) := Nat.size_le.mp (by omega)
  have hmul : 2 ^ (k + 53) ≤ roundNat size * 6305039478318694 := by
    rw [show k + 53 = k + 1 + 52 by omega, Nat.pow_add]
    exact Nat.mul_le_mul (pow_le_roundNat hlow) (by decide)
  have hload : 2 ^ k ≤ maxLoad size := by
    refine (Nat.le_div_iff_mul_le (Nat.two_pow_pos 53)).mpr ?_
    rw [← Nat.pow_add]
    exact pow_le_roundNat hmul
  have hpow : 2 ^ (k + 2) = 4 * 2 ^ k := by rw [Nat.pow_add, Nat.mul_comm]
  omega

namespace HashTable

variable {κ ν : Type} [DecidableEq κ] {hasher : κ → Nat} {h h' : HashTable κ ν} {m : κ → Option ν}
  {keys : Finset κ} {i n limit : Nat} {cur : HashNode κ ν}

theorem insertLoop_size (n i : Nat) (h : HashTable κ ν) (cur : HashNode κ ν) :
    (h.insertLoop n i cur).1.size = h.size := by
  induction n generalizing h i cur with
  | zero => rfl
  | succ n ih =>
    cases he : slot h.buffer i with
    | none =>
      rw [insertLoop_free he]
      rfl
    | some e =>
      by_cases hkey : e.key = cur.key
      · rw [insertLoop_same he hkey]
      · by_cases hlt : e.psl < cur.psl
        · rw [insertLoop_swap he hkey hlt]
          split
          · rfl
          · exact ih (i + 1) (h.put i cur) e.next
        · rw [insertLoop_pass he hkey (not_lt.mp hlt)]
          split
          · rfl
          · exact ih (i + 1) h cur.next

/-- A pair is carried over the end only where every slot from its home on is taken. -/
theorem insertLoop_full {out : κ × ν} (hn : i + n = h.size) (hloop : (h.insertLoop n i cur).2 = some out)
    {j : Nat} (hlow : i ≤ j) (hhigh : j < h.size) : (slot h.buffer j).isSome := by
  induction n generalizing h i cur with
  | zero => cases hloop
  | succ n ih =>
    cases he : slot h.buffer i with
    | none =>
      rw [insertLoop_free he] at hloop
      cases hloop
    | some e =>
      rcases Nat.eq_or_lt_of_le hlow with rfl | hlt
      · rw [he]
        rfl
      · by_cases hkey : e.key = cur.key
        · rw [insertLoop_same he hkey] at hloop
          cases hloop
        · have hmore : i ≠ h.size - 1 := by omega
          by_cases hswap : e.psl < cur.psl
          · rw [insertLoop_swap he hkey hswap, if_neg hmore] at hloop
            have hrest := ih (by show i + 1 + n = h.size; omega) hloop hlt hhigh
            rwa [put, slot_set_ne (by omega)] at hrest
          · rw [insertLoop_pass he hkey (not_lt.mp hswap), if_neg hmore] at hloop
            exact ih (by omega) hloop hlt hhigh

/-- The table stands for a map of some keys. -/
structure StoresIn (hasher : κ → Nat) (keys : Finset κ) (h : HashTable κ ν) (m : κ → Option ν) : Prop where
  stores : h.Stores hasher m
  keys : KeysIn keys m

/-- Slots that are enough for some keys with hashes below a bound: no pair is carried over the end, and the
load at which the table makes room is not reached. -/
def enough (keys : Finset κ) (bound : Nat) : Nat := bound + 4 * (keys.card + 1)

section Enough

variable {bound : Nat} (hbound : ∀ k ∈ keys, hasher k < bound)

theorem StoresIn.counted (h₀ : h.StoresIn hasher keys m) : h.occupiedCount ≤ keys.card := by
  rw [h₀.stores.counted]
  exact h₀.keys.card h₀.stores.map

theorem StoresIn.load (h₀ : h.StoresIn hasher keys m) (hsize : enough keys bound ≤ h.size) :
    h.occupiedCount < maxLoad h.size := by
  unfold enough at hsize
  exact Nat.lt_of_le_of_lt h₀.counted (lt_maxLoad (by omega))

include hbound

/-- In a table that is large enough no pair is carried over the end. -/
theorem StoresIn.not_full (h₀ : h.StoresIn hasher keys m) (hsize : enough keys bound ≤ h.size) {item : κ × ν}
    (hitem : item.1 ∈ keys) : (h.insertLoop (h.size - h.hashFunc hasher item.1) (h.hashFunc hasher item.1)
      ⟨item.1, item.2, 0⟩).2 = none := by
  cases hloop : (h.insertLoop (h.size - h.hashFunc hasher item.1) (h.hashFunc hasher item.1)
    ⟨item.1, item.2, 0⟩).2 with
  | none => rfl
  | some out =>
    have hlt := hashFunc_lt h₀.stores item.1
    have hlength := h₀.stores.length
    have htaken : h.buffer.length - h.hashFunc hasher item.1 ≤ h.buffer.reduceOption.length :=
      sub_le_length_reduceOption fun j hlow hhigh => insertLoop_full (by omega) hloop hlow (by omega)
    have hcount := h₀.counted
    have hhome : h.hashFunc hasher item.1 < bound :=
      Nat.lt_of_le_of_lt (Nat.mod_le _ _) (hbound item.1 hitem)
    rw [h₀.stores.counted] at hcount
    unfold enough at hsize
    omega

end Enough

omit [DecidableEq κ] in
theorem new_storesIn {s : Nat} (hs : 0 < s) : (new s : HashTable κ ν).StoresIn hasher keys fun _ => none :=
  ⟨new_stores hs, nofun⟩

theorem StoresIn.rehash (h₀ : h.StoresIn hasher keys m) (hlimit : 2 * h.size ≤ limit)
    {insert : HashTable κ ν → κ × ν → Result (HashTable κ ν)} {most : Nat}
    (hinsert : ∀ u m item, StoresIn hasher keys u m → item.1 ∈ keys →
      (new (2 * h.size) : HashTable κ ν).size ≤ u.size →
      Returns insert (StoresIn hasher keys) HashTable.size most u m item) :
    ∃ h', HashTable.rehash limit insert h = .ok h' ∧ h'.StoresIn hasher keys m ∧ 2 * h.size ≤ h'.size ∧
      h'.size ≤ max (2 * h.size) (2 * most) := by
  have hitems := items_eq h₀.stores
  have hkeys : ∀ item ∈ h.items, item.1 ∈ keys := by
    intro item hitem
    rw [hitems] at hitem
    obtain ⟨node, hnode, rfl⟩ := List.mem_map.mp hitem
    obtain ⟨i, hi⟩ := mem_reduceOption_iff_slot.mp hnode
    exact h₀.keys _ _ (h₀.stores.map.of_slot hi)
  have hnew : (new (2 * h.size) : HashTable κ ν).StoresIn hasher keys fun _ => none :=
    new_storesIn (Nat.mul_pos Nat.two_pos h₀.stores.pos)
  have hallowed : ∀ pre item post, h.items = pre ++ item :: post → item.1 ∈ keys := fun pre item post hsplit =>
    hkeys item (by simp [hsplit])
  obtain ⟨h', hrun, hstores, hsize⟩ := foldlM_returns insert hinsert hallowed hnew
  rw [foldl_insertNew_none, hitems, funext h₀.stores.map.lookup_eq] at hstores
  exact ⟨h', rehash_eq_ok.mpr ⟨hlimit, hrun⟩, hstores, hsize⟩

/-- What the loop leaves of the pair is inserted again. -/
theorem StoresIn.loop (h₀ : h.StoresIn hasher keys m) {item : κ × ν} (hitem : item.1 ∈ keys)
    {out : Option (κ × ν)} (hloop : h.insertLoop (h.size - h.hashFunc hasher item.1) (h.hashFunc hasher item.1)
      ⟨item.1, item.2, 0⟩ = (h', out)) :
    ∃ m', h'.StoresIn hasher keys m' ∧ h'.size = h.size ∧
      out.toList.foldl insertNew m' = insertNew m item ∧ ∀ cur ∈ out, cur.1 ∈ keys := by
  have hlt := hashFunc_lt h₀.stores item.1
  obtain ⟨m', hm', hsame⟩ := insertLoop_stores h₀.stores (approaches_home h₀.stores item)
    (Nat.add_sub_cancel' hlt.le) (by omega) hloop
  have hsize := insertLoop_size (h.size - h.hashFunc hasher item.1) (h.hashFunc hasher item.1) h
    ⟨item.1, item.2, 0⟩
  rw [hloop] at hsize
  have hall := h₀.keys.insertNew hitem
  have hmap : insertNew m (HashNode.pair ⟨item.1, item.2, 0⟩) = insertNew m item := rfl
  rw [hmap] at hsame
  refine ⟨m', ⟨hm', fun k v hk => hall k v ?_⟩, hsize, hsame, fun cur hcur => ?_⟩
  · rw [← hsame, foldl_insertNew, hk, Option.some_or]
  · obtain rfl : out = some cur := hcur
    have hcarried : insertNew m item cur.1 ≠ none := by
      rw [← hsame]
      simp [insertNew_apply]
    obtain ⟨v, hv⟩ := Option.ne_none_iff_exists'.mp hcarried
    exact hall _ _ hv

theorem insert_of_loop {fuel : Nat} {item : κ × ν} {h₁ h₂ : HashTable κ ν} {out : Option (κ × ν)}
    (hroom : makeRoom limit (insert hasher limit fuel) h = .ok h₁)
    (hloop : h₁.insertLoop (h₁.size - h₁.hashFunc hasher item.1) (h₁.hashFunc hasher item.1)
      ⟨item.1, item.2, 0⟩ = (h₂, out)) :
    insert hasher limit (fuel + 1) h item = out.elim (.ok h₂) fun cur =>
      rehash limit (insert hasher limit fuel) h₂ >>= fun h => insert hasher limit fuel h cur := by
  rw [insert, hroom, ok_bind, hloop]
  cases out <;> rfl

/-- An insertion returns: the table is rebuilt only while it has less than enough slots. -/
theorem insert_returns_of_bound {bound : Nat} (hbound : ∀ k ∈ keys, hasher k < bound)
    (hlimit : 2 * enough keys bound ≤ limit) {depth : Nat}
    (h₀ : h.StoresIn hasher keys m) {item : κ × ν} (hitem : item.1 ∈ keys)
    (hdepth : enough keys bound ≤ h.size * 2 ^ depth) :
    Returns (insert hasher limit (depth + 1)) (StoresIn hasher keys) HashTable.size (enough keys bound) h m
      item := by
  refine returns_of_growth (insert hasher limit) (fun _ item => item.1 ∈ keys) ?_ ?_ h₀ hitem hdepth
  · intro n t m item ht hitem hsize
    have hroom : makeRoom limit (insert hasher limit n) t = .ok t := if_neg (Nat.not_le.mpr (ht.load hsize))
    have hnone := ht.not_full hbound hsize hitem
    rcases hloop : t.insertLoop (t.size - t.hashFunc hasher item.1) (t.hashFunc hasher item.1)
      ⟨item.1, item.2, 0⟩ with ⟨t', out⟩
    obtain rfl : out = none := by rwa [hloop] at hnone
    obtain ⟨m', hm', hsame, hmap, -⟩ := ht.loop hitem hloop
    exact ⟨t', insert_of_loop hroom hloop, hmap ▸ hm', hsame.ge, by omega⟩
  · intro n t m item ht hitem hless hgrown
    obtain ⟨t₁, hroom, ht₁, hlow, hhigh⟩ : ∃ t₁, makeRoom limit (insert hasher limit (n + 1)) t = .ok t₁ ∧
        t₁.StoresIn hasher keys m ∧ t.size ≤ t₁.size ∧ t₁.size ≤ 2 * enough keys bound := by
      unfold makeRoom
      split
      · obtain ⟨t₁, hrun, ht₁, hlow, hhigh⟩ := ht.rehash (show 2 * t.size ≤ limit by omega) hgrown
        exact ⟨t₁, hrun, ht₁, by omega, by omega⟩
      · exact ⟨t, rfl, ht, Nat.le_refl _, by omega⟩
    rcases hloop : t₁.insertLoop (t₁.size - t₁.hashFunc hasher item.1) (t₁.hashFunc hasher item.1)
      ⟨item.1, item.2, 0⟩ with ⟨t₂, out⟩
    obtain ⟨m', hm', hsame, hmap, hcarried⟩ := ht₁.loop hitem hloop
    cases out with
    | none => exact ⟨t₂, insert_of_loop hroom hloop, hmap ▸ hm', by omega, by omega⟩
    | some cur =>
      -- a pair that is carried over the end shows that the slots are not enough
      have hfew : t₁.size < enough keys bound := by
        by_contra hge
        have hnone := ht₁.not_full hbound (Nat.le_of_not_lt hge) hitem
        rw [hloop] at hnone
        cases hnone
      obtain ⟨t₃, hrehash, ht₃, hlow₃, hhigh₃⟩ := hm'.rehash (show 2 * t₂.size ≤ limit by omega)
        fun u m item hu hitem hsize => hgrown u m item hu hitem (by
          have hsize : 2 * t₂.size ≤ u.size := hsize
          omega)
      obtain ⟨t₄, hinsert, ht₄, hlow₄, hhigh₄⟩ := hgrown t₃ m' cur ht₃ (hcarried cur rfl) (by omega)
      have hmap : insertNew m' cur = insertNew m item := hmap
      refine ⟨t₄, ?_, hmap ▸ ht₄, by omega, by omega⟩
      rw [insert_of_loop hroom hloop]
      exact bind_eq_ok.mpr ⟨t₃, hrehash, hinsert⟩

variable (hasher) in
/-- Every run of insertions for which there is memory returns, however the hashes collide: with calls of
`insert` in one another as deep as it takes to double the size to the greatest hash and four times the keys,
which the table outgrows by less than one doubling. -/
theorem insertions_return {s : Nat} (hs : 0 < s) {pairs : List (κ × ν)} {bound : Nat}
    (hbound : ∀ e ∈ pairs, hasher e.1 < bound)
    (hlimit : 2 * enough (pairs.map Prod.fst).toFinset bound ≤ limit) {depth : Nat}
    (hdepth : enough (pairs.map Prod.fst).toFinset bound ≤ s * 2 ^ depth) :
    ∃ h : HashTable κ ν, pairs.foldlM (insert hasher limit (depth + 1)) (new s) = .ok h ∧
      h.size ≤ max s (2 * enough (pairs.map Prod.fst).toFinset bound) ∧
      ∀ k, h.find hasher k = pairs.lookup k := by
  have hmem : ∀ e ∈ pairs, e.1 ∈ (pairs.map Prod.fst).toFinset := fun e he =>
    List.mem_toFinset.mpr (List.mem_map_of_mem he)
  have hkeys : ∀ k ∈ (pairs.map Prod.fst).toFinset, hasher k < bound := by
    intro k hk
    obtain ⟨e, he, rfl⟩ := List.mem_map.mp (List.mem_toFinset.mp hk)
    exact hbound e he
  have hallowed : ∀ pre item post, pairs = pre ++ item :: post → item.1 ∈ (pairs.map Prod.fst).toFinset :=
    fun pre item post hsplit => hmem item (by simp [hsplit])
  obtain ⟨h, hrun, hstores, -, hsize⟩ := foldlM_returns (insert hasher limit (depth + 1))
    (fun u m item hu hitem hlow => insert_returns_of_bound hkeys hlimit hu hitem
      (hdepth.trans (Nat.mul_le_mul_right _ hlow))) hallowed (new_storesIn hs)
  refine ⟨h, hrun, hsize, fun k => ?_⟩
  rw [find_eq hstores.stores, foldl_insertNew_none]

/-- Three keys with one hash, in a table of one slot that can have 48. -/
theorem insertions_return_three : ∃ h : HashTable Nat Nat,
    [(1, 10), (2, 20), (3, 30), (1, 40)].foldlM (insert (fun _ => 7) 48 6) (new 1) = .ok h ∧ h.size ≤ 48 ∧
      ∀ k, h.find (fun _ => 7) k = [(1, 10), (2, 20), (3, 30), (1, 40)].lookup k := by
  have hbound : ∀ e ∈ [(1, 10), (2, 20), (3, 30), (1, 40)], (fun _ => 7) e.1 < 8 := by decide
  have hdepth : enough ([(1, 10), (2, 20), (3, 30), (1, 40)].map Prod.fst).toFinset 8 ≤ 1 * 2 ^ 5 := by decide
  obtain ⟨h, hrun, hsize, hfind⟩ :=
    insertions_return (fun _ => 7) Nat.one_pos hbound (show _ ≤ 48 by decide) hdepth
  exact ⟨h, hrun, hsize.trans (by decide), hfind⟩

end HashTable

end Robinhood

namespace Hopscotch.HashTable

variable {κ ν : Type} {hasher : κ → Nat} {h h' : HashTable κ ν} {m : κ → Option ν}
  {item : κ × ν} {limit : Nat}

section Size

variable {i j k : Nat}

theorem moveOne_size (hmove : h.moveOne j i = some (h', k)) : h'.size = h.size := by
  induction i with
  | zero => cases hmove
  | succ i ih =>
    dsimp only [moveOne] at hmove
    split at hmove
    · exact ih hmove
    · split at hmove
      · cases hmove
        rfl
      · exact ih hmove

theorem makeSpace_size {fuel : Nat} {out : Option Nat} (hmake : h.makeSpace k fuel j = .ok (h', out)) :
    h'.size = h.size := by
  induction fuel generalizing h j with
  | zero => cases hmake
  | succ fuel ih =>
    unfold makeSpace at hmake
    split at hmake
    · split at hmake
      next hmove => exact (ih hmake).trans (moveOne_size hmove)
      next =>
        cases hmake
        rfl
    · cases hmake
      rfl

theorem attempt_size {done : Bool} (hrun : h.attempt hasher item = .ok (h', done)) : h'.size = h.size := by
  dsimp only [attempt] at hrun
  split at hrun
  · cases hrun
    rfl
  · split at hrun
    · split at hrun <;>
      · cases hrun
        rfl
    · split at hrun
      · cases hrun
        rfl
      · obtain ⟨⟨h₁, out⟩, hmake, hrun⟩ := bind_eq_ok.mp hrun
        have hsize := makeSpace_size hmake
        cases out <;>
        · cases hrun
          exact hsize

end Size

/-- What `insert` makes of the body of the loop. -/
theorem insert_of_attempt {fuel : Nat} {done : Bool} (hrun : h.attempt hasher item = .ok (h', done)) :
    insert hasher limit (fuel + 1) h item = if done then .ok h'
      else rehash limit (insert hasher limit fuel) h' >>= fun h => insert hasher limit fuel h item := by
  rw [insert, hrun, ok_bind]
  cases done <;> rfl

/-- The pairs of one home are in the `H` slots from it on. -/
theorem Stores.homes_le (h₀ : h.Stores hasher none m) {pairs : List (κ × ν)} (hnodup : pairs.Nodup)
    (home : Nat) (hpairs : ∀ e ∈ pairs, m e.1 = some e.2 ∧ h.hashFunc hasher e.1 = home) :
    pairs.length ≤ H := by
  have hslots : pairs ⊆ (List.range' home H).filterMap (slot h.entries) := by
    intro e he
    obtain ⟨hm, hhome⟩ := hpairs e he
    obtain ⟨i, a, hi, ha⟩ := (h₀.map.mem e.1 e.2).mp hm
    obtain rfl : a = e := ha
    have hle := h₀.near.home_le i a hi
    have hlt := h₀.near.lt i a hi
    have hhome' : hashFunc hasher h a.1 = home := hhome
    simp only [hhome'] at hle hlt
    exact List.mem_filterMap.mpr ⟨i, List.mem_range'_1.mpr ⟨hle, hlt⟩, hi⟩
  calc pairs.length ≤ ((List.range' home H).filterMap (slot h.entries)).length :=
        (List.subperm_of_subset hnodup hslots).length_le
    _ ≤ (List.range' home H).length := List.length_filterMap_le _ _
    _ = H := List.length_range'

variable [DecidableEq κ]

theorem items_fresh {hole : Option Nat} (h₀ : h.Stores hasher hole m) :
    (∀ pre item post, h.items = pre ++ item :: post →
      m item.1 = some item.2 ∧ pre.foldl insertNew (fun _ => none) item.1 = none) ∧
      h.items.foldl insertNew (fun _ => none) = m := by
  have hmap : h.entries.reduceOption.map id = h.items := by rw [items_eq h₀, List.map_id]
  have hkeys := h₀.map.nodup_keys
  have hlookup := funext h₀.map.lookup_eq
  rw [hmap] at hkeys hlookup
  rw [foldl_insertNew_none]
  refine ⟨fun pre item post hsplit => ⟨?_, insertNew_fresh hkeys hsplit⟩, hlookup⟩
  rw [← hlookup]
  exact lookup_of_mem hkeys (by simp [hsplit])

section Exhaust

/-- `rehash` ends, or throws where there is no memory. -/
theorem Stores.rehash_ends {hole : Option Nat} (h₀ : h.Stores hasher hole m)
    {insert : HashTable κ ν → κ × ν → Result (HashTable κ ν)}
    (hinsert : ∀ u m item, Stores hasher u none m → m item.1 = none →
      (new (2 * h.size) : HashTable κ ν).size ≤ u.size →
      Ends insert (fun u m => Stores hasher u none m) HashTable.size .outOfMemory u m item) :
    (∃ h', rehash limit insert h = .ok h' ∧ h'.Stores hasher none m ∧ 2 * h.size ≤ h'.size) ∨
      rehash limit insert h = .error .outOfMemory := by
  unfold rehash
  split
  next => exact .inr rfl
  next =>
    obtain ⟨hfresh, hall⟩ := items_fresh h₀
    have hrun := foldlM_ends insert hinsert
      (fun pre item post hsplit => (hfresh pre item post hsplit).2)
      (new_stores (Nat.mul_pos Nat.two_pos h₀.pos))
    rwa [hall] at hrun

/-- An insertion succeeds or finds no memory: each of the calls of `insert` in one another is on a table of
twice the size. -/
theorem insert_ends {depth : Nat} (h₀ : h.Stores hasher none m) (hnew : m item.1 = none)
    (hdepth : limit < h.size * 2 ^ depth) :
    Ends (insert hasher limit (depth + 1)) (fun u m => Stores hasher u none m) HashTable.size .outOfMemory h m
      item := by
  refine ends_of_growth (insert hasher limit) (fun m item => m item.1 = none) ?_ ?_ h₀ hnew hdepth
  · intro n t m item ht hnew hlarge
    rcases attempt_spec ht hnew with ⟨t₁, hrun, hstores⟩ | ⟨t₁, hole, hrun, hstores⟩
    · exact .inl ⟨t₁, insert_of_attempt hrun, hstores, (attempt_size hrun).ge⟩
    · have hsize := attempt_size hrun
      have hrehash : rehash limit (insert hasher limit n) t₁ = .error .outOfMemory := if_pos (by omega)
      refine .inr ?_
      rw [insert_of_attempt hrun, hrehash]
      rfl
  · intro n t m item ht hnew hsmall hgrown
    rcases attempt_spec ht hnew with ⟨t₁, hrun, hstores⟩ | ⟨t₁, hole, hrun, hstores⟩
    · exact .inl ⟨t₁, insert_of_attempt hrun, hstores, (attempt_size hrun).ge⟩
    · have hsize := attempt_size hrun
      have hrebuilt := @Stores.rehash_ends _ _ _ t₁ m limit _ hole hstores (insert hasher limit (n + 1))
        fun u m item hu hitem hlow => hgrown u m item hu hitem (hsize ▸ hlow)
      rcases hrebuilt with ⟨t₂, hrehash, hstores₂, hlow₂⟩ | hrehash
      · rcases hgrown t₂ m item hstores₂ hnew (by omega) with ⟨t₃, hinsert, hstores₃, hlow₃⟩ | hinsert
        · refine .inl ⟨t₃, ?_, hstores₃, by omega⟩
          rw [insert_of_attempt hrun]
          exact bind_eq_ok.mpr ⟨t₂, hrehash, hinsert⟩
        · refine .inr ?_
          rw [insert_of_attempt hrun, hrehash]
          exact hinsert
      · refine .inr ?_
        rw [insert_of_attempt hrun, hrehash]
        rfl

variable (hasher) in
/-- More than `H` keys with one hash have one home in a table of whatever size: their insertions double the
table until there is no memory for it, with calls of `insert` in one another as deep as it takes to double the
size past the limit. -/
theorem insertions_exhaust_memory {s : Nat} (hs : 0 < s) {pairs : List (κ × ν)}
    (hkeys : (pairs.map Prod.fst).Nodup) (hash : Nat)
    (hmany : H < (pairs.filter fun e => hasher e.1 = hash).length) {depth : Nat}
    (hdepth : limit < s * 2 ^ depth) :
    pairs.foldlM (insert hasher limit (depth + 1)) (new s : HashTable κ ν) = .error .outOfMemory := by
  have hrun := foldlM_ends (insert hasher limit (depth + 1))
    (fun u m item hu hnew hlow => insert_ends hu hnew
      (Nat.lt_of_lt_of_le hdepth (Nat.mul_le_mul_right _ hlow)))
    (fun pre item post hsplit => insertNew_fresh hkeys hsplit) (new_stores hs)
  refine hrun.resolve_left ?_
  rintro ⟨h, -, hstores, -⟩
  rw [foldl_insertNew_none] at hstores
  refine Nat.not_lt.mpr (hstores.homes_le ((List.Nodup.of_map _ hkeys).filter _) (hash % h.size) ?_) hmany
  intro e he
  obtain ⟨hmem, hhash⟩ := List.mem_filter.mp he
  exact ⟨lookup_of_mem hkeys hmem, congrArg (· % h.size) (of_decide_eq_true hhash)⟩

/-- Five keys of one hash, in a table of one slot that can have 100. -/
theorem insertions_exhaust_memory_five :
    [(1, 10), (2, 20), (3, 30), (4, 40), (5, 50)].foldlM (insert (fun _ => 0) 100 8)
      (new 1 : HashTable Nat Nat) = .error .outOfMemory :=
  insertions_exhaust_memory (fun _ => 0) Nat.one_pos (by decide) 0 (by decide) (show 100 < 1 * 2 ^ 7 by decide)

end Exhaust

section Apart

variable {keys : Finset κ} {bound : Nat}

/-- The table stands for a map of some keys, each of which has its own home where the slots are as many as
the hashes. -/
structure StoresIn (hasher : κ → Nat) (keys : Finset κ) (bound : Nat) (h : HashTable κ ν) (m : κ → Option ν) :
    Prop where
  stores : h.Stores hasher none m
  keys : KeysIn keys m
  home : bound ≤ h.size → InPlace (fun e => h.hashFunc hasher e.1) h.entries

/-- The hashes of the keys are distinct and below a bound. -/
structure Spread (hasher : κ → Nat) (keys : Finset κ) (bound : Nat) : Prop where
  lt : ∀ k ∈ keys, hasher k < bound
  injective : ∀ k ∈ keys, ∀ k' ∈ keys, hasher k = hasher k' → k = k'

omit [DecidableEq κ] in
theorem new_storesIn {s : Nat} (hs : 0 < s) :
    (new s : HashTable κ ν).StoresIn hasher keys bound fun _ => none := by
  refine ⟨new_stores hs, nofun, fun _ => ?_⟩
  have hentries : (new s : HashTable κ ν).entries = List.replicate s none := by simp [new, entries]
  rw [hentries]
  exact inPlace_replicate s

omit [DecidableEq κ] in
/-- No pair in the table has the home of a new key. -/
theorem StoresIn.home_ne (hspread : Spread hasher keys bound) (h₀ : h.StoresIn hasher keys bound m)
    (hsize : bound ≤ h.size) (hitem : item.1 ∈ keys) (hnew : m item.1 = none) {i : Nat} {e : κ × ν}
    (he : slot h.entries i = some e) : h.hashFunc hasher e.1 ≠ h.hashFunc hasher item.1 := by
  intro hsame
  have hkey : e.1 ∈ keys := h₀.keys _ _ (h₀.stores.map.of_slot he)
  unfold hashFunc at hsame
  rw [Nat.mod_eq_of_lt (Nat.lt_of_lt_of_le (hspread.lt _ hkey) hsize),
    Nat.mod_eq_of_lt (Nat.lt_of_lt_of_le (hspread.lt _ hitem) hsize)] at hsame
  have hmem : m e.1 = some e.2 := h₀.stores.map.of_slot he
  rw [← hspread.injective _ hkey _ hitem hsame] at hnew
  rw [hnew] at hmem
  cases hmem

omit [DecidableEq κ] in
/-- Where the slots are as many as the hashes, a new pair is put into its home. -/
theorem StoresIn.attempt (hspread : Spread hasher keys bound) (h₀ : h.StoresIn hasher keys bound m)
    (hsize : bound ≤ h.size) (hitem : item.1 ∈ keys) (hnew : m item.1 = none) :
    h.attempt hasher item =
      .ok (h.place (h.hashFunc hasher item.1) (h.hashFunc hasher item.1) item, true) := by
  have hne := fun {i e} => h₀.home_ne hspread hsize hitem hnew (i := i) (e := e)
  have hlt : h.hashFunc hasher item.1 < h.size := Nat.mod_lt _ h₀.stores.pos
  have hhop : h.hop (h.hashFunc hasher item.1) ≠ maxBitmapSize := by
    intro hfull
    obtain ⟨e, he, hhome⟩ := (h₀.stores.exact (h.hashFunc hasher item.1) 0).mp (by simp only [hfull]; decide)
    exact hne he hhome
  have hfree : slot h.entries (h.hashFunc hasher item.1) = none := by
    cases hslot : slot h.entries (h.hashFunc hasher item.1) with
    | none => rfl
    | some e => exact absurd (h₀.home hsize _ e hslot) (hne hslot)
  have hrange : List.range' (h.hashFunc hasher item.1) H =
      h.hashFunc hasher item.1 :: List.range' (h.hashFunc hasher item.1 + 1) 3 := rfl
  unfold HashTable.attempt
  dsimp only
  rw [if_neg hhop, hrange, List.find?_cons_of_pos (by simp [hfree])]
  exact if_neg (Nat.not_le.mpr hlt)

/-- The pair that is put into its home is there. -/
theorem StoresIn.place (hspread : Spread hasher keys bound) (h₀ : h.StoresIn hasher keys bound m)
    (hsize : bound ≤ h.size) (hitem : item.1 ∈ keys) (hnew : m item.1 = none) :
    (h.place (h.hashFunc hasher item.1) (h.hashFunc hasher item.1) item).StoresIn hasher keys bound
      (insertNew m item) := by
  have hrun := h₀.attempt hspread hsize hitem hnew
  refine ⟨?_, h₀.keys.insertNew hitem, fun _ => ?_⟩
  · rcases attempt_spec h₀.stores hnew with ⟨h', hrun', hstores⟩ | ⟨h', hole, hrun', -⟩
    · cases hrun.symm.trans hrun'
      exact hstores
    · cases hrun.symm.trans hrun'
  · have hentries : (h.place (h.hashFunc hasher item.1) (h.hashFunc hasher item.1) item).entries =
        h.entries.set (h.hashFunc hasher item.1) (some item) := by simp [HashTable.place]
    rw [hentries]
    exact (h₀.home hsize).set rfl

theorem Stores.rebuild {hole : Option Nat} (h₀ : h.Stores hasher hole m) (hkeys : KeysIn keys m)
    (hlimit : 2 * h.size ≤ limit) {insert : HashTable κ ν → κ × ν → Result (HashTable κ ν)} {most : Nat}
    (hinsert : ∀ u m item, StoresIn hasher keys bound u m → item.1 ∈ keys ∧ m item.1 = none →
      (new (2 * h.size) : HashTable κ ν).size ≤ u.size →
      Returns insert (StoresIn hasher keys bound) HashTable.size most u m item) :
    ∃ h', rehash limit insert h = .ok h' ∧ h'.StoresIn hasher keys bound m ∧ 2 * h.size ≤ h'.size ∧
      h'.size ≤ max (2 * h.size) (2 * most) := by
  obtain ⟨hfresh, hall⟩ := items_fresh h₀
  have hnew : (new (2 * h.size) : HashTable κ ν).StoresIn hasher keys bound fun _ => none :=
    new_storesIn (Nat.mul_pos Nat.two_pos h₀.pos)
  obtain ⟨h', hrun, hstores, hsize⟩ := foldlM_returns insert hinsert
    (fun pre item post hsplit =>
      ⟨hkeys _ _ (hfresh pre item post hsplit).1, (hfresh pre item post hsplit).2⟩) hnew
  rw [hall] at hstores
  exact ⟨h', rehash_eq_ok.mpr ⟨hlimit, hrun⟩, hstores, hsize⟩

theorem insert_returns_of_spread (hspread : Spread hasher keys bound) (hlimit : 2 * bound ≤ limit)
    {depth : Nat} (h₀ : h.StoresIn hasher keys bound m) (hitem : item.1 ∈ keys) (hnew : m item.1 = none)
    (hdepth : bound ≤ h.size * 2 ^ depth) :
    Returns (insert hasher limit (depth + 1)) (StoresIn hasher keys bound) HashTable.size bound h m item := by
  refine returns_of_growth (insert hasher limit) (fun m item => item.1 ∈ keys ∧ m item.1 = none) ?_ ?_ h₀
    ⟨hitem, hnew⟩ hdepth
  · rintro n t m item ht ⟨hitem, hnew⟩ hsize
    exact ⟨_, insert_of_attempt (ht.attempt hspread hsize hitem hnew), ht.place hspread hsize hitem hnew,
      Nat.le_refl _, Nat.le_max_left ..⟩
  · rintro n t m item ht ⟨hitem, hnew⟩ hless hgrown
    rcases attempt_spec ht.stores hnew with ⟨t₁, hrun, hstores⟩ | ⟨t₁, hole, hrun, hstores⟩
    · have hsize := attempt_size hrun
      refine ⟨t₁, insert_of_attempt hrun, ⟨hstores, ht.keys.insertNew hitem, fun hge => ?_⟩, hsize.ge, by omega⟩
      omega
    · have hsize := attempt_size hrun
      obtain ⟨t₂, hrehash, ht₂, hlow₂, hhigh₂⟩ := hstores.rebuild ht.keys (show 2 * t₁.size ≤ limit by omega)
        fun u m item hu hallowed hsize₁ => hgrown u m item hu hallowed (hsize ▸ hsize₁)
      obtain ⟨t₃, hinsert, ht₃, hlow₃, hhigh₃⟩ := hgrown t₂ m item ht₂ ⟨hitem, hnew⟩ (by omega)
      refine ⟨t₃, ?_, ht₃, by omega, by omega⟩
      rw [insert_of_attempt hrun]
      exact bind_eq_ok.mpr ⟨t₂, hrehash, hinsert⟩

variable (hasher) in
/-- Keys with distinct hashes are all inserted where there is memory: with calls of `insert` in one another as
deep as it takes to double the size to the greatest hash, which the table outgrows by less than one doubling.
-/
theorem insertions_return_spread {s : Nat} (hs : 0 < s) {pairs : List (κ × ν)}
    (hkeys : (pairs.map fun e => hasher e.1).Nodup) (hbound : ∀ e ∈ pairs, hasher e.1 < bound)
    (hlimit : 2 * bound ≤ limit) {depth : Nat} (hdepth : bound ≤ s * 2 ^ depth) :
    ∃ h : HashTable κ ν, pairs.foldlM (insert hasher limit (depth + 1)) (new s) = .ok h ∧
      h.size ≤ max s (2 * bound) ∧ ∀ k, h.find hasher k = pairs.lookup k := by
  have hdistinct : (pairs.map Prod.fst).Nodup := by
    refine List.Nodup.of_map hasher ?_
    rwa [List.map_map]
  have hspread : Spread hasher (pairs.map Prod.fst).toFinset bound := by
    refine ⟨fun k hk => ?_, fun k hk k' hk' hsame => ?_⟩
    · obtain ⟨e, he, rfl⟩ := List.mem_map.mp (List.mem_toFinset.mp hk)
      exact hbound e he
    · obtain ⟨e, he, rfl⟩ := List.mem_map.mp (List.mem_toFinset.mp hk)
      obtain ⟨e', he', rfl⟩ := List.mem_map.mp (List.mem_toFinset.mp hk')
      rw [List.inj_on_of_nodup_map hkeys he he' hsame]
  have hallowed : ∀ pre item post, pairs = pre ++ item :: post →
      item.1 ∈ (pairs.map Prod.fst).toFinset ∧ pre.foldl insertNew (fun _ => none) item.1 = none := by
    intro pre item post hsplit
    exact ⟨List.mem_toFinset.mpr (List.mem_map_of_mem (by simp [hsplit])), insertNew_fresh hdistinct hsplit⟩
  have hreturns : ∀ (u : HashTable κ ν) (m : κ → Option ν) (item : κ × ν),
      StoresIn hasher (pairs.map Prod.fst).toFinset bound u m →
      item.1 ∈ (pairs.map Prod.fst).toFinset ∧ m item.1 = none → (new s : HashTable κ ν).size ≤ u.size →
      Returns (insert hasher limit (depth + 1)) (StoresIn hasher (pairs.map Prod.fst).toFinset bound)
        HashTable.size bound u m item := fun u m item hu hitem hlow =>
    insert_returns_of_spread hspread hlimit hu hitem.1 hitem.2 (hdepth.trans (Nat.mul_le_mul_right _ hlow))
  obtain ⟨h, hrun, hstores, -, hsize⟩ := foldlM_returns (insert hasher limit (depth + 1)) hreturns hallowed
    (new_storesIn hs)
  refine ⟨h, hrun, hsize, fun k => ?_⟩
  rw [find_eq hstores.stores, foldl_insertNew_none]

/-- Three keys with the home 1 in a table of four slots that can have 20. -/
theorem insertions_return_spread_three : ∃ h : HashTable Nat Nat,
    [(1, 10), (5, 20), (9, 30)].foldlM (insert id 20 3) (new 4) = .ok h ∧ h.size ≤ 20 ∧
      ∀ k, h.find id k = [(1, 10), (5, 20), (9, 30)].lookup k := by
  have hkeys : ([(1, 10), (5, 20), (9, 30)].map fun e => id e.1).Nodup := by decide
  have hbound : ∀ e ∈ [(1, 10), (5, 20), (9, 30)], id e.1 < 10 := by decide
  exact insertions_return_spread id (s := 4) (by decide) hkeys hbound (show 2 * 10 ≤ 20 by decide)
    (show 10 ≤ 4 * 2 ^ 2 by decide)

end Apart

end Hopscotch.HashTable

end JoinOptimizer
