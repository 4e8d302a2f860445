import JoinOptimizer.Data
import JoinOptimizer.Lib.Hops
import JoinOptimizer.Lib.SlotMaps

/-! The hopscotch hash table of `include/hopscotch.h`.  A pair is kept less than `H` slots behind
its home slot.  Where the free slot is further away, pairs are moved into it one after another until
one near enough is free; where that does not succeed, the table grows and the pair is inserted anew.
-/

namespace JoinOptimizer.Hopscotch

open Lib

/-- `HashNode`; a node that is not occupied has no entry, and the key and the value left in it are
never read. -/
structure HashNode (κ ν : Type) where
  hopInfo : BitVec 64
  entry : Option (κ × ν)

structure HashTable (κ ν : Type) where
  size : Nat
  buffer : List (HashNode κ ν)

/-- The member `H`, which nothing changes. -/
def H : Nat := 4

/-- The member `max_bitmap_size`. -/
def maxBitmapSize : BitVec 64 := 15

/-- `1 << b`, an `int`, as the other operand of an operation on a `size_t`. -/
def hopFlag (b : Nat) : BitVec 64 := (1#32 <<< b).signExtend 64

/-- `findLeftmostOne`. -/
def findLeftmostOne (bitmap : BitVec 64) (limit : Nat) : Option Nat :=
  if bitmap = 0 then none else (List.range limit).find? fun b => bitmap &&& hopFlag b ≠ 0

section Bits

variable {b c : Nat}

theorem hopFlag_eq (hb : b < 31) : hopFlag b = BitVec.twoPow 64 b := by
  apply BitVec.eq_of_getLsbD_eq
  intro c hc
  have hmsb : (1#32 <<< b).msb = false := by
    simp [BitVec.msb_shiftLeft, BitVec.getMsbD_eq_getLsbD]
    omega
  rw [hopFlag, BitVec.signExtend_eq_setWidth_of_msb_false hmsb, ← BitVec.twoPow_eq]
  simp only [BitVec.getLsbD_setWidth, BitVec.getLsbD_twoPow]
  by_cases hbc : b = c
  · subst hbc
    simp [hc]
    omega
  · simp [hbc]

theorem getLsbD_or_hopFlag (w : BitVec 64) (hb : b < 31) :
    (w ||| hopFlag b).getLsbD c ↔ w.getLsbD c ∨ c = b := by
  rw [hopFlag_eq hb, BitVec.getLsbD_or, BitVec.getLsbD_twoPow]
  simp only [Bool.or_eq_true, Bool.and_eq_true, decide_eq_true_eq]
  refine or_congr_right ⟨fun h => h.2.symm, fun h => ⟨by omega, h.symm⟩⟩

theorem getLsbD_and_not_hopFlag (w : BitVec 64) (hb : b < 31) :
    (w &&& (~~~ (1#32 <<< b)).signExtend 64).getLsbD c ↔ w.getLsbD c ∧ c ≠ b := by
  have hflag := hopFlag_eq hb
  unfold hopFlag at hflag
  rw [BitVec.signExtend_not (by decide), hflag, BitVec.getLsbD_and, BitVec.getLsbD_not,
    BitVec.getLsbD_twoPow]
  simp only [Bool.and_eq_true]
  refine and_congr_right fun hc => ?_
  have hlt := BitVec.lt_of_getLsbD hc
  have hb' : b < 64 := by omega
  simp only [hlt, hb', decide_true, Bool.true_and, Bool.not_eq_true', decide_eq_false_iff_not,
    true_and]
  exact not_congr eq_comm

theorem and_hopFlag_ne_zero (w : BitVec 64) (hb : b < 31) : w &&& hopFlag b ≠ 0 ↔ w.getLsbD b := by
  rw [hopFlag_eq hb, BitVec.and_twoPow]
  have hbit : (BitVec.twoPow 64 b).getLsbD b = true := by
    rw [BitVec.getLsbD_twoPow]
    simp
    omega
  cases w.getLsbD b with
  | false => simp
  | true =>
    refine iff_of_true (fun hzero => ?_) rfl
    rw [if_pos rfl] at hzero
    rw [hzero] at hbit
    simp at hbit

theorem findLeftmostOne_spec {bitmap : BitVec 64} {limit left : Nat} (hlimit : limit ≤ 31)
    (h : findLeftmostOne bitmap limit = some left) : left < limit ∧ bitmap.getLsbD left := by
  unfold findLeftmostOne at h
  split at h
  · cases h
  · obtain ⟨hflag, hmem, -⟩ := List.find?_range_eq_some.mp h
    have hlt := List.mem_range.mp hmem
    exact ⟨hlt, (and_hopFlag_ne_zero bitmap (by omega)).mp (of_decide_eq_true hflag)⟩

end Bits

namespace HashTable

variable {κ ν : Type} (hasher : κ → Nat)

/-- The constructor. -/
def new (s : Nat) : HashTable κ ν := ⟨s, List.replicate s ⟨0, none⟩⟩

/-- `hash_func`. -/
def hashFunc (h : HashTable κ ν) (k : κ) : Nat := hasher k % h.size

/-- The slots of the table. -/
def entries (h : HashTable κ ν) : List (Option (κ × ν)) := h.buffer.map HashNode.entry

/-- `buffer[i].hop_info`. -/
def hop (h : HashTable κ ν) (i : Nat) : BitVec 64 := (h.buffer[i]?.map HashNode.hopInfo).getD 0

/-- `find`. -/
def find [DecidableEq κ] (h : HashTable κ ν) (key : κ) : Option ν :=
  (probe (fun e => e.1 = key) (fun _ _ => false) h.entries H (h.hashFunc hasher key)).map Prod.snd

/-- The key, the value and the mark `occupied` of `buffer[i]` are written. -/
def setEntry (h : HashTable κ ν) (i : Nat) (x : Option (κ × ν)) : HashTable κ ν :=
  { h with buffer := h.buffer.modify i fun n => { n with entry := x } }

/-- `buffer[i].hop_info = w`. -/
def setHop (h : HashTable κ ν) (i : Nat) (w : BitVec 64) : HashTable κ ν :=
  { h with buffer := h.buffer.modify i fun n => { n with hopInfo := w } }

/-- `buffer[p].hop_info |= (1 << b)`. -/
def addHop (h : HashTable κ ν) (p b : Nat) : HashTable κ ν := h.setHop p (h.hop p ||| hopFlag b)

/-- `buffer[p].hop_info &= ~(1 << b)`, with `~` taken of the `int`. -/
def dropHop (h : HashTable κ ν) (p b : Nat) : HashTable κ ν :=
  h.setHop p (h.hop p &&& (~~~ (1#32 <<< b)).signExtend 64)

/-- A pair with home `k` is put into slot `j`. -/
def place (h : HashTable κ ν) (k j : Nat) (item : κ × ν) : HashTable κ ν :=
  (h.setEntry j (some item)).addHop k (j - k)

/-- The element of slot `neighbor + left` moves to slot `j`, which is `i` slots behind `neighbor`.
-/
def displace (h : HashTable κ ν) (j i neighbor left : Nat) : HashTable κ ν :=
  let src := neighbor + left
  (((h.setEntry j (slot h.entries src)).setEntry src none).dropHop neighbor left).addHop neighbor i

/-- The `for` loop of the displacement over the distances from `i` down to 1: the table and the slot
that is free after a move, or `none` if nothing can be moved to slot `j`. -/
def moveOne (h : HashTable κ ν) (j : Nat) : Nat → Option (HashTable κ ν × Nat)
  | 0 => none
  | i + 1 =>
    let neighbor := j - (i + 1)
    -- an index below 0 wraps around and is not below `size`
    if j < i + 1 ∨ h.size ≤ neighbor then moveOne h j i
    else
      match findLeftmostOne (h.hop neighbor) (i + 1) with
      | some left => some (h.displace j (i + 1) neighbor left, neighbor + left)
      | none => moveOne h j i

/-- The loop `while (j - k >= H)`: the slot that is free in the end, or `none` if nothing could be
moved. `insert` calls it with more `fuel` than it can use. -/
def makeSpace (k : Nat) : Nat → HashTable κ ν → Nat → Result (HashTable κ ν × Option Nat)
  | 0, _, _ => .error .outOfFuel
  | fuel + 1, h, j =>
    if H ≤ j - k then
      match h.moveOne j (H - 1) with
      | some (h, j) => makeSpace k fuel h j
      | none => .ok (h, none)
    else .ok (h, some j)

/-- The body of `insert`, and whether it has put the pair into a slot; where it has not, `insert`
calls `rehash` and itself. -/
def attempt (h : HashTable κ ν) (item : κ × ν) : Result (HashTable κ ν × Bool) :=
  let k := h.hashFunc hasher item.1
  if h.hop k = maxBitmapSize then .ok (h, false)
  else
    match (List.range' k H).find? fun i => h.size ≤ i ∨ slot h.entries i = none with
    | some i => if h.size ≤ i then .ok (h, false) else .ok (h.place k i item, true)
    | none =>
      match (List.range' k (h.size - k)).find? fun i => slot h.entries i = none with
      | none => .ok (h, false)
      | some j => do
        match ← h.makeSpace k h.size j with
        | (h, none) => .ok (h, false)
        | (h, some j) => .ok (h.place k j item, true)

/-- The pairs in the order in which `rehash` inserts them again. -/
def items (h : HashTable κ ν) : List (κ × ν) :=
  (List.range h.size).flatMap fun i => (slot h.entries i).toList

/-- `rehash`, with the `insert` that it calls; `resize` throws where there is no memory for more than `limit`
nodes. -/
def rehash (limit : Nat) (insert : HashTable κ ν → κ × ν → Result (HashTable κ ν)) (h : HashTable κ ν) :
    Result (HashTable κ ν) :=
  if limit < 2 * h.size then .error .outOfMemory else h.items.foldlM insert (new (2 * h.size))

/-- `insert`, with calls of `insert` in one another as deep as `fuel`. -/
def insert (limit : Nat) : Nat → HashTable κ ν → κ × ν → Result (HashTable κ ν)
  | 0, _, _ => .error .outOfFuel
  | fuel + 1, h, item => do
    match ← h.attempt hasher item with
    | (h, true) => .ok h
    | (h, false) => do
      let h ← rehash limit (insert limit fuel) h
      insert limit fuel h item

section Nodes

variable {κ ν : Type} (h : HashTable κ ν) {i j p q b c : Nat} {x : Option (κ × ν)} {w : BitVec 64}

@[simp] theorem size_setEntry : (h.setEntry i x).size = h.size := rfl

@[simp] theorem size_setHop : (h.setHop i w).size = h.size := rfl

@[simp] theorem length_setEntry : (h.setEntry i x).buffer.length = h.buffer.length := by simp [setEntry]

@[simp] theorem length_setHop : (h.setHop i w).buffer.length = h.buffer.length := by simp [setHop]

@[simp] theorem length_entries : h.entries.length = h.buffer.length := List.length_map ..

@[simp] theorem entries_setEntry : (h.setEntry i x).entries = h.entries.set i x := by
  apply List.ext_getElem?
  intro k
  simp only [entries, setEntry, List.getElem?_map, List.getElem?_modify, List.getElem?_set]
  by_cases hik : i = k
  · subst hik
    cases hi : h.buffer[i]? with
    | none => simp [List.getElem?_eq_none_iff.mp hi]
    | some n => simp [(List.getElem?_eq_some_iff.mp hi).1]
  · simp [hik]

@[simp] theorem entries_setHop : (h.setHop i w).entries = h.entries := by
  apply List.ext_getElem?
  intro k
  simp only [entries, setHop, List.getElem?_map, List.getElem?_modify]
  cases h.buffer[k]? with
  | none => rfl
  | some n => by_cases hik : i = k <;> simp [hik]

@[simp] theorem hop_setEntry : (h.setEntry i x).hop j = h.hop j := by
  simp only [hop, setEntry, List.getElem?_modify]
  cases h.buffer[j]? with
  | none => rfl
  | some n => by_cases hij : i = j <;> simp [hij]

theorem hop_setHop (hi : i < h.buffer.length) :
    (h.setHop i w).hop j = if i = j then w else h.hop j := by
  simp only [hop, setHop, List.getElem?_modify]
  by_cases hij : i = j
  · subst hij
    simp [List.getElem?_eq_getElem hi]
  · simp [hij]

@[simp] theorem size_addHop : (h.addHop p b).size = h.size := rfl

@[simp] theorem size_dropHop : (h.dropHop p b).size = h.size := rfl

@[simp] theorem length_addHop : (h.addHop p b).buffer.length = h.buffer.length := length_setHop h

@[simp] theorem length_dropHop : (h.dropHop p b).buffer.length = h.buffer.length := length_setHop h

@[simp] theorem entries_addHop : (h.addHop p b).entries = h.entries := entries_setHop h

@[simp] theorem entries_dropHop : (h.dropHop p b).entries = h.entries := entries_setHop h

theorem bit_addHop (hp : p < h.buffer.length) (hb : b < 31) :
    ((h.addHop p b).hop q).getLsbD c ↔ (h.hop q).getLsbD c ∨ q = p ∧ c = b := by
  rw [addHop, hop_setHop h hp]
  by_cases hpq : p = q
  · subst hpq
    rw [if_pos rfl, getLsbD_or_hopFlag _ hb]
    simp
  · simp [hpq, Ne.symm hpq]

theorem bit_dropHop (hp : p < h.buffer.length) (hb : b < 31) :
    ((h.dropHop p b).hop q).getLsbD c ↔ (h.hop q).getLsbD c ∧ ¬ (q = p ∧ c = b) := by
  rw [dropHop, hop_setHop h hp]
  by_cases hpq : p = q
  · subst hpq
    rw [if_pos rfl, getLsbD_and_not_hopFlag _ hb]
    simp
  · simp [hpq, Ne.symm hpq]

end Nodes

/-- The table is the map of some pairs with distinct keys, the bitmaps are exact, and there is no
free slot between a pair and its home. -/
structure IsMap [DecidableEq κ] (h : HashTable κ ν) (pairs : List (κ × ν)) : Prop where
  found : ∀ e ∈ pairs, h.find hasher e.1 = some e.2
  absent : ∀ k, (∀ e ∈ pairs, e.1 ≠ k) → h.find hasher k = none
  exact : ∀ p b, (h.hop p).getLsbD b ↔
    ∃ e, slot h.entries (p + b) = some e ∧ h.hashFunc hasher e.1 = p
  near : ∀ i e, slot h.entries i = some e →
    h.hashFunc hasher e.1 ≤ i ∧ i < h.hashFunc hasher e.1 + H
  taken : ∀ i e l, slot h.entries i = some e → h.hashFunc hasher e.1 ≤ l → l < i →
    (slot h.entries l).isSome

/-- A table that stands for a map; `hole` may be free although it is between a pair and its home. -/
structure Stores (h : HashTable κ ν) (hole : Option Nat) (m : κ → Option ν) : Prop where
  pos : 0 < h.size
  length : h.buffer.length = h.size
  near : Near (fun e => h.hashFunc hasher e.1) H hole h.entries
  exact : ExactHops (fun e => h.hashFunc hasher e.1) (fun p b => (h.hop p).getLsbD b) h.entries
  map : SlotMap id h.entries m

section Stores

variable {hasher} {h : HashTable κ ν} {hole : Option Nat} {m : κ → Option ν}

theorem new_stores {s : Nat} (hs : 0 < s) :
    (new s : HashTable κ ν).Stores hasher none fun _ => none := by
  have hentries : (new s : HashTable κ ν).entries = List.replicate s none := by simp [new, entries]
  have hhop : ∀ p, (new s : HashTable κ ν).hop p = 0 := by
    intro p
    rw [hop, new, List.getElem?_replicate]
    split <;> rfl
  refine ⟨hs, List.length_replicate, ?_, ?_, ?_⟩
  · rw [hentries]
    exact near_replicate _ H s
  · rw [hentries]
    simpa [hhop] using exactHops_replicate _ s
  · rw [hentries]
    exact SlotMap.replicate id s

theorem items_eq (h₀ : h.Stores hasher hole m) : h.items = h.entries.reduceOption := by
  rw [items, ← h₀.length, ← length_entries, flatMap_slot]

theorem find_eq [DecidableEq κ] (h₀ : h.Stores hasher none m) (k : κ) : h.find hasher k = m k := by
  refine h₀.map.probe_eq fun j e he hkey => ?_
  have hkey : e.1 = k := hkey
  subst hkey
  refine ⟨h₀.near.home_le j e he, h₀.near.lt j e he, fun l hlow hhigh => ?_⟩
  have htaken := (h₀.near.taken j e l he hlow hhigh).resolve_left (by simp)
  obtain ⟨b, hb⟩ := Option.isSome_iff_exists.mp htaken
  exact ⟨b, hb, rfl⟩

theorem Stores.isMap [DecidableEq κ] {pairs : List (κ × ν)}
    (h₀ : h.Stores hasher none fun k => pairs.lookup k) (hkeys : (pairs.map Prod.fst).Nodup) :
    h.IsMap hasher pairs where
  found e he := by
    rw [find_eq h₀]
    exact lookup_of_mem hkeys he
  absent k hk := by
    rw [find_eq h₀, List.lookup_eq_none_iff]
    exact fun e he => bne_iff_ne.mpr (hk e he).symm
  exact := h₀.exact
  near i e he := ⟨h₀.near.home_le i e he, h₀.near.lt i e he⟩
  taken i e l he hlow hhigh := (h₀.near.taken i e l he hlow hhigh).resolve_left (by simp)

end Stores

/-- Slot `j` is free, and the slots from `k` up to it are taken; it may be between a pair and its
home. -/
structure Gap (h : HashTable κ ν) (k j : Nat) (m : κ → Option ν) : Prop where
  stores : h.Stores hasher (some j) m
  free : slot h.entries j = none
  le : k ≤ j
  lt : j < h.size
  taken : ∀ l, k ≤ l → l < j → (slot h.entries l).isSome

section Gap

variable {hasher} {h : HashTable κ ν} {m : κ → Option ν} {i j k left : Nat}

/-- The new pair fills the gap. -/
theorem Gap.place [DecidableEq κ] (hg : h.Gap hasher k j m) {item : κ × ν}
    (hk : h.hashFunc hasher item.1 = k) (hj : j < k + H) (hnew : m item.1 = none) :
    (h.place k j item).Stores hasher none (insertNew m item) := by
  have hH : H = 4 := rfl
  have hle := hg.le
  have hlt : j < h.buffer.length := hg.stores.length.symm ▸ hg.lt
  have hslots : j < h.entries.length := by rwa [length_entries]
  have hentries : (h.place k j item).entries = h.entries.set j (some item) := by simp [HashTable.place]
  refine ⟨hg.stores.pos, by simp [HashTable.place, hg.stores.length], ?_, ?_, ?_⟩
  · rw [hentries]
    exact hg.stores.near.put hslots (hk ▸ hle) (hk ▸ hj) fun l hl => hg.taken l (hk ▸ hl)
  · rw [hentries]
    refine hg.stores.exact.put hslots hg.free fun p b => ?_
    rw [HashTable.place, bit_addHop _ (by rw [length_setEntry]; omega) (by omega), hop_setEntry]
    refine or_congr_right ⟨fun hpb => ?_, fun hpb => ?_⟩
    · exact ⟨hpb.1.trans hk.symm, by omega⟩
    · exact ⟨hpb.1.trans hk, by omega⟩
  · rw [hentries, insertNew_of_none hnew]
    exact hg.stores.map.put hslots hg.free hnew

/-- The element that a bitmap names moves into the gap, which is then where it was. -/
theorem Gap.displace [DecidableEq κ] (hg : h.Gap hasher k j m) {neighbor : Nat} (hk : k ≤ neighbor)
    (hj : neighbor + i = j) (hi : i < H) (hleft : left < i) (hbit : (h.hop neighbor).getLsbD left) :
    (h.displace j i neighbor left).Gap hasher k (neighbor + left) m := by
  have hH : H = 4 := rfl
  have hlt : j < h.buffer.length := hg.stores.length.symm ▸ hg.lt
  have hslots : j < h.entries.length := by rwa [length_entries]
  obtain ⟨e, he, hhome⟩ := (hg.stores.exact neighbor left).mp hbit
  have hhome : h.hashFunc hasher e.1 = neighbor := hhome
  have hsrc := lt_of_slot he
  have hne : j ≠ neighbor + left := by omega
  have hentries : (h.displace j i neighbor left).entries =
      (h.entries.set j (some e)).set (neighbor + left) none := by simp [HashTable.displace, he]
  have hput := hg.stores.near.put (a := e) hslots (by omega) (by omega)
    fun l hl => hg.taken l (by omega)
  have htake : ExactHops (fun e => h.hashFunc hasher e.1)
      (fun p b => (h.hop p).getLsbD b ∧ ¬ (p = neighbor ∧ b = left))
      (h.entries.set (neighbor + left) none) := by
    refine hg.stores.exact.take he fun p b => and_congr_right fun _ => not_congr ?_
    rw [hhome]
    omega
  have hlength : (h.displace j i neighbor left).buffer.length = h.size := by
    simp [HashTable.displace, hg.stores.length]
  refine ⟨⟨hg.stores.pos, hlength, ?_, ?_, ?_⟩, ?_, by omega, ?_, ?_⟩
  · rw [hentries]
    exact hput.take _
  · rw [hentries, List.set_comm _ _ hne]
    refine htake.put (by simpa using hslots) (by rw [slot_set_ne hne.symm, hg.free]) fun p b => ?_
    rw [HashTable.displace, bit_addHop _ (by simp; omega) (by omega),
      bit_dropHop _ (by simp; omega) (by omega)]
    simp only [hop_setEntry]
    refine or_congr_right ?_
    rw [hhome]
    omega
  · rw [hentries]
    exact hg.stores.map.move he hslots hg.free
  · rw [hentries]
    exact slot_set_self (by simpa using hsrc) _
  · show neighbor + left < h.size
    have := hg.lt
    omega
  · intro l hl hlt
    rw [hentries, slot_set_ne (by omega)]
    exact slot_set_isSome hslots (hg.taken l hl (by omega)) e

/-- A gap further away than the neighborhood of `k` reaches moves towards `k`. -/
theorem Gap.moveOne [DecidableEq κ] (hg : h.Gap hasher k j m) (hi : i < H) (hfar : k + H ≤ j)
    {h' : HashTable κ ν} {j' : Nat} (hmove : h.moveOne j i = some (h', j')) :
    h'.Gap hasher k j' m ∧ h'.size = h.size ∧ j' < j := by
  induction i with
  | zero => cases hmove
  | succ i ih =>
    have hH : H = 4 := rfl
    dsimp only [HashTable.moveOne] at hmove
    split at hmove
    · exact ih (by omega) hmove
    · split at hmove
      next left hleft =>
        cases hmove
        obtain ⟨hlt, hbit⟩ := findLeftmostOne_spec (by omega) hleft
        exact ⟨hg.displace (by omega) (by omega) hi hlt hbit, rfl, by omega⟩
      next => exact ih (by omega) hmove

/-- The loop ends with a gap in the neighborhood of `k`, or gives up with one further away. -/
theorem Gap.makeSpace [DecidableEq κ] (hg : h.Gap hasher k j m) {fuel : Nat} (hfuel : j < fuel) :
    ∃ (h' : HashTable κ ν) (j' : Nat), h'.Gap hasher k j' m ∧ h'.size = h.size ∧
      (h.makeSpace k fuel j = .ok (h', some j') ∧ j' < k + H ∨
        h.makeSpace k fuel j = .ok (h', none)) := by
  induction fuel generalizing h j with
  | zero => omega
  | succ fuel ih =>
    have hle := hg.le
    unfold HashTable.makeSpace
    by_cases hfar : H ≤ j - k
    · rw [if_pos hfar]
      cases hmove : h.moveOne j (H - 1) with
      | none => exact ⟨h, j, hg, rfl, .inr rfl⟩
      | some r =>
        obtain ⟨h₁, j₁⟩ := r
        obtain ⟨hg₁, hsize₁, hlt⟩ := hg.moveOne (by decide) (by omega) hmove
        have hfuel₁ : j₁ < fuel := by omega
        obtain ⟨h', j', hg', hsize', hrest⟩ := ih hg₁ hfuel₁
        exact ⟨h', j', hg', hsize'.trans hsize₁, hrest⟩
    · rw [if_neg hfar]
      exact ⟨h, j, hg, rfl, .inl ⟨rfl, by omega⟩⟩

end Gap

section Attempt

variable {hasher} {h h' : HashTable κ ν} {m : κ → Option ν} {item : κ × ν}

/-- The first free slot from `k` on. -/
theorem gap_of_first (h₀ : h.Stores hasher none m) {j k : Nat} (hle : k ≤ j) (hlt : j < h.size)
    (hfree : slot h.entries j = none) (hbefore : ∀ l, k ≤ l → l < j → slot h.entries l ≠ none) :
    h.Gap hasher k j m where
  stores := ⟨h₀.pos, h₀.length, h₀.near.withHole j, h₀.exact, h₀.map⟩
  free := hfree
  le := hle
  lt := hlt
  taken l hl hlt := Option.isSome_iff_ne_none.mpr (hbefore l hl hlt)

/-- The body of `insert` adds the pair to the map, or leaves the map as it was. -/
theorem attempt_spec [DecidableEq κ] (h₀ : h.Stores hasher none m) (hnew : m item.1 = none) :
    (∃ h' : HashTable κ ν, h.attempt hasher item = .ok (h', true) ∧
      h'.Stores hasher none (insertNew m item)) ∨
    ∃ (h' : HashTable κ ν) (hole : Option Nat), h.attempt hasher item = .ok (h', false) ∧
      h'.Stores hasher hole m := by
  dsimp only [attempt]
  split
  · exact .inr ⟨h, none, rfl, h₀⟩
  · split
    next i hi =>
      obtain ⟨hstop, hmem, hbefore⟩ := List.find?_range'_eq_some.mp hi
      split
      · exact .inr ⟨h, none, rfl, h₀⟩
      next hlt =>
        obtain ⟨hlow, hhigh⟩ := List.mem_range'_1.mp hmem
        have hg := gap_of_first h₀ hlow (by omega) ((of_decide_eq_true hstop).resolve_left hlt)
          fun l hl hli => (by simpa using hbefore l hl hli : _ ∧ _).2
        exact .inl ⟨_, rfl, hg.place rfl hhigh hnew⟩
    next =>
      split
      next => exact .inr ⟨h, none, rfl, h₀⟩
      next j hj =>
        obtain ⟨hstop, hmem, hbefore⟩ := List.find?_range'_eq_some.mp hj
        obtain ⟨hlow, hhigh⟩ := List.mem_range'_1.mp hmem
        have hg := gap_of_first h₀ hlow (by omega) (of_decide_eq_true hstop)
          fun l hl hlj => by simpa using hbefore l hl hlj
        obtain ⟨h', j', hg', hsize, hspace⟩ := hg.makeSpace hg.lt
        rcases hspace with ⟨hrun, hnear⟩ | hrun
        · rw [hrun]
          refine .inl ⟨_, rfl, hg'.place ?_ hnear hnew⟩
          rw [hashFunc, hashFunc, hsize]
        · rw [hrun]
          exact .inr ⟨h', some j', rfl, hg'.stores⟩

end Attempt

section Insert

variable {hasher} {h h' : HashTable κ ν} {m : κ → Option ν} {limit : Nat}

theorem rehash_eq_ok {insert : HashTable κ ν → κ × ν → Result (HashTable κ ν)} :
    rehash limit insert h = .ok h' ↔
      2 * h.size ≤ limit ∧ h.items.foldlM insert (new (2 * h.size)) = .ok h' := by
  unfold rehash
  split
  next hlarge => exact ⟨nofun, fun h => absurd h.1 (Nat.not_le.mpr hlarge)⟩
  next hsmall => exact ⟨fun h => ⟨Nat.not_lt.mp hsmall, h⟩, And.right⟩

variable [DecidableEq κ]

/-- A run of insertions of pairs with distinct keys into an empty table, each of which adds its pair
to the map. -/
theorem run_stores {insert : HashTable κ ν → κ × ν → Result (HashTable κ ν)}
    (hinsert : ∀ (t : HashTable κ ν) m item t', t.Stores hasher none m → m item.1 = none →
      insert t item = .ok t' → t'.Stores hasher none (insertNew m item))
    {s : Nat} (hs : 0 < s) {pairs : List (κ × ν)} (hkeys : (pairs.map Prod.fst).Nodup)
    (hrun : pairs.foldlM insert (new s) = .ok h') :
    h'.Stores hasher none fun k => pairs.lookup k := by
  have hall := foldlM_insertNew hinsert (fun _ _ _ hsplit => insertNew_fresh hkeys hsplit) hrun
    (new_stores hs)
  rwa [foldl_insertNew_none] at hall

/-- `rehash` inserts the pairs of the map again, also from a table with a hole. -/
theorem rehash_stores {insert : HashTable κ ν → κ × ν → Result (HashTable κ ν)}
    (hinsert : ∀ (t : HashTable κ ν) m item t', t.Stores hasher none m → m item.1 = none →
      insert t item = .ok t' → t'.Stores hasher none (insertNew m item))
    {hole : Option Nat} (h₀ : h.Stores hasher hole m) (hrun : rehash limit insert h = .ok h') :
    h'.Stores hasher none m := by
  have hmap : h.entries.reduceOption.map id = h.items := by rw [items_eq h₀, List.map_id]
  have hkeys := h₀.map.nodup_keys
  have hlookup := funext h₀.map.lookup_eq
  rw [hmap] at hkeys hlookup
  have hall := run_stores hinsert (Nat.mul_pos Nat.two_pos h₀.pos) hkeys (rehash_eq_ok.mp hrun).2
  rwa [hlookup] at hall

/-- An insertion that returns has added its pair to the map. -/
theorem insert_stores {fuel : Nat} {item : κ × ν} (h₀ : h.Stores hasher none m)
    (hnew : m item.1 = none) (hrun : insert hasher limit fuel h item = .ok h') :
    h'.Stores hasher none (insertNew m item) := by
  induction fuel generalizing h h' m item with
  | zero => cases hrun
  | succ fuel ih =>
    have hinsert : ∀ (t : HashTable κ ν) m item t', t.Stores hasher none m → m item.1 = none →
        insert hasher limit fuel t item = .ok t' → t'.Stores hasher none (insertNew m item) :=
      fun t m item t' ht hn hr => ih ht hn hr
    obtain ⟨⟨h₁, done⟩, hfirst, hrun⟩ := bind_eq_ok.mp hrun
    rcases attempt_spec h₀ hnew with ⟨h₁, hattempt, h₁s⟩ | ⟨h₁, hole, hattempt, h₁s⟩
    · cases hfirst.symm.trans hattempt
      cases hrun
      exact h₁s
    · cases hfirst.symm.trans hattempt
      obtain ⟨h₂, hrehash, hrun⟩ := bind_eq_ok.mp hrun
      exact ih (rehash_stores hinsert h₁s hrehash) hnew hrun

end Insert

/-- The insertions of a run with distinct keys make the table the map of the pairs. -/
theorem insert_exactMap [DecidableEq κ] {s : Nat} (hs : 0 < s) {limit fuel : Nat} {pairs : List (κ × ν)}
    (hkeys : (pairs.map Prod.fst).Nodup) {h : HashTable κ ν}
    (hrun : pairs.foldlM (insert hasher limit fuel) (new s) = .ok h) : h.IsMap hasher pairs :=
  (run_stores (fun _ _ _ _ => insert_stores) hs hkeys hrun).isMap hkeys

/-- With `std::hash<int>`: 1 makes way for 8, and 15 makes the table grow. -/
theorem insert_exactMap_seven : ∃ h : HashTable Nat Nat,
    [(0, 1), (1, 2), (2, 3), (3, 4), (8, 5), (7, 6), (15, 7)].foldlM (insert id 16 2) (new 8) = .ok h ∧
      h.IsMap id [(0, 1), (1, 2), (2, 3), (3, 4), (8, 5), (7, 6), (15, 7)] := by
  have hok : ([(0, 1), (1, 2), (2, 3), (3, 4), (8, 5), (7, 6), (15, 7)].foldlM (insert id 16 2)
      (new 8 : HashTable Nat Nat)).isOk := by decide +kernel
  obtain ⟨h, hrun⟩ := exists_of_isOk hok
  exact ⟨h, hrun, insert_exactMap id (s := 8) (by decide) (by decide) hrun⟩

end HashTable

end JoinOptimizer.Hopscotch
