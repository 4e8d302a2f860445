import JoinOptimizer.Data
import JoinOptimizer.Lib.Double
import JoinOptimizer.Lib.SlotMaps

/-! The Robin Hood hash table of `include/robinhood.h`.  A pair that is further from its home slot
than the one it meets takes the slot, and the other pair is carried on; at the end of the array the
table grows and the pair that is still carried is inserted anew. -/

namespace JoinOptimizer.Robinhood

open Lib

/-- An occupied `HashNode`. -/
structure HashNode (κ ν : Type) where
  key : κ
  value : ν
  psl : Nat
  deriving DecidableEq

def HashNode.pair {κ ν : Type} (n : HashNode κ ν) : κ × ν := (n.key, n.value)

/-- `++psl`. -/
def HashNode.next {κ ν : Type} (n : HashNode κ ν) : HashNode κ ν := { n with psl := n.psl + 1 }

/-- `HashTable<Key, Value>`; a node that is not occupied is a free slot, and its other fields are
never read. -/
structure HashTable (κ ν : Type) where
  size : Nat
  buffer : List (Option (HashNode κ ν))
  occupiedCount : Nat
  deriving DecidableEq

/-- `static_cast<size_t>(size * 0.7)`, where 0.7 is the double 6305039478318694 / 2^53. -/
def maxLoad (size : Nat) : Nat := roundNat (roundNat size * 6305039478318694) / 2 ^ 53

namespace HashTable

variable {κ ν : Type} (hasher : κ → Nat)

/-- The constructor. -/
def new (s : Nat) : HashTable κ ν := ⟨s, List.replicate s none, 0⟩

/-- `hash_func`. -/
def hashFunc (h : HashTable κ ν) (k : κ) : Nat := hasher k % h.size

/-- `find`. -/
def find [DecidableEq κ] (h : HashTable κ ν) (key : κ) : Option ν :=
  let k := h.hashFunc hasher key
  (probe (fun n => n.key = key) (fun i n => n.psl < i - k) h.buffer (h.size - k) k).map HashNode.value

/-- `buffer[i] = n`. -/
def put (h : HashTable κ ν) (i : Nat) (n : HashNode κ ν) : HashTable κ ν :=
  { h with buffer := h.buffer.set i (some n) }

/-- `++occupied_count`. -/
def count (h : HashTable κ ν) : HashTable κ ν := { h with occupiedCount := h.occupiedCount + 1 }

/-- The loop of `insert` over `n` slots from `i` on, with `cur_key`, `cur_value` and `psl` in one
node: the table, and the pair that is carried over its end. -/
def insertLoop [DecidableEq κ] : Nat → Nat → HashTable κ ν → HashNode κ ν →
    HashTable κ ν × Option (κ × ν)
  | 0, _, h, _ => (h, none)
  | n + 1, i, h, cur =>
    match slot h.buffer i with
    | none => ((h.put i cur).count, none)
    | some e =>
      if e.key = cur.key then (h, none)
      else
        let (h, cur) := if e.psl < cur.psl then (h.put i cur, e) else (h, cur)
        if i = h.size - 1 then (h, some cur.pair)
        else insertLoop n (i + 1) h cur.next

/-- The pairs in the order in which `rehash` collects them. -/
def items (h : HashTable κ ν) : List (κ × ν) :=
  ((List.range h.size).flatMap fun i => (slot h.buffer i).toList).map HashNode.pair

/-- `rehash`, with the `insert` that it calls; `resize` throws where there is no memory for more than `limit`
nodes. -/
def rehash (limit : Nat) (insert : HashTable κ ν → κ × ν → Result (HashTable κ ν)) (h : HashTable κ ν) :
    Result (HashTable κ ν) :=
  if limit < 2 * h.size then .error .outOfMemory else h.items.foldlM insert (new (2 * h.size))

/-- `insert` makes room first where seven tenths of the slots are taken. -/
def makeRoom (limit : Nat) (insert : HashTable κ ν → κ × ν → Result (HashTable κ ν)) (h : HashTable κ ν) :
    Result (HashTable κ ν) :=
  if maxLoad h.size ≤ h.occupiedCount then rehash limit insert h else .ok h

/-- `insert`, with calls of `insert` in one another as deep as `fuel`. -/
def insert [DecidableEq κ] (limit : Nat) : Nat → HashTable κ ν → κ × ν → Result (HashTable κ ν)
  | 0, _, _ => .error .outOfFuel
  | fuel + 1, h, item => do
    let h ← makeRoom limit (insert limit fuel) h
    match h.insertLoop (h.size - h.hashFunc hasher item.1) (h.hashFunc hasher item.1)
      ⟨item.1, item.2, 0⟩ with
    | (h, none) => .ok h
    | (h, some cur) => do
      let h ← rehash limit (insert limit fuel) h
      insert limit fuel h cur

/-- The table is the map of the first pair of every key among some pairs. -/
structure IsMap [DecidableEq κ] (h : HashTable κ ν) (pairs : List (κ × ν)) : Prop where
  find : ∀ k, h.find hasher k = pairs.lookup k
  counted : h.occupiedCount = (h.buffer.filter Option.isSome).length
  unique : ∀ i j m n, slot h.buffer i = some m → slot h.buffer j = some n → m.key = n.key → i = j
  psl : ∀ i n, slot h.buffer i = some n → h.hashFunc hasher n.key + n.psl = i

/-- A table that stands for a map: every pair is `psl` slots behind its home, in the order of Robin
Hood. -/
structure Stores (h : HashTable κ ν) (m : κ → Option ν) : Prop where
  pos : 0 < h.size
  length : h.buffer.length = h.size
  counted : h.occupiedCount = h.buffer.reduceOption.length
  psl : ∀ i n, slot h.buffer i = some n → h.hashFunc hasher n.key + n.psl = i
  ordered : Ordered HashNode.psl h.buffer
  map : SlotMap HashNode.pair h.buffer m

section Stores

variable {hasher} {h : HashTable κ ν} {m : κ → Option ν}

theorem new_stores {s : Nat} (hs : 0 < s) : (new s : HashTable κ ν).Stores hasher fun _ => none where
  pos := hs
  length := List.length_replicate
  counted := by simp [new]
  psl i n hn := absurd hn (slot_replicate_ne_some s i n)
  ordered := ordered_replicate _ s
  map := SlotMap.replicate _ s

theorem hashFunc_lt (h₀ : h.Stores hasher m) (k : κ) : h.hashFunc hasher k < h.size :=
  Nat.mod_lt _ h₀.pos

theorem items_eq (h₀ : h.Stores hasher m) : h.items = h.buffer.reduceOption.map HashNode.pair := by
  rw [items, ← h₀.length, flatMap_slot]

/-- No slot on the way to a pair is free or has a pair that is nearer to its home than the search.
-/
theorem find_eq [DecidableEq κ] (h₀ : h.Stores hasher m) (k : κ) : h.find hasher k = m k := by
  refine h₀.map.probe_eq fun j n hn hkey => ?_
  have hhome := h₀.psl j n hn
  have hlt := lt_of_slot hn
  rw [h₀.length] at hlt
  have hkey : n.key = k := hkey
  rw [hkey] at hhome
  refine ⟨by omega, by omega, fun l hlow hhigh => ?_⟩
  obtain ⟨b, hb, hle⟩ := h₀.ordered.reach (i := l) (d := j - l)
    (by rwa [Nat.add_sub_cancel' hhigh.le]) (by omega)
  exact ⟨b, hb, decide_eq_false (by omega)⟩

end Stores

/-- The pair carried by the loop can be put into slot `i`: it is `psl` slots behind its home, not
further behind than the order allows, and its key is in no slot before `i`. -/
structure Approaches (h : HashTable κ ν) (i : Nat) (cur : HashNode κ ν) : Prop where
  home : h.hashFunc hasher cur.key + cur.psl = i
  behind : ∀ k, i = k + 1 → 0 < cur.psl → ∃ b, slot h.buffer k = some b ∧ cur.psl ≤ b.psl + 1
  fresh : ∀ j n, slot h.buffer j = some n → n.key = cur.key → i ≤ j

section Loop

variable {hasher} {h : HashTable κ ν} {m : κ → Option ν} {i n : Nat} {cur e : HashNode κ ν}

theorem approaches_home (h₀ : h.Stores hasher m) (item : κ × ν) :
    h.Approaches hasher (h.hashFunc hasher item.1) ⟨item.1, item.2, 0⟩ where
  home := rfl
  behind _ _ hpos := absurd hpos (Nat.lt_irrefl 0)
  fresh j n hn hkey := by
    have hhome := h₀.psl j n hn
    rw [hkey] at hhome
    exact Nat.le.intro hhome

/-- A free slot, or a pair nearer to its home, shows that the key is not in the table. -/
theorem Approaches.absent (ha : h.Approaches hasher i cur) (h₀ : h.Stores hasher m)
    (hpoor : ∀ b, slot h.buffer i = some b → b.psl < cur.psl) : m cur.key = none := by
  rw [h₀.map.eq_none_iff]
  intro j n hn hkey
  have hij := ha.fresh j n hn hkey
  have hhome := h₀.psl j n hn
  have hkey : n.key = cur.key := hkey
  rw [hkey] at hhome
  have hcur := ha.home
  obtain ⟨b, hb, hle⟩ := h₀.ordered.reach (i := i) (d := j - i)
    (by rwa [Nat.add_sub_cancel' hij]) (by omega)
  have := hpoor b hb
  omega

theorem put_psl (h₀ : h.Stores hasher m) (ha : h.Approaches hasher i cur) :
    ∀ j n, slot (h.put i cur).buffer j = some n → (h.put i cur).hashFunc hasher n.key + n.psl = j := by
  intro j n hn
  rcases slot_of_set hn with ⟨rfl, hcur⟩ | ⟨-, hn⟩
  · cases hcur
    exact ha.home
  · exact h₀.psl j n hn

theorem put_ordered (h₀ : h.Stores hasher m) (ha : h.Approaches hasher i cur)
    (hi : i < h.buffer.length) (hpoor : ∀ b, slot h.buffer i = some b → b.psl < cur.psl) :
    Ordered HashNode.psl (h.put i cur).buffer :=
  h₀.ordered.set hi ha.behind fun b hb => (hpoor b hb).le

theorem put_free (h₀ : h.Stores hasher m) (ha : h.Approaches hasher i cur) (hi : i < h.size)
    (hfree : slot h.buffer i = none) [DecidableEq κ] :
    (h.put i cur).count.Stores hasher (insertNew m cur.pair) := by
  have hi : i < h.buffer.length := h₀.length.symm ▸ hi
  have hpoor : ∀ b, slot h.buffer i = some b → b.psl < cur.psl := by simp [hfree]
  have hnew := ha.absent h₀ hpoor
  refine ⟨h₀.pos, by simp [put, count, h₀.length], ?_, put_psl h₀ ha, put_ordered h₀ ha hi hpoor, ?_⟩
  · show h.occupiedCount + 1 = (h.buffer.set i (some cur)).reduceOption.length
    rw [length_reduceOption_put hi hfree, h₀.counted]
  · rw [insertNew_of_none hnew]
    exact h₀.map.put hi hfree hnew

theorem put_swap (h₀ : h.Stores hasher m) (ha : h.Approaches hasher i cur)
    (he : slot h.buffer i = some e) (hlt : e.psl < cur.psl) [DecidableEq κ] :
    ∃ m', (h.put i cur).Stores hasher m' ∧ insertNew m' e.pair = insertNew m cur.pair := by
  have hi := lt_of_slot he
  have hpoor : ∀ b, slot h.buffer i = some b → b.psl < cur.psl := by
    intro b hb
    cases he.symm.trans hb
    exact hlt
  have hnew := ha.absent h₀ hpoor
  have hcounted : h.occupiedCount = (h.buffer.set i (some cur)).reduceOption.length := by
    rw [length_reduceOption_swap he, h₀.counted]
  exact ⟨_, ⟨h₀.pos, by simp [put, h₀.length], hcounted, put_psl h₀ ha, put_ordered h₀ ha hi hpoor,
    h₀.map.swap he hnew⟩, insertNew_swap hnew (h₀.map.of_slot he)⟩

/-- The pair taken out of slot `i` goes on. -/
theorem approaches_swap (h₀ : h.Stores hasher m) (he : slot h.buffer i = some e)
    (hkey : e.key ≠ cur.key) (hlt : e.psl < cur.psl) :
    (h.put i cur).Approaches hasher (i + 1) e.next where
  home := congrArg Nat.succ (h₀.psl i e he)
  behind k hk _ := by
    cases hk
    exact ⟨cur, slot_set_self (lt_of_slot he) _, Nat.succ_le_succ hlt.le⟩
  fresh j n hn hsame := by
    exfalso
    rcases slot_of_set hn with ⟨rfl, hcur⟩ | ⟨hj, hn⟩
    · cases hcur
      exact hkey hsame.symm
    · exact hj (h₀.map.unique i j e n he hn hsame.symm)

/-- The carried pair passes one that is as far from its home. -/
theorem Approaches.pass (ha : h.Approaches hasher i cur) (he : slot h.buffer i = some e)
    (hkey : e.key ≠ cur.key) (hle : cur.psl ≤ e.psl) :
    h.Approaches hasher (i + 1) cur.next where
  home := congrArg Nat.succ ha.home
  behind k hk _ := by
    cases hk
    exact ⟨e, he, Nat.succ_le_succ hle⟩
  fresh j n hn hsame := by
    have hij := ha.fresh j n hn hsame
    have hne : i ≠ j := by
      rintro rfl
      cases he.symm.trans hn
      exact hkey hsame
    omega

variable [DecidableEq κ]

theorem insertLoop_free (hfree : slot h.buffer i = none) :
    h.insertLoop (n + 1) i cur = ((h.put i cur).count, none) := by
  rw [insertLoop, hfree]

theorem insertLoop_same (he : slot h.buffer i = some e) (hkey : e.key = cur.key) :
    h.insertLoop (n + 1) i cur = (h, none) := by
  rw [insertLoop, he]
  exact if_pos hkey

theorem insertLoop_swap (he : slot h.buffer i = some e) (hkey : e.key ≠ cur.key)
    (hlt : e.psl < cur.psl) :
    h.insertLoop (n + 1) i cur = if i = h.size - 1 then (h.put i cur, some e.pair)
      else (h.put i cur).insertLoop n (i + 1) e.next := by
  rw [insertLoop, he]
  simp only [if_neg hkey, if_pos hlt]
  rfl

theorem insertLoop_pass (he : slot h.buffer i = some e) (hkey : e.key ≠ cur.key)
    (hle : cur.psl ≤ e.psl) :
    h.insertLoop (n + 1) i cur = if i = h.size - 1 then (h, some cur.pair)
      else h.insertLoop n (i + 1) cur.next := by
  rw [insertLoop, he]
  simp only [if_neg hkey, if_neg (not_lt.mpr hle)]

/-- The iteration that meets another key: whichever of the two pairs is carried on, with it the
table stands for the same map. -/
theorem insertLoop_meets (h₀ : h.Stores hasher m) (ha : h.Approaches hasher i cur)
    (he : slot h.buffer i = some e) (hkey : e.key ≠ cur.key) (n : Nat) :
    ∃ (t : HashTable κ ν) (c : HashNode κ ν) (m' : κ → Option ν),
      h.insertLoop (n + 1) i cur =
        (if i = h.size - 1 then (t, some c.pair) else t.insertLoop n (i + 1) c.next) ∧
      t.size = h.size ∧ t.Stores hasher m' ∧ t.Approaches hasher (i + 1) c.next ∧
      insertNew m' c.pair = insertNew m cur.pair := by
  by_cases hlt : e.psl < cur.psl
  · obtain ⟨m', hm', hsame⟩ := put_swap h₀ ha he hlt
    exact ⟨h.put i cur, e, m', insertLoop_swap he hkey hlt, rfl, hm',
      approaches_swap h₀ he hkey hlt, hsame⟩
  · have hle := not_lt.mp hlt
    exact ⟨h, cur, m, insertLoop_pass he hkey hle, rfl, h₀, ha.pass he hkey hle, rfl⟩

/-- The loop adds the pair to the map, but for the pair that it carries over the end. -/
theorem insertLoop_stores {h' : HashTable κ ν} {out : Option (κ × ν)} (h₀ : h.Stores hasher m)
    (ha : h.Approaches hasher i cur) (hn : i + n = h.size) (hpos : 0 < n)
    (hloop : h.insertLoop n i cur = (h', out)) :
    ∃ m', h'.Stores hasher m' ∧ out.toList.foldl insertNew m' = insertNew m cur.pair := by
  induction n generalizing h m i cur with
  | zero => omega
  | succ n ih =>
    cases he : slot h.buffer i with
    | none =>
      rw [insertLoop_free he] at hloop
      cases hloop
      exact ⟨_, put_free h₀ ha (by omega) he, rfl⟩
    | some e =>
      by_cases hkey : e.key = cur.key
      · rw [insertLoop_same he hkey] at hloop
        cases hloop
        have hold : m cur.key = some e.value := hkey ▸ h₀.map.of_slot he
        exact ⟨m, h₀, (insertNew_of_some hold).symm⟩
      · obtain ⟨t, c, m', hstep, hsize, ht, hc, hsame⟩ := insertLoop_meets h₀ ha he hkey n
        rw [hstep] at hloop
        rw [← hsame]
        split at hloop
        next hlast =>
          cases hloop
          exact ⟨m', ht, rfl⟩
        next hmore =>
          have hnext : i + 1 + n = t.size := by omega
          have hrest := ih ht hc hnext (by omega) hloop
          exact hrest

end Loop

section Insert

variable {hasher} {h h' : HashTable κ ν} {m : κ → Option ν} {limit : Nat}

theorem rehash_eq_ok {insert : HashTable κ ν → κ × ν → Result (HashTable κ ν)} :
    rehash limit insert h = .ok h' ↔
      2 * h.size ≤ limit ∧ h.items.foldlM insert (new (2 * h.size)) = .ok h' := by
  unfold rehash
  split
  next hlarge => exact ⟨nofun, fun h => absurd h.1 (Nat.not_le.mpr hlarge)⟩
  next hsmall => exact ⟨fun h => ⟨Nat.not_lt.mp hsmall, h⟩, And.right⟩

variable [DecidableEq κ]

/-- A run of insertions from an empty table, each of which adds its pair to the map. -/
theorem run_stores {insert : HashTable κ ν → κ × ν → Result (HashTable κ ν)}
    (hinsert : ∀ (t : HashTable κ ν) m item t', t.Stores hasher m → insert t item = .ok t' →
      t'.Stores hasher (insertNew m item))
    {s : Nat} (hs : 0 < s) {pairs : List (κ × ν)} (hrun : pairs.foldlM insert (new s) = .ok h') :
    h'.Stores hasher fun k => pairs.lookup k := by
  have hadd : ∀ (t : HashTable κ ν) m item t', t.Stores hasher m → True → insert t item = .ok t' →
      t'.Stores hasher (insertNew m item) := fun t m item t' ht _ => hinsert t m item t' ht
  have hall := foldlM_insertNew hadd (fun _ _ _ _ => trivial) hrun (new_stores hs)
  rwa [foldl_insertNew_none] at hall

/-- `rehash` inserts the pairs of the map again. -/
theorem rehash_stores {insert : HashTable κ ν → κ × ν → Result (HashTable κ ν)}
    (hinsert : ∀ (t : HashTable κ ν) m item t', t.Stores hasher m → insert t item = .ok t' →
      t'.Stores hasher (insertNew m item))
    (h₀ : h.Stores hasher m) (hrun : rehash limit insert h = .ok h') : h'.Stores hasher m := by
  have hall := run_stores hinsert (Nat.mul_pos Nat.two_pos h₀.pos) (rehash_eq_ok.mp hrun).2
  rw [items_eq h₀] at hall
  rwa [funext h₀.map.lookup_eq] at hall

/-- An insertion that returns has added its pair to the map, the calls in it included. -/
theorem insert_stores {fuel : Nat} {item : κ × ν} (h₀ : h.Stores hasher m)
    (hrun : insert hasher limit fuel h item = .ok h') : h'.Stores hasher (insertNew m item) := by
  induction fuel generalizing h h' m item with
  | zero => cases hrun
  | succ fuel ih =>
    have hinsert : ∀ (t : HashTable κ ν) m item t', t.Stores hasher m →
        insert hasher limit fuel t item = .ok t' → t'.Stores hasher (insertNew m item) :=
      fun t m item t' ht hr => ih ht hr
    obtain ⟨h₁, hrun₁, hrun⟩ := bind_eq_ok.mp hrun
    have hs₁ : h₁.Stores hasher m := by
      unfold makeRoom at hrun₁
      split at hrun₁
      next => exact rehash_stores hinsert h₀ hrun₁
      next =>
        cases hrun₁
        exact h₀
    have hk := hashFunc_lt hs₁ item.1
    have hstart := approaches_home hs₁ item
    have hend := Nat.add_sub_cancel' hk.le
    split at hrun
    next h₂ hloop =>
      cases hrun
      obtain ⟨m', hm', hsame⟩ := insertLoop_stores hs₁ hstart hend (by omega) hloop
      exact hsame ▸ hm'
    next h₂ cur hloop =>
      -- the pair that is carried over the end goes into the grown table
      obtain ⟨m', hm', hsame⟩ := insertLoop_stores hs₁ hstart hend (by omega) hloop
      obtain ⟨h₃, hrun₃, hrun⟩ := bind_eq_ok.mp hrun
      exact hsame ▸ ih (rehash_stores hinsert hm' hrun₃) hrun

end Insert

/-- The insertions of a run make the table the map of the first pair of every key. -/
theorem insert_firstWins [DecidableEq κ] {s : Nat} (hs : 0 < s) {limit fuel : Nat} {pairs : List (κ × ν)}
    {h : HashTable κ ν} (hrun : pairs.foldlM (insert hasher limit fuel) (new s) = .ok h) :
    h.IsMap hasher pairs := by
  have hstores := run_stores (fun _ _ _ _ => insert_stores) hs hrun
  refine ⟨find_eq hstores, ?_, hstores.map.unique, hstores.psl⟩
  rw [hstores.counted, List.reduceOption_length_eq]

/-- With `std::hash<int>`: 8 takes the slot of 1, 15 is carried over the end, and the second value
of 8 is not stored. -/
theorem insert_firstWins_six : ∃ h : HashTable Nat Nat,
    [(0, 1), (1, 2), (8, 3), (7, 4), (15, 5), (8, 6)].foldlM (insert id 16 2) (new 8) = .ok h ∧
      h.IsMap id [(0, 1), (1, 2), (8, 3), (7, 4), (15, 5), (8, 6)] := by
  have hok : ([(0, 1), (1, 2), (8, 3), (7, 4), (15, 5), (8, 6)].foldlM (insert id 16 2)
      (new 8 : HashTable Nat Nat)).isOk := by decide +kernel
  obtain ⟨h, hrun⟩ := exists_of_isOk hok
  exact ⟨h, hrun, insert_firstWins id (s := 8) (by decide) hrun⟩

end HashTable

end JoinOptimizer.Robinhood
