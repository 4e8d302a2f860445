import JoinOptimizer.Lib.Loops
import JoinOptimizer.Lib.Slots
import JoinOptimizer.Lib.Assoc
import Mathlib.Logic.Function.Basic

/-! Maps kept in arrays of slots: what the entries say as a map, the search through the slots from a
place on, and maps to which pairs are added one by one, the first pair of a key winning. -/

namespace JoinOptimizer.Lib

variable {α κ ν ε σ : Type}

section InsertNew

variable {items pre post : List (κ × ν)} {item : κ × ν}

theorem key_ne_of_nodup (hkeys : (items.map Prod.fst).Nodup) (hsplit : items = pre ++ item :: post)
    {e : κ × ν} (he : e ∈ pre) : item.1 ≠ e.1 := by
  rw [hsplit, List.map_append, List.map_cons, List.nodup_append] at hkeys
  exact (hkeys.2.2 e.1 (List.mem_map_of_mem he) item.1 (by simp)).symm

variable [DecidableEq κ]

/-- The map with a pair, unless it has the key already. -/
def insertNew (m : κ → Option ν) (item : κ × ν) : κ → Option ν :=
  if m item.1 = none then Function.update m item.1 (some item.2) else m

theorem insertNew_of_none {m : κ → Option ν} {item : κ × ν} (h : m item.1 = none) :
    insertNew m item = Function.update m item.1 (some item.2) := if_pos h

theorem insertNew_of_some {m : κ → Option ν} {item : κ × ν} {v : ν} (h : m item.1 = some v) :
    insertNew m item = m := if_neg (by simp [h])

theorem insertNew_apply (m : κ → Option ν) (item : κ × ν) (k : κ) :
    insertNew m item k = (m k).or (if k = item.1 then some item.2 else none) := by
  by_cases hk : k = item.1
  · subst hk
    cases h : m item.1 with
    | none => rw [insertNew_of_none h, Function.update_self, if_pos rfl, Option.none_or]
    | some v => rw [insertNew_of_some h, h, Option.some_or]
  · rw [if_neg hk, Option.or_none]
    unfold insertNew
    split
    · exact Function.update_of_ne hk _ _
    · rfl

/-- A pair that makes way for a new one, and is then added itself, leaves the map with both. -/
theorem insertNew_swap {m : κ → Option ν} {a b : κ × ν} (ha : m a.1 = none) (hb : m b.1 = some b.2) :
    insertNew (Function.update (Function.update m b.1 none) a.1 (some a.2)) b = insertNew m a := by
  have hne : b.1 ≠ a.1 := by
    intro heq
    rw [heq, ha] at hb
    cases hb
  rw [insertNew_of_none (by rw [Function.update_of_ne hne, Function.update_self]),
    insertNew_of_none ha, Function.update_comm hne.symm, Function.update_idem, ← hb,
    Function.update_eq_self]

/-- Pairs added one by one: the first pair of a key wins. -/
theorem foldl_insertNew (items : List (κ × ν)) (m : κ → Option ν) (k : κ) :
    items.foldl insertNew m k = (m k).or (items.lookup k) := by
  induction items generalizing m with
  | nil => simp
  | cons item items ih =>
    obtain ⟨key, value⟩ := item
    rw [List.foldl_cons, ih, insertNew_apply, Option.or_assoc]
    congr 1
    by_cases hk : k = key
    · subst hk
      simp
    · simp [List.lookup_cons, beq_false_of_ne hk, hk]

theorem foldl_insertNew_none (items : List (κ × ν)) :
    items.foldl insertNew (fun _ => none) = fun k => items.lookup k := by
  funext k
  rw [foldl_insertNew, Option.none_or]

/-- A loop of insertions each of which adds its pair to the map that the state stands for. -/
theorem foldlM_insertNew {insert : σ → κ × ν → Except ε σ} {Stores : σ → (κ → Option ν) → Prop}
    {allowed : (κ → Option ν) → κ × ν → Prop}
    (hinsert : ∀ t m item t', Stores t m → allowed m item → insert t item = .ok t' →
      Stores t' (insertNew m item)) {items : List (κ × ν)} {s s' : σ} {m : κ → Option ν}
    (hallowed : ∀ pre item post, items = pre ++ item :: post → allowed (pre.foldl insertNew m) item)
    (hrun : items.foldlM insert s = .ok s') (hs : Stores s m) :
    Stores s' (items.foldl insertNew m) := by
  induction items generalizing s m with
  | nil =>
    cases hrun
    exact hs
  | cons item items ih =>
    obtain ⟨t, ht, hrest⟩ := foldlM_cons_eq_ok.mp hrun
    refine ih (fun pre item' post hsplit => ?_) hrest
      (hinsert s m item t hs (hallowed [] item items rfl) ht)
    exact hallowed (item :: pre) item' post (by rw [hsplit]; rfl)

/-- With distinct keys no pair finds its key in the map already. -/
theorem insertNew_fresh (hkeys : (items.map Prod.fst).Nodup) (hsplit : items = pre ++ item :: post) :
    pre.foldl insertNew (fun _ => none) item.1 = none := by
  rw [foldl_insertNew_none, List.lookup_eq_none_iff]
  exact fun e he => bne_iff_ne.mpr (key_ne_of_nodup hkeys hsplit he)

end InsertNew

section SlotMap

/-- The entries in the slots are the pairs of the map `m`, and no key is in two slots. -/
structure SlotMap (pair : α → κ × ν) (xs : List (Option α)) (m : κ → Option ν) : Prop where
  unique : ∀ i j a b, slot xs i = some a → slot xs j = some b → (pair a).1 = (pair b).1 → i = j
  mem : ∀ k v, m k = some v ↔ ∃ i a, slot xs i = some a ∧ pair a = (k, v)

namespace SlotMap

variable {pair : α → κ × ν} {xs : List (Option α)} {m : κ → Option ν} {i j : Nat} {a : α}

theorem replicate (pair : α → κ × ν) (n : Nat) :
    SlotMap pair (List.replicate n none) fun _ => none where
  unique i _ a _ h _ _ := absurd h (slot_replicate_ne_some n i a)
  mem k v := by simp [slot_replicate]

theorem of_slot (h : SlotMap pair xs m) (ha : slot xs i = some a) : m (pair a).1 = some (pair a).2 :=
  (h.mem _ _).mpr ⟨i, a, ha, rfl⟩

theorem ne_of_none (h : SlotMap pair xs m) {k : κ} (hk : m k = none) (ha : slot xs i = some a) :
    (pair a).1 ≠ k := by
  rintro rfl
  rw [h.of_slot ha] at hk
  cases hk

theorem eq_none_iff (h : SlotMap pair xs m) {k : κ} :
    m k = none ↔ ∀ i a, slot xs i = some a → (pair a).1 ≠ k := by
  refine ⟨fun hk i a ha => h.ne_of_none hk ha, fun hne => ?_⟩
  cases hk : m k with
  | none => rfl
  | some v =>
    obtain ⟨i, a, ha, hpair⟩ := (h.mem k v).mp hk
    exact absurd (congrArg Prod.fst hpair) (hne i a ha)

section Update

variable [DecidableEq κ]

theorem put (h : SlotMap pair xs m) (hi : i < xs.length) (hfree : slot xs i = none)
    (hnew : m (pair a).1 = none) :
    SlotMap pair (xs.set i (some a)) (Function.update m (pair a).1 (some (pair a).2)) := by
  have hold : ∀ {j b}, slot xs j = some b → slot (xs.set i (some a)) j = some b := by
    intro j b hb
    have hij : i ≠ j := by
      rintro rfl
      rw [hfree] at hb
      cases hb
    rwa [slot_set_ne hij]
  refine ⟨fun j k b c hb hc hkey => ?_, fun k v => ?_⟩
  · rcases slot_of_set hb with ⟨rfl, hab⟩ | ⟨-, hb⟩ <;> rcases slot_of_set hc with ⟨rfl, hac⟩ | ⟨-, hc⟩
    · rfl
    · cases hab
      exact absurd hkey.symm (h.ne_of_none hnew hc)
    · cases hac
      exact absurd hkey (h.ne_of_none hnew hb)
    · exact h.unique j k b c hb hc hkey
  · by_cases hk : k = (pair a).1
    · subst hk
      rw [Function.update_self]
      constructor
      · intro hv
        cases hv
        exact ⟨i, a, slot_set_self hi _, rfl⟩
      · rintro ⟨j, b, hb, hpair⟩
        rcases slot_of_set hb with ⟨rfl, hab⟩ | ⟨-, hb⟩
        · cases hab
          rw [hpair]
        · exact absurd (congrArg Prod.fst hpair) (h.ne_of_none hnew hb)
    · rw [Function.update_of_ne hk, h.mem]
      refine exists_congr fun j => exists_congr fun b => and_congr_left fun hpair => ?_
      refine ⟨hold, fun hb => ?_⟩
      rcases slot_of_set hb with ⟨rfl, hab⟩ | ⟨-, hb⟩
      · cases hab
        exact absurd (congrArg Prod.fst hpair).symm hk
      · exact hb

theorem take (h : SlotMap pair xs m) (ha : slot xs i = some a) :
    SlotMap pair (xs.set i none) (Function.update m (pair a).1 none) := by
  have hleft : ∀ {j b}, slot (xs.set i none) j = some b → i ≠ j ∧ slot xs j = some b :=
    fun hb => (slot_of_set hb).resolve_left (by simp)
  refine ⟨fun j k b c hb hc => h.unique j k b c (hleft hb).2 (hleft hc).2, fun k v => ?_⟩
  by_cases hk : k = (pair a).1
  · subst hk
    rw [Function.update_self]
    refine iff_of_false nofun ?_
    rintro ⟨j, b, hb, hpair⟩
    obtain ⟨hj, hb'⟩ := hleft hb
    exact hj (h.unique i j a b ha hb' (congrArg Prod.fst hpair).symm)
  · rw [Function.update_of_ne hk, h.mem]
    refine exists_congr fun j => exists_congr fun b => and_congr_left fun hpair => ?_
    refine ⟨fun hb => ?_, fun hb => (hleft hb).2⟩
    have hj : i ≠ j := by
      rintro rfl
      cases ha.symm.trans hb
      exact hk (congrArg Prod.fst hpair).symm
    rwa [slot_set_ne hj]

/-- The entry of a slot gives way to one with a new key. -/
theorem swap (h : SlotMap pair xs m) {b : α} (hb : slot xs i = some b) (hnew : m (pair a).1 = none) :
    SlotMap pair (xs.set i (some a)) (Function.update (Function.update m (pair b).1 none) (pair a).1
      (some (pair a).2)) := by
  have hi := lt_of_slot hb
  have hne := h.ne_of_none hnew hb
  have hput := (h.take hb).put (a := a) (i := i) (by simpa using hi) (slot_set_self hi _)
    (by rw [Function.update_of_ne hne.symm, hnew])
  rwa [List.set_set] at hput

/-- An entry that moves to a free slot is the same pair of the map. -/
theorem move (h : SlotMap pair xs m) (ha : slot xs i = some a) (hj : j < xs.length)
    (hfree : slot xs j = none) : SlotMap pair ((xs.set j (some a)).set i none) m := by
  have hij : i ≠ j := by
    rintro rfl
    rw [ha] at hfree
    cases hfree
  have hput := (h.take ha).put (a := a) (i := j) (by simpa using hj) (by rwa [slot_set_ne hij])
    (Function.update_self ..)
  rwa [List.set_comm _ _ hij, Function.update_idem, ← h.of_slot ha, Function.update_eq_self] at hput

/-- The pairs in the slots, as a list, are the map. -/
theorem lookup_eq (h : SlotMap pair xs m) (k : κ) : (xs.reduceOption.map pair).lookup k = m k := by
  have hmem : ∀ e, e ∈ xs.reduceOption.map pair ↔ m e.1 = some e.2 := by
    intro e
    rw [List.mem_map, h.mem]
    constructor
    · rintro ⟨a, ha, rfl⟩
      obtain ⟨i, hi⟩ := mem_reduceOption_iff_slot.mp ha
      exact ⟨i, a, hi, rfl⟩
    · rintro ⟨i, a, hi, hpair⟩
      exact ⟨a, mem_reduceOption_iff_slot.mpr ⟨i, hi⟩, hpair⟩
  cases hlookup : (xs.reduceOption.map pair).lookup k with
  | none =>
    rw [List.lookup_eq_none_iff] at hlookup
    cases hk : m k with
    | none => rfl
    | some v => exact absurd (hlookup (k, v) ((hmem (k, v)).mpr hk)) (by simp)
  | some v =>
    obtain ⟨before, after, hsplit, -⟩ := List.lookup_eq_some_iff.mp hlookup
    refine ((hmem (k, v)).mp ?_).symm
    rw [hsplit]
    simp

end Update

theorem nodup_keys (h : SlotMap pair xs m) : ((xs.reduceOption.map pair).map Prod.fst).Nodup := by
  rw [List.map_map, List.Nodup, List.pairwise_map, List.reduceOption, List.pairwise_filterMap,
    List.pairwise_iff_getElem]
  intro i j hi hj hij a ha b hb hkey
  have hslot : ∀ {i : Nat} (hi : i < xs.length) {a : α}, xs[i] = some a → slot xs i = some a :=
    fun hi a ha => slot_eq_some.mpr (List.getElem?_eq_some_iff.mpr ⟨hi, ha⟩)
  have := h.unique i j a b (hslot hi ha) (hslot hj hb) hkey
  omega

end SlotMap

end SlotMap

section Probe

/-- The first entry with `p` in the `n` slots from `i` on, if none before it is free or stops the
search. -/
def probe (p : α → Bool) (stop : Nat → α → Bool) (xs : List (Option α)) : Nat → Nat → Option α
  | 0, _ => none
  | n + 1, i =>
    match slot xs i with
    | none => none
    | some a => if p a then some a else if stop i a then none else probe p stop xs n (i + 1)

variable {p : α → Bool} {stop : Nat → α → Bool} {xs : List (Option α)} {i j n : Nat} {a : α}

theorem slot_of_probe (h : probe p stop xs n i = some a) : p a ∧ ∃ j, slot xs j = some a := by
  fun_induction probe p stop xs n i with
  | case1 => cases h
  | case2 => cases h
  | case3 n i b hb hp =>
    cases h
    exact ⟨hp, i, hb⟩
  | case4 => cases h
  | case5 n i b hb hp hstop ih => exact ih h

theorem probe_of_slot (ha : slot xs j = some a) (hp : p a) (hlow : i ≤ j) (hhigh : j < i + n)
    (hbefore : ∀ k, i ≤ k → k < j → ∃ b, slot xs k = some b ∧ stop k b = false) :
    ∃ b, probe p stop xs n i = some b := by
  induction n generalizing i with
  | zero => omega
  | succ n ih =>
    unfold probe
    by_cases hij : i = j
    · subst hij
      rw [ha]
      exact ⟨a, if_pos hp⟩
    · obtain ⟨b, hb, hstop⟩ := hbefore i (Nat.le_refl i) (by omega)
      rw [hb]
      by_cases hpb : p b
      · exact ⟨b, if_pos hpb⟩
      · simp only [hpb, hstop]
        exact ih (by omega) (by omega) fun k hk => hbefore k (by omega)

/-- A search that nothing stops before the place of its key finds what the map has. -/
theorem SlotMap.probe_eq [DecidableEq κ] {pair : α → κ × ν} {m : κ → Option ν}
    (h : SlotMap pair xs m) {k : κ} (hreach : ∀ j a, slot xs j = some a → (pair a).1 = k →
      i ≤ j ∧ j < i + n ∧ ∀ l, i ≤ l → l < j → ∃ b, slot xs l = some b ∧ stop l b = false) :
    (probe (fun a => (pair a).1 = k) stop xs n i).map (fun a => (pair a).2) = m k := by
  have hsound : ∀ {a j}, slot xs j = some a → (pair a).1 = k → m k = some (pair a).2 := by
    rintro a j ha rfl
    exact h.of_slot ha
  cases hprobe : probe (fun a => (pair a).1 = k) stop xs n i with
  | some a =>
    obtain ⟨hkey, j, ha⟩ := slot_of_probe hprobe
    exact (hsound ha (of_decide_eq_true hkey)).symm
  | none =>
    symm
    rw [Option.map_none, h.eq_none_iff]
    intro j a ha hkey
    obtain ⟨hlow, hhigh, hbefore⟩ := hreach j a ha hkey
    obtain ⟨b, hb⟩ := probe_of_slot (p := fun a => (pair a).1 = k) ha (decide_eq_true hkey) hlow hhigh
      hbefore
    rw [hprobe] at hb
    cases hb

end Probe

section Ordered

/-- Entries move on from their places only behind entries that have moved as far: an entry that is
not at its place follows one whose distance is at most one less. -/
def Ordered (dist : α → Nat) (xs : List (Option α)) : Prop :=
  ∀ i a, slot xs (i + 1) = some a → 0 < dist a → ∃ b, slot xs i = some b ∧ dist a ≤ dist b + 1

variable {dist : α → Nat} {xs : List (Option α)} {i : Nat} {a : α}

theorem ordered_replicate (dist : α → Nat) (n : Nat) : Ordered dist (List.replicate n none) :=
  fun i a h => absurd h (slot_replicate_ne_some n (i + 1) a)

/-- From the place of an entry on, the slots are taken by entries that have moved far enough. -/
theorem Ordered.reach (h : Ordered dist xs) {d : Nat} (ha : slot xs (i + d) = some a)
    (hd : d ≤ dist a) : ∃ b, slot xs i = some b ∧ dist a ≤ dist b + d := by
  induction d generalizing a with
  | zero => exact ⟨a, ha, Nat.le_refl _⟩
  | succ d ih =>
    obtain ⟨b, hb, hab⟩ := h (i + d) a ha (by omega)
    obtain ⟨c, hc, hbc⟩ := ih hb (by omega)
    exact ⟨c, hc, by omega⟩

theorem Ordered.set (h : Ordered dist xs) (hi : i < xs.length)
    (hbehind : ∀ k, i = k + 1 → 0 < dist a → ∃ b, slot xs k = some b ∧ dist a ≤ dist b + 1)
    (hfar : ∀ b, slot xs i = some b → dist b ≤ dist a) : Ordered dist (xs.set i (some a)) := by
  intro k b hb hpos
  rcases slot_of_set hb with ⟨hnext, hab⟩ | ⟨-, hb⟩
  · cases hab
    obtain ⟨c, hc, hle⟩ := hbehind k hnext hpos
    exact ⟨c, by rwa [slot_set_ne (by omega)], hle⟩
  · obtain ⟨c, hc, hle⟩ := h k b hb hpos
    by_cases hk : i = k
    · subst hk
      have := hfar c hc
      exact ⟨a, slot_set_self hi _, by omega⟩
    · exact ⟨c, by rwa [slot_set_ne hk], hle⟩

end Ordered

end JoinOptimizer.Lib
