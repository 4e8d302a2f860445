import JoinOptimizer.Join.Algorithm
import JoinOptimizer.HashTable.Probe
import JoinOptimizer.Lib.Places
import JoinOptimizer.Lib.Equijoin

/-! Columns that hold the cells of the same rows on the same pages, and how the build of a join reads
one and its probe adds to several. -/

namespace JoinOptimizer

open Lib

/-- The columns `cols` hold the cells of the rows on `pages`, column `j` the cells `cell · j`. -/
def Spread {ρ : Type} (cell : ρ → Nat → ValueT) (pages : List (List ρ)) (cols : List ColumnT) : Prop :=
  ∀ j c, cols[j]? = some c → c.grid = pages.map (List.map fun r => cell r j)

namespace Spread

variable {ρ : Type} {cell : ρ → Nat → ValueT} {pages : List (List ρ)} {cols : List ColumnT}

theorem slot (h : Spread cell pages cols) {j : Nat} {c : ColumnT} (hc : cols[j]? = some c)
    {r : ρ} {p s : Nat} (hr : rowAt pages p s = some r) : c.slot p s = .ok (cell r j) := by
  have hgrid : rowAt c.grid p s = some (cell r j) := by
    rw [h j c hc, rowAt_map, hr]
    rfl
  rw [ColumnT.slot_eq_ok]
  exact rowAt_eq_some.mp hgrid

theorem values (h : Spread cell pages cols) {j : Nat} {c : ColumnT} (hc : cols[j]? = some c) :
    c.values = pages.flatten.map fun r => cell r j := by
  rw [ColumnT.values, h j c hc, List.map_flatten]

end Spread

/-- The number that `collect_build` stores for a place. -/
def placeNumber (p s : Nat) : UInt32 := UInt32.ofNat (p * bufSize + s)

theorem placeNumber_split {p s : Nat} (hp : p < 2 ^ 22) (hs : s < bufSize) :
    (placeNumber p s).toNat / bufSize = p ∧ (placeNumber p s).toNat % bufSize = s := by
  have hsize : bufSize = 1024 := rfl
  have hnat : (placeNumber p s).toNat = p * bufSize + s := by
    unfold placeNumber
    rw [UInt32.toNat_ofNat']
    apply Nat.mod_eq_of_lt
    rw [hsize] at hs ⊢
    omega
  rw [hnat, hsize]
  rw [hsize] at hs
  omega

/-- The rows on the pages and the numbers of their places fit a hash table. -/
structure PlacesFit {ρ : Type} (pages : List (List ρ)) : Prop where
  places : pages.length ≤ 2 ^ 22
  rows : pages.flatten.length < 2 ^ 31

/-- The pairs that `collect_build` stores for rows at their places. -/
def keyedPairs {β : Type} (key : β → Option Int32) (rows : List (β × Nat × Nat)) :
    List (Int32 × UInt32) :=
  rows.filterMap fun (r, p, s) => (key r).map fun k => (k, placeNumber p s)

section Build

variable {β : Type} {value : β → ValueT} {key : β → Option Int32} {pages : List (List β)}
  {col : ColumnT}

theorem collectBuild_eq (hgrid : col.grid = pages.map (List.map value))
    (hkey : ∀ r ∈ pages.flatten, decodeInt32 col.originalPages (value r) = .ok (key r))
    (ht : UnchainedHashTable) :
    JoinAlgorithm.collectBuild col ht =
      .ok { ht with tempKeysPos := ht.tempKeysPos ++ keyedPairs key (placed pages) } := by
  have hplaced : JoinAlgorithm.collectBuild col ht = (placed col.grid).foldlM
      (fun ht x => JoinAlgorithm.collectRow col x.2.1 ht (x.1, x.2.2)) ht := by
    unfold JoinAlgorithm.collectBuild placed placedOn
    rw [foldlM_flatMap]
    simp only [List.foldlM_map]
  rw [hplaced, hgrid, placed_map, List.foldlM_map]
  obtain ⟨_, hrun, rfl⟩ := foldlM_total
    (f := fun ht (x : β × Nat × Nat) =>
      JoinAlgorithm.collectRow col x.2.1 ht (value x.1, x.2.2))
    (P := fun pre (s : UnchainedHashTable) =>
      s = { ht with tempKeysPos := ht.tempKeysPos ++ keyedPairs key pre })
    (placed pages) ht (by simp [keyedPairs]) (by
      rintro pre ⟨r, p, s⟩ _ hmem rfl
      refine ⟨_, ?_, rfl⟩
      have hr : r ∈ pages.flatten := by
        rw [← map_fst_placed]
        exact List.mem_map_of_mem hmem
      unfold JoinAlgorithm.collectRow
      simp only [hkey r hr, ok_bind]
      cases hk : key r with
      | none => simp [keyedPairs, hk]
      | some k => simp [keyedPairs, hk, UnchainedHashTable.insertTempKey, placeNumber])
  exact hrun

/-- The row that a stored number stands for. -/
def buildRow (pages : List (List β)) (m : UInt32) : Option β :=
  rowAt pages (m.toNat / bufSize) (m.toNat % bufSize)

theorem rowsOf_keyedPairs (rows : List (β × Nat × Nat)) (k : Int32) :
    rowsOf (keyedPairs key rows) k =
      (rows.filter fun x => key x.1 = some k).map fun x => placeNumber x.2.1 x.2.2 := by
  unfold rowsOf keyedPairs
  rw [List.filter_filterMap, List.map_filterMap, ← List.filterMap_eq_map, List.filterMap_filter]
  apply List.filterMap_congr
  rintro ⟨r, p, s⟩ _
  cases hk : key r with
  | none => simp [hk]
  | some k' =>
    by_cases h : k' = k
    · simp [hk, h]
    · simp [hk, h]

variable (hfit : PlacesFit pages) (hsize : ∀ page ∈ pages, page.length ≤ bufSize)
include hfit hsize

theorem buildRow_placeNumber {x : β × Nat × Nat} (hx : x ∈ placed pages) :
    buildRow pages (placeNumber x.2.1 x.2.2) = some x.1 := by
  obtain ⟨r, p, s⟩ := x
  have hrow := mem_placed.mp hx
  obtain ⟨page, hpage, hr⟩ := rowAt_eq_some.mp hrow
  have hp := (List.getElem?_eq_some_iff.mp hpage).1
  have hs := (List.getElem?_eq_some_iff.mp hr).1
  have hle := hsize page (List.mem_of_getElem? hpage)
  have hpages := hfit.places
  obtain ⟨hdiv, hmod⟩ := placeNumber_split (p := p) (s := s) (by omega) (by omega)
  unfold buildRow
  simp only [hdiv, hmod, hrow]

theorem buildRow_of_mem {k : Int32} {m : UInt32}
    (hm : m ∈ rowsOf (keyedPairs key (placed pages)) k) : ∃ b, buildRow pages m = some b := by
  rw [rowsOf_keyedPairs] at hm
  obtain ⟨x, hx, rfl⟩ := List.mem_map.mp hm
  exact ⟨x.1, buildRow_placeNumber hfit hsize (List.mem_filter.mp hx).1⟩

/-- The numbers that the table has for a key stand for the rows with the key. -/
theorem filterMap_buildRow_perm {k : Int32} {hits : List UInt32}
    (hhits : hits.Perm (rowsOf (keyedPairs key (placed pages)) k)) :
    (hits.filterMap (buildRow pages)).Perm (matching key (some k) pages.flatten) := by
  refine (hhits.filterMap _).trans (List.Perm.of_eq ?_)
  unfold matching
  rw [rowsOf_keyedPairs, List.filterMap_map, ← map_fst_placed, List.filter_map,
    ← List.filterMap_eq_map]
  simp only [Option.isSome_some, true_and, Function.comp_def]
  apply List.filterMap_congr
  intro x hx
  exact buildRow_placeNumber hfit hsize (List.mem_filter.mp hx).1

end Build

end JoinOptimizer
