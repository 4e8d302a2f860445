import JoinOptimizer.Plan.Naive
import JoinOptimizer.Lib.JoinTree
import Mathlib.Data.List.GetD
import Mathlib.Data.List.Nodup

/-! The naive evaluation with the records of the inputs that each record of the result is made of. -/

namespace JoinOptimizer

open Lib

namespace PlanTree

/-- The inputs that are scanned, from left to right. -/
def leaves : PlanTree → List Nat
  | scan t _ => [t]
  | join _ left right _ _ _ => left.leaves ++ right.leaves

/-- The naive evaluation: the record of every input with the record that is made of them. -/
def combinations (tables : List Table) : PlanTree → List (List (Nat × List Data) × List Data)
  | scan t attrs => (tables[t]?.elim [] Table.data).map fun record =>
      ([(t, record)], attrs.map fun attr => record.getD attr.1 .monostate)
  | join _ left right leftAttr rightAttr attrs =>
      (equijoin (fun x => nonNull x.2[leftAttr]?) (fun x => nonNull x.2[rightAttr]?)
        (left.combinations tables) (right.combinations tables)).map fun x =>
          (x.1.1 ++ x.2.1, attrs.map fun attr => (x.1.2 ++ x.2.2).getD attr.1 .monostate)

theorem map_snd_combinations (tables : List Table) (tree : PlanTree) :
    (tree.combinations tables).map Prod.snd = tree.naive tables := by
  induction tree with
  | scan t attrs =>
    unfold combinations naive
    rw [List.map_map]
    rfl
  | join _ left right leftAttr rightAttr attrs ihl ihr =>
    unfold combinations naive
    rw [← ihl, ← ihr, equijoin_map, List.map_map, List.map_map]
    rfl

/-- The cell of an input in a combination. -/
def cellIn (x : List (Nat × List Data)) (v : Nat × Nat) : Data :=
  ((x.lookup v.1).getD []).getD v.2 .monostate

/-- The joins of a plan as equalities of cells of its inputs. -/
def joinTree : PlanTree → JoinTree (Nat × Nat)
  | scan t _ => .leaf fun v => v.1 = t
  | join _ left right leftAttr rightAttr _ =>
      .join left.joinTree right.joinTree ((left.source leftAttr).getD (0, 0))
        ((right.source rightAttr).getD (0, 0))

/-- The attributes of every join come from cells of the inputs that are in the relation `R`. -/
def Keyed (R : Nat × Nat → Nat × Nat → Prop) : PlanTree → Prop
  | scan _ _ => True
  | join _ left right leftAttr rightAttr _ => left.Keyed R ∧ right.Keyed R ∧
      ∃ v w, left.source leftAttr = some v ∧ right.source rightAttr = some w ∧ R v w

variable {tables : List Table} {tree left right : PlanTree}
  {R : Nat × Nat → Nat × Nat → Prop}

@[simp] theorem has_joinTree {v : Nat × Nat} : tree.joinTree.Has v ↔ v.1 ∈ tree.leaves := by
  induction tree with
  | scan t attrs => simp [joinTree, JoinTree.Has, leaves]
  | join _ left right _ _ _ ihl ihr => simp [joinTree, JoinTree.Has, leaves, ihl, ihr]

theorem source_mem_leaves {j : Nat} {v : Nat × Nat} (h : tree.source j = some v) :
    v.1 ∈ tree.leaves := by
  induction tree generalizing j with
  | scan t attrs =>
    obtain ⟨attr, -, rfl⟩ := Option.map_eq_some_iff.mp h
    exact List.mem_singleton_self t
  | join _ left right _ _ attrs ihl ihr =>
    obtain ⟨attr, -, h⟩ := Option.bind_eq_some_iff.mp h
    split at h
    · exact List.mem_append_left _ (ihl h)
    · exact List.mem_append_right _ (ihr h)

theorem lt_of_source {j : Nat} {v : Nat × Nat} (h : tree.source j = some v) :
    j < tree.attrs.length := by
  cases tree with
  | scan t attrs =>
    obtain ⟨attr, hattr, -⟩ := Option.map_eq_some_iff.mp h
    exact (List.getElem?_eq_some_iff.mp hattr).1
  | join _ left right _ _ attrs =>
    obtain ⟨attr, hattr, -⟩ := Option.bind_eq_some_iff.mp h
    exact (List.getElem?_eq_some_iff.mp hattr).1

theorem Keyed.imp {S : Nat × Nat → Nat × Nat → Prop} (h : tree.Keyed R)
    (hRS : ∀ v w, R v w → S v w) : tree.Keyed S := by
  induction tree with
  | scan t attrs => trivial
  | join _ left right _ _ attrs ihl ihr =>
    obtain ⟨hl, hr, v, w, hv, hw, hR⟩ := h
    exact ⟨ihl hl, ihr hr, v, w, hv, hw, hRS v w hR⟩

/-- A record of the result has the cells that its columns come from. -/
structure Made (tree : PlanTree) (x : List (Nat × List Data) × List Data) : Prop where
  inputs : x.1.map Prod.fst = tree.leaves
  length : x.2.length = tree.attrs.length
  cells : ∀ j v, tree.source j = some v → x.2.getD j .monostate = cellIn x.1 v

theorem cellIn_append_left {x y : List (Nat × List Data)} {v : Nat × Nat}
    (h : v.1 ∈ x.map Prod.fst) : cellIn (x ++ y) v = cellIn x v := by
  obtain ⟨p, hmem, hp⟩ := List.mem_map.mp h
  unfold cellIn
  rw [List.lookup_append]
  cases hlookup : x.lookup v.1 with
  | none =>
    have hne := List.lookup_eq_none_iff.mp hlookup p hmem
    simp [hp] at hne
  | some record => rfl

theorem cellIn_append_right {x y : List (Nat × List Data)} {v : Nat × Nat}
    (h : v.1 ∉ x.map Prod.fst) : cellIn (x ++ y) v = cellIn y v := by
  unfold cellIn
  have hnone : x.lookup v.1 = none := by
    rw [List.lookup_eq_none_iff]
    intro p hp
    simp only [bne_iff_ne, ne_eq]
    rintro heq
    exact h (List.mem_map.mpr ⟨p, hp, heq.symm⟩)
  rw [List.lookup_append, hnone, Option.none_or]

theorem cellIn_of_mem {x : List (Nat × List Data)} (hnodup : (x.map Prod.fst).Nodup) {t k : Nat}
    {record : List Data} (h : (t, record) ∈ x) : cellIn x (t, k) = record.getD k .monostate := by
  unfold cellIn
  have hlookup : x.lookup t = some record := by
    induction x with
    | nil => cases h
    | cons p x ih =>
      rw [List.map_cons, List.nodup_cons] at hnodup
      rcases List.mem_cons.mp h with rfl | h
      · exact List.lookup_cons_self
      · have hne : t ≠ p.1 := fun heq => hnodup.1 (heq ▸ List.mem_map_of_mem h)
        rw [List.lookup_cons, beq_false_of_ne hne]
        exact ih hnodup.2 h
  rw [hlookup, Option.getD_some]

theorem cellIn_map {pick : Nat → List Data} {ts : List Nat} {v : Nat × Nat} (h : v.1 ∈ ts) :
    cellIn (ts.map fun t => (t, pick t)) v = (pick v.1).getD v.2 .monostate := by
  unfold cellIn
  have hlookup : (ts.map fun t => (t, pick t)).lookup v.1 = some (pick v.1) := by
    induction ts with
    | nil => cases h
    | cons t ts ih =>
      rw [List.map_cons, List.lookup_cons]
      by_cases heq : v.1 = t
      · simp [heq]
      · rw [beq_false_of_ne heq]
        exact ih ((List.mem_cons.mp h).resolve_left heq)
  rw [hlookup, Option.getD_some]

theorem nonNull_inj {a b : Data} (hsome : (nonNull (some a)).isSome)
    (h : nonNull (some a) = nonNull (some b)) : a = b := by
  unfold nonNull at h hsome
  obtain ⟨c, hc⟩ := Option.isSome_iff_exists.mp hsome
  rw [hc] at h
  rw [Option.filter_eq_some_iff] at hc
  exact Option.some.inj (hc.1.trans (Option.filter_eq_some_iff.mp h.symm).1.symm)

/-- The key of a column that comes from an input. -/
theorem Made.key {x : List (Nat × List Data) × List Data} (h : tree.Made x) {j : Nat}
    {v : Nat × Nat} (hsource : tree.source j = some v) :
    nonNull x.2[j]? = nonNull (some (cellIn x.1 v)) := by
  have hlt : j < x.2.length := by
    rw [h.length]
    exact lt_of_source hsource
  rw [← h.cells j v hsource, List.getD_eq_getElem?_getD, List.getElem?_eq_getElem hlt]
  rfl

section Joins

variable {buildLeft : Bool} {leftAttr rightAttr : Nat} {attrs : List (Nat × DataType)}

/-- The sides of a combination of a join. -/
theorem Made.join {l r : List (Nat × List Data) × List Data} (hl : left.Made l) (hr : right.Made r)
    (hnodup : (join buildLeft left right leftAttr rightAttr attrs).leaves.Nodup) :
    (join buildLeft left right leftAttr rightAttr attrs).Made
      (l.1 ++ r.1, attrs.map fun attr => (l.2 ++ r.2).getD attr.1 .monostate) := by
  refine ⟨?_, List.length_map _, fun j v hsource => ?_⟩
  · rw [List.map_append, hl.inputs, hr.inputs]
    rfl
  · obtain ⟨attr, hattr, hside⟩ := Option.bind_eq_some_iff.mp hsource
    have hget : (attrs.map fun attr => (l.2 ++ r.2).getD attr.1 .monostate).getD j .monostate =
        (l.2 ++ r.2).getD attr.1 .monostate := by
      rw [List.getD_eq_getElem?_getD, List.getElem?_map, hattr]
      rfl
    dsimp only
    rw [hget]
    split at hside
    case isTrue hlt =>
      have hmem := source_mem_leaves hside
      rw [List.getD_append _ _ _ _ (by rw [hl.length]; exact hlt), hl.cells _ v hside,
        cellIn_append_left (by rwa [hl.inputs])]
    case isFalse hle =>
      have hmem := source_mem_leaves hside
      have hnotmem : v.1 ∉ l.1.map Prod.fst := by
        rw [hl.inputs]
        exact fun hmem' => (List.disjoint_of_nodup_append hnodup) hmem' hmem
      rw [List.getD_append_right _ _ _ _ (by rw [hl.length]; omega), hl.length,
        hr.cells _ v hside, cellIn_append_right hnotmem]

end Joins

theorem made_of_mem (hnodup : tree.leaves.Nodup) {x : List (Nat × List Data) × List Data}
    (h : x ∈ tree.combinations tables) : tree.Made x := by
  induction tree generalizing x with
  | scan t attrs =>
    obtain ⟨record, -, rfl⟩ := List.mem_map.mp h
    refine ⟨rfl, List.length_map _, fun j v hsource => ?_⟩
    obtain ⟨attr, hattr, rfl⟩ := Option.map_eq_some_iff.mp hsource
    simp [cellIn, List.getD_eq_getElem?_getD, List.getElem?_map, hattr]
  | join _ left right leftAttr rightAttr attrs ihl ihr =>
    obtain ⟨⟨l, r⟩, hmem, rfl⟩ := List.mem_map.mp h
    obtain ⟨hl, hr, -, -⟩ := mem_equijoin.mp hmem
    obtain ⟨hnodupl, hnodupr, -⟩ := List.nodup_append.mp hnodup
    exact (ihl hnodupl hl).join (ihr hnodupr hr) hnodup

theorem Keyed.proper (h : tree.Keyed R) (hnodup : tree.leaves.Nodup) : tree.joinTree.Proper R := by
  induction tree with
  | scan t attrs => trivial
  | join _ left right leftAttr rightAttr attrs ihl ihr =>
    obtain ⟨hl, hr, v, w, hv, hw, hR⟩ := h
    obtain ⟨hnodupl, hnodupr, -⟩ := List.nodup_append.mp hnodup
    have hdisjoint := List.disjoint_of_nodup_append hnodup
    refine ⟨ihl hl hnodupl, ihr hr hnodupr, fun a ha hb => ?_, ?_⟩
    · exact hdisjoint (has_joinTree.mp ha) (has_joinTree.mp hb)
    · simp only [hv, hw, Option.getD_some, has_joinTree]
      exact ⟨source_mem_leaves hv, source_mem_leaves hw, hR⟩

/-- A combination meets the joins. -/
theorem joined_of_mem (hkeyed : tree.Keyed R) (hnodup : tree.leaves.Nodup)
    {x : List (Nat × List Data) × List Data} (h : x ∈ tree.combinations tables) :
    tree.joinTree.Joined (cellIn x.1) := by
  induction tree generalizing x with
  | scan t attrs => trivial
  | join _ left right leftAttr rightAttr attrs ihl ihr =>
    obtain ⟨⟨l, r⟩, hmem, rfl⟩ := List.mem_map.mp h
    obtain ⟨hl, hr, hsome, hkey⟩ := mem_equijoin.mp hmem
    obtain ⟨hkl, hkr, v, w, hv, hw, -⟩ := hkeyed
    obtain ⟨hnodupl, hnodupr, -⟩ := List.nodup_append.mp hnodup
    have hmadel := made_of_mem hnodupl hl
    have hmader := made_of_mem hnodupr hr
    have hleft : ∀ v, left.joinTree.Has v → cellIn (l.1 ++ r.1) v = cellIn l.1 v := by
      intro v hv
      apply cellIn_append_left
      rw [hmadel.inputs]
      exact has_joinTree.mp hv
    have hright : ∀ v, right.joinTree.Has v → cellIn (l.1 ++ r.1) v = cellIn r.1 v := by
      intro v hv
      refine cellIn_append_right fun hv' => ?_
      rw [hmadel.inputs] at hv'
      exact List.disjoint_of_nodup_append hnodup hv' (has_joinTree.mp hv)
    refine ⟨(ihl hkl hnodupl hl).congr (hkl.proper hnodupl) fun v hv => (hleft v hv).symm,
      (ihr hkr hnodupr hr).congr (hkr.proper hnodupr) fun v hv => (hright v hv).symm, ?_⟩
    rw [hv, hw]
    dsimp only [Option.getD_some]
    rw [hleft v (has_joinTree.mpr (source_mem_leaves hv)),
      hright w (has_joinTree.mpr (source_mem_leaves hw))]
    rw [hmadel.key hv, hmader.key hw] at hkey
    rw [hmadel.key hv] at hsome
    exact nonNull_inj hsome hkey

/-- Records that meet the joins make a combination. -/
theorem exists_combination (hkeyed : tree.Keyed R) (hnodup : tree.leaves.Nodup)
    {pick : Nat → List Data} (hpick : ∀ t ∈ tree.leaves, pick t ∈ tables[t]?.elim [] Table.data)
    (hnull : ∀ v w, R v w → (pick v.1).getD v.2 .monostate ≠ .monostate)
    (hjoined : tree.joinTree.Joined fun v => (pick v.1).getD v.2 .monostate) :
    ∃ x ∈ tree.combinations tables, x.1 = tree.leaves.map fun t => (t, pick t) := by
  induction tree with
  | scan t attrs =>
    exact ⟨_, List.mem_map_of_mem (hpick t (List.mem_singleton_self t)), rfl⟩
  | join _ left right leftAttr rightAttr attrs ihl ihr =>
    obtain ⟨hkl, hkr, v, w, hv, hw, hR⟩ := hkeyed
    obtain ⟨hnodupl, hnodupr, -⟩ := List.nodup_append.mp hnodup
    obtain ⟨hjl, hjr, heq⟩ := hjoined
    obtain ⟨l, hl, hpickl⟩ := ihl hkl hnodupl (fun t ht => hpick t (List.mem_append_left _ ht)) hjl
    obtain ⟨r, hr, hpickr⟩ := ihr hkr hnodupr (fun t ht => hpick t (List.mem_append_right _ ht)) hjr
    have hkeyl := (made_of_mem hnodupl hl).key hv
    have hkeyr := (made_of_mem hnodupr hr).key hw
    rw [hpickl, cellIn_map (source_mem_leaves hv)] at hkeyl
    rw [hpickr, cellIn_map (source_mem_leaves hw)] at hkeyr
    simp only [hv, hw, Option.getD_some] at heq
    have hmem : (l, r) ∈ equijoin (fun x => nonNull x.2[leftAttr]?) (fun x => nonNull x.2[rightAttr]?)
        (left.combinations tables) (right.combinations tables) := by
      refine mem_equijoin.mpr ⟨hl, hr, ?_, ?_⟩
      · rw [hkeyl]
        simpa [nonNull] using hnull v w hR
      · rw [hkeyl, hkeyr, heq]
    refine ⟨_, List.mem_map_of_mem hmem, ?_⟩
    dsimp only
    rw [hpickl, hpickr, ← List.map_append]
    rfl

end PlanTree

end JoinOptimizer
