import JoinOptimizer.Plan.Combinations
import JoinOptimizer.Lib.Choices

/-! The naive evaluation of a plan as a filter of the cross product of its inputs: a combination for each
choice of records whose keys match in every join. -/

namespace JoinOptimizer

open Lib

namespace PlanTree

/-- The records of the inputs that are scanned. -/
def records (tables : List Table) (ts : List Nat) : List (Nat × List (List Data)) :=
  ts.map fun t => (t, tables[t]?.elim [] Table.data)

/-- The keys that a choice of records has in the columns of the inputs. -/
def keyIn (c : List (Nat × List Data)) (v : Nat × Nat) : Option Data := nonNull (some (cellIn c v))

/-- The record that a choice makes. -/
def output (c : List (Nat × List Data)) : PlanTree → List Data
  | scan t attrs => attrs.map fun attr => cellIn c (t, attr.1)
  | join _ left right _ _ attrs =>
      attrs.map fun attr => (left.output c ++ right.output c).getD attr.1 .monostate

variable {tables : List Table} {tree left right : PlanTree} {R : Nat × Nat → Nat × Nat → Prop}
  {c l r : List (Nat × List Data)}

theorem map_fst_records (ts : List Nat) : (records tables ts).map Prod.fst = ts := by
  simp [records, Function.comp_def]

theorem keys_of_mem_records {ts : List Nat} (h : c ∈ choices (records tables ts)) :
    c.map Prod.fst = ts := by
  rw [keys_of_mem_choices h, map_fst_records]

/-- What a tree makes of a choice depends on the cells of its inputs only. -/
theorem output_congr {c' : List (Nat × List Data)}
    (h : ∀ v : Nat × Nat, v.1 ∈ tree.leaves → cellIn c v = cellIn c' v) :
    tree.output c = tree.output c' := by
  induction tree with
  | scan t attrs => exact List.map_congr_left fun attr _ => h (t, attr.1) (List.mem_singleton_self t)
  | join _ left right _ _ attrs ihl ihr =>
    rw [output, output, ihl fun v hv => h v (List.mem_append_left _ hv),
      ihr fun v hv => h v (List.mem_append_right _ hv)]

theorem length_output (c : List (Nat × List Data)) (tree : PlanTree) :
    (tree.output c).length = tree.attrs.length := by
  cases tree <;> exact List.length_map _

/-- The cells of what a choice makes. -/
theorem getD_output (c : List (Nat × List Data)) {j : Nat} {v : Nat × Nat} (h : tree.source j = some v) :
    (tree.output c).getD j .monostate = cellIn c v := by
  induction tree generalizing j with
  | scan t attrs =>
    obtain ⟨attr, hattr, rfl⟩ := Option.map_eq_some_iff.mp h
    rw [output, List.getD_eq_getElem?_getD, List.getElem?_map, hattr]
    rfl
  | join _ left right _ _ attrs ihl ihr =>
    obtain ⟨attr, hattr, hside⟩ := Option.bind_eq_some_iff.mp h
    have hget : (attrs.map fun attr => (left.output c ++ right.output c).getD attr.1 .monostate).getD j
        .monostate = (left.output c ++ right.output c).getD attr.1 .monostate := by
      rw [List.getD_eq_getElem?_getD, List.getElem?_map, hattr]
      rfl
    rw [output, hget]
    split at hside
    · next hlt => rw [List.getD_append _ _ _ _ (by rwa [length_output]), ihl hside]
    · next hle =>
      rw [List.getD_append_right _ _ _ _ (by rw [length_output]; omega), length_output, ihr hside]

theorem key_output (c : List (Nat × List Data)) {j : Nat} {v : Nat × Nat} (h : tree.source j = some v) :
    nonNull (tree.output c)[j]? = keyIn c v := by
  have hlt : j < (tree.output c).length := by
    rw [length_output]
    exact lt_of_source h
  rw [keyIn, ← getD_output c h, List.getD_eq_getElem?_getD, List.getElem?_eq_getElem hlt]
  rfl

/-- The combinations are the choices that match in every join. -/
theorem combinations_eq (hkeyed : tree.Keyed R) (hnodup : tree.leaves.Nodup) :
    tree.combinations tables = ((choices (records tables tree.leaves)).filter fun c =>
      tree.joinTree.Matched (keyIn c)).map fun c => (c, tree.output c) := by
  induction tree with
  | scan t attrs =>
    have hall : ∀ c : List (Nat × List Data), (scan t attrs).joinTree.Matched (keyIn c) := fun c => trivial
    have hself : ∀ record : List Data, attrs.map (fun attr => cellIn [(t, record)] (t, attr.1)) =
        attrs.map fun attr => record.getD attr.1 .monostate := by
      intro record
      refine List.map_congr_left fun attr _ => ?_
      simp [cellIn]
    simp only [leaves, records, List.map_cons, List.map_nil, choices_singleton, hall, decide_true,
      List.filter_true, List.map_map, Function.comp_def, output, hself, combinations]
  | join buildLeft left right leftAttr rightAttr attrs ihl ihr =>
    obtain ⟨hkl, hkr, v, w, hv, hw, -⟩ := id hkeyed
    obtain ⟨hnodupl, hnodupr, -⟩ := List.nodup_append.mp hnodup
    have hdisjoint := List.disjoint_of_nodup_append hnodup
    have hrecords : records tables (left.leaves ++ right.leaves) =
        records tables left.leaves ++ records tables right.leaves := List.map_append
    rw [combinations, ihl hkl hnodupl, ihr hkr hnodupr, equijoin_map, List.map_map, leaves, hrecords,
      choices_append, List.filter_map, List.map_map]
    have hcells : ∀ p ∈ choices (records tables left.leaves) ×ˢ choices (records tables right.leaves),
        (∀ v : Nat × Nat, v.1 ∈ left.leaves → cellIn (p.1 ++ p.2) v = cellIn p.1 v) ∧
          ∀ v : Nat × Nat, v.1 ∈ right.leaves → cellIn (p.1 ++ p.2) v = cellIn p.2 v := by
      intro p hp
      obtain ⟨hl, hr⟩ := List.mem_product.mp hp
      refine ⟨fun v hv => cellIn_append_left ?_, fun v hv => cellIn_append_right ?_⟩
      · rwa [keys_of_mem_records hl]
      · rw [keys_of_mem_records hl]
        exact fun hv' => hdisjoint hv' hv
    have hfilter : equijoin ((fun x => nonNull x.2[leftAttr]?) ∘ fun c => (c, left.output c))
        ((fun x => nonNull x.2[rightAttr]?) ∘ fun c => (c, right.output c))
        ((choices (records tables left.leaves)).filter fun c => left.joinTree.Matched (keyIn c))
        ((choices (records tables right.leaves)).filter fun c => right.joinTree.Matched (keyIn c)) =
        (choices (records tables left.leaves) ×ˢ choices (records tables right.leaves)).filter
          ((fun c => decide ((join buildLeft left right leftAttr rightAttr attrs).joinTree.Matched
            (keyIn c))) ∘ fun p => p.1 ++ p.2) := by
      unfold equijoin
      rw [filter_product, List.filter_filter]
      refine List.filter_congr fun p hp => ?_
      obtain ⟨hl, hr⟩ := hcells p hp
      have hleft := JoinTree.matched_congr (hkl.proper hnodupl) (v := keyIn (p.1 ++ p.2)) (w := keyIn p.1)
        fun a ha => congrArg (nonNull ∘ some) (hl a (has_joinTree.mp ha))
      have hright := JoinTree.matched_congr (hkr.proper hnodupr) (v := keyIn (p.1 ++ p.2)) (w := keyIn p.2)
        fun a ha => congrArg (nonNull ∘ some) (hr a (has_joinTree.mp ha))
      have hkeyl : keyIn (p.1 ++ p.2) v = keyIn p.1 v :=
        congrArg (nonNull ∘ some) (hl v (source_mem_leaves hv))
      have hkeyr : keyIn (p.1 ++ p.2) w = keyIn p.2 w :=
        congrArg (nonNull ∘ some) (hr w (source_mem_leaves hw))
      simp only [Function.comp_apply, joinTree, JoinTree.Matched, hv, hw, Option.getD_some, hleft, hright,
        hkeyl, hkeyr, key_output p.1 hv, key_output p.2 hw]
      rw [Bool.eq_iff_iff]
      simp only [Bool.and_eq_true, decide_eq_true_eq]
      tauto
    rw [hfilter]
    refine List.map_congr_left fun p hp => ?_
    obtain ⟨hl, hr⟩ := hcells p (List.mem_of_mem_filter hp)
    simp only [Function.comp_apply, Prod.map, output, output_congr hl, output_congr hr]

/-- The naive evaluation as a filter of the cross product. -/
theorem naive_eq_choices (hkeyed : tree.Keyed R) (hnodup : tree.leaves.Nodup) :
    tree.naive tables = ((choices (records tables tree.leaves)).filter fun c =>
      tree.joinTree.Matched (keyIn c)).map fun c => tree.output c := by
  rw [← map_snd_combinations, combinations_eq hkeyed hnodup, List.map_map]
  rfl

end PlanTree

end JoinOptimizer
