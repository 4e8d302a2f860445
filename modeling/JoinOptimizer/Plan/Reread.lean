import JoinOptimizer.Plan.Naive
import JoinOptimizer.Store.Reading

/-! Two readings of the same base tables: exactly when a plan has the same result over both.  A reading
that loses cells loses the rows whose keys are among them, and the cells it loses do not turn up
elsewhere. -/

namespace JoinOptimizer

open Lib

/-- Two maps of a list to the same multiset agree, where they differ only from elements with `p` to
elements without. -/
theorem eq_of_perm_map {α β : Type} {p : β → Bool} {f g : α → β} {xs : List α}
    (hperm : (xs.map f).Perm (xs.map g))
    (hfg : ∀ x ∈ xs, f x = g x ∨ p (g x) = true ∧ p (f x) = false) : ∀ x ∈ xs, f x = g x := by
  have hcount := hperm.countP_eq p
  rw [List.countP_map, List.countP_map] at hcount
  clear hperm
  induction xs with
  | nil => simp
  | cons y ys ih =>
    have hys : ∀ x ∈ ys, f x = g x ∨ p (g x) = true ∧ p (f x) = false := fun x hx =>
      hfg x (by simp [hx])
    have hle : ys.countP (p ∘ f) ≤ ys.countP (p ∘ g) := by
      apply List.countP_mono_left
      intro x hx hp
      rcases hys x hx with h | ⟨h, -⟩
      · simpa [← h] using hp
      · exact h
    rw [List.countP_cons, List.countP_cons] at hcount
    intro x hx
    rcases hfg y (by simp) with hy | ⟨hg, hf⟩
    · simp only [Function.comp_apply, hy, Nat.add_right_cancel_iff] at hcount
      rcases List.mem_cons.mp hx with rfl | hx
      · exact hy
      · exact ih hys hcount x hx
    · simp only [Function.comp_apply, hg, hf, if_true, Bool.false_eq_true, if_false] at hcount
      omega

/-- The reading `f` of base tables with the cells `g`. -/
def Rereads (types : List (List DataType)) (f g : Nat → Nat → Nat → Option Data) : Prop :=
  ∀ t k type i, (types[t]?.bind (·[k]?)) = some type →
    f t k i = g t k i ∨ ∃ d e, g t k i = some d ∧ f t k i = some e ∧ d.LostAs type e

namespace PlanTree

variable {types : List (List DataType)} {f g : Nat → Nat → Nat → Option Data} {n : Nat → Nat}

theorem cell_reread (h : Rereads types f g) {tree : PlanTree} (hwf : tree.WellFormed types)
    (row : tree.Row) {j : Nat} {attr : Nat × DataType} (hattr : tree.attrs[j]? = some attr) :
    tree.cell f row j = tree.cell g row j ∨ ∃ d e, tree.cell g row j = some d ∧
      tree.cell f row j = some e ∧ d.LostAs attr.2 e := by
  obtain ⟨t, k, hsource, htype, -⟩ := hwf.onScans.source hwf hattr
  unfold cell
  rw [hsource, Option.bind_some, Option.bind_some]
  cases tree.baseRow row j with
  | none => exact .inl rfl
  | some i => exact h t k _ i htype

/-- The base cell that column `j` of a row comes from. -/
def place (tree : PlanTree) (row : tree.Row) (j : Nat) : Option (Nat × Nat × Nat) :=
  (tree.source j).bind fun (t, k) => (tree.baseRow row j).map fun i => (t, k, i)

/-- The base cells of the keys that made a row. -/
def keyPlaces : (tree : PlanTree) → tree.Row → List (Nat × Nat × Nat)
  | scan _ _, _ => []
  | join _ left right leftAttr rightAttr _, row =>
      (row.1.elim [] fun l => left.keyPlaces l ++ (left.place l leftAttr).toList) ++
      row.2.elim [] fun r => right.keyPlaces r ++ (right.place r rightAttr).toList

/-- The base cells that a row takes: the keys that made it, and its own cells. -/
def places (tree : PlanTree) (row : tree.Row) : List (Nat × Nat × Nat) :=
  tree.keyPlaces row ++ (List.range tree.attrs.length).flatMap fun j => (tree.place row j).toList

/-- The readings agree on the base cells. -/
def agree (f g : Nat → Nat → Nat → Option Data) (places : List (Nat × Nat × Nat)) : Bool :=
  places.all fun (t, k, i) => f t k i == g t k i

theorem agree_append {ps qs : List (Nat × Nat × Nat)} :
    agree f g (ps ++ qs) = true ↔ agree f g ps = true ∧ agree f g qs = true := by
  unfold agree
  rw [List.all_append, Bool.and_eq_true]

theorem agree_place {tree : PlanTree} {row : tree.Row} {j : Nat} :
    agree f g (tree.place row j).toList = true ↔ tree.cell f row j = tree.cell g row j := by
  unfold place cell
  cases tree.source j with
  | none => simp [agree]
  | some p =>
    simp only [Option.bind_some]
    cases tree.baseRow row j with
    | none => simp [agree]
    | some i => simp [agree]

theorem agree_keyPlaces_join {buildLeft : Bool} {left right : PlanTree} {leftAttr rightAttr : Nat}
    {attrs : List (Nat × DataType)} (l : left.Row) (r : right.Row) :
    agree f g ((join buildLeft left right leftAttr rightAttr attrs).keyPlaces (some l, some r)) = true ↔
      (agree f g (left.keyPlaces l) = true ∧ left.cell f l leftAttr = left.cell g l leftAttr) ∧
      agree f g (right.keyPlaces r) = true ∧
        right.cell f r rightAttr = right.cell g r rightAttr := by
  rw [keyPlaces]
  simp only [Option.elim_some, agree_append, agree_place]

/-- A cell that still is a key is read as it is. -/
theorem cell_eq_of_key (h : Rereads types f g) {tree : PlanTree} (hwf : tree.WellFormed types)
    {row : tree.Row} {j : Nat} (htype : tree.attrs[j]?.map Prod.snd = some .INT32)
    (hkey : (nonNull (tree.cell f row j)).isSome = true) : tree.cell f row j = tree.cell g row j := by
  obtain ⟨attr, hattr, htype⟩ := Option.map_eq_some_iff.mp htype
  rcases cell_reread h hwf row hattr with heq | ⟨d, e, -, hf, hlost⟩
  · exact heq
  · rw [hf, hlost.int32 htype] at hkey
    cases hkey

/-- The rows over a reading are the rows whose keys it reads as they are. -/
theorem rows_eq_filter (h : Rereads types f g) {tree : PlanTree} (hwf : tree.WellFormed types) :
    tree.rows f n = (tree.rows g n).filter fun row => agree f g (tree.keyPlaces row) := by
  induction tree with
  | scan t attrs =>
    symm
    apply List.filter_eq_self.mpr
    intro row _
    rfl
  | join _ left right leftAttr rightAttr attrs ihl ihr =>
    obtain ⟨hl, hr, -, -, -, hkeyL, hkeyR⟩ := hwf
    unfold rows
    rw [List.filter_map, ihl hl, ihr hr]
    congr 1
    unfold equijoin
    rw [filter_product, List.filter_filter, List.filter_filter]
    apply List.filter_congr
    rintro ⟨l, r⟩ _
    rw [Bool.eq_iff_iff]
    simp only [Function.comp_apply, Bool.and_eq_true, decide_eq_true_eq, agree_keyPlaces_join]
    constructor
    · rintro ⟨⟨hkey, heq⟩, hreadL, hreadR⟩
      have hcellL := cell_eq_of_key h hl hkeyL hkey
      have hcellR := cell_eq_of_key h hr hkeyR (heq ▸ hkey)
      rw [← hcellL, ← hcellR]
      exact ⟨⟨⟨hreadL, rfl⟩, hreadR, rfl⟩, hkey, heq⟩
    · rintro ⟨⟨⟨hreadL, hcellL⟩, hreadR, hcellR⟩, hkey, heq⟩
      rw [hcellL, hcellR]
      exact ⟨⟨hkey, heq⟩, hreadL, hreadR⟩

/-- A plan has the same result over a reading exactly when its rows are read as they are. -/
theorem records_perm_iff (h : Rereads types f g) {tree : PlanTree} (hwf : tree.WellFormed types) :
    ((tree.rows f n).map (tree.record f)).Perm ((tree.rows g n).map (tree.record g)) ↔
      ∀ row ∈ tree.rows g n, agree f g (tree.places row) = true := by
  have hplaces : ∀ row, agree f g (tree.places row) = true ↔ agree f g (tree.keyPlaces row) = true ∧
      ∀ j < tree.attrs.length, tree.cell f row j = tree.cell g row j := by
    intro row
    unfold places
    rw [agree_append]
    refine and_congr_right fun _ => ?_
    simp only [← agree_place, agree, List.all_flatMap, List.all_eq_true (l := List.range _),
      List.mem_range]
  simp only [hplaces]
  rw [rows_eq_filter h hwf]
  constructor
  · intro hperm
    have hlen := hperm.length_eq
    rw [List.length_map, List.length_map, List.length_filter_eq_length_iff] at hlen
    rw [List.filter_eq_self.mpr hlen] at hperm
    intro row hrow
    refine ⟨hlen row hrow, fun j hj => ?_⟩
    have hcells := hperm.map fun record => record.getD j .monostate
    rw [List.map_map, List.map_map] at hcells
    have hattr : tree.attrs[j]? = some tree.attrs[j] := List.getElem?_eq_getElem hj
    have heq := eq_of_perm_map (p := Data.fragile) hcells (fun row _ => by
      simp only [Function.comp_apply, getD_record hj]
      rcases cell_reread h hwf row hattr with heq | ⟨d, e, hg, hf, hlost⟩
      · exact .inl (by rw [heq])
      · rw [hg, hf]
        exact .inr ⟨hlost.before, hlost.after⟩) row hrow
    simp only [Function.comp_apply, getD_record hj] at heq
    rcases cell_reread h hwf row hattr with hsame | ⟨d, e, hg, hf, hlost⟩
    · exact hsame
    · rw [hg, hf] at heq ⊢
      exact congrArg some heq
  · intro hread
    rw [List.filter_eq_self.mpr fun row hrow => (hread row hrow).1]
    apply List.Perm.of_eq
    apply List.map_congr_left
    intro row hrow
    unfold record
    apply List.map_congr_left
    intro j hj
    rw [(hread row hrow).2 j (List.mem_range.mp hj)]

end PlanTree

end JoinOptimizer
