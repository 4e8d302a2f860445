import Mathlib.Logic.Basic

/-! Trees of joins of which each asks for one equality.  They make all vertices of a class equal exactly if
no leaf has two of a class and no two classes have vertices on both sides of a join. -/

namespace JoinOptimizer.Lib

/-- A leaf has vertices, and a join asks that a vertex of its left side and one of its right side be
equal. -/
inductive JoinTree (V : Type)
  | leaf (vertices : V → Prop)
  | join (left right : JoinTree V) (x y : V)

namespace JoinTree

variable {V α : Type} {same : V → V → Prop} {tree left right : JoinTree V} {v w : V → α}

def Has : JoinTree V → V → Prop
  | leaf vertices, a => vertices a
  | join left right _ _, a => left.Has a ∨ right.Has a

/-- What every join asks for. -/
def Joined (v : V → α) : JoinTree V → Prop
  | leaf _ => True
  | join left right x y => left.Joined v ∧ right.Joined v ∧ v x = v y

/-- Every join asks for the equality of a vertex of either side, both of one class, and its sides have no
vertex in common. -/
def Proper (same : V → V → Prop) : JoinTree V → Prop
  | leaf _ => True
  | join left right x y => left.Proper same ∧ right.Proper same ∧
      (∀ a, left.Has a → ¬ right.Has a) ∧ left.Has x ∧ right.Has y ∧ same x y

/-- Vertices of one class have equal values. -/
def Equates (same : V → V → Prop) (v : V → α) (tree : JoinTree V) : Prop :=
  ∀ a b, tree.Has a → tree.Has b → same a b → v a = v b

/-- Every join finds equal values. -/
def Matched (v : V → Option α) : JoinTree V → Prop
  | leaf _ => True
  | join left right x y => left.Matched v ∧ right.Matched v ∧ (v x).isSome ∧ v x = v y

instance decidableMatched [DecidableEq α] (v : V → Option α) :
    (tree : JoinTree V) → Decidable (tree.Matched v)
  | leaf _ => isTrue trivial
  | join left right x y =>
    have := decidableMatched v left
    have := decidableMatched v right
    inferInstanceAs (Decidable (left.Matched v ∧ right.Matched v ∧ (v x).isSome ∧ v x = v y))

/-- Several vertices of one class have one value. -/
def Shares (same : V → V → Prop) (v : V → Option α) (tree : JoinTree V) : Prop :=
  ∀ a b, tree.Has a → tree.Has b → same a b → a ≠ b → (v a).isSome ∧ v a = v b

/-- No leaf has two vertices of one class, and at most one class is on both sides of a join. -/
def Covered (same : V → V → Prop) : JoinTree V → Prop
  | leaf vertices => ∀ a b, vertices a → vertices b → same a b → a = b
  | join left right _ _ => left.Covered same ∧ right.Covered same ∧
      ∀ a a' b b', left.Has a → left.Has a' → right.Has b → right.Has b' →
        same a b → same a' b' → same a a'

theorem Joined.congr (hproper : tree.Proper same) (h : tree.Joined v)
    (heq : ∀ a, tree.Has a → v a = w a) : tree.Joined w := by
  induction tree with
  | leaf vertices => trivial
  | join left right x y ihl ihr =>
    obtain ⟨hl, hr, -, hx, hy, -⟩ := hproper
    refine ⟨ihl hl h.1 fun a ha => heq a (.inl ha), ihr hr h.2.1 fun a ha => heq a (.inr ha), ?_⟩
    rw [← heq x (.inl hx), ← heq y (.inr hy)]
    exact h.2.2

theorem matched_congr {v w : V → Option α} (hproper : tree.Proper same)
    (h : ∀ a, tree.Has a → v a = w a) : tree.Matched v ↔ tree.Matched w := by
  induction tree with
  | leaf _ => rfl
  | join left right x y ihl ihr =>
    obtain ⟨hl, hr, -, hx, hy, -⟩ := hproper
    rw [Matched, Matched, ihl hl fun a ha => h a (.inl ha), ihr hr fun a ha => h a (.inr ha),
      h x (.inl hx), h y (.inr hy)]

/-- A function that agrees on every class meets every join. -/
theorem joined_of_respects (hproper : tree.Proper same) (h : ∀ a b, same a b → v a = v b) :
    tree.Joined v := by
  induction tree with
  | leaf vertices => trivial
  | join left right x y ihl ihr =>
    obtain ⟨hl, hr, -, -, -, hsame⟩ := hproper
    exact ⟨ihl hl, ihr hr, h x y hsame⟩

theorem Joined.imp {β : Type} {u : V → β} (hproper : tree.Proper same) (h : tree.Joined v)
    (hu : ∀ a b, same a b → v a = v b → u a = u b) : tree.Joined u := by
  induction tree with
  | leaf vertices => trivial
  | join left right x y ihl ihr =>
    obtain ⟨hl, hr, -, -, -, hsame⟩ := hproper
    exact ⟨ihl hl h.1, ihr hr h.2.1, hu x y hsame h.2.2⟩

/-- The sides of a join with the values of one function on the left and of another one on the right. -/
theorem joined_split (hproper : (join left right x y).Proper same) (hv : left.Joined v)
    (hw : right.Joined w) (heq : v x = w y) :
    ∃ u : V → α, (join left right x y).Joined u ∧ (∀ a, left.Has a → u a = v a) ∧
      ∀ a, right.Has a → u a = w a := by
  classical
  obtain ⟨hl, hr, hdisjoint, hx, hy, -⟩ := hproper
  have hleft : ∀ a, left.Has a → (if left.Has a then v a else w a) = v a := fun a ha => if_pos ha
  have hright : ∀ a, right.Has a → (if left.Has a then v a else w a) = w a :=
    fun a ha => if_neg fun ha' => hdisjoint a ha' ha
  refine ⟨fun a => if left.Has a then v a else w a, ⟨?_, ?_, ?_⟩, hleft, hright⟩
  · exact hv.congr hl fun a ha => (hleft a ha).symm
  · exact hw.congr hr fun a ha => (hright a ha).symm
  · dsimp only
    rw [hleft x hx, hright y hy, heq]

section Classes

variable (hsymm : ∀ a b, same a b → same b a) (htrans : ∀ a b c, same a b → same b c → same a c)
include hsymm htrans

/-- The joins of a covered tree make the vertices of every class equal. -/
theorem Covered.equates (h : tree.Covered same) (hproper : tree.Proper same) (hv : tree.Joined v) :
    tree.Equates same v := by
  induction tree with
  | leaf vertices =>
    intro a b ha hb hab
    rw [h a b ha hb hab]
  | join left right x y ihl ihr =>
    obtain ⟨hcl, hcr, hcut⟩ := h
    obtain ⟨hl, hr, -, hx, hy, hxy⟩ := hproper
    have hleft := ihl hcl hl hv.1
    have hright := ihr hcr hr hv.2.1
    -- the class that crosses the join is the class that the join makes equal
    have hcross : ∀ a b, left.Has a → right.Has b → same a b → v a = v b := by
      intro a b ha hb hab
      have hax : same a x := hcut a x b y ha hx hb hy hab hxy
      have hby : same b y := htrans b a y (hsymm a b hab) (htrans a x y hax hxy)
      calc v a = v x := hleft a x ha hx hax
        _ = v y := hv.2.2
        _ = v b := (hright b y hb hy hby).symm
    intro a b ha hb hab
    rcases ha with ha | ha <;> rcases hb with hb | hb
    · exact hleft a b ha hb hab
    · exact hcross a b ha hb hab
    · exact (hcross b a hb ha (hsymm a b hab)).symm
    · exact hright a b ha hb hab

/-- The joins of a covered tree find equal values exactly where all vertices of a class have them. -/
theorem Covered.matched_iff {v : V → Option α} (h : tree.Covered same) (hproper : tree.Proper same) :
    tree.Matched v ↔ tree.Shares same v := by
  induction tree with
  | leaf vertices => exact iff_of_true trivial fun a b ha hb hab hne => absurd (h a b ha hb hab) hne
  | join left right x y ihl ihr =>
    obtain ⟨hcl, hcr, hcut⟩ := h
    obtain ⟨hl, hr, hdisjoint, hx, hy, hxy⟩ := hproper
    rw [Matched, ihl hcl hl, ihr hcr hr]
    constructor
    · rintro ⟨hleft, hright, hsome, heq⟩
      -- the class that crosses the join is the class of the vertices that it compares
      have hcross : ∀ a b, left.Has a → right.Has b → same a b → (v a).isSome ∧ v a = v b := by
        intro a b ha hb hab
        have hax : same a x := hcut a x b y ha hx hb hy hab hxy
        have hby : same b y := htrans b a y (hsymm a b hab) (htrans a x y hax hxy)
        have hva : v a = v x := by
          by_cases hne : a = x
          · rw [hne]
          · exact (hleft a x ha hx hax hne).2
        have hvb : v b = v y := by
          by_cases hne : b = y
          · rw [hne]
          · exact (hright b y hb hy hby hne).2
        rw [hva, hvb]
        exact ⟨hsome, heq⟩
      intro a b ha hb hab hne
      rcases ha with ha | ha <;> rcases hb with hb | hb
      · exact hleft a b ha hb hab hne
      · exact hcross a b ha hb hab
      · obtain ⟨hsome, heq⟩ := hcross b a hb ha (hsymm a b hab)
        rw [← heq]
        exact ⟨hsome, rfl⟩
      · exact hright a b ha hb hab hne
    · intro hshares
      refine ⟨fun a b ha hb => hshares a b (.inl ha) (.inl hb),
        fun a b ha hb => hshares a b (.inr ha) (.inr hb), ?_⟩
      exact hshares x y (.inl hx) (.inr hy) hxy fun heq => hdisjoint x hx (heq ▸ hy)

/-- Where two classes have vertices on both sides of a join, one of them is left out. -/
theorem exists_crossing (hproper : (join left right x y).Proper same)
    (h : ∃ a a' b b', left.Has a ∧ left.Has a' ∧ right.Has b ∧ right.Has b' ∧ same a b ∧
      same a' b' ∧ ¬ same a a') :
    ∃ v : V → Bool, (join left right x y).Joined v ∧ ∃ a b, left.Has a ∧ right.Has b ∧ same a b ∧
      v a ≠ v b := by
  classical
  obtain ⟨hl, hr, -, -, hy, hxy⟩ := id hproper
  have hfree : ∃ a b, left.Has a ∧ right.Has b ∧ same a b ∧ ¬ same a y := by
    obtain ⟨a, a', b, b', ha, ha', hb, hb', hab, hab', hne⟩ := h
    by_cases hay : same a y
    · refine ⟨a', b', ha', hb', hab', fun hay' => hne ?_⟩
      exact htrans a y a' hay (hsymm a' y hay')
    · exact ⟨a, b, ha, hb, hab, hay⟩
  obtain ⟨a, b, ha, hb, hab, hay⟩ := hfree
  have hrespects : ∀ c d, same c d → decide (¬ same a c) = decide (¬ same a d) := by
    intro c d hcd
    have hiff : same a c ↔ same a d :=
      ⟨fun hac => htrans a c d hac hcd, fun had => htrans a d c had (hsymm c d hcd)⟩
    simp only [hiff]
  obtain ⟨u, hu, huleft, huright⟩ := joined_split (v := fun _ => true)
    (w := fun c => decide (¬ same a c)) hproper (joined_of_respects hl fun _ _ _ => rfl)
    (joined_of_respects hr hrespects) (decide_eq_true hay).symm
  refine ⟨u, hu, a, b, ha, hb, hab, ?_⟩
  rw [huleft a ha, huright b hb, decide_eq_false (not_not.mpr hab)]
  exact nofun

/-- A tree that is not covered leaves a class apart. -/
theorem exists_apart (hproper : tree.Proper same) (h : ¬ tree.Covered same) :
    ∃ v : V → Bool, tree.Joined v ∧ ¬ tree.Equates same v := by
  classical
  induction tree with
  | leaf vertices =>
    simp only [Covered, not_forall] at h
    obtain ⟨a, b, ha, hb, hab, hne⟩ := h
    refine ⟨fun c => decide (c = a), trivial, fun heq => hne ?_⟩
    have := heq a b ha hb hab
    simpa [eq_comm] using this
  | join left right x y ihl ihr =>
    obtain ⟨hl, hr, hrest⟩ := id hproper
    by_cases hcl : left.Covered same
    · by_cases hcr : right.Covered same
      · simp only [Covered, hcl, hcr, true_and, not_forall, exists_prop] at h
        obtain ⟨v, hv, a, b, ha, hb, hab, hne⟩ := exists_crossing hsymm htrans hproper h
        exact ⟨v, hv, fun heq => hne (heq a b (.inl ha) (.inr hb) hab)⟩
      · obtain ⟨w, hw, hapart⟩ := ihr hr hcr
        obtain ⟨u, hu, -, huright⟩ := joined_split (v := fun _ => w y) hproper
          (joined_of_respects hl fun _ _ _ => rfl) hw rfl
        refine ⟨u, hu, fun heq => hapart fun a b ha hb hab => ?_⟩
        rw [← huright a ha, ← huright b hb]
        exact heq a b (.inr ha) (.inr hb) hab
    · obtain ⟨v, hv, hapart⟩ := ihl hl hcl
      obtain ⟨u, hu, huleft, -⟩ := joined_split (w := fun _ => v x) hproper hv
        (joined_of_respects hr fun _ _ _ => rfl) rfl
      refine ⟨u, hu, fun heq => hapart fun a b ha hb hab => ?_⟩
      rw [← huleft a ha, ← huleft b hb]
      exact heq a b (.inl ha) (.inl hb) hab

end Classes

end JoinTree

end JoinOptimizer.Lib
