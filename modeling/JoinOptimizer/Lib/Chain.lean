import Mathlib.Data.List.Nodup
import Mathlib.Data.List.Range
import Mathlib.Data.List.Perm.Subperm
import Mathlib.Logic.Function.Basic

/-! Singly linked lists of nodes in a heap, and heaps in which several owners each hold a list of
their own. -/

namespace JoinOptimizer.Lib

variable {α ω : Type}

/-- A node holds some elements and the address of the next node. -/
structure Node (α : Type) where
  data : List α
  next : Option Nat
  deriving DecidableEq, Repr

/-- The nodes by address; a deleted node leaves its address unused. -/
abbrev Heap (α : Type) := List (Option (Node α))

namespace Heap

def get (h : Heap α) (p : Nat) : Option (Node α) := h[p]?.join

/-- The heap with a new node, whose address is the length of the heap before. -/
def new (h : Heap α) (n : Node α) : Heap α := h ++ [some n]

def put (h : Heap α) (p : Nat) (n : Node α) : Heap α := h.set p (some n)

def delete (h : Heap α) (p : Nat) : Heap α := h.set p none

theorem lt_length_of_get {h : Heap α} {p : Nat} {n : Node α} (hp : h.get p = some n) :
    p < h.length := by
  by_contra hge
  unfold get at hp
  rw [List.getElem?_eq_none (by omega)] at hp
  cases hp

@[simp] theorem get_new_self (h : Heap α) (n : Node α) : (h.new n).get h.length = some n := by
  simp [get, new]

theorem get_new_of_lt {h : Heap α} {n : Node α} {p : Nat} (hp : p < h.length) :
    (h.new n).get p = h.get p := by
  unfold get new
  rw [List.getElem?_append_left hp]

theorem get_put_self {h : Heap α} {p : Nat} {n : Node α} (hp : p < h.length) :
    (h.put p n).get p = some n := by
  simp [get, put, hp]

theorem get_put_of_ne {h : Heap α} {p q : Nat} {n : Node α} (hq : q ≠ p) :
    (h.put p n).get q = h.get q := by
  unfold get put
  rw [List.getElem?_set_ne hq.symm]

theorem get_delete_of_ne {h : Heap α} {p q : Nat} (hq : q ≠ p) :
    (h.delete p).get q = h.get q := by
  unfold get delete
  rw [List.getElem?_set_ne hq.symm]

end Heap

/-- The nodes at the addresses `ps`, linked in this order from the pointer `root` on, hold the
lists `xs`. -/
inductive Chain (h : Heap α) : Option Nat → List Nat → List (List α) → Prop
  | nil : Chain h none [] []
  | cons {p : Nat} {n : Node α} {ps : List Nat} {xs : List (List α)} :
      h.get p = some n → Chain h n.next ps xs → Chain h (some p) (p :: ps) (n.data :: xs)

namespace Chain

variable {h h' : Heap α} {root : Option Nat} {ps : List Nat} {xs : List (List α)}

theorem eq_nil (hc : Chain h root [] xs) : root = none ∧ xs = [] := by
  cases hc
  exact ⟨rfl, rfl⟩

theorem eq_nil_of_none (hc : Chain h none ps xs) : ps = [] ∧ xs = [] := by
  cases hc
  exact ⟨rfl, rfl⟩

theorem root_eq_none (hc : Chain h root ps []) : root = none := by
  cases hc
  rfl

theorem get_of_mem (hc : Chain h root ps xs) {p : Nat} (hp : p ∈ ps) :
    ∃ n, h.get p = some n := by
  induction hc with
  | nil => cases hp
  | cons hget _ ih =>
    rcases List.mem_cons.mp hp with rfl | hp
    · exact ⟨_, hget⟩
    · exact ih hp

theorem lt_length (hc : Chain h root ps xs) {p : Nat} (hp : p ∈ ps) : p < h.length := by
  obtain ⟨n, hn⟩ := hc.get_of_mem hp
  exact Heap.lt_length_of_get hn

/-- A chain sees only its own nodes. -/
theorem frame (hc : Chain h root ps xs) (hsame : ∀ p ∈ ps, h'.get p = h.get p) :
    Chain h' root ps xs := by
  induction hc with
  | nil => exact .nil
  | cons hget _ ih =>
    rename_i p n ps xs _
    refine .cons ((hsame p (by simp)).trans hget) (ih fun q hq => ?_)
    exact hsame q (List.mem_cons_of_mem _ hq)

theorem unique {ps' : List Nat} {xs' : List (List α)} (hc : Chain h root ps xs)
    (hc' : Chain h root ps' xs') : ps = ps' ∧ xs = xs' := by
  induction hc generalizing ps' xs' with
  | nil =>
    cases hc'
    exact ⟨rfl, rfl⟩
  | cons hget _ ih =>
    cases hc' with
    | cons hget' hrest' =>
      cases Option.some.inj (hget.symm.trans hget')
      obtain ⟨rfl, rfl⟩ := ih hrest'
      exact ⟨rfl, rfl⟩

/-- From each of its nodes on, a chain is a chain that is no longer. -/
theorem from_mem (hc : Chain h root ps xs) {p : Nat} (hp : p ∈ ps) :
    ∃ qs ys, Chain h (some p) (p :: qs) ys ∧ qs.length < ps.length := by
  induction hc with
  | nil => cases hp
  | cons hget hrest ih =>
    rcases List.mem_cons.mp hp with rfl | hp
    · exact ⟨_, _, .cons hget hrest, by simp⟩
    · obtain ⟨qs, ys, hq, hlen⟩ := ih hp
      exact ⟨qs, ys, hq, by simp only [List.length_cons]; omega⟩

/-- A chain that ends never comes back to one of its nodes. -/
theorem nodup (hc : Chain h root ps xs) : ps.Nodup := by
  induction hc with
  | nil => exact List.nodup_nil
  | cons hget hrest ih =>
    refine List.nodup_cons.mpr ⟨fun hp => ?_, ih⟩
    obtain ⟨qs, ys, hq, hlen⟩ := hrest.from_mem hp
    have heq := ((Chain.cons hget hrest).unique hq).1
    rw [(List.cons.inj heq).2] at hlen
    exact Nat.lt_irrefl _ hlen

/-- A chain has no more nodes than the heap has addresses. -/
theorem length_le (hc : Chain h root ps xs) : ps.length ≤ h.length := by
  have hsub : ps ⊆ List.range h.length := fun p hp => List.mem_range.mpr (hc.lt_length hp)
  simpa using (hc.nodup.subperm hsub).length_le

/-- Linking the last node of a chain to another chain joins the two. -/
theorem link {init : List Nat} {l : Nat} {n : Node α} {root' : Option Nat} {qs : List Nat}
    {ys : List (List α)} (hc : Chain h root (init ++ [l]) xs) (hl : h.get l = some n)
    (hc' : Chain h root' qs ys) (hout : l ∉ qs) :
    Chain (h.put l { n with next := root' }) root (init ++ [l] ++ qs) (xs ++ ys) := by
  have hlt := Heap.lt_length_of_get hl
  have hrest : Chain (h.put l { n with next := root' }) root' qs ys :=
    hc'.frame fun p hp => Heap.get_put_of_ne fun e => hout (e ▸ hp)
  induction init generalizing root xs with
  | nil =>
    cases hc with
    | cons hget hnil =>
      cases Option.some.inj (hget.symm.trans hl)
      rw [hnil.eq_nil.2]
      exact Chain.cons (n := { n with next := root' }) (Heap.get_put_self hlt) hrest
  | cons p init ih =>
    have hnodup := hc.nodup
    cases hc with
    | cons hget htail =>
      have hne : p ≠ l := by
        rintro rfl
        simp at hnodup
      exact .cons ((Heap.get_put_of_ne hne).trans hget) (ih htail)

end Chain

/-- Each owner holds a chain from its root, and no two owners share a node. -/
structure Owns (h : Heap α) (root : ω → Option Nat) (addr : ω → List Nat)
    (xs : ω → List (List α)) : Prop where
  chain : ∀ o, Chain h (root o) (addr o) (xs o)
  disjoint : ∀ o o', o ≠ o' → (addr o).Disjoint (addr o')

namespace Owns

variable [DecidableEq ω] {h : Heap α} {root : ω → Option Nat} {addr : ω → List Nat}
  {xs : ω → List (List α)}

private theorem disjoint_update {o : ω} {ps : List Nat}
    (hd : ∀ o o', o ≠ o' → (addr o).Disjoint (addr o'))
    (hps : ∀ o', o' ≠ o → ps.Disjoint (addr o')) :
    ∀ a b, a ≠ b → (Function.update addr o ps a).Disjoint (Function.update addr o ps b) := by
  intro a b hab
  by_cases ha : a = o
  · subst ha
    rw [Function.update_self, Function.update_of_ne hab.symm]
    exact hps b hab.symm
  · rw [Function.update_of_ne ha]
    by_cases hb : b = o
    · subst hb
      rw [Function.update_self]
      exact fun p hp hp' => hps a ha hp' hp
    · rw [Function.update_of_ne hb]
      exact hd a b hab

/-- One owner gives its places up, and another then has `ps`. -/
private theorem disjoint_give {o o' : ω} {ps : List Nat}
    (hd : ∀ o o', o ≠ o' → (addr o).Disjoint (addr o'))
    (hps : ∀ a, a ≠ o → a ≠ o' → ps.Disjoint (addr a)) :
    ∀ a b, a ≠ b → (Function.update (Function.update addr o' []) o ps a).Disjoint
      (Function.update (Function.update addr o' []) o ps b) := by
  refine disjoint_update (disjoint_update hd fun _ _ => List.disjoint_nil_left _) fun a ha => ?_
  by_cases ha' : a = o'
  · subst ha'
    rw [Function.update_self]
    exact List.disjoint_nil_right _
  · rw [Function.update_of_ne ha']
    exact hps a ha ha'

/-- A new node at the head of the list of `o`. -/
theorem push (ho : Owns h root addr xs) (o : ω) (d : List α) :
    Owns (h.new ⟨d, root o⟩) (Function.update root o (some h.length))
      (Function.update addr o (h.length :: addr o)) (Function.update xs o (d :: xs o)) where
  chain a := by
    have hframe : ∀ o, Chain (h.new ⟨d, root o⟩) (root o) (addr o) (xs o) := fun o =>
      (ho.chain o).frame fun p hp => Heap.get_new_of_lt ((ho.chain o).lt_length hp)
    by_cases ha : a = o
    · subst ha
      simp only [Function.update_self]
      exact .cons (Heap.get_new_self h ⟨d, root a⟩) (hframe a)
    · simp only [Function.update_of_ne ha]
      exact (ho.chain a).frame fun p hp => Heap.get_new_of_lt ((ho.chain a).lt_length hp)
  disjoint := by
    apply disjoint_update ho.disjoint
    intro a ha
    rw [List.disjoint_cons_left]
    refine ⟨fun hmem => ?_, ho.disjoint o a ha.symm⟩
    exact Nat.lt_irrefl _ ((ho.chain a).lt_length hmem)

/-- Other data in the first node of `o`. -/
theorem put_head (ho : Owns h root addr xs) {o : ω} {p : Nat} {n : Node α} (d : List α)
    (hroot : root o = some p) (hget : h.get p = some n) :
    Owns (h.put p { n with data := d }) root addr (Function.update xs o (d :: (xs o).tail)) where
  chain a := by
    have hlt := Heap.lt_length_of_get hget
    have hown := ho.chain o
    rw [hroot] at hown
    generalize hps : addr o = ps at hown
    generalize hys : xs o = ys at hown
    have hnodup := hown.nodup
    cases hown with
    | cons hget' hrest =>
      cases Option.some.inj (hget'.symm.trans hget)
      by_cases ha : a = o
      · subst ha
        rw [Function.update_self, hroot, hps]
        refine .cons (Heap.get_put_self hlt) (hrest.frame fun q hq => Heap.get_put_of_ne ?_)
        rintro rfl
        exact (List.nodup_cons.mp hnodup).1 hq
      · rw [Function.update_of_ne ha]
        refine (ho.chain a).frame fun q hq => Heap.get_put_of_ne ?_
        rintro rfl
        exact ho.disjoint o a (Ne.symm ha) (by rw [hps]; simp) hq
  disjoint := ho.disjoint

/-- The list of `o'` moves behind the last node of `o`. -/
theorem link (ho : Owns h root addr xs) {o o' : ω} {init : List Nat} {l : Nat} {n : Node α}
    (hne : o ≠ o') (hlast : addr o = init ++ [l]) (hget : h.get l = some n) :
    Owns (h.put l { n with next := root o' }) (Function.update root o' none)
      (Function.update (Function.update addr o' []) o (addr o ++ addr o'))
      (Function.update (Function.update xs o' []) o (xs o ++ xs o')) where
  chain a := by
    have hl : l ∈ addr o := by rw [hlast]; simp
    by_cases ha : a = o
    · subst ha
      rw [Function.update_of_ne hne, Function.update_self, Function.update_self, hlast]
      have hc := ho.chain a
      rw [hlast] at hc
      exact hc.link hget (ho.chain o') fun h' => ho.disjoint a o' hne hl h'
    · rw [Function.update_of_ne ha, Function.update_of_ne ha]
      by_cases ha' : a = o'
      · subst ha'
        simp only [Function.update_self]
        exact .nil
      · simp only [Function.update_of_ne ha']
        refine (ho.chain a).frame fun q hq => Heap.get_put_of_ne ?_
        rintro rfl
        exact ho.disjoint o a (Ne.symm ha) hl hq
  disjoint := by
    refine disjoint_give ho.disjoint fun a ha ha' => ?_
    rw [List.disjoint_append_left]
    exact ⟨ho.disjoint o a ha.symm, ho.disjoint o' a ha'.symm⟩

/-- The list of `o'` becomes the list of `o`, which had none. -/
theorem move (ho : Owns h root addr xs) {o o' : ω} (hne : o ≠ o') :
    Owns h (Function.update (Function.update root o' none) o (root o'))
      (Function.update (Function.update addr o' []) o (addr o'))
      (Function.update (Function.update xs o' []) o (xs o')) where
  chain a := by
    by_cases ha : a = o
    · subst ha
      simp only [Function.update_self]
      exact ho.chain o'
    · simp only [Function.update_of_ne ha]
      by_cases ha' : a = o'
      · subst ha'
        simp only [Function.update_self]
        exact .nil
      · simp only [Function.update_of_ne ha']
        exact ho.chain a
  disjoint := disjoint_give ho.disjoint fun a _ ha' => ho.disjoint o' a ha'.symm

end Owns

end JoinOptimizer.Lib
