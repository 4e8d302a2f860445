import JoinOptimizer.Data
import JoinOptimizer.Lib.UnionFind
import Mathlib.Logic.Relation

/-! `DSU` of `include/common.h`: the classes of columns that are to be equal. -/

namespace JoinOptimizer

open Lib

structure DSU where
  pa : List Nat

namespace DSU

/-- The constructor. -/
def new (size : Nat) : DSU := ⟨List.range size⟩

/-- `find` for as many calls as `fuel`; a call behind another sets the parent that it came from. -/
def findFrom : Nat → DSU → Nat → Result (Nat × DSU)
  | 0, _, _ => .error .outOfFuel
  | fuel + 1, d, x => do
    let p ← index d.pa x
    if p = x then .ok (x, d)
    else
      let (r, d) ← findFrom fuel d p
      .ok (r, ⟨d.pa.set x r⟩)

/-- `find`. -/
def find (d : DSU) (x : Nat) : Result (Nat × DSU) := findFrom d.pa.length d x

/-- `unite`, whose right side is evaluated first. -/
def unite (d : DSU) (x y : Nat) : Result DSU := do
  let (s, d) ← d.find y
  let (r, d) ← d.find x
  .ok ⟨d.pa.set r s⟩

/-- Two elements of which `find` returns the same. -/
def SameClass (d : DSU) (x y : Nat) : Prop :=
  ∃ r d' d'', d.find x = .ok (r, d') ∧ d.find y = .ok (r, d'')

/-- A forest, as the constructor makes it and the operations keep it. -/
def Forest (d : DSU) : Prop := IsForest d.pa

/-- The same elements with the same roots. -/
structure SameRoots (d d' : DSU) : Prop where
  length : d'.pa.length = d.pa.length
  rootOf : ∀ x r, RootOf d'.pa x r ↔ RootOf d.pa x r

variable {d d' : DSU} {x y r : Nat}

theorem forest_new (size : Nat) : (new size).Forest := by
  intro x hx
  exact ⟨x, rootOf_self (List.getElem?_range (by simpa [new] using hx))⟩

theorem SameRoots.forest (h : SameRoots d d') (hd : d.Forest) : d'.Forest := by
  intro x hx
  obtain ⟨r, hr⟩ := hd x (by rwa [← h.length])
  exact ⟨r, (h.rootOf x r).mpr hr⟩

theorem SameRoots.trans {e : DSU} (h : SameRoots d d') (h' : SameRoots d' e) : SameRoots d e :=
  ⟨h'.length.trans h.length, fun x r => (h'.rootOf x r).trans (h.rootOf x r)⟩

theorem SameRoots.set (hd : d.Forest) (hx : RootOf d.pa x r) : SameRoots d ⟨d.pa.set x r⟩ :=
  ⟨List.length_set, fun _ _ => hx.set_iff hd⟩

theorem findFrom_spec (hd : d.Forest) {k fuel : Nat} (h : Leads d.pa k x r) (hfuel : k < fuel) :
    ∃ d', findFrom fuel d x = .ok (r, d') ∧ SameRoots d d' := by
  induction fuel generalizing k x with
  | zero => omega
  | succ fuel ih =>
    cases h with
    | root hroot =>
      refine ⟨d, ?_, rfl, fun _ _ => Iff.rfl⟩
      rw [findFrom, index_eq_ok.mpr hroot, ok_bind, if_pos rfl]
    | @step k x p r hparent hne hrest =>
      obtain ⟨d', hrun, hsame⟩ := ih hrest (by omega)
      have hx : RootOf d'.pa x r := (hsame.rootOf x r).mpr ⟨k + 1, .step hparent hne hrest⟩
      refine ⟨⟨d'.pa.set x r⟩, ?_, hsame.trans (.set (hsame.forest hd) hx)⟩
      rw [findFrom, index_eq_ok.mpr hparent, ok_bind, if_neg hne, hrun]
      rfl

/-- `find` ends and returns the root. -/
theorem find_spec (hd : d.Forest) (h : RootOf d.pa x r) :
    ∃ d', d.find x = .ok (r, d') ∧ SameRoots d d' := by
  obtain ⟨k, hk⟩ := h
  exact findFrom_spec hd hk hk.depth_lt

theorem lt_of_find (h : d.find x = .ok (r, d')) : x < d.pa.length := by
  rw [find] at h
  generalize hfuel : d.pa.length = fuel at h
  cases fuel with
  | zero => cases h
  | succ fuel =>
    obtain ⟨p, hp, -⟩ := bind_eq_ok.mp h
    rw [← hfuel]
    exact (List.getElem?_eq_some_iff.mp (index_eq_ok.mp hp)).1

/-- What `find` returns is the root. -/
theorem rootOf_of_find (hd : d.Forest) (h : d.find x = .ok (r, d')) : RootOf d.pa x r := by
  obtain ⟨s, hs⟩ := hd x (lt_of_find h)
  obtain ⟨e, hfind, -⟩ := find_spec hd hs
  obtain ⟨rfl, -⟩ := Prod.mk.inj (Except.ok.inj (hfind.symm.trans h))
  exact hs

theorem sameClass_iff (hd : d.Forest) : d.SameClass x y ↔ SameSet d.pa x y := by
  constructor
  · rintro ⟨t, e, e', ht, ht'⟩
    exact ⟨t, rootOf_of_find hd ht, rootOf_of_find hd ht'⟩
  · rintro ⟨t, ht, ht'⟩
    obtain ⟨d', hfind, -⟩ := find_spec hd ht
    obtain ⟨d'', hfind', -⟩ := find_spec hd ht'
    exact ⟨t, d', d'', hfind, hfind'⟩

theorem SameRoots.sameClass_iff (h : SameRoots d d') (hd : d.Forest) :
    d'.SameClass x y ↔ d.SameClass x y := by
  rw [DSU.sameClass_iff hd, DSU.sameClass_iff (h.forest hd)]
  simp only [SameSet, h.rootOf]

/-- A function that agrees on every class. -/
def Respects {α : Type} (d : DSU) (f : Nat → α) : Prop := ∀ x y, SameSet d.pa x y → f x = f y

theorem respects_new {α : Type} (size : Nat) (f : Nat → α) : (new size).Respects f := by
  rintro x y ⟨r, hx, hy⟩
  have hself : ∀ z, RootOf (new size).pa z r → z = r := by
    intro z hz
    have hlt : z < size := by simpa [new] using hz.lt
    exact (hz.unique (rootOf_self (List.getElem?_range hlt))).symm
  rw [hself x hx, hself y hy]

/-- `unite` makes two classes one. -/
theorem unite_spec (hd : d.Forest) (hx : x < d.pa.length) (hy : y < d.pa.length) :
    ∃ d', d.unite x y = .ok d' ∧ d'.Forest ∧ d'.pa.length = d.pa.length ∧
      ∀ {α : Type} (f : Nat → α), d'.Respects f ↔ d.Respects f ∧ f x = f y := by
  obtain ⟨s, hs⟩ := hd y hy
  obtain ⟨d₁, hfind, hsame⟩ := find_spec hd hs
  obtain ⟨r, hr⟩ := hd x hx
  obtain ⟨d₂, hfind', hsame'⟩ := find_spec (hsame.forest hd) ((hsame.rootOf x r).mpr hr)
  have hroots := hsame.trans hsame'
  have hforest := hroots.forest hd
  have hr' := (hroots.rootOf x r).mpr hr
  have hs' := (hroots.rootOf y s).mpr hs
  refine ⟨⟨d₂.pa.set r s⟩, ?_, hforest.link hr'.isRoot hs'.isRoot, ?_, fun f => ?_⟩
  · rw [unite, hfind, ok_bind]
    dsimp only
    rw [hfind', ok_bind]
  · rw [← hroots.length]
    exact List.length_set
  · have hset : ∀ i j, SameSet d₂.pa i j ↔ SameSet d.pa i j := by
      intro i j
      unfold SameSet
      simp only [hroots.rootOf]
    unfold Respects
    rw [respects_link hforest hr' hs']
    simp only [hset]

section Runs

/-- A call of one of the two operations. -/
inductive Op
  | unite (x y : Nat)
  | find (x : Nat)
  deriving DecidableEq

/-- The arguments of a call are below the size. -/
def Op.Below (n : Nat) : Op → Prop
  | unite x y => x < n ∧ y < n
  | find x => x < n

/-- The pair that a call unites. -/
def Op.pair? : Op → Option (Nat × Nat)
  | unite x y => some (x, y)
  | find _ => none

/-- A call, without what `find` returns. -/
def call (d : DSU) : Op → Result DSU
  | .unite x y => d.unite x y
  | .find x => do
    let (_, d) ← d.find x
    .ok d

/-- A sequence of calls. -/
def run (d : DSU) (ops : List Op) : Result DSU := ops.foldlM call d

/-- The pairs that the calls have united. -/
def united (ops : List Op) : List (Nat × Nat) := ops.filterMap Op.pair?

/-- The forest says nothing but that the pairs are equal. -/
structure Closes (n : Nat) (pairs : List (Nat × Nat)) (d : DSU) : Prop where
  forest : d.Forest
  length : d.pa.length = n
  respects : ∀ {α : Type} (f : Nat → α), d.Respects f ↔ ∀ p ∈ pairs, f p.1 = f p.2

variable {n : Nat} {pairs : List (Nat × Nat)}

theorem closes_new (n : Nat) : (new n).Closes n [] :=
  ⟨forest_new n, by simp [new], fun f => iff_of_true (respects_new n f) nofun⟩

theorem SameRoots.closes (h : SameRoots d d') (hd : d.Closes n pairs) : d'.Closes n pairs := by
  refine ⟨h.forest hd.forest, h.length.trans hd.length, fun f => ?_⟩
  rw [← hd.respects f]
  unfold Respects SameSet
  simp only [h.rootOf]

/-- Each call keeps the forest and adds the pair that it unites. -/
theorem Closes.call (h : d.Closes n pairs) {op : Op} (hop : op.Below n) :
    ∃ d', d.call op = .ok d' ∧ d'.Closes n (pairs ++ op.pair?.toList) := by
  cases op with
  | unite x y =>
    obtain ⟨hx, hy⟩ := hop
    obtain ⟨d', hunite, hforest, hlength, hrespects⟩ :=
      unite_spec h.forest (x := x) (y := y) (by rwa [h.length]) (by rwa [h.length])
    refine ⟨d', hunite, hforest, hlength.trans h.length, fun f => ?_⟩
    rw [hrespects f, h.respects f]
    simp [Op.pair?, or_imp, forall_and]
  | find x =>
    obtain ⟨r, hr⟩ := h.forest x (by rwa [h.length])
    obtain ⟨d', hfind, hsame⟩ := find_spec h.forest hr
    refine ⟨d', by simp only [DSU.call, hfind, ok_bind], ?_⟩
    simpa [Op.pair?] using hsame.closes h

theorem closes_run {ops : List Op} (hops : ∀ op ∈ ops, op.Below n) :
    ∃ d, (new n).run ops = .ok d ∧ d.Closes n (united ops) := by
  refine foldlM_total_prefix (P := fun pre d => d.Closes n (united pre)) ops (new n) (closes_new n) ?_
  intro pre op post d hsplit hd
  obtain ⟨d', hcall, hd'⟩ := hd.call (hops op (by simp [hsplit]))
  refine ⟨d', hcall, ?_⟩
  have hunited : united (pre ++ [op]) = united pre ++ op.pair?.toList := by
    rw [united, List.filterMap_append]
    cases op <;> rfl
  rwa [hunited]

/-- Two elements share a root where the pairs make them equal. -/
theorem Closes.sameSet_iff (h : d.Closes n pairs) (hx : x < n) (hy : y < n) :
    SameSet d.pa x y ↔ Relation.EqvGen (fun a b => (a, b) ∈ pairs) x y := by
  classical
  constructor
  · intro hsame
    -- the classes of the closure are a function that agrees on every pair
    let class' : Nat → Quot fun a b => (a, b) ∈ pairs := Quot.mk _
    have hrespects : d.Respects class' := (h.respects class').mpr fun p hp => Quot.sound hp
    exact Quot.eqvGen_exact (hrespects x y hsame)
  · intro hclosure
    -- the roots are one that agrees on every set
    have hroots : ∀ z < n, ∃ r, RootOf d.pa z r := fun z hz => h.forest z (by rwa [h.length])
    let root : Nat → Option Nat := fun z => if hz : z < n then some (hroots z hz).choose else none
    have hroot : ∀ z (hz : z < n), RootOf d.pa z (hroots z hz).choose := fun z hz =>
      (hroots z hz).choose_spec
    have hrespects : d.Respects root := by
      rintro a b ⟨r, ha, hb⟩
      have hlta : a < n := by
        rw [← h.length]
        exact ha.lt
      have hltb : b < n := by
        rw [← h.length]
        exact hb.lt
      simp only [root, dif_pos hlta, dif_pos hltb]
      rw [(hroot a hlta).unique ha, (hroot b hltb).unique hb]
    have hpairs := (h.respects root).mp hrespects
    have heq : root x = root y := by
      clear hx hy
      induction hclosure with
      | rel a b hab => exact hpairs _ hab
      | refl a => rfl
      | symm a b _ ih => exact ih.symm
      | trans a b c _ _ ih ih' => exact ih.trans ih'
    simp only [root, dif_pos hx, dif_pos hy, Option.some.injEq] at heq
    exact ⟨_, hroot x hx, heq ▸ hroot y hy⟩

/-- After any calls every `find` ends below the size, elements of one class are those that the united pairs
connect, and `find` changes no class. -/
theorem run_closure {ops : List Op} (hops : ∀ op ∈ ops, op.Below n) :
    ∃ d, (new n).run ops = .ok d ∧
      (∀ x < n, ∃ r d', d.find x = .ok (r, d') ∧ r < n ∧
        ∀ y z, d'.SameClass y z ↔ d.SameClass y z) ∧
      ∀ x < n, ∀ y < n, d.SameClass x y ↔
        Relation.EqvGen (fun a b => (a, b) ∈ united ops) x y := by
  obtain ⟨d, hrun, hd⟩ := closes_run hops
  refine ⟨d, hrun, fun x hx => ?_, fun x hx y hy => ?_⟩
  · obtain ⟨r, hr⟩ := hd.forest x (by rwa [hd.length])
    obtain ⟨d', hfind, hsame⟩ := find_spec hd.forest hr
    refine ⟨r, d', hfind, ?_, fun y z => hsame.sameClass_iff hd.forest⟩
    rw [← hd.length]
    exact (List.getElem?_eq_some_iff.mp hr.isRoot).1
  · rw [sameClass_iff hd.forest]
    exact hd.sameSet_iff hx hy

theorem run_closure_three :
    ∃ d, (new 3).run [.unite 0 1, .find 2, .unite 2 1] = .ok d ∧ d.SameClass 0 2 := by
  have hops : ∀ op ∈ [Op.unite 0 1, .find 2, .unite 2 1], op.Below 3 := by simp [Op.Below]
  obtain ⟨d, hrun, -, hclosure⟩ := run_closure hops
  refine ⟨d, hrun, (hclosure 0 (by decide) 2 (by decide)).mpr (.trans 0 1 2 ?_ ?_)⟩
  · exact .rel 0 1 (by decide)
  · exact .symm 2 1 (.rel 2 1 (by decide))

end Runs

end DSU

end JoinOptimizer
