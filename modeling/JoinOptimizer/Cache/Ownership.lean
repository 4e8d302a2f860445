import JoinOptimizer.Data
import JoinOptimizer.Lib.Runs
import Mathlib.Data.List.Count

/-! Who owns the pages of a column (`MappedMemory` and `Column` of `include/plan.h`).  A column owns
its pages, or they lie in a mapping that all columns of a cached table share and count. -/

namespace JoinOptimizer.Ownership

open Lib

/-- A `Page*`: a page that `new` made, or a place in the mapping of a region. -/
inductive PagePtr
  | owned (id : Nat)
  | mapped (region off : Nat)
  deriving DecidableEq

def PagePtr.IsMapped : PagePtr → Prop
  | .owned _ => False
  | .mapped _ _ => True

/-- `class MappedMemory`; fewer columns than addresses point to one, so `refs` never wraps. -/
structure MappedMemory where
  refs : Nat
  deriving DecidableEq

/-- `struct Column`; `mapped_memory` is the number of a region. -/
structure Column where
  type : DataType
  pages : List PagePtr
  mappedMemory : Option Nat
  deriving DecidableEq

/-- The objects of the program, each under its number: `none` is one that has been destroyed.  `deleted`
lists the pages passed to `delete`. -/
structure State where
  columns : List (Option Column)
  regions : List (Option MappedMemory)
  nextPage : Nat
  deleted : List PagePtr
  deriving DecidableEq

/-- The operations on columns and regions, each on the column of a number. -/
inductive Op
  | map
  | construct (type : DataType)
  | newPage (c : Nat)
  | assignMappedMemory (c r : Nat)
  | pushPage (c off : Nat)
  | moveConstruct (other : Nat)
  | moveAssign (this other : Nat)
  | destroy (c : Nat)

namespace State

def init : State := ⟨[], [], 0, []⟩

/-- A live column. -/
def column (s : State) (c : Nat) : Result Column :=
  match s.columns[c]? with
  | some (some column) => .ok column
  | _ => .error .outOfRange

/-- A live region. -/
def region (s : State) (r : Nat) : Result MappedMemory :=
  match s.regions[r]? with
  | some (some memory) => .ok memory
  | _ => .error .outOfRange

def setColumn (s : State) (c : Nat) (column : Option Column) : State :=
  { s with columns := s.columns.set c column }

def setRegion (s : State) (r : Nat) (memory : Option MappedMemory) : State :=
  { s with regions := s.regions.set r memory }

/-- `new MappedMemory(addr, length)`. -/
def map (s : State) : State := { s with regions := s.regions ++ [some ⟨0⟩] }

/-- `Column(DataType data_type)`. -/
def construct (s : State) (type : DataType) : State :=
  { s with columns := s.columns ++ [some ⟨type, [], none⟩] }

/-- `new_page`. -/
def newPage (s : State) (c : Nat) : Result State := do
  let column ← s.column c
  let s := s.setColumn c (some { column with pages := column.pages ++ [.owned s.nextPage] })
  .ok { s with nextPage := s.nextPage + 1 }

/-- `assign_mapped_memory`. -/
def assignMappedMemory (s : State) (c r : Nat) : Result State := do
  let column ← s.column c
  let memory ← s.region r
  let s := s.setColumn c (some { column with mappedMemory := some r })
  .ok (s.setRegion r (some ⟨memory.refs + 1⟩))

/-- `last_column.pages.push_back(page)` of `from_cache`: a page of the column's own mapping. -/
def pushPage (s : State) (c off : Nat) : Result State := do
  let column ← s.column c
  match column.mappedMemory with
  | some r => .ok (s.setColumn c (some { column with pages := column.pages ++ [.mapped r off] }))
  | none => .error .outOfRange

/-- `Column(Column&& other)`. -/
def moveConstruct (s : State) (other : Nat) : Result State := do
  let column ← s.column other
  let s := s.setColumn other (some { column with pages := [], mappedMemory := none })
  .ok { s with columns := s.columns ++ [some column] }

/-- `operator=(Column&& other)`. -/
def moveAssign (s : State) (this other : Nat) : Result State := do
  let column ← s.column this
  let source ← s.column other
  if this ≠ other then
    let s := { s with deleted := s.deleted ++ column.pages }
    let s := s.setColumn this (some source)
    .ok (s.setColumn other (some { source with pages := [], mappedMemory := none }))
  else .ok s

/-- `~Column()`. -/
def destroy (s : State) (c : Nat) : Result State := do
  let column ← s.column c
  match column.mappedMemory with
  | some r =>
    let memory ← s.region r
    let refs := memory.refs - 1
    .ok ((s.setRegion r (if refs = 0 then none else some ⟨refs⟩)).setColumn c none)
  | none => .ok ({ s with deleted := s.deleted ++ column.pages }.setColumn c none)

def step (s : State) : Op → Result State
  | .map => .ok s.map
  | .construct type => .ok (s.construct type)
  | .newPage c => s.newPage c
  | .assignMappedMemory c r => s.assignMappedMemory c r
  | .pushPage c off => s.pushPage c off
  | .moveConstruct other => s.moveConstruct other
  | .moveAssign this other => s.moveAssign this other
  | .destroy c => s.destroy c

/-- A column is live. -/
def Live (s : State) (c : Nat) : Prop := ∃ column, s.column c = .ok column

/-- The operations that a program can ask for: they name live objects, a mapping is given only to a
column as it was constructed, and pages of a mapping only to a column that has one. -/
def Allows (s : State) : Op → Prop
  | .map | .construct _ => True
  | .newPage c | .moveConstruct c | .destroy c => s.Live c
  | .assignMappedMemory c r =>
    (∃ type, s.column c = .ok ⟨type, [], none⟩) ∧ ∃ memory, s.region r = .ok memory
  | .pushPage c _ => ∃ column r, s.column c = .ok column ∧ column.mappedMemory = some r
  | .moveAssign this other => s.Live this ∧ s.Live other

/-- The number of live columns whose `mapped_memory` points to a region. -/
def pointing (s : State) (r : Nat) : Nat :=
  (s.columns.map fun column => column.bind Column.mappedMemory).count (some r)

/-- The counter of each live region is right. -/
def Counted (s : State) : Prop := ∀ r memory, s.region r = .ok memory → memory.refs = s.pointing r

/-- No page of a mapping was passed to `delete`. -/
def KeepsPages (s : State) : Prop := ∀ page ∈ s.deleted, ¬ page.IsMapped

/-- Of the live regions a step releases those to which the last pointer goes. -/
def Releases (s s' : State) : Prop :=
  ∀ r memory, s.region r = .ok memory →
    (s'.region r = .error .outOfRange ↔ 0 < s.pointing r ∧ s'.pointing r = 0)

/-- A step that does what the counters are for. -/
def Sound (s : State) (op : Op) : Prop :=
  ∃ s', s.step op = .ok s' ∧ s'.Counted ∧ s'.KeepsPages ∧ s.Releases s'

/-- A move assignment to a column whose pages lie in a mapping. -/
def Overwrites (s : State) : Op → Prop
  | .moveAssign this other =>
    this ≠ other ∧ ∃ column r, s.column this = .ok column ∧ column.mappedMemory = some r
  | _ => False

theorem column_eq_ok {s : State} {c : Nat} {column : Column} :
    s.column c = .ok column ↔ s.columns[c]? = some (some column) := by
  unfold State.column
  split <;> simp_all

theorem region_eq_ok {s : State} {r : Nat} {memory : MappedMemory} :
    s.region r = .ok memory ↔ s.regions[r]? = some (some memory) := by
  unfold region
  split <;> simp_all

/-- The counter of a region, zero when it is not live. -/
def refsOf (s : State) (r : Nat) : Nat :=
  match s.regions[r]? with
  | some (some memory) => memory.refs
  | _ => 0

theorem refsOf_of_region {s : State} {r : Nat} {memory : MappedMemory}
    (h : s.region r = .ok memory) : s.refsOf r = memory.refs := by
  rw [refsOf, region_eq_ok.mp h]

theorem region_of_refsOf {s : State} {r : Nat} (h : 0 < s.refsOf r) :
    ∃ memory, s.region r = .ok memory := by
  unfold refsOf at h
  split at h
  · next memory hr => exact ⟨memory, region_eq_ok.mpr hr⟩
  · exact absurd h (Nat.lt_irrefl 0)

section Pointing

variable {s : State} {c r : Nat} {column : Column}

/-- A column changed: the pointers to a region, less its old one and with its new one. -/
theorem pointing_setColumn (hc : s.column c = .ok column) (x : Option Column) :
    (s.setColumn c x).pointing r + (if column.mappedMemory = some r then 1 else 0) =
      s.pointing r + (if x.bind Column.mappedMemory = some r then 1 else 0) := by
  have hget := column_eq_ok.mp hc
  obtain ⟨hlt, hcol⟩ := List.getElem?_eq_some_iff.mp hget
  have hlen : c < (s.columns.map fun column => column.bind Column.mappedMemory).length := by
    simpa using hlt
  have hmem : (s.columns.map fun column => column.bind Column.mappedMemory)[c] =
      column.mappedMemory := by
    simp [hcol]
  have hpos : column.mappedMemory = some r → 0 < s.pointing r := by
    intro h
    apply List.count_pos_iff.mpr
    rw [← h, ← hmem]
    exact List.getElem_mem _
  simp only [pointing, setColumn, List.map_set] at hpos ⊢
  rw [List.count_set hlen, hmem]
  simp only [beq_iff_eq]
  by_cases h : column.mappedMemory = some r
  · have := hpos h
    simp only [if_pos h]
    omega
  · simp only [if_neg h]
    omega

/-- A new column adds its pointer. -/
theorem pointing_append (s : State) (column : Column) (r : Nat) :
    ({ s with columns := s.columns ++ [some column] } : State).pointing r =
      s.pointing r + (if column.mappedMemory = some r then 1 else 0) := by
  simp [pointing, List.count_append, List.count_singleton]

theorem pointing_pos (hc : s.column c = .ok column) (hr : column.mappedMemory = some r) :
    0 < s.pointing r := by
  have h := pointing_setColumn (r := r) hc none
  rw [if_pos hr] at h
  simp at h
  omega

end Pointing

@[simp] theorem pointing_setRegion (s : State) (r r' : Nat) (x : Option MappedMemory) :
    (s.setRegion r x).pointing r' = s.pointing r' := rfl

@[simp] theorem refsOf_setColumn (s : State) (c r : Nat) (x : Option Column) :
    (s.setColumn c x).refsOf r = s.refsOf r := rfl

@[simp] theorem region_setColumn (s : State) (c r : Nat) (x : Option Column) :
    (s.setColumn c x).region r = s.region r := rfl

theorem refsOf_setRegion {s : State} {r : Nat} {memory : MappedMemory} (hr : s.region r = .ok memory)
    (x : Option MappedMemory) (r' : Nat) :
    (s.setRegion r x).refsOf r' =
      if r = r' then (x.map MappedMemory.refs).getD 0 else s.refsOf r' := by
  have hlt : r < s.regions.length := (List.getElem?_eq_some_iff.mp (region_eq_ok.mp hr)).1
  simp only [refsOf, setRegion, List.getElem?_set]
  by_cases h : r = r'
  · subst h
    cases x <;> simp [hlt]
  · simp [h]

/-- A column without a mapping owns its pages. -/
def Tidy (column : Column) : Prop :=
  column.mappedMemory = none → ∀ page ∈ column.pages, ¬ page.IsMapped

/-- The counters are right, and no column would delete a page of a mapping. -/
structure Accounted (s : State) : Prop where
  refs : ∀ r, s.refsOf r = s.pointing r
  tidy : ∀ column, some column ∈ s.columns → Tidy column
  kept : s.KeepsPages

theorem accounted_init : init.Accounted where
  refs _ := rfl
  tidy _ h := by simp [init] at h
  kept _ h := by simp [init] at h

namespace Accounted

variable {s : State} {c r : Nat} {column : Column}

theorem counted (h : s.Accounted) : s.Counted := fun r memory hr => by
  rw [← refsOf_of_region hr, h.refs]

theorem tidy_column (h : s.Accounted) (hc : s.column c = .ok column) : Tidy column :=
  h.tidy column (List.mem_of_getElem? (column_eq_ok.mp hc))

/-- A column that a mapping has been given to points to a live region. -/
theorem region_live (h : s.Accounted) (hc : s.column c = .ok column)
    (hr : column.mappedMemory = some r) : ∃ memory, s.region r = .ok memory :=
  region_of_refsOf (by rw [h.refs]; exact pointing_pos hc hr)

/-- A change of one column keeps the others as they are. -/
theorem tidy_setColumn (h : ∀ column, some column ∈ s.columns → Tidy column) {x : Option Column}
    (hx : ∀ column, x = some column → Tidy column) :
    ∀ column, some column ∈ (s.setColumn c x).columns → Tidy column := by
  intro column hmem
  rcases List.mem_or_eq_of_mem_set hmem with hmem | hmem
  · exact h column hmem
  · exact hx column hmem.symm

end Accounted

/-- A step after which the counters are right again, and which releases what it should. -/
def Advances (s s' : State) : Prop := s'.Accounted ∧ s.Releases s'

/-- A step that leaves the regions and loses no pointer releases nothing. -/
theorem releases_of_le {s s' : State}
    (hlive : ∀ r memory, s.region r = .ok memory → ∃ memory', s'.region r = .ok memory')
    (hle : ∀ r, s.pointing r ≤ s'.pointing r) : s.Releases s' := by
  intro r memory hr
  obtain ⟨memory', hr'⟩ := hlive r memory hr
  have := hle r
  rw [hr']
  simp
  omega

section Steps

variable {s : State} (h : s.Accounted)
include h

/-- A step that leaves the regions and the number of pointers to each. -/
theorem advances_of_pointing {s' : State} (hregions : s'.regions = s.regions)
    (hpoint : ∀ r, s'.pointing r = s.pointing r)
    (htidy : ∀ column, some column ∈ s'.columns → Tidy column) (hkept : s'.KeepsPages) :
    s.Advances s' := by
  refine ⟨⟨fun r => ?_, htidy, hkept⟩,
    releases_of_le (fun r memory hr => ⟨memory, ?_⟩) fun r => (hpoint r).ge⟩
  · rw [hpoint, ← h.refs, refsOf, refsOf, hregions]
  · rw [region_eq_ok, hregions]
    exact region_eq_ok.mp hr

theorem map_advances : s.Advances s.map := by
  have hrefs : ∀ r, s.map.refsOf r = s.refsOf r := by
    intro r
    simp only [refsOf, map, List.getElem?_append]
    by_cases hr : r < s.regions.length
    · simp [hr]
    · rw [if_neg hr, List.getElem?_eq_none (l := s.regions) (by omega)]
      cases r - s.regions.length <;> simp
  refine ⟨⟨fun r => (hrefs r).trans (h.refs r), h.tidy, h.kept⟩,
    releases_of_le (fun r memory hr => ⟨memory, ?_⟩) fun r => Nat.le_refl _⟩
  have hlt := (List.getElem?_eq_some_iff.mp (region_eq_ok.mp hr)).1
  rw [region_eq_ok, map, List.getElem?_append_left hlt, region_eq_ok.mp hr]

theorem construct_advances (type : DataType) : s.Advances (s.construct type) := by
  have hpoint : ∀ r, (s.construct type).pointing r = s.pointing r := fun r => by
    rw [construct, pointing_append]
    simp
  refine advances_of_pointing h rfl hpoint ?_ h.kept
  intro column hmem
  rcases List.mem_append.mp hmem with hmem | hmem
  · exact h.tidy column hmem
  · simp only [List.mem_singleton, Option.some.injEq] at hmem
    subst hmem
    simp [Tidy]

/-- New pages on a column, when they are such as it may have. -/
theorem setPages_advances {c : Nat} {column : Column} (hc : s.column c = .ok column)
    {pages : List PagePtr} (htidy : Tidy { column with pages }) (n : Nat) :
    s.Advances { s.setColumn c (some { column with pages }) with nextPage := n } := by
  have hpoint : ∀ r, (s.setColumn c (some { column with pages })).pointing r = s.pointing r :=
    fun r => by
      have := pointing_setColumn (r := r) hc (some { column with pages })
      simpa using this
  refine advances_of_pointing h rfl hpoint ?_ h.kept
  exact Accounted.tidy_setColumn h.tidy fun x hx => by
    cases hx
    exact htidy

theorem newPage_advances {c : Nat} (hlive : s.Live c) :
    ∃ s', s.newPage c = .ok s' ∧ s.Advances s' := by
  obtain ⟨column, hc⟩ := hlive
  refine ⟨_, by rw [newPage, hc, ok_bind], setPages_advances h hc ?_ _⟩
  intro hnone page hpage
  rcases List.mem_append.mp hpage with hpage | hpage
  · exact h.tidy_column hc hnone page hpage
  · rw [List.mem_singleton.mp hpage]
    exact id

theorem pushPage_advances {c off : Nat} {column : Column} {r : Nat} (hc : s.column c = .ok column)
    (hr : column.mappedMemory = some r) : ∃ s', s.pushPage c off = .ok s' ∧ s.Advances s' := by
  have hpush : s.pushPage c off =
      .ok (s.setColumn c (some { column with pages := column.pages ++ [.mapped r off] })) := by
    rw [pushPage, hc, ok_bind]
    simp only [hr]
  refine ⟨_, hpush, setPages_advances h hc ?_ s.nextPage⟩
  intro hnone
  rw [hr] at hnone
  cases hnone

theorem assign_advances {c r : Nat} {type : DataType} {memory : MappedMemory}
    (hc : s.column c = .ok ⟨type, [], none⟩) (hr : s.region r = .ok memory) :
    ∃ s', s.assignMappedMemory c r = .ok s' ∧ s.Advances s' := by
  refine ⟨_, by rw [assignMappedMemory, hc, ok_bind, hr, ok_bind], ?_⟩
  have hpoint : ∀ r', (s.setColumn c (some ⟨type, [], some r⟩)).pointing r' =
      s.pointing r' + if r = r' then 1 else 0 := fun r' => by
    have := pointing_setColumn (r := r') hc (some ⟨type, [], some r⟩)
    simpa using this
  refine ⟨⟨fun r' => ?_, ?_, h.kept⟩, releases_of_le (fun r' memory' hr' => ?_) fun r' => ?_⟩
  · rw [refsOf_setRegion (s := s.setColumn c _) hr, pointing_setRegion, hpoint, refsOf_setColumn, ← h.refs]
    by_cases heq : r = r'
    · subst heq
      simp [refsOf_of_region hr]
    · simp [heq]
  · exact Accounted.tidy_setColumn h.tidy fun x hx => by
      cases hx
      simp [Tidy]
  · by_cases heq : r = r'
    · subst heq
      have hlt := (List.getElem?_eq_some_iff.mp (region_eq_ok.mp hr)).1
      exact ⟨⟨memory.refs + 1⟩, region_eq_ok.mpr (by simp [setRegion, setColumn, hlt])⟩
    · exact ⟨memory', region_eq_ok.mpr
        (by simpa [setRegion, setColumn, heq] using region_eq_ok.mp hr')⟩
  · rw [pointing_setRegion, hpoint]
    omega

theorem moveConstruct_advances {c : Nat} (hlive : s.Live c) :
    ∃ s', s.moveConstruct c = .ok s' ∧ s.Advances s' := by
  obtain ⟨column, hc⟩ := hlive
  refine ⟨_, by rw [moveConstruct, hc, ok_bind], ?_⟩
  have hpoint : ∀ r, ({ s.setColumn c (some { column with pages := [], mappedMemory := none }) with
      columns := (s.setColumn c (some { column with pages := [], mappedMemory := none })).columns ++
        [some column] } : State).pointing r = s.pointing r := fun r => by
    have := pointing_setColumn (r := r) hc
      (some { column with pages := [], mappedMemory := none })
    rw [pointing_append]
    simpa using this
  refine advances_of_pointing h rfl hpoint ?_ h.kept
  intro x hmem
  rcases List.mem_append.mp hmem with hmem | hmem
  · refine Accounted.tidy_setColumn h.tidy ?_ x hmem
    intro y hy
    cases hy
    simp [Tidy]
  · cases List.mem_singleton.mp hmem
    exact h.tidy_column hc

/-- A move assignment drops the pages of the column assigned to, and its pointer without counting. -/
theorem moveAssign_eq {c d : Nat} {column source : Column} (hc : s.column c = .ok column)
    (hd : s.column d = .ok source) (hne : c ≠ d) :
    ∃ s', s.moveAssign c d = .ok s' ∧ s'.regions = s.regions ∧
      s'.deleted = s.deleted ++ column.pages ∧
      (∀ x, some x ∈ s'.columns → Tidy x) ∧
      ∀ r, s'.pointing r + (if column.mappedMemory = some r then 1 else 0) = s.pointing r := by
  have hrun : s.moveAssign c d =
      .ok (({ s with deleted := s.deleted ++ column.pages }.setColumn c (some source)).setColumn d
        (some { source with pages := [], mappedMemory := none })) := by
    rw [moveAssign, hc, ok_bind, hd, ok_bind, if_pos hne]
  refine ⟨_, hrun, rfl, rfl, ?_, fun r => ?_⟩
  · refine Accounted.tidy_setColumn (Accounted.tidy_setColumn h.tidy ?_) ?_
    · intro x hx
      cases hx
      exact h.tidy_column hd
    · intro x hx
      cases hx
      simp [Tidy]
  · have hd' : ({ s with deleted := s.deleted ++ column.pages }.setColumn c (some source)).column d =
        .ok source := by
      rw [column_eq_ok] at hd ⊢
      simpa [setColumn, List.getElem?_set, hne] using hd
    have hfirst := pointing_setColumn (s := { s with deleted := s.deleted ++ column.pages }) (r := r)
      hc (some source)
    have hsecond := pointing_setColumn (r := r) hd'
      (some { source with pages := [], mappedMemory := none })
    have hsame : ({ s with deleted := s.deleted ++ column.pages } : State).pointing r =
      s.pointing r := rfl
    simp only [Option.bind_some] at hfirst hsecond
    rw [hsame] at hfirst
    simp only [reduceCtorEq, if_false] at hsecond
    omega

theorem moveAssign_advances {c d : Nat} (hc : s.Live c) (hd : s.Live d)
    (hgood : ¬ s.Overwrites (.moveAssign c d)) : ∃ s', s.moveAssign c d = .ok s' ∧ s.Advances s' := by
  obtain ⟨column, hc⟩ := hc
  obtain ⟨source, hd⟩ := hd
  by_cases hne : c = d
  · refine ⟨s, by rw [moveAssign, hc, ok_bind, hd, ok_bind, if_neg (not_not.mpr hne)], h, ?_⟩
    exact releases_of_le (fun r memory hr => ⟨memory, hr⟩) fun r => Nat.le_refl _
  · have hnone : column.mappedMemory = none := by
      cases hm : column.mappedMemory with
      | none => rfl
      | some r => exact absurd ⟨hne, column, r, hc, hm⟩ hgood
    obtain ⟨s', hrun, hregions, hdeleted, htidy, hpoint⟩ := moveAssign_eq h hc hd hne
    have hsame : ∀ r, s'.pointing r = s.pointing r := fun r => by simpa [hnone] using hpoint r
    refine ⟨s', hrun, advances_of_pointing h hregions hsame htidy ?_⟩
    intro page hpage
    rw [hdeleted] at hpage
    rcases List.mem_append.mp hpage with hpage | hpage
    · exact h.kept page hpage
    · exact h.tidy_column hc hnone page hpage

/-- A move assignment to a column that points to a mapping leaves the counter one too high. -/
theorem overwrites_not_counted {op : Op} (hover : s.Overwrites op) (hallow : s.Allows op) :
    ¬ s.Sound op := by
  cases op with
  | moveAssign c d =>
    obtain ⟨hne, column, r, hc, hr⟩ := hover
    obtain ⟨source, hd⟩ := hallow.2
    obtain ⟨s', hrun, hregions, -, -, hpoint⟩ := moveAssign_eq h hc hd hne
    rintro ⟨s'', hrun', hcounted, -, -⟩
    cases hrun.symm.trans hrun'
    obtain ⟨memory, hmem⟩ := h.region_live hc hr
    have hmem' : s'.region r = .ok memory := by
      rw [region_eq_ok, hregions]
      exact region_eq_ok.mp hmem
    have hbefore := h.counted r memory hmem
    have hafter := hcounted r memory hmem'
    have hdrop := hpoint r
    rw [if_pos hr] at hdrop
    omega
  | _ => cases hover

theorem destroy_advances {c : Nat} (hlive : s.Live c) :
    ∃ s', s.destroy c = .ok s' ∧ s.Advances s' := by
  obtain ⟨column, hc⟩ := hlive
  have htidy := Accounted.tidy_setColumn h.tidy (c := c) (x := none) fun x hx => by cases hx
  cases hr : column.mappedMemory with
  | none =>
    have hrun : s.destroy c = .ok ({ s with deleted := s.deleted ++ column.pages }.setColumn c none) := by
      simp only [destroy, hc, ok_bind, hr]
    have hpoint : ∀ r, (s.setColumn c none).pointing r = s.pointing r := fun r => by
      have := pointing_setColumn (r := r) hc none
      simpa [hr] using this
    refine ⟨_, hrun, advances_of_pointing h rfl hpoint htidy ?_⟩
    intro page hpage
    rcases List.mem_append.mp hpage with hpage | hpage
    · exact h.kept page hpage
    · exact h.tidy_column hc hr page hpage
  | some r =>
    obtain ⟨memory, hmem⟩ := h.region_live hc hr
    obtain ⟨x, hx⟩ : ∃ x, x = if memory.refs - 1 = 0 then none else some (⟨memory.refs - 1⟩ : MappedMemory) :=
      ⟨_, rfl⟩
    have hrun : s.destroy c = .ok ((s.setRegion r x).setColumn c none) := by
      simp only [destroy, hc, ok_bind, hr, hmem, hx]
    have hcount := h.counted r memory hmem
    have hpoint : ∀ r', (s.setColumn c none).pointing r' + (if r = r' then 1 else 0) =
        s.pointing r' := fun r' => by
      have := pointing_setColumn (r := r') hc none
      simpa [hr] using this
    have hown := hpoint r
    rw [if_pos rfl] at hown
    refine ⟨_, hrun, ⟨fun r' => ?_, htidy, h.kept⟩, fun r' memory' hr' => ?_⟩
    · show (s.setRegion r x).refsOf r' = (s.setColumn c none).pointing r'
      rw [refsOf_setRegion hmem]
      have hother := hpoint r'
      have hrefs := h.refs r'
      by_cases heq : r = r'
      · subst heq
        rw [if_pos rfl, hx]
        split <;> simp <;> omega
      · simp only [if_neg heq] at hother ⊢
        omega
    · show (s.setRegion r x).region r' = _ ↔ _ ∧ (s.setColumn c none).pointing r' = 0
      have hlt := (List.getElem?_eq_some_iff.mp (region_eq_ok.mp hmem)).1
      by_cases heq : r = r'
      · subst heq
        have hregion : (s.setRegion r x).region r = .error .outOfRange ↔ x = none := by
          cases x <;> simp [region, setRegion, hlt]
        rw [hregion, hx]
        split <;> simp <;> omega
      · have hsame : (s.setRegion r x).region r' = s.region r' := by
          simp [region, setRegion, heq]
        have hother := hpoint r'
        rw [if_neg heq] at hother
        rw [hsame, hr']
        simp
        omega

end Steps

theorem step_advances {s : State} (h : s.Accounted) {op : Op} (hallow : s.Allows op)
    (hgood : ¬ s.Overwrites op) : ∃ s', s.step op = .ok s' ∧ s.Advances s' := by
  cases op with
  | map => exact ⟨_, rfl, map_advances h⟩
  | construct type => exact ⟨_, rfl, construct_advances h type⟩
  | newPage c => exact newPage_advances h hallow
  | assignMappedMemory c r =>
    obtain ⟨⟨type, hc⟩, memory, hr⟩ := hallow
    exact assign_advances h hc hr
  | pushPage c off =>
    obtain ⟨column, r, hc, hr⟩ := hallow
    exact pushPage_advances h hc hr
  | moveConstruct c => exact moveConstruct_advances h hallow
  | moveAssign c d => exact moveAssign_advances h hallow.1 hallow.2 hgood
  | destroy c => exact destroy_advances h hallow

theorem sound_iff {s : State} (h : s.Accounted) {op : Op} (hallow : s.Allows op) :
    s.Sound op ↔ ¬ s.Overwrites op := by
  constructor
  · intro hsound hover
    exact overwrites_not_counted h hover hallow hsound
  · intro hgood
    obtain ⟨s', hrun, hacc, hrel⟩ := step_advances h hallow hgood
    exact ⟨s', hrun, hacc.counted, hacc.kept, hrel⟩

end State

open State

/-- A program's sequence of operations keeps every counter right, releases each region when the last
pointer to it goes and deletes no page of a mapping exactly when it never move-assigns another column to
one whose pages lie in a mapping. -/
theorem run_sound_iff (ops : List Op) :
    Always step Allows Sound init ops ↔ Always step Allows (fun s op => ¬ s.Overwrites op) init ops :=
  always_iff (fun _ _ h hallow => sound_iff h hallow)
    (fun s op s' h hallow hgood hstep => by
      obtain ⟨t, ht, hadv⟩ := step_advances h hallow hgood
      cases hstep.symm.trans ht
      exact hadv.1)
    ops accounted_init

/-- A fresh column assigned to the one column of a mapping: the page of the mapping is deleted, and
the counter stays at one. -/
theorem moveAssign_unsound :
    ¬ ∀ ops, Always step Allows Sound init ops := by
  intro hall
  have h := hall [.map, .construct .INT32, .assignMappedMemory 0 0, .pushPage 0 0, .construct .INT32,
    .moveAssign 0 1]
  have h := (h trivial).2 _ rfl
  have h := (h trivial).2 _ rfl
  have h := (h ⟨⟨.INT32, rfl⟩, ⟨0⟩, rfl⟩).2 _ rfl
  have h := (h ⟨_, 0, rfl, rfl⟩).2 _ rfl
  have h := (h trivial).2 _ rfl
  obtain ⟨s, hstep, hcounted, hkept, -⟩ := (h ⟨⟨_, rfl⟩, ⟨_, rfl⟩⟩).1
  cases hstep
  exact hkept (.mapped 0 0) (List.mem_singleton.mpr rfl) trivial

end JoinOptimizer.Ownership
