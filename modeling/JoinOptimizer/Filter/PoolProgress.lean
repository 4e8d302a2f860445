import JoinOptimizer.Filter.PoolRuns
import JoinOptimizer.Lib.Progress
import Mathlib.Algebra.Order.BigOperators.Group.Finset

/-! Every call of `run` returns, and the destructor joins every worker: the effort that is left in a state of
the thread pool, and a step that is always possible. -/

namespace JoinOptimizer

open Lib

namespace FilterThreadPool

variable {F : Type}

/-- A wake-up without a notification. -/
inductive Spurious (numThreads : Nat) (s : Pool F) : Pool F → Prop
  | worker {i : Nat} : i < numThreads → (s.workers i).pc = .waiting →
      Spurious numThreads s (s.setWorker i { s.workers i with pc := .lock })
  | caller {i : Nat} : s.caller = .waiting i → Spurious numThreads s { s with caller := .await i }

/-- The caller is in `run` or in the destructor. -/
def Caller.Busy (caller : Caller) : Prop := caller ≠ .idle ∧ caller ≠ .destroyed

/-- The steps that a worker takes at most until it waits or is out of its loop, and some for a wake-up. -/
def Worker.effort (w : Worker F) : Nat :=
  match w.pc with
  | .notify => if w.wakes then 12 else 3
  | .waiting => if w.wakes then 11 else 0
  | .lock => if w.wakes then 10 else 1
  | .readBegin => 9
  | .readEnd _ => 8
  | .call _ _ => 7
  | .calling _ _ => 6
  | .finish => 5
  | .exited => 0

/-- The steps of the caller until the call returns, but for those to `wait` and back. -/
def Caller.left (numThreads : Nat) : Caller → Nat
  | idle | destroyed => 0
  | setTasks _ => 3 * numThreads + 4
  | publish i | destruct i => numThreads - i + 2 * numThreads + 3
  | notify i | notifyDestructed i => numThreads - i + numThreads + 2
  | await i | waiting i | join i => numThreads - i + 1

/-- A step of the caller may set a flag of a worker that is waiting. -/
def Caller.effort (numThreads : Nat) (caller : Caller) : Nat :=
  12 * caller.left numThreads + match caller with
    | .waiting _ => 0
    | _ => 1

def Pool.work (numThreads : Nat) (s : Pool F) : Nat := ∑ i ∈ Finset.range numThreads, (s.workers i).effort

/-- What is left to do until the call returns. -/
def Pool.effort (numThreads : Nat) (s : Pool F) : Nat := s.caller.effort numThreads + s.work numThreads

/-- The place of the caller is among the workers. -/
def Caller.InRange (numThreads : Nat) : Caller → Prop
  | publish i | notify i | await i | destruct i | notifyDestructed i | join i => i ≤ numThreads
  | waiting i => i < numThreads
  | _ => True

/-- What the destructor relies on. -/
structure Pool.Ends (numThreads : Nat) (s : Pool F) : Prop where
  inRange : s.caller.InRange numThreads
  destructed : ∀ i < numThreads, s.caller.Destructs i → (s.workers i).destructed = true
  exited : ∀ i < numThreads, (s.workers i).pc = .exited → (s.workers i).destructed = true

section Effort

variable {numThreads i : Nat} {s t : Pool F} {w : Worker F}

theorem Worker.effort_le (w : Worker F) : w.effort ≤ 12 := by
  unfold Worker.effort
  cases w.pc <;> dsimp only <;> (try split) <;> omega

/-- A flag that is set. -/
theorem Worker.effort_le_of_pc {w w' : Worker F} (hpc : w'.pc = w.pc) : w'.effort ≤ w.effort + 11 := by
  unfold Worker.effort
  rw [hpc]
  cases w.pc <;> dsimp only <;> (try split) <;> (try split) <;> omega

/-- A worker that is woken. -/
theorem Worker.effort_lock (hpc : w.pc = .waiting) :
    ({ w with pc := .lock } : Worker F).effort ≤ w.effort + 1 := by
  have hwakes : ({ w with pc := .lock } : Worker F).wakes = w.wakes := rfl
  unfold Worker.effort
  simp only [hpc, hwakes]
  split <;> omega

/-- A worker whose notification is made. -/
theorem Worker.effort_notified (hpc : w.pc = .notify) :
    ({ w with pc := .lock } : Worker F).effort + 2 ≤ w.effort := by
  have hwakes : ({ w with pc := .lock } : Worker F).wakes = w.wakes := rfl
  unfold Worker.effort
  simp only [hpc, hwakes]
  split <;> omega

theorem Pool.work_setWorker (hi : i < numThreads) :
    (s.setWorker i w).work numThreads + (s.workers i).effort = s.work numThreads + w.effort := by
  have hmem := Finset.mem_range.mpr hi
  have hothers : ∀ j ∈ (Finset.range numThreads).erase i,
      ((s.setWorker i w).workers j).effort = (s.workers j).effort := by
    intro j hj
    show (Function.update s.workers i w j).effort = _
    rw [Function.update_of_ne (Finset.ne_of_mem_erase hj)]
  have hself : ((s.setWorker i w).workers i).effort = w.effort := by
    show (Function.update s.workers i w i).effort = _
    rw [Function.update_self]
  unfold Pool.work
  rw [← Finset.add_sum_erase _ _ hmem, ← Finset.add_sum_erase _ (fun j => (s.workers j).effort) hmem,
    Finset.sum_congr rfl hothers, hself]
  omega

theorem Pool.work_setWorker_le (hi : i < numThreads) {a b : Nat}
    (hle : w.effort + a ≤ (s.workers i).effort + b) :
    (s.setWorker i w).work numThreads + a ≤ s.work numThreads + b := by
  have hset := Pool.work_setWorker (s := s) (w := w) hi
  omega

theorem Pool.work_le (s : Pool F) (numThreads : Nat) : s.work numThreads ≤ 12 * numThreads := by
  have hsum := Finset.sum_le_card_nsmul (Finset.range numThreads) (fun i => (s.workers i).effort) 12
    fun i _ => (s.workers i).effort_le
  rw [Finset.card_range, nsmul_eq_mul, Nat.mul_comm] at hsum
  exact hsum

theorem Caller.left_le (caller : Caller) (numThreads : Nat) : caller.left numThreads ≤ 3 * numThreads + 4 := by
  cases caller <;> simp only [Caller.left] <;> omega

theorem Pool.effort_le (s : Pool F) (numThreads : Nat) : s.effort numThreads ≤ 48 * numThreads + 49 := by
  have hleft := s.caller.left_le numThreads
  have hwork := s.work_le numThreads
  have hcaller : s.caller.effort numThreads ≤ 12 * s.caller.left numThreads + 1 := by
    unfold Caller.effort
    split <;> omega
  unfold Pool.effort
  omega

theorem NotifyOne.work_le (h : NotifyOne i s t) (hi : i < numThreads) :
    t.work numThreads ≤ s.work numThreads + 1 := by
  cases h with
  | worker hpc =>
    exact Pool.work_setWorker_le hi (a := 0) (Worker.effort_lock hpc)
  | caller | nobody => exact Nat.le_succ _

end Effort

section Lowers

variable {numThreads i : Nat} {s t : Pool F} {w w' : Worker F} {runs : List (F × Nat)} {caller : Caller}

/-- A worker at work has no wake-up to come behind it. -/
theorem Worker.Inv.not_destructed (h : w.Inv numThreads i runs caller) (hholds : w.pc.holds = true) :
    w.destructed = false := by
  obtain ⟨hstage, -⟩ := h.holds hholds
  by_contra hdestructed
  have hdestructs := h.destructed (by simpa using hdestructed)
  cases caller <;> first | exact hdestructs | cases hstage

/-- A step of a worker is towards the end of its slice, its wait or its loop, but for a wake-up. -/
theorem Worker.Inv.effort_lt (h : w.Inv numThreads i runs caller) {first last run : Nat}
    {function : Option F} (hstep : w.Step first last function run w') (hpc : w.pc ≠ .waiting) :
    w'.effort < w.effort := by
  cases hstep with
  | sleep hlock hwakes =>
    have hwakes' : ({ w with pc := .waiting } : Worker F).wakes = false := hwakes
    simp [Worker.effort, hlock, hwakes, hwakes']
  | wake hwaiting => exact absurd hwaiting hpc
  | exit hlock hdestructed =>
    simp only [Worker.effort, hlock]
    split <;> omega
  | enter hlock hdestructed hready =>
    have hwakes : w.wakes = true := by
      rw [Worker.wakes, hready, Bool.or_true]
    simp [Worker.effort, hlock, hwakes]
  | readBegin hat | readEnd hat | call hat | skip hat | returned hat => simp [Worker.effort, hat]
  | finish hat =>
    have hdestructed := h.not_destructed (by rw [hat]; rfl)
    simp [Worker.effort, hat, Worker.wakes, Worker.ready, hdestructed]

theorem Spurious.effort_le (h : Spurious numThreads s t) : t.effort numThreads ≤ s.effort numThreads + 1 := by
  cases h with
  | worker hi hpc =>
    exact Nat.add_le_add_left (Pool.work_setWorker_le hi (a := 0) (b := 1) (Worker.effort_lock hpc)) _
  | caller hwaiting =>
    show Caller.effort numThreads _ + s.work numThreads ≤
      Caller.effort numThreads s.caller + s.work numThreads + 1
    rw [hwaiting]
    simp only [Caller.effort, Caller.left]
    omega

/-- A step of the caller that sets the flags of a worker or notifies one. -/
theorem effort_lt_of_left {caller : Caller} {work : Nat}
    (hleft : caller.left numThreads < s.caller.left numThreads) (hwork : work ≤ s.work numThreads + 11) (hawake : ∀ j, s.caller ≠ .waiting j) :
    caller.effort numThreads + work < s.effort numThreads := by
  have hbefore : s.caller.effort numThreads = 12 * s.caller.left numThreads + 1 := by
    unfold Caller.effort
    split
    · next j hj => exact absurd hj (hawake j)
    · rfl
  have hafter : caller.effort numThreads ≤ 12 * caller.left numThreads + 1 := by
    unfold Caller.effort
    split <;> omega
  unfold Pool.effort
  omega

theorem CallerStep.effort_lt (hstep : CallerStep numThreads s t) (hbusy : s.caller.Busy)
    (hmove : ¬ Spurious numThreads s t) : t.effort numThreads < s.effort numThreads := by
  cases hstep with
  | run _ _ hcaller | destroy hcaller => exact absurd hcaller hbusy.1
  | block hcaller hi _ _ =>
    show Caller.effort numThreads _ + s.work numThreads < Caller.effort numThreads s.caller + s.work numThreads
    rw [hcaller]
    simp only [Caller.effort, Caller.left]
    omega
  | wake hcaller => exact absurd (.caller hcaller) hmove
  | setTasks hcaller | published hcaller | notified hcaller | found hcaller | returned hcaller
    | destructed hcaller | notifiedDestructed hcaller | joined hcaller | gone hcaller =>
    refine effort_lt_of_left ?_ (Nat.le_add_right _ _) (by rw [hcaller]; exact nofun)
    rw [hcaller]
    simp only [Caller.left]
    omega

theorem Step.effort_lt (hstep : Step numThreads s t) (hinv : s.Inv numThreads) (hbusy : s.caller.Busy)
    (hmove : ¬ Spurious numThreads s t) : t.effort numThreads < s.effort numThreads := by
  cases hstep with
  | @worker i w hi hw =>
    have hpc : (s.workers i).pc ≠ .waiting := by
      intro hwaiting
      cases hw with
      | wake _ => exact hmove (.worker hi hwaiting)
      | sleep hpc | exit hpc | enter hpc | readBegin hpc | readEnd hpc | call hpc | skip hpc | returned hpc
        | finish hpc =>
        rw [hwaiting] at hpc
        cases hpc
    have hlt := (hinv.workers i hi).effort_lt hw hpc
    exact Nat.add_lt_add_left (Pool.work_setWorker_le hi (a := 1) (b := 0) hlt) _
  | @workerNotify i t hi hpc hnotify =>
    -- the caller that is woken is one step further from the end of its wait
    have hless : ∀ work, work + 2 ≤ s.work numThreads + 0 → ∀ effort ≤ s.caller.effort numThreads + 1,
        effort + work < s.effort numThreads := by
      intro work hwork effort heffort
      unfold Pool.effort
      omega
    have hwork := Pool.work_setWorker_le (s := s) hi (a := 2) (b := 0) (Worker.effort_notified hpc)
    cases hnotify with
    | worker hwaiting =>
      rw [hpc] at hwaiting
      cases hwaiting
    | caller hwaiting =>
      refine hless _ hwork _ (le_of_eq ?_)
      rw [hwaiting]
      rfl
    | nobody => exact hless _ hwork _ (Nat.le_succ _)
  | caller hstep => exact hstep.effort_lt hbusy hmove
  | publish hcaller hi | destruct hcaller hi =>
    refine effort_lt_of_left ?_ (Pool.work_setWorker_le hi (a := 0) (Worker.effort_le_of_pc rfl))
      (by rw [hcaller]; exact nofun)
    rw [hcaller]
    simp only [Caller.left]
    omega
  | notify hcaller hi hnotify | notifyDestructed hcaller hi hnotify =>
    refine effort_lt_of_left ?_ ((hnotify.work_le hi).trans (by omega)) (by rw [hcaller]; exact nofun)
    rw [hcaller]
    simp only [Caller.left]
    omega

end Lowers

section Ends

variable {numThreads i : Nat} {s t : Pool F} {w w' : Worker F}

/-- The worker does not leave its loop unless `destructed` is set, which stays so. -/
structure Worker.Kept (w w' : Worker F) : Prop where
  destructed : w.destructed = true → w'.destructed = true
  exited : w'.pc = .exited → w.pc = .exited ∨ w'.destructed = true

theorem Worker.Kept.refl (w : Worker F) : w.Kept w := ⟨id, .inl⟩

theorem Worker.kept_lock (w : Worker F) : w.Kept { w with pc := .lock } := ⟨id, nofun⟩

theorem Worker.Step.kept {first last run : Nat} {function : Option F}
    (h : w.Step first last function run w') : w.Kept w' := by
  cases h with
  | exit _ hdestructed => exact ⟨id, fun _ => .inr hdestructed⟩
  | sleep | wake | enter | readBegin | readEnd | call | skip | returned | finish => exact ⟨id, nofun⟩

theorem Pool.kept_setWorker (h : (s.workers i).Kept w) (j : Nat) :
    (s.workers j).Kept ((s.setWorker i w).workers j) := by
  show (s.workers j).Kept (Function.update s.workers i w j)
  by_cases heq : j = i
  · subst heq
    rw [Function.update_self]
    exact h
  · rw [Function.update_of_ne heq]
    exact .refl _

theorem NotifyOne.kept (h : NotifyOne i s t) (j : Nat) : (s.workers j).Kept (t.workers j) := by
  cases h with
  | worker => exact Pool.kept_setWorker (s.workers i).kept_lock j
  | caller | nobody => exact .refl _

namespace Pool.Ends

theorem new (numTasks : Nat) : (Pool.new numTasks : Pool F).Ends numThreads :=
  ⟨trivial, fun _ _ => False.elim, fun _ _ => nofun⟩

theorem keep (h : s.Ends numThreads) (hworkers : ∀ i, (s.workers i).Kept (t.workers i))
    (hrange : t.caller.InRange numThreads)
    (hdestructs : ∀ i < numThreads, t.caller.Destructs i →
      s.caller.Destructs i ∨ (t.workers i).destructed = true) : t.Ends numThreads where
  inRange := hrange
  destructed i hi hcaller :=
    (hdestructs i hi hcaller).elim (fun hbefore => (hworkers i).destructed (h.destructed i hi hbefore)) id
  exited i hi hpc :=
    ((hworkers i).exited hpc).elim (fun hbefore => (hworkers i).destructed (h.exited i hi hbefore)) id

theorem callerStep (h : s.Ends numThreads) (hstep : CallerStep numThreads s t) : t.Ends numThreads := by
  have hrange := h.inRange
  cases hstep with
  | run => exact h.keep (fun _ => .refl _) trivial fun _ _ => False.elim
  | setTasks | published | notified => exact h.keep (fun _ => .refl _) (Nat.zero_le _) fun _ _ => False.elim
  | found hcaller hi | block hcaller hi => exact h.keep (fun _ => .refl _) hi fun _ _ => False.elim
  | wake hcaller =>
    rw [hcaller] at hrange
    exact h.keep (fun _ => .refl _) (Nat.le_of_lt hrange) fun _ _ => False.elim
  | returned => exact h.keep (fun _ => .refl _) trivial fun _ _ => False.elim
  | destroy => exact h.keep (fun _ => .refl _) (Nat.zero_le _) fun i _ hlt => absurd hlt (Nat.not_lt_zero i)
  | destructed hcaller =>
    refine h.keep (fun _ => .refl _) (Nat.zero_le _) fun i hi _ => .inl ?_
    rw [hcaller]
    exact hi
  | notifiedDestructed hcaller =>
    refine h.keep (fun _ => .refl _) (Nat.zero_le _) fun _ _ _ => .inl ?_
    rw [hcaller]
    trivial
  | joined hcaller hi =>
    refine h.keep (fun _ => .refl _) hi fun _ _ _ => .inl ?_
    rw [hcaller]
    trivial
  | gone hcaller =>
    refine h.keep (fun _ => .refl _) trivial fun _ _ _ => .inl ?_
    rw [hcaller]
    trivial

theorem step (h : s.Ends numThreads) (hstep : Step numThreads s t) : t.Ends numThreads := by
  cases hstep with
  | worker hi hw => exact h.keep (Pool.kept_setWorker hw.kept) h.inRange fun _ _ => .inl
  | @workerNotify i t hi hpc hnotify =>
    cases hnotify with
    | worker hwaiting =>
      rw [hpc] at hwaiting
      cases hwaiting
    | caller hwaiting =>
      exact h.keep (Pool.kept_setWorker (Worker.kept_lock _)) hi.le fun _ _ => False.elim
    | nobody => exact h.keep (Pool.kept_setWorker (Worker.kept_lock _)) h.inRange fun _ _ => .inl
  | caller hstep => exact h.callerStep hstep
  | publish hcaller hi hfree => exact h.keep (Pool.kept_setWorker ⟨id, .inl⟩) hi fun _ _ => False.elim
  | notify hcaller hi hnotify => exact h.keep hnotify.kept hi fun _ _ => False.elim
  | @destruct i hcaller hi hfree =>
    refine h.keep (Pool.kept_setWorker ⟨fun _ => rfl, .inl⟩) hi fun j hj hlt => ?_
    rcases Nat.lt_succ_iff_lt_or_eq.mp hlt with hlt | rfl
    · rw [hcaller]
      exact .inl hlt
    · refine .inr ?_
      show (Function.update s.workers j _ j).destructed = true
      rw [Function.update_self]
  | notifyDestructed hcaller hi hnotify =>
    refine h.keep hnotify.kept hi fun _ _ _ => .inl ?_
    rw [hcaller]
    trivial

theorem steps (h : s.Ends numThreads) (hsteps : Steps numThreads s t) : t.Ends numThreads := by
  induction hsteps with
  | refl => exact h
  | tail _ hstep ih => exact ih.step hstep

end Pool.Ends

end Ends

section Goes

variable {numThreads i : Nat} {s t : Pool F} {w : Worker F}

/-- A step of a worker that is awake is no spurious wake-up. -/
theorem not_spurious_of_worker (hpc : (s.workers i).pc ≠ .waiting) (hne : (t.workers i).pc ≠ (s.workers i).pc) :
    ¬ Spurious numThreads s t := by
  intro h
  cases h with
  | @worker j hj hwaiting =>
    by_cases heq : i = j
    · subst heq
      exact hpc hwaiting
    · refine hne (congrArg Worker.pc ?_)
      exact Function.update_of_ne heq _ _
  | caller => exact hne rfl

theorem not_spurious_of_caller (hcaller : ∀ i, s.caller ≠ .waiting i) (hne : t.caller ≠ s.caller) :
    ¬ Spurious numThreads s t := by
  intro h
  cases h with
  | worker => exact hne rfl
  | caller hwaiting => exact hcaller _ hwaiting

/-- A notification is always possible. -/
theorem exists_notifyOne (i : Nat) (s : Pool F) : ∃ t, NotifyOne i s t := by
  by_cases hworker : (s.workers i).pc = .waiting
  · exact ⟨_, .worker hworker⟩
  · by_cases hcaller : s.caller = .waiting i
    · exact ⟨_, .caller hcaller⟩
    · exact ⟨s, .nobody hworker hcaller⟩

/-- A worker that is awake and in its loop, and has a function to call, can go on. -/
theorem Worker.goes {first last run : Nat} {function : Option F} (hwaiting : w.pc ≠ .waiting)
    (hexited : w.pc ≠ .exited) (hnotify : w.pc ≠ .notify) (hcall : w.pc.holds = true → ∃ f, function = some f) :
    ∃ w', w.Step first last function run w' ∧ w'.pc ≠ w.pc := by
  cases hpc : w.pc with
  | lock =>
    cases hwakes : w.wakes with
    | false => exact ⟨_, .sleep hpc hwakes, nofun⟩
    | true =>
      cases hdestructed : w.destructed with
      | true => exact ⟨_, .exit hpc hdestructed, nofun⟩
      | false =>
        rw [Worker.wakes, hdestructed, Bool.false_or] at hwakes
        exact ⟨_, .enter hpc hdestructed hwakes, nofun⟩
  | waiting => exact absurd hpc hwaiting
  | readBegin => exact ⟨_, .readBegin hpc, nofun⟩
  | readEnd b => exact ⟨_, .readEnd hpc, nofun⟩
  | call b e =>
    by_cases hlt : b < e
    · obtain ⟨f, hf⟩ := hcall (by rw [hpc]; rfl)
      exact ⟨_, .call hpc hlt hf, nofun⟩
    · exact ⟨_, .skip hpc hlt, nofun⟩
  | calling b e => exact ⟨_, .returned hpc, nofun⟩
  | finish => exact ⟨_, .finish hpc, nofun⟩
  | notify => exact absurd hpc hnotify
  | exited => exact absurd hpc hexited

theorem Pool.Inv.worker_goes (h : s.Inv numThreads) (hi : i < numThreads) (hwaiting : (s.workers i).pc ≠ .waiting)
    (hexited : (s.workers i).pc ≠ .exited) : ∃ t, Step numThreads s t ∧ ¬ Spurious numThreads s t := by
  by_cases hnotify : (s.workers i).pc = .notify
  · obtain ⟨t, ht⟩ := exists_notifyOne i s
    refine ⟨_, .workerNotify hi hnotify ht, not_spurious_of_worker hwaiting ?_⟩
    show (Function.update t.workers i _ i).pc ≠ _
    rw [Function.update_self, hnotify]
    exact nofun
  · obtain ⟨w, hstep, hne⟩ := Worker.goes hwaiting hexited hnotify fun hholds => by
      obtain ⟨f, -, hf⟩ := h.assigned.during ((h.workers i hi).holds hholds).1
      exact ⟨f, hf⟩
    refine ⟨_, .worker hi hstep, not_spurious_of_worker hwaiting ?_⟩
    show (Function.update s.workers i w i).pc ≠ _
    rw [Function.update_self]
    exact hne

theorem goes_of_caller {caller : Caller} (hstep : Step numThreads s t) (hcaller : s.caller = caller)
    (hawake : ∀ i, caller ≠ .waiting i) (hne : t.caller ≠ caller) :
    ∃ t, Step numThreads s t ∧ ¬ Spurious numThreads s t :=
  ⟨t, hstep, not_spurious_of_caller (hcaller ▸ hawake) (hcaller ▸ hne)⟩

/-- Inside a call something other than a spurious wake-up can always happen. -/
theorem Pool.Inv.goes (h : s.Inv numThreads) (hends : s.Ends numThreads) (hbusy : s.caller.Busy) :
    ∃ t, Step numThreads s t ∧ ¬ Spurious numThreads s t := by
  have hrange := hends.inRange
  -- the mutex of a worker that is not in its slice is free
  have hfree : ∀ i < numThreads, s.caller.stage i ≠ .during → (s.workers i).pc.holds = false := by
    intro i hi hstage
    by_contra hholds
    exact hstage ((h.workers i hi).holds (by simpa using hholds)).1
  -- a worker waits with work to do only where the caller is to notify it
  have hawake : ∀ i < numThreads, (s.workers i).wakes = true → ¬ s.caller.Notifies i →
      (s.workers i).pc ≠ .waiting := fun i hi hwakes hnotifies hpc =>
    hnotifies ((h.workers i hi).asleep hpc hwakes)
  cases hat : s.caller with
  | idle => exact absurd hat hbusy.1
  | destroyed => exact absurd hat hbusy.2
  | setTasks n => exact goes_of_caller (.caller (.setTasks hat)) hat (by simp) (by simp)
  | publish i =>
    rw [hat] at hrange hfree
    rcases Nat.lt_or_eq_of_le hrange with hi | rfl
    · exact goes_of_caller (.publish hat hi (hfree i hi (by simp [Caller.stage]))) hat (by simp) (by simp)
    · exact goes_of_caller (.caller (.published hat)) hat (by simp) (by simp)
  | notify i =>
    rw [hat] at hrange
    rcases Nat.lt_or_eq_of_le hrange with hi | rfl
    · obtain ⟨t, ht⟩ := exists_notifyOne i s
      exact goes_of_caller (.notify hat hi ht) hat (by simp) (by simp)
    · exact goes_of_caller (.caller (.notified hat)) hat (by simp) (by simp)
  | await i =>
    rw [hat] at hrange
    rcases Nat.lt_or_eq_of_le hrange with hi | rfl
    · cases hholds : (s.workers i).pc.holds with
      | true =>
        refine h.worker_goes hi ?_ ?_ <;>
        · intro hpc
          rw [hpc] at hholds
          cases hholds
      | false =>
        cases hfinished : (s.workers i).finished with
        | true => exact goes_of_caller (.caller (.found hat hi hholds hfinished)) hat (by simp) (by simp)
        | false => exact goes_of_caller (.caller (.block hat hi hholds hfinished)) hat (by simp) (by simp)
    · exact goes_of_caller (.caller (.returned hat)) hat (by simp) (by simp)
  | waiting i =>
    rw [hat] at hrange hawake
    have hw := h.workers i hrange
    rw [hat] at hw
    refine h.worker_goes hrange (fun hpc => ?_) fun hpc => hw.destructed (hends.exited i hrange hpc)
    cases hfinished : (s.workers i).finished with
    | true =>
      rw [hw.awake rfl hfinished] at hpc
      cases hpc
    | false =>
      refine hawake i hrange ?_ id hpc
      rw [Worker.wakes, Worker.ready, hfinished, hw.published (by simp [Caller.stage])]
      exact Bool.or_true _
  | destruct i =>
    rw [hat] at hrange hfree
    rcases Nat.lt_or_eq_of_le hrange with hi | rfl
    · exact goes_of_caller (.destruct hat hi (hfree i hi (by simp [Caller.stage]))) hat (by simp) (by simp)
    · exact goes_of_caller (.caller (.destructed hat)) hat (by simp) (by simp)
  | notifyDestructed i =>
    rw [hat] at hrange
    rcases Nat.lt_or_eq_of_le hrange with hi | rfl
    · obtain ⟨t, ht⟩ := exists_notifyOne i s
      exact goes_of_caller (.notifyDestructed hat hi ht) hat (by simp) (by simp)
    · exact goes_of_caller (.caller (.notifiedDestructed hat)) hat (by simp) (by simp)
  | join i =>
    rw [hat] at hrange hawake
    rcases Nat.lt_or_eq_of_le hrange with hi | rfl
    · by_cases hexited : (s.workers i).pc = .exited
      · exact goes_of_caller (.caller (.joined hat hi hexited)) hat (by simp) (by simp)
      · have hdestructed := hends.destructed i hi (by rw [hat]; trivial)
        exact h.worker_goes hi (hawake i hi (by rw [Worker.wakes, hdestructed, Bool.true_or]) id) hexited
    · exact goes_of_caller (.caller (.gone hat)) hat (by simp) (by simp)

end Goes

theorem progress (numThreads : Nat) : Progress (Step numThreads) (Spurious numThreads)
    (fun s : Pool F => s.caller.Busy) (fun s => s.Inv numThreads ∧ s.Ends numThreads)
    (Pool.effort numThreads) where
  keeps _ _ hs hstep := ⟨hs.1.step hstep, hs.2.step hstep⟩
  goes _ hs hbusy := hs.1.goes hs.2 hbusy
  lowers _ _ hs hbusy hstep hmove := hstep.effort_lt hs.1 hbusy hmove
  raises _ _ _ _ _ hnoise := hnoise.effort_le

theorem Reachable.ends {numThreads : Nat} {s : Pool F} (h : Reachable numThreads s) : s.Ends numThreads := by
  obtain ⟨numTasks, hsteps⟩ := h
  exact (Pool.Ends.new numTasks).steps hsteps

/-- Every call returns, of `run` and of the destructor.  Inside a call something other than a spurious
wake-up can always happen; the steps inside it are as many as the workers and the spurious wake-ups allow,
whatever the interleaving; and where the spurious wake-ups end, so does the call. -/
theorem run_returns {numThreads : Nat} {s : Pool F} (hs : Reachable numThreads s) (hbusy : s.caller.Busy) :
    (∃ t, Step numThreads s t ∧ ¬ Spurious numThreads s t) ∧
      (∀ moves wakes t, BusyRun (Step numThreads) (Spurious numThreads) (fun s => s.caller.Busy)
        moves wakes s t → moves ≤ 48 * numThreads + 49 + wakes) ∧
      ∀ run : Nat → Pool F, run 0 = s → (∀ n, Step numThreads (run n) (run (n + 1))) →
        ∀ last, (∀ n, last ≤ n → ¬ Spurious numThreads (run n) (run (n + 1))) →
          ∃ n, ¬ (run n).caller.Busy := by
  have hinv := And.intro hs.inv hs.ends
  refine ⟨hs.inv.goes hs.ends hbusy, fun moves wakes t hrun => ?_, fun run hstart hstep last hquiet => ?_⟩
  · obtain ⟨-, hle⟩ := (progress numThreads).bounded hinv hrun
    have heffort := s.effort_le numThreads
    omega
  · exact (progress numThreads).eventually (hstart ▸ hinv) hstep hquiet

/-- The pool of two workers in its second run, while a notification of the first is still to come. -/
theorem run_returns_overlapped :
    (∃ t, Step 2 overlappedPool t ∧ ¬ Spurious 2 overlappedPool t) ∧
      ∀ moves wakes t, BusyRun (Step 2) (Spurious 2) (fun s => s.caller.Busy) moves wakes overlappedPool t →
        moves ≤ 145 + wakes := by
  obtain ⟨hgoes, hbounded, -⟩ := run_returns reachable_overlappedPool ⟨nofun, nofun⟩
  exact ⟨hgoes, hbounded⟩

end FilterThreadPool

end JoinOptimizer
