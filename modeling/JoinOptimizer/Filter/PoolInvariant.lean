import JoinOptimizer.Filter.ThreadPool

/-! What holds in every reachable state of the thread pool: where a worker may be, the calls that it has
made, and the notifications that are still to come. -/

namespace JoinOptimizer

open Lib

namespace FilterThreadPool

variable {F : Type}

/-- Where the caller is in `run` as a worker sees it: before it sets the flags of the worker, until it finds
the worker finished, or neither. -/
inductive Stage
  | before
  | during
  | after
  deriving DecidableEq

def Caller.stage (i : Nat) : Caller → Stage
  | setTasks _ => .before
  | publish j => if j ≤ i then .before else .during
  | notify _ => .during
  | await j | waiting j => if j ≤ i then .during else .after
  | _ => .after

/-- The caller has yet to notify the worker. -/
def Caller.Notifies (i : Nat) : Caller → Prop
  | publish j | destruct j => i < j
  | notify j | notifyDestructed j => j ≤ i
  | _ => False

/-- The caller has set `destructed` for the worker. -/
def Caller.Destructs (i : Nat) : Caller → Prop
  | destruct j => i < j
  | notifyDestructed _ | join _ | destroyed => True
  | _ => False

/-- The call that a worker makes in a run: none where its slice is empty. -/
def runCalls (numThreads i run : Nat) (job : F × Nat) : List (Call F) :=
  let first := beginIdx numThreads job.2 i
  let last := beginIdx numThreads job.2 (i + 1)
  if first < last then [⟨run, job.1, first, last⟩] else []

/-- The calls that a worker makes in some runs. -/
def callsOf (numThreads i : Nat) (runs : List (F × Nat)) : List (Call F) :=
  runs.zipIdx.flatMap fun job => runCalls numThreads i job.2 job.1

theorem callsOf_concat (numThreads i : Nat) (runs : List (F × Nat)) (job : F × Nat) :
    callsOf numThreads i (runs ++ [job]) =
      callsOf numThreads i runs ++ runCalls numThreads i runs.length job := by
  unfold callsOf
  rw [List.zipIdx_append, List.flatMap_append]
  simp

/-- The worker has made its call of the current run, or has none to make. -/
def Worker.called (w : Worker F) : Bool :=
  w.finished || match w.pc with
    | .calling _ _ | .finish => true
    | _ => false

theorem Worker.called_of_free {w : Worker F} (h : w.pc.holds = false) : w.called = w.finished := by
  unfold Worker.called
  cases hpc : w.pc <;> rw [hpc] at h <;> first | exact Bool.or_false _ | cases h

/-- What the worker has read are the bounds of its slice. -/
def RunLoop.Reads (numThreads i numTasks : Nat) : RunLoop → Prop
  | readEnd b => b = beginIdx numThreads numTasks i
  | call b e => b = beginIdx numThreads numTasks i ∧ e = beginIdx numThreads numTasks (i + 1)
  | _ => True

/-- What holds of a worker. -/
structure Worker.Inv (numThreads i : Nat) (runs : List (F × Nat)) (caller : Caller) (w : Worker F) :
    Prop where
  holds : w.pc.holds = true → caller.stage i = .during ∧ w.finished = false
  idle : caller.stage i ≠ .during → w.ready = false
  published : caller.stage i = .during → w.hasFunction = true
  before : caller.stage i = .before → w.calls = callsOf numThreads i runs.dropLast
  during : caller.stage i = .during →
    w.calls = callsOf numThreads i (if w.called then runs else runs.dropLast)
  after : caller.stage i = .after → w.calls = callsOf numThreads i runs
  reads : ∀ job ∈ runs.getLast?, w.pc.Reads numThreads i job.2
  asleep : w.pc = .waiting → w.wakes = true → caller.Notifies i
  awake : caller = .waiting i → w.finished = true → w.pc = .notify
  destructed : w.destructed = true → caller.Destructs i

/-- The variables that `run` sets have the arguments of the last run. -/
def Pool.Assigned (s : Pool F) : Prop :=
  match s.caller with
  | .setTasks n => ∃ f, s.runs.getLast? = some (f, n) ∧ s.function = some f
  | .publish _ | .notify _ | .await _ | .waiting _ =>
    ∃ f, s.runs.getLast? = some (f, s.numTasks) ∧ s.function = some f
  | _ => True

structure Pool.Inv (numThreads : Nat) (s : Pool F) : Prop where
  assigned : s.Assigned
  workers : ∀ i < numThreads, (s.workers i).Inv numThreads i s.runs s.caller

variable {numThreads : Nat} {s t : Pool F}

theorem Pool.inv_new (numTasks : Nat) : (Pool.new numTasks : Pool F).Inv numThreads := by
  refine ⟨trivial, fun i _ => ?_⟩
  constructor <;> simp [Pool.new, RunLoop.holds, Caller.stage, Worker.ready, callsOf, RunLoop.Reads]

theorem Pool.Assigned.during (h : s.Assigned) {i : Nat} (hstage : s.caller.stage i = .during) :
    ∃ f, s.runs.getLast? = some (f, s.numTasks) ∧ s.function = some f := by
  unfold Pool.Assigned at h
  cases hcaller : s.caller <;> rw [hcaller] at h hstage <;> first | exact h | cases hstage

section Worker

variable {i n : Nat} {runs : List (F × Nat)} {caller : Caller} {w w' : Worker F}

/-- The calls of all runs are those of all runs but the last, and the call of the last. -/
theorem callsOf_getLast {job : F × Nat} (h : runs.getLast? = some job) :
    callsOf numThreads i runs = callsOf numThreads i runs.dropLast ++
      runCalls numThreads i (runs.length - 1) job := by
  have hruns : runs.dropLast ++ [job] = runs := List.dropLast_append_getLast? job h
  conv_lhs => rw [← hruns]
  rw [callsOf_concat, List.length_dropLast]

/-- A worker that does not hold its mutex moves on. -/
theorem Worker.Inv.move_free (h : w.Inv numThreads i runs caller) {pc : RunLoop}
    (hfree : w.pc.holds = false) (hne : caller = .waiting i → w.pc ≠ .notify) (hpc : pc.holds = false)
    (hreads : ∀ job ∈ runs.getLast?, pc.Reads numThreads i job.2)
    (hasleep : pc = .waiting → w.wakes = true → caller.Notifies i) :
    ({ w with pc := pc } : Worker F).Inv numThreads i runs caller where
  holds := fun hholds => by
    rw [hpc] at hholds
    cases hholds
  idle := h.idle
  published := h.published
  before := h.before
  during := fun hstage => by rw [h.during hstage, Worker.called_of_free hfree, Worker.called_of_free hpc]
  after := h.after
  reads := hreads
  asleep := hasleep
  awake := fun hcaller hfinished => absurd (h.awake hcaller hfinished) (hne hcaller)
  destructed := h.destructed

/-- A worker that is in a run moves on in it. -/
theorem Worker.Inv.move_during (h : w.Inv numThreads i runs caller)
    (hstage : caller.stage i = .during) (hfinished : w.finished = false) {pc : RunLoop}
    {calls : List (Call F)} (hpc : pc ≠ .waiting)
    (hcalls : calls = callsOf numThreads i
      (if ({ w with pc := pc, calls := calls } : Worker F).called then runs else runs.dropLast))
    (hreads : ∀ job ∈ runs.getLast?, pc.Reads numThreads i job.2) :
    ({ w with pc := pc, calls := calls } : Worker F).Inv numThreads i runs caller where
  holds := fun _ => ⟨hstage, hfinished⟩
  idle := h.idle
  published := h.published
  before := fun hbefore => by
    rw [hstage] at hbefore
    cases hbefore
  during := fun _ => hcalls
  after := fun hafter => by
    rw [hstage] at hafter
    cases hafter
  reads := hreads
  asleep := fun hwaiting => absurd hwaiting hpc
  awake := fun _ hfinished' => by
    rw [hfinished] at hfinished'
    cases hfinished'
  destructed := h.destructed

/-- A worker that holds its mutex is in the last run, whose function and number of tasks are in the
variables. -/
theorem Worker.Inv.work {function : Option F} (h : w.Inv numThreads i runs caller)
    (hjob : caller.stage i = .during → ∃ f, runs.getLast? = some (f, n) ∧ function = some f)
    (hheld : w.pc.holds = true) : caller.stage i = .during ∧ w.finished = false ∧
      ∃ f, runs.getLast? = some (f, n) ∧ function = some f ∧ w.pc.Reads numThreads i n := by
  obtain ⟨hstage, hfinished⟩ := h.holds hheld
  obtain ⟨f, hruns, hfunction⟩ := hjob hstage
  exact ⟨hstage, hfinished, f, hruns, hfunction, h.reads _ hruns⟩

theorem reads_of_getLast {f : F} {pc : RunLoop} (hruns : runs.getLast? = some (f, n))
    (h : pc.Reads numThreads i n) : ∀ job ∈ runs.getLast?, pc.Reads numThreads i job.2 := by
  intro job hjob
  rw [hruns] at hjob
  obtain rfl := Option.some.inj hjob
  exact h

/-- A step of `run_loop`. -/
theorem Worker.Inv.step {function : Option F} (h : w.Inv numThreads i runs caller)
    (hjob : caller.stage i = .during → ∃ f, runs.getLast? = some (f, n) ∧ function = some f)
    (hstep : w.Step (beginIdx numThreads n i) (beginIdx numThreads n (i + 1)) function
      (runs.length - 1) w') : w'.Inv numThreads i runs caller := by
  cases hstep with
  | sleep hpc hwakes =>
    refine h.move_free (by rw [hpc]; rfl) (fun _ => by rw [hpc]; exact nofun) rfl (fun _ _ => trivial) ?_
    intro _ hwakes'
    rw [hwakes] at hwakes'
    cases hwakes'
  | wake hpc =>
    exact h.move_free (by rw [hpc]; rfl) (fun _ => by rw [hpc]; exact nofun) rfl (fun _ _ => trivial) nofun
  | exit hpc hdestructed =>
    exact h.move_free (by rw [hpc]; rfl) (fun _ => by rw [hpc]; exact nofun) rfl (fun _ _ => trivial) nofun
  | enter hpc hdestructed hready =>
    have hstage : caller.stage i = .during := by
      by_contra hne
      rw [h.idle hne] at hready
      cases hready
    have hfinished : w.finished = false := by
      simp only [Worker.ready, Bool.and_eq_true, Bool.not_eq_true'] at hready
      exact hready.2
    refine h.move_during hstage hfinished nofun ?_ fun _ _ => trivial
    rw [h.during hstage]
    simp [Worker.called, hpc]
  | readBegin hpc =>
    obtain ⟨hstage, hfinished, f, hruns, -, -⟩ := h.work hjob (by rw [hpc]; rfl)
    refine h.move_during hstage hfinished nofun ?_ (reads_of_getLast hruns rfl)
    rw [h.during hstage]
    simp [Worker.called, hpc]
  | readEnd hpc =>
    obtain ⟨hstage, hfinished, f, hruns, -, hreads⟩ := h.work hjob (by rw [hpc]; rfl)
    rw [hpc] at hreads
    refine h.move_during hstage hfinished nofun ?_ (reads_of_getLast hruns ⟨hreads, rfl⟩)
    rw [h.during hstage]
    simp [Worker.called, hpc]
  | call hpc hlt hfunction =>
    obtain ⟨hstage, hfinished, f, hruns, hfunction', hreads⟩ := h.work hjob (by rw [hpc]; rfl)
    obtain rfl := Option.some.inj (hfunction.symm.trans hfunction')
    rw [hpc] at hreads
    obtain ⟨rfl, rfl⟩ := hreads
    refine h.move_during hstage hfinished nofun ?_ fun _ _ => trivial
    -- the call is that of the last run
    have hcalls : w.calls = callsOf numThreads i runs.dropLast := by
      rw [h.during hstage]
      simp [Worker.called, hpc, hfinished]
    simp only [Worker.called, hfinished, Bool.false_or, if_true]
    rw [hcalls, callsOf_getLast hruns, runCalls, if_pos hlt]
  | skip hpc hle =>
    obtain ⟨hstage, hfinished, f, hruns, -, hreads⟩ := h.work hjob (by rw [hpc]; rfl)
    rw [hpc] at hreads
    obtain ⟨rfl, rfl⟩ := hreads
    refine h.move_during hstage hfinished nofun ?_ fun _ _ => trivial
    -- the slice of the last run is empty
    rw [h.during hstage]
    simp only [Worker.called, hpc, hfinished, Bool.false_or, Bool.false_eq_true, if_false, if_true]
    rw [callsOf_getLast hruns, runCalls, if_neg hle, List.append_nil]
  | returned hpc =>
    obtain ⟨hstage, hfinished, -⟩ := h.work hjob (by rw [hpc]; rfl)
    refine h.move_during hstage hfinished nofun ?_ fun _ _ => trivial
    rw [h.during hstage]
    simp [Worker.called, hpc]
  | finish hpc =>
    obtain ⟨hstage, hfinished, -⟩ := h.work hjob (by rw [hpc]; rfl)
    refine ⟨nofun, fun hne => absurd hstage hne, h.published, ?_, fun _ => ?_, ?_, fun _ _ => trivial,
      nofun, fun _ _ => rfl, h.destructed⟩
    · rw [hstage]
      exact nofun
    · rw [h.during hstage]
      simp [Worker.called, hpc]
    · rw [hstage]
      exact nofun

/-- A step of the caller that leaves the stage of the worker as it is. -/
theorem Worker.Inv.recall (h : w.Inv numThreads i runs caller) {caller' : Caller}
    (hstage : caller'.stage i = caller.stage i)
    (hnotifies : w.pc = .waiting → caller.Notifies i → caller'.Notifies i)
    (hawake : caller' = .waiting i → w.finished = true → w.pc = .notify)
    (hdestructs : caller.Destructs i → caller'.Destructs i) :
    w.Inv numThreads i runs caller' where
  holds := by rw [hstage]; exact h.holds
  idle := by rw [hstage]; exact h.idle
  published := by rw [hstage]; exact h.published
  before := by rw [hstage]; exact h.before
  during := by rw [hstage]; exact h.during
  after := by rw [hstage]; exact h.after
  reads := h.reads
  asleep := fun hpc hwakes => hnotifies hpc (h.asleep hpc hwakes)
  awake := hawake
  destructed := fun hdestructed => hdestructs (h.destructed hdestructed)

theorem Worker.Inv.free (h : w.Inv numThreads i runs caller) (hstage : caller.stage i ≠ .during) :
    w.pc.holds = false := by
  by_contra hheld
  exact hstage (h.holds (by simpa using hheld)).1

/-- The caller starts a run. -/
theorem Worker.Inv.run (h : w.Inv numThreads i runs .idle) (job : F × Nat) :
    w.Inv numThreads i (runs ++ [job]) (.setTasks job.2) where
  holds := fun hheld => by
    rw [h.free nofun] at hheld
    cases hheld
  idle := fun _ => h.idle nofun
  published := nofun
  before := fun _ => by
    rw [List.dropLast_concat]
    exact h.after rfl
  during := nofun
  after := nofun
  reads := fun _ _ => by
    have hfree := h.free nofun
    cases hpc : w.pc <;> rw [hpc] at hfree <;> trivial
  asleep := h.asleep
  awake := nofun
  destructed := h.destructed

/-- The caller sets the flags of the worker. -/
theorem Worker.Inv.publish (h : w.Inv numThreads i runs (.publish i)) :
    ({ w with hasFunction := true, finished := false } : Worker F).Inv numThreads i runs
      (.publish (i + 1)) := by
  have hbefore : (Caller.publish i).stage i = .before := if_pos (Nat.le_refl i)
  have hduring : (Caller.publish (i + 1)).stage i = .during := if_neg (by omega)
  have hfree : w.pc.holds = false := h.free (by rw [hbefore]; exact nofun)
  refine ⟨fun _ => ⟨hduring, rfl⟩, fun hne => absurd hduring hne, fun _ => rfl, ?_, fun _ => ?_, ?_,
    h.reads, fun _ _ => Nat.lt_succ_self i, nofun, fun hdestructed => (h.destructed hdestructed).elim⟩
  · rw [hduring]
    exact nofun
  · have hcalled : ({ w with hasFunction := true, finished := false } : Worker F).called = false :=
      Worker.called_of_free hfree
    rw [hcalled]
    exact h.before hbefore
  · rw [hduring]
    exact nofun

/-- The caller finds the worker finished. -/
theorem Worker.Inv.found (h : w.Inv numThreads i runs (.await i)) (hfree : w.pc.holds = false)
    (hfinished : w.finished = true) : w.Inv numThreads i runs (.await (i + 1)) := by
  have hduring : (Caller.await i).stage i = .during := if_pos (Nat.le_refl i)
  have hafter : (Caller.await (i + 1)).stage i = .after := if_neg (by omega)
  refine ⟨fun hheld => ?_, fun _ => ?_, ?_, ?_, ?_, fun _ => ?_, h.reads,
    fun hpc hwakes => (h.asleep hpc hwakes).elim, nofun,
    fun hdestructed => (h.destructed hdestructed).elim⟩
  · rw [hfree] at hheld
    cases hheld
  · simp [Worker.ready, hfinished]
  · rw [hafter]
    exact nofun
  · rw [hafter]
    exact nofun
  · rw [hafter]
    exact nofun
  · rw [h.during hduring, Worker.called_of_free hfree, hfinished]
    rfl

/-- The caller sets `destructed`. -/
theorem Worker.Inv.destruct (h : w.Inv numThreads i runs (.destruct i)) :
    ({ w with destructed := true } : Worker F).Inv numThreads i runs (.destruct (i + 1)) where
  holds := h.holds
  idle := h.idle
  published := h.published
  before := h.before
  during := h.during
  after := h.after
  reads := h.reads
  asleep := fun _ _ => Nat.lt_succ_self i
  awake := nofun
  destructed := fun _ => Nat.lt_succ_self i

end Worker

section Steps

/-- The workers of a pool in which one of them and the caller have changed. -/
theorem Pool.Inv.setWorker {i : Nat} {w : Worker F} {runs : List (F × Nat)} {caller : Caller}
    (hw : i < numThreads → w.Inv numThreads i runs caller)
    (hothers : ∀ j < numThreads, j ≠ i → (s.workers j).Inv numThreads j runs caller) :
    ∀ j < numThreads, ((s.setWorker i w).workers j).Inv numThreads j runs caller := by
  intro j hj
  show (Function.update s.workers i w j).Inv numThreads j runs caller
  by_cases heq : j = i
  · subst heq
    rw [Function.update_self]
    exact hw hj
  · rw [Function.update_of_ne heq]
    exact hothers j hj heq

theorem Pool.Inv.callerStep (h : s.Inv numThreads) (hstep : CallerStep numThreads s t) :
    t.Inv numThreads := by
  obtain ⟨hassigned, hworkers⟩ := h
  unfold Pool.Assigned at hassigned
  -- a step that changes nothing but the place of the caller
  have hrecall : ∀ {caller : Caller}, ({ s with caller := caller } : Pool F).Assigned →
      (∀ i < numThreads, caller.stage i = s.caller.stage i ∧
        (s.caller.Notifies i → caller.Notifies i) ∧
        (caller = .waiting i → (s.workers i).finished = true → (s.workers i).pc = .notify) ∧
        (s.caller.Destructs i → caller.Destructs i)) →
      ({ s with caller := caller } : Pool F).Inv numThreads := by
    intro caller hassigned' hcaller
    refine ⟨hassigned', fun i hi => ?_⟩
    obtain ⟨hstage, hnotifies, hawake, hdestructs⟩ := hcaller i hi
    exact (hworkers i hi).recall hstage (fun _ => hnotifies) hawake hdestructs
  cases hstep with
  | run function numTasks hcaller =>
    refine ⟨⟨function, by simp⟩, fun i hi => ?_⟩
    have hw := hworkers i hi
    rw [hcaller] at hw
    exact hw.run (function, numTasks)
  | setTasks hcaller =>
    rw [hcaller] at hassigned hworkers
    refine ⟨hassigned, fun i hi => ?_⟩
    have hstage : (Caller.publish 0).stage i = .before := by simp [Caller.stage]
    exact (hworkers i hi).recall hstage (fun _ => False.elim) nofun False.elim
  | published hcaller =>
    rw [hcaller] at hassigned hrecall
    refine hrecall hassigned fun i hi => ⟨?_, fun _ => Nat.zero_le i, nofun, False.elim⟩
    simp [Caller.stage, hi]
  | notified hcaller =>
    rw [hcaller] at hassigned hrecall
    refine hrecall hassigned fun i hi => ⟨?_, fun hle => ?_, nofun, False.elim⟩
    · simp [Caller.stage]
    · exact absurd hi (Nat.not_lt.mpr hle)
  | @found j hcaller hj hfree hfinished =>
    rw [hcaller] at hassigned hworkers
    refine ⟨hassigned, fun i hi => ?_⟩
    by_cases heq : i = j
    · subst heq
      exact (hworkers i hi).found hfree hfinished
    · refine (hworkers i hi).recall ?_ (fun _ => False.elim) nofun False.elim
      have hiff : j + 1 ≤ i ↔ j ≤ i := by omega
      simp only [Caller.stage, hiff]
  | block hcaller hj hfree hfinished =>
    rw [hcaller] at hassigned hrecall
    refine hrecall hassigned fun i hi => ⟨rfl, False.elim, fun hwaiting hfinished' => ?_, False.elim⟩
    obtain rfl := Caller.waiting.inj hwaiting
    rw [hfinished] at hfinished'
    cases hfinished'
  | wake hcaller =>
    rw [hcaller] at hassigned hrecall
    exact hrecall hassigned fun i hi => ⟨rfl, False.elim, nofun, False.elim⟩
  | returned hcaller =>
    rw [hcaller] at hrecall
    refine hrecall trivial fun i hi => ⟨?_, False.elim, nofun, False.elim⟩
    simp [Caller.stage, hi]
  | destroy hcaller =>
    rw [hcaller] at hrecall
    exact hrecall trivial fun i hi => ⟨rfl, False.elim, nofun, False.elim⟩
  | destructed hcaller =>
    rw [hcaller] at hrecall
    exact hrecall trivial fun i hi => ⟨rfl, fun _ => Nat.zero_le i, nofun, fun _ => trivial⟩
  | notifiedDestructed hcaller =>
    rw [hcaller] at hrecall
    refine hrecall trivial fun i hi => ⟨rfl, fun hle => ?_, nofun, fun _ => trivial⟩
    exact absurd hi (Nat.not_lt.mpr hle)
  | joined hcaller hj hpc =>
    rw [hcaller] at hrecall
    exact hrecall trivial fun i hi => ⟨rfl, False.elim, nofun, fun _ => trivial⟩
  | gone hcaller =>
    rw [hcaller] at hrecall
    exact hrecall trivial fun i hi => ⟨rfl, False.elim, nofun, fun _ => trivial⟩

/-- A notification by the caller: one worker is past it. -/
theorem Pool.Inv.notify (h : s.Inv numThreads) {i : Nat} (hnotify : NotifyOne i s t)
    {caller : Caller} (hidle : ∀ j, s.caller ≠ .waiting j) (hidle' : ∀ j, caller ≠ .waiting j)
    (hstage : ∀ j, caller.stage j = s.caller.stage j)
    (hnotifies : ∀ j, j ≠ i → s.caller.Notifies j → caller.Notifies j)
    (hdestructs : ∀ j, s.caller.Destructs j → caller.Destructs j)
    (hassigned : ({ s with caller := caller } : Pool F).Assigned) :
    ({ t with caller := caller } : Pool F).Inv numThreads := by
  have hothers : ∀ j < numThreads, j ≠ i → (s.workers j).Inv numThreads j s.runs caller :=
    fun j hj hne => (h.workers j hj).recall (hstage j) (fun _ => hnotifies j hne)
      (fun hwaiting => absurd hwaiting (hidle' j)) (hdestructs j)
  cases hnotify with
  | worker hpc =>
    refine ⟨hassigned, Pool.Inv.setWorker (fun hi => ?_) hothers⟩
    have hlock : ({ s.workers i with pc := .lock } : Worker F).Inv numThreads i s.runs s.caller :=
      (h.workers i hi).move_free (by rw [hpc]; rfl) (fun hwaiting => absurd hwaiting (hidle i)) rfl
        (fun _ _ => trivial) nofun
    exact hlock.recall (hstage i) nofun (fun hwaiting => absurd hwaiting (hidle' i)) (hdestructs i)
  | caller hwaiting => exact absurd hwaiting (hidle i)
  | nobody hpc _ =>
    refine ⟨hassigned, fun j hj => ?_⟩
    by_cases heq : j = i
    · subst heq
      exact (h.workers j hj).recall (hstage j) (fun hpc' => absurd hpc' hpc)
        (fun hwaiting => absurd hwaiting (hidle' j)) (hdestructs j)
    · exact hothers j hj heq

/-- What holds in a state holds after every step. -/
theorem Pool.Inv.step (h : s.Inv numThreads) (hstep : Step numThreads s t) : t.Inv numThreads := by
  obtain ⟨hassigned, hworkers⟩ := id h
  cases hstep with
  | worker hi hw =>
    refine ⟨hassigned, Pool.Inv.setWorker (fun _ => ?_) fun j hj _ => hworkers j hj⟩
    exact (hworkers _ hi).step (fun hstage => hassigned.during hstage) hw
  | @workerNotify i t hi hpc hnotify =>
    have hlock : ∀ {caller : Caller}, (s.workers i).Inv numThreads i s.runs caller →
        caller ≠ .waiting i →
        ({ s.workers i with pc := .lock } : Worker F).Inv numThreads i s.runs caller :=
      fun hw hne => hw.move_free (by rw [hpc]; rfl) (fun hwaiting => absurd hwaiting hne) rfl
        (fun _ _ => trivial) nofun
    cases hnotify with
    | worker hpc' =>
      rw [hpc] at hpc'
      cases hpc'
    | caller hwaiting =>
      unfold Pool.Assigned at hassigned
      rw [hwaiting] at hassigned
      have hwoken : ∀ j < numThreads, (s.workers j).Inv numThreads j s.runs (.await i) := by
        intro j hj
        refine (hworkers j hj).recall ?_ (fun _ => ?_) nofun ?_
        · rw [hwaiting]
          rfl
        · rw [hwaiting]
          exact False.elim
        · rw [hwaiting]
          exact False.elim
      exact ⟨hassigned, Pool.Inv.setWorker (s := { s with caller := .await i })
        (fun hi => hlock (hwoken i hi) nofun) fun j hj _ => hwoken j hj⟩
    | nobody _ hcaller =>
      exact ⟨hassigned, Pool.Inv.setWorker (fun hi => hlock (hworkers i hi) hcaller)
        fun j hj _ => hworkers j hj⟩
  | caller hstep => exact h.callerStep hstep
  | @publish i hcaller hi hfree =>
    unfold Pool.Assigned at hassigned
    rw [hcaller] at hassigned hworkers
    refine ⟨hassigned, Pool.Inv.setWorker (fun hi => (hworkers i hi).publish) fun j hj hne => ?_⟩
    have hiff : i + 1 ≤ j ↔ i ≤ j := by omega
    refine (hworkers j hj).recall ?_ (fun _ hlt => Nat.lt_succ_of_lt hlt) nofun False.elim
    simp only [Caller.stage, hiff]
  | @notify i t hcaller hi hnotify =>
    unfold Pool.Assigned at hassigned
    rw [hcaller] at hassigned
    refine h.notify hnotify (by rw [hcaller]; exact nofun) nofun ?_ ?_ ?_ hassigned
    · rw [hcaller]
      exact fun j => rfl
    · rw [hcaller]
      exact fun j hne hle => Nat.lt_of_le_of_ne hle (Ne.symm hne)
    · rw [hcaller]
      exact fun j => False.elim
  | @destruct i hcaller hi hfree =>
    rw [hcaller] at hworkers
    refine ⟨trivial, Pool.Inv.setWorker (fun hi => (hworkers i hi).destruct) fun j hj hne => ?_⟩
    exact (hworkers j hj).recall rfl (fun _ hlt => Nat.lt_succ_of_lt hlt) nofun
      fun hlt => Nat.lt_succ_of_lt hlt
  | @notifyDestructed i t hcaller hi hnotify =>
    refine h.notify hnotify (by rw [hcaller]; exact nofun) nofun ?_ ?_ ?_ trivial
    · rw [hcaller]
      exact fun j => rfl
    · rw [hcaller]
      exact fun j hne hle => Nat.lt_of_le_of_ne hle (Ne.symm hne)
    · rw [hcaller]
      exact fun j _ => trivial

theorem Pool.Inv.steps (h : s.Inv numThreads) (hsteps : Steps numThreads s t) : t.Inv numThreads := by
  induction hsteps with
  | refl => exact h
  | tail _ hstep ih => exact ih.step hstep

/-- The invariant of the reachable states. -/
theorem Reachable.inv (h : Reachable numThreads s) : s.Inv numThreads := by
  obtain ⟨numTasks, hsteps⟩ := h
  exact (Pool.inv_new numTasks).steps hsteps

end Steps

end FilterThreadPool

end JoinOptimizer
