import JoinOptimizer.Filter.PoolInvariant

/-! A run of the thread pool executes every slice once, nothing executes its function after it has
returned, and no notification is lost. -/

namespace JoinOptimizer

open Lib

namespace FilterThreadPool

variable {F : Type} {numThreads : Nat} {s t u : Pool F}

section Calls

variable {i : Nat} {job : F × Nat} {runs : List (F × Nat)}

theorem mem_runCalls {run : Nat} {c : Call F} : c ∈ runCalls numThreads i run job ↔
    beginIdx numThreads job.2 i < beginIdx numThreads job.2 (i + 1) ∧
      c = ⟨run, job.1, beginIdx numThreads job.2 i, beginIdx numThreads job.2 (i + 1)⟩ := by
  unfold runCalls
  dsimp only
  split
  · next hlt => simp [hlt]
  · next hle => simp [hle]

/-- The calls of further runs. -/
theorem callsOf_append (numThreads i : Nat) (runs more : List (F × Nat)) : ∃ later,
    callsOf numThreads i (runs ++ more) = callsOf numThreads i runs ++ later ∧
      ∀ c ∈ later, runs.length ≤ c.run ∧ ∃ n, (runs ++ more)[c.run]? = some (c.function, n) := by
  refine ⟨(more.zipIdx runs.length).flatMap fun job => runCalls numThreads i job.2 job.1, ?_, ?_⟩
  · unfold callsOf
    rw [List.zipIdx_append, List.flatMap_append, Nat.zero_add]
  · intro c hc
    obtain ⟨⟨job, run⟩, hjob, hc⟩ := List.mem_flatMap.mp hc
    obtain ⟨-, rfl⟩ := mem_runCalls.mp hc
    obtain ⟨hle, hlt, hget⟩ := List.mem_zipIdx hjob
    refine ⟨hle, job.2, ?_⟩
    rw [List.getElem?_append_right hle, List.getElem?_eq_getElem (by omega), ← hget]

/-- The calls that the worker has made in a run. -/
def Pool.callsIn (s : Pool F) (run i : Nat) : List (Call F) :=
  (s.workers i).calls.filter fun c => c.run = run

theorem filter_callsOf (runs : List (F × Nat)) (job : F × Nat) :
    (callsOf numThreads i (runs ++ [job])).filter (fun c => c.run = runs.length) =
      runCalls numThreads i runs.length job := by
  rw [callsOf_concat, List.filter_append]
  have hold : (callsOf numThreads i runs).filter (fun c => c.run = runs.length) = [] := by
    rw [List.filter_eq_nil_iff]
    intro c hc
    obtain ⟨⟨job', run⟩, hjob, hc⟩ := List.mem_flatMap.mp hc
    obtain ⟨-, rfl⟩ := mem_runCalls.mp hc
    obtain ⟨-, hlt, -⟩ := List.mem_zipIdx hjob
    simp only [decide_eq_true_eq]
    omega
  have hnew : (runCalls numThreads i runs.length job).filter (fun c => c.run = runs.length) =
      runCalls numThreads i runs.length job := by
    rw [List.filter_eq_self]
    intro c hc
    obtain ⟨-, rfl⟩ := mem_runCalls.mp hc
    exact decide_eq_true rfl
  rw [hold, hnew, List.nil_append]

end Calls

/-- A run has executed the slices of `numTasks` tasks, each in one call by one worker. -/
structure Pool.RanOnce (numThreads : Nat) (s : Pool F) (run : Nat) (function : F) (numTasks : Nat) :
    Prop where
  once : ∀ i < numThreads, (s.callsIn run i).length ≤ 1
  slice : ∀ i < numThreads, ∀ c ∈ s.callsIn run i, c.function = function ∧
    c.first = beginIdx numThreads numTasks i ∧ c.last = beginIdx numThreads numTasks (i + 1)
  disjoint : ∀ i < numThreads, ∀ j < numThreads, i ≠ j → ∀ c ∈ s.callsIn run i,
    ∀ d ∈ s.callsIn run j, c.last ≤ d.first ∨ d.last ≤ c.first
  cover : ∀ k, k < numTasks ↔ ∃ i < numThreads, ∃ c ∈ s.callsIn run i, c.first ≤ k ∧ k < c.last

/-- The calls of all slices are a run of its own. -/
theorem ranOnce_of_runCalls (hthreads : 0 < numThreads) {run : Nat} {job : F × Nat}
    (hcalls : ∀ i < numThreads, s.callsIn run i = runCalls numThreads i run job) :
    s.RanOnce numThreads run job.1 job.2 := by
  have hmem : ∀ {i : Nat} {c : Call F}, i < numThreads → (c ∈ s.callsIn run i ↔
      beginIdx numThreads job.2 i < beginIdx numThreads job.2 (i + 1) ∧
        c = ⟨run, job.1, beginIdx numThreads job.2 i, beginIdx numThreads job.2 (i + 1)⟩) := by
    intro i c hi
    rw [hcalls i hi, mem_runCalls]
  have hmono := beginIdx_mono numThreads job.2
  refine ⟨fun i hi => ?_, fun i hi c hc => ?_, fun i hi j hj hne c hc d hd => ?_, fun k => ⟨?_, ?_⟩⟩
  · rw [hcalls i hi, runCalls]
    split <;> simp
  · obtain ⟨-, rfl⟩ := (hmem hi).mp hc
    exact ⟨rfl, rfl, rfl⟩
  · obtain ⟨-, rfl⟩ := (hmem hi).mp hc
    obtain ⟨-, rfl⟩ := (hmem hj).mp hd
    rcases Nat.lt_or_gt_of_ne hne with hlt | hlt
    · exact .inl (hmono hlt)
    · exact .inr (hmono hlt)
  · intro hk
    rw [← beginIdx_last hthreads job.2] at hk
    obtain ⟨i, hi, hfirst, hlast⟩ := exists_slice (b := beginIdx numThreads job.2)
      (by rw [beginIdx_zero]; exact Nat.zero_le k) hk
    exact ⟨i, hi, _, (hmem hi).mpr ⟨by omega, rfl⟩, hfirst, hlast⟩
  · rintro ⟨i, hi, c, hc, -, hlast⟩
    obtain ⟨-, rfl⟩ := (hmem hi).mp hc
    have hle := hmono (show i + 1 ≤ numThreads from hi)
    rw [beginIdx_last hthreads] at hle
    exact Nat.lt_of_lt_of_le hlast hle

/-- The caller is in no call of `run`. -/
def Caller.Settled : Caller → Prop
  | setTasks _ | publish _ | notify _ | await _ | waiting _ => False
  | _ => True

theorem Caller.Settled.stage {caller : Caller} (h : caller.Settled) (i : Nat) :
    caller.stage i = .after := by
  cases caller <;> first | rfl | exact h.elim

/-- The step is no start of a run, nor does it lead into one. -/
def Stays (s t : Pool F) : Prop := t.runs = s.runs ∧ (s.caller.Settled → t.caller.Settled)

theorem stays_of_caller {caller : Caller} (hcaller : s.caller = caller) (hin : ¬ caller.Settled)
    (hruns : t.runs = s.runs) : Stays s t :=
  ⟨hruns, fun h => absurd (hcaller ▸ h) hin⟩

theorem NotifyOne.stays {i : Nat} (h : NotifyOne i s t) : Stays s t := by
  cases h with
  | worker hpc => exact ⟨rfl, id⟩
  | caller hwaiting => exact stays_of_caller hwaiting id rfl
  | nobody _ _ => exact ⟨rfl, id⟩

/-- A step leaves the runs as they are and does not lead into one, or it starts one. -/
theorem runs_of_step (hstep : Step numThreads s t) :
    Stays s t ∨ s.caller = .idle ∧ ∃ job, t.runs = s.runs ++ [job] := by
  cases hstep with
  | worker _ _ => exact .inl ⟨rfl, id⟩
  | workerNotify _ _ hnotify => exact .inl hnotify.stays
  | publish hcaller _ _ => exact .inl (stays_of_caller hcaller id rfl)
  | notify hcaller _ hnotify => exact .inl (stays_of_caller hcaller id hnotify.stays.1)
  | destruct _ _ _ => exact .inl ⟨rfl, fun _ => trivial⟩
  | notifyDestructed _ _ hnotify => exact .inl ⟨hnotify.stays.1, fun _ => trivial⟩
  | caller hcaller =>
    cases hcaller with
    | run function numTasks hcaller => exact .inr ⟨hcaller, _, rfl⟩
    | setTasks hcaller => exact .inl (stays_of_caller hcaller id rfl)
    | published hcaller => exact .inl (stays_of_caller hcaller id rfl)
    | notified hcaller => exact .inl (stays_of_caller hcaller id rfl)
    | found hcaller _ _ _ => exact .inl (stays_of_caller hcaller id rfl)
    | block hcaller _ _ _ => exact .inl (stays_of_caller hcaller id rfl)
    | wake hcaller => exact .inl (stays_of_caller hcaller id rfl)
    | returned _ => exact .inl ⟨rfl, fun _ => trivial⟩
    | destroy _ => exact .inl ⟨rfl, fun _ => trivial⟩
    | destructed _ => exact .inl ⟨rfl, fun _ => trivial⟩
    | notifiedDestructed _ => exact .inl ⟨rfl, fun _ => trivial⟩
    | joined _ _ _ => exact .inl ⟨rfl, fun _ => trivial⟩
    | gone _ => exact .inl ⟨rfl, fun _ => trivial⟩

/-- The runs only become more; while they are the same, the caller stays out of them. -/
theorem runs_of_steps (hsettled : s.caller.Settled) (hsteps : Steps numThreads s t) :
    ∃ more, t.runs = s.runs ++ more ∧ (more = [] → t.caller.Settled) := by
  induction hsteps with
  | refl => exact ⟨[], (List.append_nil _).symm, fun _ => hsettled⟩
  | tail _ hstep ih =>
    obtain ⟨more, hruns, hcaller⟩ := ih
    rcases runs_of_step hstep with ⟨hsame, hkeeps⟩ | ⟨-, job, hjob⟩
    · exact ⟨more, hsame.trans hruns, fun hnil => hkeeps (hcaller hnil)⟩
    · refine ⟨more ++ [job], ?_, fun hnil => absurd hnil (by simp)⟩
      rw [hjob, hruns, List.append_assoc]

/-- What a worker does after the caller has returned from `run` belongs to later runs. -/
theorem later_calls (hs : s.Inv numThreads) (hsettled : s.caller.Settled)
    (hsteps : Steps numThreads s t) {i : Nat} (hi : i < numThreads) :
    ((t.workers i).pc.holds = true → s.runs.length < t.runs.length) ∧
      ∃ later, (t.workers i).calls = (s.workers i).calls ++ later ∧
        ∀ c ∈ later, s.runs.length ≤ c.run ∧ ∃ n, t.runs[c.run]? = some (c.function, n) := by
  obtain ⟨more, hruns, hcaller⟩ := runs_of_steps hsettled hsteps
  have ht := (hs.steps hsteps).workers i hi
  have hcalls := (hs.workers i hi).after (hsettled.stage i)
  constructor
  · intro hheld
    have hne : more ≠ [] := by
      intro hnil
      have hstage := (ht.holds hheld).1
      rw [(hcaller hnil).stage i] at hstage
      cases hstage
    rw [hruns, List.length_append]
    exact Nat.lt_add_of_pos_right (List.length_pos_of_ne_nil hne)
  · -- the worker has made the calls of some more runs, up to the last one
    have hpart : ∃ part rest, part ++ rest = more ∧
        (t.workers i).calls = callsOf numThreads i (s.runs ++ part) := by
      by_cases hnil : more = []
      · refine ⟨[], [], by simp [hnil], ?_⟩
        rw [ht.after ((hcaller hnil).stage i), hruns, hnil]
      · have hdrop : t.runs.dropLast = s.runs ++ more.dropLast := by
          rw [hruns, List.dropLast_append_of_ne_nil hnil]
        have hlast := List.dropLast_append_getLast hnil
        cases hstage : t.caller.stage i with
        | before => exact ⟨_, _, hlast, by rw [ht.before hstage, hdrop]⟩
        | during =>
          cases hcalled : (t.workers i).called with
          | true =>
            refine ⟨more, [], List.append_nil _, ?_⟩
            rw [ht.during hstage, hcalled, if_pos rfl, hruns]
          | false =>
            refine ⟨_, _, hlast, ?_⟩
            rw [ht.during hstage, hcalled, if_neg Bool.false_ne_true, hdrop]
        | after => exact ⟨more, [], List.append_nil _, by rw [ht.after hstage, hruns]⟩
    obtain ⟨part, rest, hmore, hpart⟩ := hpart
    obtain ⟨later, hlater, hfurther⟩ := callsOf_append numThreads i s.runs part
    refine ⟨later, by rw [hpart, hlater, hcalls], fun c hc => ?_⟩
    obtain ⟨hle, n, hget⟩ := hfurther c hc
    refine ⟨hle, n, ?_⟩
    rw [hruns, ← hmore, ← List.append_assoc,
      List.getElem?_append_left (List.getElem?_eq_some_iff.mp hget).1]
    exact hget

/-- Whoever waits for what has happened is to be notified. -/
structure Pool.NoLostWakeup (numThreads : Nat) (s : Pool F) : Prop where
  caller : ∀ i < numThreads, s.caller = .waiting i → (s.workers i).finished = true →
    (s.workers i).pc = .notify
  worker : ∀ i < numThreads, (s.workers i).pc = .waiting → (s.workers i).wakes = true →
    s.caller.Notifies i

/-- In every reachable state no wake-up is lost.  Where `run` returns, its slices have been executed once,
no worker is at work, and what a worker executes afterwards is of a later run. -/
theorem run_executes_once (hthreads : 0 < numThreads) (hs : Reachable numThreads s) :
    s.NoLostWakeup numThreads ∧
      ∀ t, Step numThreads s t → s.caller = .await numThreads → t.caller = .idle →
        ∃ f n, t.runs.getLast? = some (f, n) ∧ t.RanOnce numThreads (t.runs.length - 1) f n ∧
          (∀ i < numThreads, (t.workers i).pc.holds = false) ∧
          ∀ u, Steps numThreads t u → ∀ i < numThreads,
            ((u.workers i).pc.holds = true → t.runs.length < u.runs.length) ∧
              ∃ later, (u.workers i).calls = (t.workers i).calls ++ later ∧
                ∀ c ∈ later, t.runs.length ≤ c.run ∧ ∃ n, u.runs[c.run]? = some (c.function, n) := by
  have hinv := hs.inv
  refine ⟨⟨fun i hi => (hinv.workers i hi).awake, fun i hi => (hinv.workers i hi).asleep⟩, ?_⟩
  intro t hstep hawait hidle
  have htinv := hinv.step hstep
  have hsettled : t.caller.Settled := by
    rw [hidle]
    trivial
  -- the run that returns is the last one that was started
  have hassigned := hinv.assigned
  unfold Pool.Assigned at hassigned
  rw [hawait] at hassigned
  obtain ⟨f, hlast, -⟩ := hassigned
  have hruns : t.runs = s.runs := by
    rcases runs_of_step hstep with ⟨hsame, -⟩ | ⟨hcaller, -⟩
    · exact hsame
    · rw [hawait] at hcaller
      cases hcaller
  obtain ⟨pre, hpre⟩ : ∃ pre, t.runs = pre ++ [(f, s.numTasks)] :=
    ⟨_, by rw [hruns, List.dropLast_append_getLast? _ hlast]⟩
  refine ⟨f, s.numTasks, by rw [hruns]; exact hlast, ?_, fun i hi => ?_, fun u hsteps i hi =>
    later_calls htinv hsettled hsteps hi⟩
  · have hran : t.RanOnce numThreads pre.length (f, s.numTasks).1 (f, s.numTasks).2 := by
      refine ranOnce_of_runCalls hthreads fun i hi => ?_
      rw [Pool.callsIn, (htinv.workers i hi).after (hsettled.stage i), hpre]
      exact filter_callsOf pre _
    rw [hpre, List.length_append, List.length_singleton, Nat.add_sub_cancel]
    exact hran
  · refine (htinv.workers i hi).free ?_
    rw [hsettled.stage i]
    exact nofun

/-- A pool of two workers. -/
def twoPool (w₀ w₁ : Worker Bool) (caller : Caller) (function : Option Bool) (numTasks : Nat)
    (runs : List (Bool × Nat)) : Pool Bool where
  function := function
  numTasks := numTasks
  workers := fun i => if i = 0 then w₀ else if i = 1 then w₁ else ⟨false, false, false, .lock, []⟩
  caller := caller
  runs := runs

section TwoPool

variable {w₀ w₁ w : Worker Bool} {caller : Caller} {function : Option Bool} {f : Bool} {n : Nat}
  {runs : List (Bool × Nat)}

theorem twoPool_set₀ : (twoPool w₀ w₁ caller function n runs).setWorker 0 w =
    twoPool w w₁ caller function n runs := by
  unfold Pool.setWorker twoPool
  congr 1
  funext i
  by_cases hi : i = 0 <;> simp [hi]

theorem twoPool_set₁ : (twoPool w₀ w₁ caller function n runs).setWorker 1 w =
    twoPool w₀ w caller function n runs := by
  unfold Pool.setWorker twoPool
  congr 1
  funext i
  by_cases hi : i = 1
  · simp [hi]
  · simp [hi]

/-- The call of `run` up to the first wait for a worker. -/
theorem twoPool_start (f : Bool) (n : Nat) {n₀ : Nat} (h₀ : w₀.pc.holds = false) (h₁ : w₁.pc.holds = false)
    (hw₀ : w₀.pc ≠ .waiting) (hw₁ : w₁.pc ≠ .waiting) :
    Steps 2 (twoPool w₀ w₁ .idle function n₀ runs)
      (twoPool { w₀ with hasFunction := true, finished := false }
        { w₁ with hasFunction := true, finished := false } (.await 0) (some f) n (runs ++ [(f, n)])) := by
  have hrun : Step 2 (twoPool w₀ w₁ .idle function n₀ runs)
      (twoPool w₀ w₁ (.setTasks n) (some f) n₀ (runs ++ [(f, n)])) := .caller (.run f n rfl)
  have hset : Step 2 (twoPool w₀ w₁ (.setTasks n) (some f) n₀ (runs ++ [(f, n)]))
      (twoPool w₀ w₁ (.publish 0) (some f) n (runs ++ [(f, n)])) := .caller (.setTasks rfl)
  have hfirst : Step 2 (twoPool w₀ w₁ (.publish 0) (some f) n (runs ++ [(f, n)]))
      (twoPool { w₀ with hasFunction := true, finished := false } w₁ (.publish 1) (some f) n
        (runs ++ [(f, n)])) := by
    have hstep := Step.publish (s := twoPool w₀ w₁ (.publish 0) (some f) n (runs ++ [(f, n)])) rfl
      (show 0 < 2 by decide) h₀
    rwa [twoPool_set₀] at hstep
  have hsecond : Step 2 (twoPool { w₀ with hasFunction := true, finished := false } w₁ (.publish 1) (some f) n
        (runs ++ [(f, n)]))
      (twoPool { w₀ with hasFunction := true, finished := false }
        { w₁ with hasFunction := true, finished := false } (.publish 2) (some f) n (runs ++ [(f, n)])) := by
    have hstep := Step.publish (s := twoPool { w₀ with hasFunction := true, finished := false } w₁ (.publish 1)
      (some f) n (runs ++ [(f, n)])) rfl (show 1 < 2 by decide) h₁
    rwa [twoPool_set₁] at hstep
  exact (((((((Relation.ReflTransGen.single hrun).tail hset).tail hfirst).tail hsecond).tail
    (.caller (.published rfl))).tail (.notify rfl (by decide) (.nobody hw₀ (by simp)))).tail
    (.notify rfl (by decide) (.nobody hw₁ (by simp)))).tail (.caller (.notified rfl))

/-- A worker takes its mutex, executes its slice and sets `finished`. -/
theorem slice_steps {b e run : Nat} (hlt : b < e) (calls : List (Call Bool)) :
    Relation.ReflTransGen (Worker.Step b e (some f) run) ⟨true, false, false, .lock, calls⟩
      ⟨true, true, false, .notify, calls ++ [⟨run, f, b, e⟩]⟩ :=
  (((((Relation.ReflTransGen.single (.enter rfl rfl rfl)).tail (.readBegin rfl)).tail (.readEnd rfl)).tail
    (.call rfl hlt rfl)).tail (.returned rfl)).tail (.finish rfl)

theorem twoPool_work₀ (h : Relation.ReflTransGen (Worker.Step (beginIdx 2 n 0) (beginIdx 2 n 1) function
    (runs.length - 1)) w₀ w) :
    Steps 2 (twoPool w₀ w₁ caller function n runs) (twoPool w w₁ caller function n runs) := by
  refine h.lift (fun w => twoPool w w₁ caller function n runs) fun v w hstep => ?_
  have hworker := Step.worker (s := twoPool v w₁ caller function n runs) (show 0 < 2 by decide) hstep
  rwa [twoPool_set₀] at hworker

theorem twoPool_work₁ (h : Relation.ReflTransGen (Worker.Step (beginIdx 2 n 1) (beginIdx 2 n 2) function
    (runs.length - 1)) w₁ w) :
    Steps 2 (twoPool w₀ w₁ caller function n runs) (twoPool w₀ w caller function n runs) := by
  refine h.lift (fun w => twoPool w₀ w caller function n runs) fun v w hstep => ?_
  have hworker := Step.worker (s := twoPool w₀ v caller function n runs) (show 1 < 2 by decide) hstep
  rwa [twoPool_set₁] at hworker

/-- The notification of a worker that nobody waits for. -/
theorem twoPool_notify₀ (hpc : w₀.pc = .notify) (hcaller : caller ≠ .waiting 0) :
    Step 2 (twoPool w₀ w₁ caller function n runs)
      (twoPool { w₀ with pc := .lock } w₁ caller function n runs) := by
  have hne : w₀.pc ≠ .waiting := by
    rw [hpc]
    decide
  have hstep := Step.workerNotify (s := twoPool w₀ w₁ caller function n runs) (show 0 < 2 by decide) hpc
    (.nobody hne hcaller)
  rwa [twoPool_set₀] at hstep

/-- The notification of a worker that the caller waits for. -/
theorem twoPool_notify₁ (hpc : w₁.pc = .notify) :
    Step 2 (twoPool w₀ w₁ (.waiting 1) function n runs)
      (twoPool w₀ { w₁ with pc := .lock } (.await 1) function n runs) := by
  have hstep := Step.workerNotify (s := twoPool w₀ w₁ (.waiting 1) function n runs) (show 1 < 2 by decide) hpc
    (.caller rfl)
  have hset := @twoPool_set₁ w₀ w₁ { w₁ with pc := .lock } (.await 1) function n runs
  exact hset ▸ hstep

end TwoPool

def finishedWorker (pc : RunLoop) (calls : List (Call Bool)) : Worker Bool := ⟨true, true, false, pc, calls⟩

/-- The pool in its second run, of nine tasks.  The first run, of sixteen, has returned before the second worker
has notified the caller, who waits for that worker again. -/
def overlappedPool : Pool Bool :=
  twoPool (finishedWorker .lock [⟨0, false, 0, 8⟩, ⟨1, true, 0, 5⟩])
    ⟨true, false, false, .notify, [⟨0, false, 8, 16⟩]⟩ (.waiting 1) (some true) 9 [(false, 16), (true, 9)]

theorem reachable_overlappedPool : Reachable 2 overlappedPool := by
  have hnew : (Pool.new 0 : Pool Bool) =
      twoPool ⟨false, false, false, .lock, []⟩ ⟨false, false, false, .lock, []⟩ .idle none 0 [] := by
    unfold Pool.new twoPool
    congr 1
    funext i
    simp
  have hfirst : Steps 2 (Pool.new 0)
      (twoPool (finishedWorker .lock [⟨0, false, 0, 8⟩]) (finishedWorker .notify [⟨0, false, 8, 16⟩]) .idle
        (some false) 16 [(false, 16)]) := by
    rw [hnew]
    refine (twoPool_start false 16 rfl rfl (by decide) (by decide)).trans ?_
    refine (twoPool_work₀ (slice_steps (by decide) [])).trans ?_
    refine .head (twoPool_notify₀ rfl (by decide)) ?_
    refine (twoPool_work₁ (slice_steps (by decide) [])).trans ?_
    refine .head (.caller (.found rfl (by decide) rfl rfl)) ?_
    refine .head (.caller (.found rfl (by decide) rfl rfl)) ?_
    exact .single (.caller (.returned rfl))
  refine ⟨0, hfirst.trans ?_⟩
  refine (twoPool_start true 9 rfl rfl (by decide) (by decide)).trans ?_
  refine (twoPool_work₀ (slice_steps (by decide) _)).trans ?_
  refine .head (twoPool_notify₀ rfl (by decide)) ?_
  refine .head (.caller (.found rfl (by decide) rfl rfl)) ?_
  exact .single (.caller (.block rfl (by decide) rfl rfl))

/-- The pool at the end of that run. -/
def finishedPool (caller : Caller) : Pool Bool :=
  twoPool (finishedWorker .lock [⟨0, false, 0, 8⟩, ⟨1, true, 0, 5⟩])
    (finishedWorker .lock [⟨0, false, 8, 16⟩, ⟨1, true, 5, 9⟩]) caller (some true) 9 [(false, 16), (true, 9)]

/-- The notification of the first run wakes the caller too early, who waits once more. -/
theorem reachable_finishedPool : Reachable 2 (finishedPool (.await 2)) := by
  obtain ⟨n, hsteps⟩ := reachable_overlappedPool
  refine ⟨n, hsteps.trans ?_⟩
  refine .head (twoPool_notify₁ rfl) ?_
  refine .head (.caller (.block rfl (by decide) rfl rfl)) ?_
  refine (twoPool_work₁ (slice_steps (by decide) _)).trans ?_
  refine .head (twoPool_notify₁ rfl) ?_
  exact .single (.caller (.found rfl (by decide) rfl rfl))

/-- No wake-up of that run is lost, and at its end it has executed its nine tasks once. -/
theorem run_executes_once_overlapped :
    overlappedPool.NoLostWakeup 2 ∧ ∃ t, Step 2 (finishedPool (.await 2)) t ∧ t.RanOnce 2 1 true 9 ∧
      ∀ i < 2, (t.workers i).pc.holds = false := by
  have hreturn : Step 2 (finishedPool (.await 2)) (finishedPool .idle) := .caller (.returned rfl)
  obtain ⟨f, n, hlast, hran, hfree, -⟩ :=
    (run_executes_once Nat.two_pos reachable_finishedPool).2 _ hreturn rfl rfl
  obtain ⟨rfl, rfl⟩ := Prod.mk.inj (Option.some.inj hlast)
  exact ⟨(run_executes_once Nat.two_pos reachable_overlappedPool).1, _, hreturn, hran, hfree⟩

end FilterThreadPool

end JoinOptimizer
