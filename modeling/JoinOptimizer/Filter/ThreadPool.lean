import JoinOptimizer.Filter.Selected
import Mathlib.Logic.Relation

/-! `FilterThreadPool` of `include/inner_column.h` as a step system: a caller and `numThreads` workers that
share a mutex, a condition variable and some flags for each worker. -/

namespace JoinOptimizer

open Lib

namespace FilterThreadPool

/-- Where a worker is in `run_loop`: before the mutex, in `wait`, before it reads `begin` or `end`, before
or in the call of the function, before it sets `finished`, before its `notify_one`, or out of the loop. -/
inductive RunLoop
  | lock
  | waiting
  | readBegin
  | readEnd (first : Nat)
  | call (first last : Nat)
  | calling (first last : Nat)
  | finish
  | notify
  | exited
  deriving DecidableEq

/-- The worker holds its mutex. -/
def RunLoop.holds : RunLoop → Bool
  | readBegin | readEnd _ | call _ _ | calling _ _ | finish => true
  | _ => false

/-- Where the caller is: between two calls, in the loops of `run` or in those of the destructor.
`setTasks` is the place between the two assignments of `run`, and `waiting` is in `wait`. -/
inductive Caller
  | idle
  | setTasks (numTasks : Nat)
  | publish (i : Nat)
  | notify (i : Nat)
  | await (i : Nat)
  | waiting (i : Nat)
  | destruct (i : Nat)
  | notifyDestructed (i : Nat)
  | join (i : Nat)
  | destroyed
  deriving DecidableEq

/-- A call of the function, with the number of the run that it is made in. -/
structure Call (F : Type) where
  run : Nat
  function : F
  first : Nat
  last : Nat
  deriving DecidableEq

/-- What belongs to one worker: its elements of the vectors of flags, its place in the loop, and the calls
that it has made. -/
structure Worker (F : Type) where
  hasFunction : Bool
  finished : Bool
  destructed : Bool
  pc : RunLoop
  calls : List (Call F)
  deriving DecidableEq

/-- A state of the pool, with the arguments of the calls of `run` so far. -/
structure Pool (F : Type) where
  function : Option F
  numTasks : Nat
  workers : Nat → Worker F
  caller : Caller
  runs : List (F × Nat)

variable {F : Type}

/-- There is work for the worker. -/
def Worker.ready (w : Worker F) : Bool := w.hasFunction && !w.finished

/-- The predicate of the wait in `run_loop`. -/
def Worker.wakes (w : Worker F) : Bool := w.destructed || w.ready

/-- The pool that the constructor leaves; nothing has set `num_tasks`. -/
def Pool.new (numTasks : Nat) : Pool F where
  function := none
  numTasks := numTasks
  workers := fun _ => ⟨false, false, false, .lock, []⟩
  caller := .idle
  runs := []

def Pool.setWorker (s : Pool F) (i : Nat) (w : Worker F) : Pool F :=
  { s with workers := Function.update s.workers i w }

/-- A step of `run_loop` but for its notification, where `begin_idx` gives `first` and `last` for the worker
and the next one. -/
inductive Worker.Step (first last : Nat) (function : Option F) (run : Nat) :
    Worker F → Worker F → Prop
  | sleep {w : Worker F} : w.pc = .lock → w.wakes = false → Step first last function run w
      { w with pc := .waiting }
  | wake {w : Worker F} : w.pc = .waiting → Step first last function run w { w with pc := .lock }
  | exit {w : Worker F} : w.pc = .lock → w.destructed = true → Step first last function run w
      { w with pc := .exited }
  | enter {w : Worker F} : w.pc = .lock → w.destructed = false → w.ready = true →
      Step first last function run w { w with pc := .readBegin }
  | readBegin {w : Worker F} : w.pc = .readBegin →
      Step first last function run w { w with pc := .readEnd first }
  | readEnd {w : Worker F} {b : Nat} : w.pc = .readEnd b →
      Step first last function run w { w with pc := .call b last }
  | call {w : Worker F} {b e : Nat} {f : F} : w.pc = .call b e → b < e → function = some f →
      Step first last function run w
        { w with pc := .calling b e, calls := w.calls ++ [⟨run, f, b, e⟩] }
  | skip {w : Worker F} {b e : Nat} : w.pc = .call b e → ¬ b < e →
      Step first last function run w { w with pc := .finish }
  | returned {w : Worker F} {b e : Nat} : w.pc = .calling b e →
      Step first last function run w { w with pc := .finish }
  | finish {w : Worker F} : w.pc = .finish →
      Step first last function run w { w with pc := .notify, finished := true }

/-- `notify_one` for a condition variable on which a worker or the caller may wait. -/
inductive NotifyOne (i : Nat) (s : Pool F) : Pool F → Prop
  | worker : (s.workers i).pc = .waiting →
      NotifyOne i s (s.setWorker i { s.workers i with pc := .lock })
  | caller : s.caller = .waiting i → NotifyOne i s { s with caller := .await i }
  | nobody : (s.workers i).pc ≠ .waiting → s.caller ≠ .waiting i → NotifyOne i s s

/-- A step of the caller alone. -/
inductive CallerStep (numThreads : Nat) (s : Pool F) : Pool F → Prop
  | run (function : F) (numTasks : Nat) : s.caller = .idle →
      CallerStep numThreads s
        { s with
          function := some function, caller := .setTasks numTasks
          runs := s.runs ++ [(function, numTasks)] }
  | setTasks {numTasks : Nat} : s.caller = .setTasks numTasks →
      CallerStep numThreads s { s with numTasks := numTasks, caller := .publish 0 }
  | published : s.caller = .publish numThreads → CallerStep numThreads s { s with caller := .notify 0 }
  | notified : s.caller = .notify numThreads → CallerStep numThreads s { s with caller := .await 0 }
  | found {i : Nat} : s.caller = .await i → i < numThreads → (s.workers i).pc.holds = false →
      (s.workers i).finished = true → CallerStep numThreads s { s with caller := .await (i + 1) }
  | block {i : Nat} : s.caller = .await i → i < numThreads → (s.workers i).pc.holds = false →
      (s.workers i).finished = false → CallerStep numThreads s { s with caller := .waiting i }
  | wake {i : Nat} : s.caller = .waiting i → CallerStep numThreads s { s with caller := .await i }
  | returned : s.caller = .await numThreads → CallerStep numThreads s { s with caller := .idle }
  | destroy : s.caller = .idle → CallerStep numThreads s { s with caller := .destruct 0 }
  | destructed : s.caller = .destruct numThreads →
      CallerStep numThreads s { s with caller := .notifyDestructed 0 }
  | notifiedDestructed : s.caller = .notifyDestructed numThreads →
      CallerStep numThreads s { s with caller := .join 0 }
  | joined {i : Nat} : s.caller = .join i → i < numThreads → (s.workers i).pc = .exited →
      CallerStep numThreads s { s with caller := .join (i + 1) }
  | gone : s.caller = .join numThreads → CallerStep numThreads s { s with caller := .destroyed }

/-- A step of the pool.  The caller sets the flags of a worker while it holds the worker's mutex. -/
inductive Step (numThreads : Nat) (s : Pool F) : Pool F → Prop
  | worker {i : Nat} {w : Worker F} : i < numThreads →
      (s.workers i).Step (beginIdx numThreads s.numTasks i) (beginIdx numThreads s.numTasks (i + 1))
        s.function (s.runs.length - 1) w →
      Step numThreads s (s.setWorker i w)
  | workerNotify {i : Nat} {t : Pool F} : i < numThreads → (s.workers i).pc = .notify →
      NotifyOne i s t → Step numThreads s (t.setWorker i { t.workers i with pc := .lock })
  | caller {t : Pool F} : CallerStep numThreads s t → Step numThreads s t
  | publish {i : Nat} : s.caller = .publish i → i < numThreads → (s.workers i).pc.holds = false →
      Step numThreads s
        { s.setWorker i { s.workers i with hasFunction := true, finished := false } with
          caller := .publish (i + 1) }
  | notify {i : Nat} {t : Pool F} : s.caller = .notify i → i < numThreads → NotifyOne i s t →
      Step numThreads s { t with caller := .notify (i + 1) }
  | destruct {i : Nat} : s.caller = .destruct i → i < numThreads → (s.workers i).pc.holds = false →
      Step numThreads s
        { s.setWorker i { s.workers i with destructed := true } with caller := .destruct (i + 1) }
  | notifyDestructed {i : Nat} {t : Pool F} : s.caller = .notifyDestructed i → i < numThreads →
      NotifyOne i s t → Step numThreads s { t with caller := .notifyDestructed (i + 1) }

/-- The states that the steps lead to. -/
def Steps (numThreads : Nat) : Pool F → Pool F → Prop := Relation.ReflTransGen (Step numThreads)

/-- The states of a new pool after some steps. -/
def Reachable (numThreads : Nat) (s : Pool F) : Prop := ∃ numTasks, Steps numThreads (.new numTasks) s

end FilterThreadPool

end JoinOptimizer
