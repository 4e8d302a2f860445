import JoinOptimizer.Lib.Buckets

/-! Workers that each run through a list of jobs of their own.  A schedule names the worker that
takes the next step; when it is used up the workers are joined, and what each has left is run in the
order of the joins. -/

namespace JoinOptimizer.Lib

variable {ω α : Type} [DecidableEq ω]

/-- The jobs in the order in which they run, each with its worker. -/
def interleave (workers : List ω) : List ω → (ω → List α) → List (ω × α)
  | [], jobs => workers.flatMap fun w => (jobs w).map fun a => (w, a)
  | w :: schedule, jobs =>
    match jobs w with
    | [] => interleave workers schedule jobs
    | a :: rest => (w, a) :: interleave workers schedule (Function.update jobs w rest)

/-- The jobs of all workers, one worker after the other. -/
def allJobs (workers : List ω) (jobs : ω → List α) : List (ω × α) :=
  workers.flatMap fun w => (jobs w).map fun a => (w, a)

omit [DecidableEq ω] in
theorem mem_allJobs {workers : List ω} {jobs : ω → List α} {w : ω} {a : α} :
    (w, a) ∈ allJobs workers jobs ↔ w ∈ workers ∧ a ∈ jobs w := by
  simp [allJobs, and_left_comm]

omit [DecidableEq ω] in
theorem map_snd_allJobs (workers : List ω) (jobs : ω → List α) :
    (allJobs workers jobs).map Prod.snd = workers.flatMap jobs := by
  simp [allJobs, List.map_flatMap, Function.comp_def]

/-- A job taken from the head of one worker's list is missing from the jobs that remain. -/
theorem allJobs_perm_cons {workers : List ω} {jobs : ω → List α} {w : ω} {a : α} {rest : List α}
    (hnodup : workers.Nodup) (hw : w ∈ workers) (hjobs : jobs w = a :: rest) :
    (allJobs workers jobs).Perm ((w, a) :: allJobs workers (Function.update jobs w rest)) := by
  have htail : (fun v => (Function.update jobs w rest v).map fun a => (v, a)) =
      Function.update (fun v => (jobs v).map fun a => (v, a)) w (rest.map fun a => (w, a)) := by
    funext v
    by_cases hv : v = w
    · subst hv
      simp
    · simp [Function.update_of_ne hv]
  unfold allJobs
  rw [htail]
  refine (flatMap_perm_of_mem hnodup hw _).trans ?_
  rw [hjobs]
  exact List.Perm.cons _ (flatMap_update_perm hnodup hw _ _).symm

/-- Whatever the schedule, every job of every worker runs exactly once. -/
theorem interleave_perm {workers : List ω} (hnodup : workers.Nodup) (hall : ∀ w, w ∈ workers)
    (schedule : List ω) (jobs : ω → List α) :
    (interleave workers schedule jobs).Perm (allJobs workers jobs) := by
  induction schedule generalizing jobs with
  | nil => exact List.Perm.refl _
  | cons w schedule ih =>
    unfold interleave
    split
    case h_1 h => exact ih jobs
    case h_2 a rest h =>
      exact ((ih _).cons (w, a)).trans (allJobs_perm_cons hnodup (hall w) h).symm

end JoinOptimizer.Lib
