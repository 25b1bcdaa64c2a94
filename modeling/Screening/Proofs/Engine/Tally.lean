import Screening.Proofs.Engine.Batch

namespace Screening

variable {α : Type} [Scalar α]

namespace Progress

variable (deadline : Option Instant)

theorem counters_check (progress : Progress) :
    (progress.check deadline).counters = progress.counters := by
  cases deadline with
  | none => rfl
  | some deadline =>
    simp only [check]
    split <;> rfl

theorem after_of_expired {progress : Progress} (h : progress.expired = true) (n : Nat) :
    progress.after deadline n = progress := by
  cases n with
  | zero => rfl
  | succ n => simp [after, check_of_expired deadline h, h]

theorem after_add (m n : Nat) (progress : Progress) :
    progress.after deadline (m + n) = (progress.after deadline m).after deadline n := by
  induction m generalizing progress with
  | zero => simp [after]
  | succ m ih =>
    rw [Nat.add_right_comm]
    by_cases h : (progress.check deadline).expired = true
    · simp [after, h, after_of_expired deadline h]
    · simp only [after, if_neg h, ih]

end Progress

omit [Scalar α] in
theorem Assessment.count_right_comm (a b : Assessment α) (counters : Counters) :
    b.count (a.count counters) = a.count (b.count counters) := by
  cases a <;> cases b <;> rfl

namespace Scorer

def tally (scorer : Scorer α) (pairs : List (Job α × Entity)) (counters : Counters) : Counters :=
  (pairs.filterMap fun p => scorer.assess p.1 p.2).foldl Assessment.count counters

variable {scorer : Scorer α} {job : Job α} (deadline : Option Instant)

theorem tally_append (first second : List (Job α × Entity)) (counters : Counters) :
    scorer.tally (first ++ second) counters = scorer.tally second (scorer.tally first counters) := by
  rw [tally, List.filterMap_append, List.foldl_append]
  rfl

theorem tally_perm {first second : List (Job α × Entity)} (perm : first.Perm second)
    (counters : Counters) : scorer.tally first counters = scorer.tally second counters := by
  apply (perm.filterMap _).foldl_eq'
  intro a _ b _ counters
  exact Assessment.count_right_comm a b counters

theorem runTask_counters {candidates : List Entity} (progress : Progress)
    (explained : scorer.Explains job
      (candidates.take (progress.reach deadline candidates.length))) :
    (runTask scorer job deadline candidates progress).2.counters =
      scorer.tally ((candidates.take (progress.reach deadline candidates.length)).map
        fun c => (job, c)) progress.counters := by
  induction candidates generalizing progress with
  | nil => rfl
  | cons c cs ih =>
    by_cases h : (progress.check deadline).expired = true
    · simp [runTask, Progress.reach, h, Progress.counters_check, tally]
    · obtain ⟨a, ha, hrest⟩ := explains_cons deadline h explained
      rw [runTask_cons deadline h ha, List.length_cons, Progress.reach, if_neg h,
        List.take_succ_cons]
      simp only [ih _ (hrest _), Progress.reach_withCounters, Progress.counters_check, tally,
        List.map_cons, List.filterMap_cons, ha, List.foldl_cons]

theorem runTask_after {candidates : List Entity} (progress : Progress)
    (explained : scorer.Explains job
      (candidates.take (progress.reach deadline candidates.length))) :
    (runTask scorer job deadline candidates progress).2 =
      { progress.after deadline candidates.length with
        counters := scorer.tally ((candidates.take (progress.reach deadline candidates.length)).map
          fun c => (job, c)) progress.counters } := by
  obtain ⟨counters, h⟩ := runTask_progress deadline progress explained
  have hcounters := runTask_counters deadline progress explained
  rw [h] at hcounters ⊢
  rw [← hcounters]

/-- How far the clock is after a run, and what is counted, hangs on all candidates in a row and
not on the bounds between jobs or tasks. -/
theorem runJobs_after {chunk : UInt64} (positive : chunk ≠ 0) {jobs : List (Job α)}
    (small : ∀ job ∈ jobs, job.candidates.length < 2 ^ 63) (progress : Progress)
    (explained : ∀ p ∈ (Job.pairs jobs).take (progress.reach deadline (Job.pairs jobs).length),
      (scorer.assess p.1 p.2).isSome) :
    (runJobs scorer chunk deadline jobs progress).2 =
      { progress.after deadline (Job.pairs jobs).length with
        counters := scorer.tally
          ((Job.pairs jobs).take (progress.reach deadline (Job.pairs jobs).length))
          progress.counters } := by
  induction jobs generalizing progress with
  | nil => rfl
  | cons job jobs ih =>
    obtain ⟨hjob, hjobs⟩ := explains_jobs_cons deadline explained
    have htask := runTasks_tasks deadline positive (small job List.mem_cons_self) progress hjob
    have hafter := runTask_after deadline progress hjob
    have hreach := Progress.reach_withCounters deadline (Job.pairs jobs).length
      (progress.after deadline job.candidates.length)
    have hrest := ih (fun j hj => small j (List.mem_cons_of_mem job hj))
      (runTask scorer job deadline job.candidates progress).2 (by rwa [hafter, hreach])
    rw [hafter] at hrest
    simp only [hreach, Progress.after_withCounters] at hrest
    simp only [runJobs, htask, hafter, hrest]
    rw [Job.pairs_cons, Progress.take_reach_append, tally_append, List.length_append,
      Progress.after_add, List.length_map, List.map_take]

end Scorer

namespace Engine

theorem respond_engine {engine : Engine α} (chunked : engine.settings.chunkSize ≠ 0)
    (deadline : Option Instant) {jobs : List (Job α)}
    (small : ∀ job ∈ jobs, job.candidates.length < 2 ^ 63) {k : Nat}
    (reached : Progress.reach deadline (Job.pairs jobs).length
      ⟨false, engine.clock, engine.counters⟩ = k)
    (explained : ∀ p ∈ (Job.pairs jobs).take k, (engine.scorer.assess p.1 p.2).isSome)
    {rankings : List (Ranking α)} (ranked : (engine.respond deadline jobs).1 = .ok rankings) :
    (engine.respond deadline jobs).2 =
      { engine with
        clock := (Progress.after deadline (Job.pairs jobs).length
          ⟨false, engine.clock, engine.counters⟩).clock
        counters := rankings.foldl Ranking.count
          (engine.scorer.tally ((Job.pairs jobs).take k) engine.counters) } := by
  subst reached
  have hafter := Scorer.runJobs_after deadline chunked small
    ⟨false, engine.clock, engine.counters⟩ explained
  unfold respond at ranked ⊢
  dsimp only at ranked ⊢
  split at ranked
  next => exact nomatch ranked
  next hstop =>
    rw [if_neg hstop, hafter, Except.ok.inj ranked]

end Engine

end Screening
