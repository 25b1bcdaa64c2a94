import Screening.Engine
import Screening.Proofs.Engine.Run

namespace Screening

variable {α : Type} [Scalar α]

namespace Scorer

variable {scorer : Scorer α} {job : Job α} (deadline : Option Instant)

theorem explains_cons_iff {c : Entity} {cs : List Entity} :
    scorer.Explains job (c :: cs) ↔ (scorer.assess job c).isSome ∧ scorer.Explains job cs :=
  List.forall_mem_cons

theorem explains_append_iff {first second : List Entity} :
    scorer.Explains job (first ++ second) ↔
      scorer.Explains job first ∧ scorer.Explains job second :=
  List.forall_mem_append

theorem runTask_stopped_iff {candidates : List Entity} (progress : Progress) :
    (runTask scorer job deadline candidates progress).1.stopped = false ↔
      scorer.Explains job (candidates.take (progress.reach deadline candidates.length)) := by
  induction candidates generalizing progress with
  | nil => simp [runTask, Scored.empty, Explains]
  | cons c cs ih =>
    by_cases h : (progress.check deadline).expired = true
    · simp [runTask, Progress.reach, h, Scored.empty, Explains]
    · rw [List.length_cons, Progress.reach, if_neg h, List.take_succ_cons, explains_cons_iff]
      cases ha : scorer.assess job c with
      | none => simp [runTask, h, ha]
      | some a =>
        have hrest := ih { progress.check deadline with
          counters := a.count (progress.check deadline).counters }
        rw [Progress.reach_withCounters] at hrest
        simp only [runTask_cons deadline h ha, hrest, Option.isSome_some, true_and]

/-- A stop ends its own task, and whether there is one hangs on all tasks together. -/
theorem runTasks_stopped_iff {tasks : List (List Entity)} (progress : Progress) :
    (runTasks scorer job deadline tasks progress).1.stopped = false ↔
      scorer.Explains job
        (tasks.flatten.take (progress.reach deadline tasks.flatten.length)) := by
  induction tasks generalizing progress with
  | nil => simp [runTasks, Scored.empty, Explains]
  | cons task tasks ih =>
    rw [List.flatten_cons, Progress.take_reach_append, explains_append_iff]
    simp only [runTasks, Scored.append, Bool.or_eq_false_iff, runTask_stopped_iff]
    refine and_congr_right fun hfirst => ?_
    obtain ⟨counters, hp⟩ := runTask_progress deadline progress hfirst
    rw [ih, hp, Progress.reach_withCounters]

theorem runJobs_stopped_iff {chunk : UInt64} (positive : chunk ≠ 0) {jobs : List (Job α)}
    (small : ∀ job ∈ jobs, job.candidates.length < 2 ^ 63) (progress : Progress) :
    (runJobs scorer chunk deadline jobs progress).1.any Scored.stopped = false ↔
      ∀ p ∈ (Job.pairs jobs).take (progress.reach deadline (Job.pairs jobs).length),
        (scorer.assess p.1 p.2).isSome := by
  induction jobs generalizing progress with
  | nil => simp [runJobs, Job.pairs]
  | cons job jobs ih =>
    have hflat := Chunk.tasks_flatten positive (small job List.mem_cons_self)
    have hfirst : (runTasks scorer job deadline (Chunk.tasks chunk job.candidates)
        progress).1.stopped = false ↔ _ := runTasks_stopped_iff deadline progress
    rw [hflat] at hfirst
    rw [Job.pairs_cons, Progress.take_reach_append, List.forall_mem_append, List.length_map,
      ← List.map_take, List.forall_mem_map]
    simp only [runJobs, List.any_cons, Bool.or_eq_false_iff, hfirst]
    refine and_congr_right fun hjob => ?_
    have htask := runTasks_tasks deadline positive (small job List.mem_cons_self) progress hjob
    obtain ⟨counters, hp⟩ := runTask_progress deadline progress hjob
    rw [htask, ih (fun j hj => small j (List.mem_cons_of_mem job hj)), hp,
      Progress.reach_withCounters]

end Scorer

namespace Engine

theorem respond_stopped_iff {engine : Engine α} (chunked : engine.settings.chunkSize ≠ 0)
    (deadline : Option Instant) {jobs : List (Job α)}
    (small : ∀ job ∈ jobs, job.candidates.length < 2 ^ 63) {k : Nat}
    (reached : Progress.reach deadline (Job.pairs jobs).length
      ⟨false, engine.clock, engine.counters⟩ = k) :
    (engine.respond deadline jobs).1 = .error .scoringStopped ↔
      ¬ ∀ p ∈ (Job.pairs jobs).take k, (engine.scorer.assess p.1 p.2).isSome := by
  subst reached
  rw [← Scorer.runJobs_stopped_iff deadline chunked small]
  unfold respond
  dsimp only
  split
  next hstop => simp [hstop]
  next hstop => simp [hstop]

end Engine

end Screening
