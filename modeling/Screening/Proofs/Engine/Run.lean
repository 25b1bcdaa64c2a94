import Screening.Proofs.Engine.Chunk

namespace Screening

namespace Progress

/-- How many of `n` candidates in a row are reached before the deadline is known to have passed. -/
def reach (deadline : Option Instant) : Nat → Progress → Nat
  | 0, _ => 0
  | n + 1, progress =>
    let next := progress.check deadline
    if next.expired then 0 else reach deadline n next + 1

/-- How far a run has come after `n` candidates in a row, apart from the counts. -/
def after (deadline : Option Instant) : Nat → Progress → Progress
  | 0, progress => progress
  | n + 1, progress =>
    let next := progress.check deadline
    if next.expired then next else after deadline n next

variable (deadline : Option Instant)

theorem check_of_expired {progress : Progress} (h : progress.expired = true) :
    progress.check deadline = progress := by
  cases deadline with
  | none => rfl
  | some deadline => simp [check, h]

theorem check_withCounters (progress : Progress) (counters : Counters) :
    ({ progress with counters } : Progress).check deadline =
      { progress.check deadline with counters } := by
  cases deadline with
  | none => rfl
  | some deadline =>
    simp only [check]
    split <;> rfl

theorem reach_of_expired {progress : Progress} (h : progress.expired = true) (n : Nat) :
    progress.reach deadline n = 0 := by
  cases n with
  | zero => rfl
  | succ n => simp [reach, check_of_expired deadline h, h]

theorem reach_le (n : Nat) (progress : Progress) : progress.reach deadline n ≤ n := by
  induction n generalizing progress with
  | zero => exact Nat.le_refl 0
  | succ n ih =>
    simp only [reach]
    split
    · exact Nat.zero_le _
    · exact Nat.succ_le_succ (ih _)

theorem reach_withCounters (n : Nat) (progress : Progress) (counters : Counters) :
    ({ progress with counters } : Progress).reach deadline n = progress.reach deadline n := by
  induction n generalizing progress with
  | zero => rfl
  | succ n ih => simp only [reach, check_withCounters, ih]

theorem after_withCounters (n : Nat) (progress : Progress) (counters : Counters) :
    ({ progress with counters } : Progress).after deadline n =
      { progress.after deadline n with counters } := by
  induction n generalizing progress with
  | zero => rfl
  | succ n ih =>
    simp only [after, check_withCounters, ih]
    split <;> rfl

theorem reach_add (m n : Nat) (progress : Progress) :
    progress.reach deadline (m + n) =
      progress.reach deadline m + (progress.after deadline m).reach deadline n := by
  induction m generalizing progress with
  | zero => simp [reach, after]
  | succ m ih =>
    rw [Nat.add_right_comm]
    by_cases h : (progress.check deadline).expired = true
    · simp [reach, after, h, reach_of_expired deadline h]
    · simp only [reach, after, if_neg h, ih]
      omega

theorem expired_after_of_cut {m : Nat} {progress : Progress}
    (cut : progress.reach deadline m < m) : (progress.after deadline m).expired = true := by
  induction m generalizing progress with
  | zero => exact absurd cut (Nat.lt_irrefl 0)
  | succ m ih =>
    by_cases h : (progress.check deadline).expired = true
    · simp [after, h]
    · simp only [reach, after, if_neg h] at cut ⊢
      exact ih (by omega)

theorem take_reach_append {β : Type} (first second : List β) (progress : Progress) :
    (first ++ second).take (progress.reach deadline (first ++ second).length) =
      first.take (progress.reach deadline first.length) ++
        second.take ((progress.after deadline first.length).reach deadline second.length) := by
  rw [List.length_append, reach_add, List.take_append]
  rcases Nat.lt_or_eq_of_le (reach_le deadline first.length progress) with cut | full
  · rw [reach_of_expired deadline (expired_after_of_cut deadline cut), Nat.add_zero,
      Nat.sub_eq_zero_of_le (Nat.le_of_lt cut)]
  · rw [full, Nat.add_sub_cancel_left, List.take_of_length_le (Nat.le_refl _),
      List.take_of_length_le (Nat.le_add_right _ _)]

/-- Every candidate is reached if no reading that is taken shows the deadline or a later time. -/
theorem reach_eq_of_quiet {n : Nat} {progress : Progress} (fresh : progress.expired = false)
    (quiet : ∀ d, deadline = some d →
      ∀ i < n, progress.clock.reading (progress.clock.taken + i) < d) :
    progress.reach deadline n = n := by
  induction n generalizing progress with
  | zero => rfl
  | succ n ih =>
    have hnext : (progress.check deadline).expired = false ∧ ∀ d, deadline = some d →
        (progress.check deadline).clock = progress.clock.tick := by
      cases deadline with
      | none => exact ⟨fresh, fun d hd => nomatch hd⟩
      | some d =>
        have hd := quiet d rfl 0 (Nat.zero_lt_succ n)
        simp only [check, fresh]
        exact ⟨decide_eq_false (Int64.not_le.mpr hd), fun _ _ => rfl⟩
    have hrest := ih hnext.1 fun d hd i hi => by
      have h := quiet d hd (i + 1) (Nat.succ_lt_succ hi)
      rw [hnext.2 d hd]
      change progress.clock.reading (progress.clock.taken + 1 + i) < d
      rwa [Nat.add_right_comm, Nat.add_assoc]
    simp only [reach, hnext.1, hrest, Bool.false_eq_true, if_false]

end Progress

variable {α : Type} [Scalar α]

namespace Scorer

/-- The verdict on a candidate, absent if its scoring stops without a reason. -/
def verdict? (scorer : Scorer α) (job : Job α) (candidate : Entity) : Option (Verdict α) :=
  (scorer.assess job candidate).map fun assessment => assessment.verdict job candidate

def verdicts (scorer : Scorer α) (job : Job α) (candidates : List Entity) : List (Verdict α) :=
  candidates.filterMap (scorer.verdict? job)

/-- Whether no candidate's scoring stops without a reason. -/
def Explains (scorer : Scorer α) (job : Job α) (candidates : List Entity) : Prop :=
  ∀ c ∈ candidates, (scorer.assess job c).isSome

variable {scorer : Scorer α} {job : Job α} (deadline : Option Instant)

theorem verdicts_cons {c : Entity} {cs : List Entity} (explained : scorer.Explains job (c :: cs)) :
    ∃ a : Assessment α, scorer.verdict? job c = some (a.verdict job c) ∧
      scorer.verdicts job (c :: cs) = a.verdict job c :: scorer.verdicts job cs ∧
      scorer.Explains job cs := by
  obtain ⟨a, ha⟩ := Option.isSome_iff_exists.mp (explained c List.mem_cons_self)
  have hc : scorer.verdict? job c = some (a.verdict job c) := by simp [verdict?, ha]
  exact ⟨a, hc, List.filterMap_cons_some hc, fun d hd => explained d (List.mem_cons_of_mem c hd)⟩

theorem length_verdicts {candidates : List Entity} (explained : scorer.Explains job candidates) :
    (scorer.verdicts job candidates).length = candidates.length := by
  induction candidates with
  | nil => rfl
  | cons c cs ih =>
    obtain ⟨_, _, hverdicts, hrest⟩ := verdicts_cons explained
    rw [hverdicts, List.length_cons, List.length_cons, ih hrest]

theorem candidate_verdicts {candidates : List Entity}
    (explained : scorer.Explains job candidates) :
    (scorer.verdicts job candidates).map Verdict.candidate = candidates.map Entity.id := by
  induction candidates with
  | nil => rfl
  | cons c cs ih =>
    obtain ⟨_, _, hverdicts, hrest⟩ := verdicts_cons explained
    rw [hverdicts, List.map_cons, List.map_cons, ih hrest]
    rfl

theorem runTask_of_expired {progress : Progress} (h : progress.expired = true)
    (candidates : List Entity) :
    runTask scorer job deadline candidates progress = (.empty, progress) := by
  cases candidates with
  | nil => rfl
  | cons c cs => simp [runTask, Progress.check_of_expired deadline h, h]

theorem runTask_cons {candidate : Entity} {candidates : List Entity} {progress : Progress}
    {assessment : Assessment α} (reached : ¬ (progress.check deadline).expired = true)
    (h : scorer.assess job candidate = some assessment) :
    runTask scorer job deadline (candidate :: candidates) progress =
      let rest := runTask scorer job deadline candidates
        { progress.check deadline with
          counters := assessment.count (progress.check deadline).counters }
      (⟨assessment.verdict job candidate :: rest.1.verdicts, rest.1.stopped⟩, rest.2) := by
  simp [runTask, reached, h]

theorem explains_cons {c : Entity} {cs : List Entity} {progress : Progress}
    (reached : ¬ (progress.check deadline).expired = true)
    (explained : scorer.Explains job
      ((c :: cs).take (progress.reach deadline (c :: cs).length))) :
    ∃ a, scorer.assess job c = some a ∧ ∀ counters,
      scorer.Explains job (cs.take
        (({ progress.check deadline with counters } : Progress).reach deadline cs.length)) := by
  rw [List.length_cons, Progress.reach, if_neg reached, List.take_succ_cons] at explained
  obtain ⟨a, ha⟩ := Option.isSome_iff_exists.mp (explained c List.mem_cons_self)
  refine ⟨a, ha, fun counters => ?_⟩
  rw [Progress.reach_withCounters]
  exact fun d hd => explained d (List.mem_cons_of_mem c hd)

theorem runTask_append {first : List Entity} (second : List Entity) (progress : Progress)
    (explained : scorer.Explains job (first.take (progress.reach deadline first.length))) :
    runTask scorer job deadline (first ++ second) progress =
      let run := runTask scorer job deadline first progress
      let rest := runTask scorer job deadline second run.2
      (run.1.append rest.1, rest.2) := by
  induction first generalizing progress with
  | nil => simp [runTask, Scored.append, Scored.empty]
  | cons c cs ih =>
    by_cases h : (progress.check deadline).expired = true
    · have hs : runTask scorer job deadline second _ = _ := runTask_of_expired deadline h second
      simp [runTask, h, hs, Scored.append, Scored.empty]
    · obtain ⟨a, ha, hrest⟩ := explains_cons deadline h explained
      simp [runTask_cons deadline h ha, ih _ (hrest _), Scored.append]

/-- The candidates that are scored are the first ones, as many as are reached. -/
theorem runTask_scored {candidates : List Entity} (progress : Progress)
    (explained : scorer.Explains job
      (candidates.take (progress.reach deadline candidates.length))) :
    (runTask scorer job deadline candidates progress).1 =
      ⟨scorer.verdicts job (candidates.take (progress.reach deadline candidates.length)), false⟩ := by
  induction candidates generalizing progress with
  | nil => rfl
  | cons c cs ih =>
    by_cases h : (progress.check deadline).expired = true
    · simp [runTask, Progress.reach, h, verdicts, Scored.empty]
    · obtain ⟨a, ha, hrest⟩ := explains_cons deadline h explained
      have hc : scorer.verdict? job c = some (a.verdict job c) := by simp [verdict?, ha]
      rw [runTask_cons deadline h ha]
      simp only [ih _ (hrest _), Progress.reach_withCounters]
      simp [Progress.reach, h, verdicts, hc]

/-- A task leaves the clock as it is after so many candidates. -/
theorem runTask_progress {candidates : List Entity} (progress : Progress)
    (explained : scorer.Explains job
      (candidates.take (progress.reach deadline candidates.length))) :
    ∃ counters, (runTask scorer job deadline candidates progress).2 =
      { progress.after deadline candidates.length with counters } := by
  induction candidates generalizing progress with
  | nil => exact ⟨progress.counters, rfl⟩
  | cons c cs ih =>
    by_cases h : (progress.check deadline).expired = true
    · refine ⟨(progress.check deadline).counters, ?_⟩
      rw [List.length_cons, Progress.after, if_pos h, runTask, if_pos h]
    · obtain ⟨a, ha, hrest⟩ := explains_cons deadline h explained
      obtain ⟨counters, hc⟩ := ih _ (hrest _)
      refine ⟨counters, ?_⟩
      rw [runTask_cons deadline h ha, List.length_cons, Progress.after, if_neg h]
      rw [Progress.after_withCounters] at hc
      exact hc

theorem runTasks_eq_runTask {tasks : List (List Entity)} (progress : Progress)
    (explained : scorer.Explains job
      (tasks.flatten.take (progress.reach deadline tasks.flatten.length))) :
    runTasks scorer job deadline tasks progress =
      runTask scorer job deadline tasks.flatten progress := by
  induction tasks generalizing progress with
  | nil => rfl
  | cons task tasks ih =>
    rw [List.flatten_cons, Progress.take_reach_append] at explained
    have hfirst : scorer.Explains job (task.take (progress.reach deadline task.length)) :=
      fun c hc => explained c (List.mem_append_left _ hc)
    obtain ⟨counters, hp⟩ := runTask_progress deadline progress hfirst
    have hrest := ih (runTask scorer job deadline task progress).2 <| by
      rw [hp, Progress.reach_withCounters]
      exact fun c hc => explained c (List.mem_append_right _ hc)
    rw [List.flatten_cons, runTask_append deadline _ _ hfirst]
    simp only [runTasks, hrest]

/-- How a job is cut into tasks makes no difference. -/
theorem runTasks_tasks {chunk : UInt64} (positive : chunk ≠ 0) {candidates : List Entity}
    (small : candidates.length < 2 ^ 63) (progress : Progress)
    (explained : scorer.Explains job
      (candidates.take (progress.reach deadline candidates.length))) :
    runTasks scorer job deadline (Chunk.tasks chunk candidates) progress =
      runTask scorer job deadline candidates progress := by
  have hflat := Chunk.tasks_flatten positive small
  rw [runTasks_eq_runTask deadline progress (by rwa [hflat]), hflat]

end Scorer

namespace Job

omit [Scalar α]

/-- The candidates of all jobs, each with its job, in the order in which they are scored. -/
def pairs (jobs : List (Job α)) : List (Job α × Entity) :=
  jobs.flatMap fun job => job.candidates.map fun c => (job, c)

/-- What falls to each job of the first `most` candidates of all jobs. -/
def portions : (most : Nat) → List (Job α) → List (List Entity)
  | _, [] => []
  | most, job :: jobs => job.candidates.take most :: portions (most - job.candidates.length) jobs

theorem pairs_cons (job : Job α) (jobs : List (Job α)) :
    pairs (job :: jobs) = (job.candidates.map fun c => (job, c)) ++ pairs jobs := rfl

theorem pairs_singleton (job : Job α) :
    pairs [job] = job.candidates.map fun c => (job, c) := List.append_nil _

theorem length_portions (most : Nat) (jobs : List (Job α)) :
    (portions most jobs).length = jobs.length := by
  induction jobs generalizing most with
  | nil => rfl
  | cons job jobs ih => simp [portions, ih]

theorem pairs_portions (most : Nat) (jobs : List (Job α)) :
    ((jobs.zip (portions most jobs)).flatMap fun p => p.2.map fun c => (p.1, c)) =
      (pairs jobs).take most := by
  induction jobs generalizing most with
  | nil => simp [portions, pairs]
  | cons job jobs ih =>
    have h := ih (most - job.candidates.length)
    simp [portions, pairs_cons, h, List.take_append]

end Job

namespace Scorer

variable {scorer : Scorer α} (deadline : Option Instant) {chunk : UInt64}

theorem explains_jobs_cons {job : Job α} {jobs : List (Job α)} {progress : Progress}
    (explained : ∀ p ∈ (Job.pairs (job :: jobs)).take
      (progress.reach deadline (Job.pairs (job :: jobs)).length), (scorer.assess p.1 p.2).isSome) :
    scorer.Explains job
        (job.candidates.take (progress.reach deadline job.candidates.length)) ∧
      ∀ p ∈ (Job.pairs jobs).take ((progress.after deadline job.candidates.length).reach deadline
        (Job.pairs jobs).length), (scorer.assess p.1 p.2).isSome := by
  rw [Job.pairs_cons, Progress.take_reach_append, List.length_map, ← List.map_take] at explained
  refine ⟨fun c hc => ?_, fun p hp => explained p (List.mem_append_right _ hp)⟩
  exact explained (job, c) (List.mem_append_left _ (List.mem_map_of_mem hc))

/-- Each job is scored as far as the candidates that are reached in all jobs together go. -/
theorem runJobs_scored (positive : chunk ≠ 0) {jobs : List (Job α)}
    (small : ∀ job ∈ jobs, job.candidates.length < 2 ^ 63) (progress : Progress)
    (explained : ∀ p ∈ (Job.pairs jobs).take (progress.reach deadline (Job.pairs jobs).length),
      (scorer.assess p.1 p.2).isSome) :
    (runJobs scorer chunk deadline jobs progress).1 =
      (jobs.zip (Job.portions (progress.reach deadline (Job.pairs jobs).length) jobs)).map
        fun p => ⟨scorer.verdicts p.1 p.2, false⟩ := by
  induction jobs generalizing progress with
  | nil => rfl
  | cons job jobs ih =>
    obtain ⟨hjob, hjobs⟩ := explains_jobs_cons deadline explained
    have htask := runTasks_tasks deadline positive (small job List.mem_cons_self) progress hjob
    obtain ⟨counters, hp⟩ := runTask_progress deadline progress hjob
    have hreach := Progress.reach_withCounters deadline (Job.pairs jobs).length
      (progress.after deadline job.candidates.length) counters
    have hrest := ih (fun j hj => small j (List.mem_cons_of_mem job hj))
      (runTask scorer job deadline job.candidates progress).2 (by rwa [hp, hreach])
    have hle := Progress.reach_le deadline job.candidates.length progress
    rw [hp, hreach] at hrest
    simp only [runJobs, htask, hp, hrest, runTask_scored deadline progress hjob, Job.pairs_cons,
      List.length_append, List.length_map, Progress.reach_add, Job.portions, List.zip_cons_cons,
      List.map_cons, List.cons.injEq, Scored.mk.injEq, and_true]
    rcases Nat.lt_or_eq_of_le hle with cut | full
    · rw [Progress.reach_of_expired deadline (Progress.expired_after_of_cut deadline cut),
        Nat.add_zero, Nat.sub_eq_zero_of_le hle]
      exact ⟨rfl, rfl⟩
    · rw [full, Nat.add_sub_cancel_left, List.take_of_length_le (Nat.le_refl _),
        List.take_of_length_le (Nat.le_add_right _ _)]
      exact ⟨rfl, rfl⟩

theorem mem_runTask {job : Job α} {candidates : List Entity} {progress : Progress} {v : Verdict α}
    (hv : v ∈ (runTask scorer job deadline candidates progress).1.verdicts) :
    ∃ c ∈ candidates, scorer.verdict? job c = some v := by
  induction candidates generalizing progress with
  | nil => simp [runTask, Scored.empty] at hv
  | cons c cs ih =>
    by_cases h : (progress.check deadline).expired = true
    · simp [runTask, h, Scored.empty] at hv
    · cases ha : scorer.assess job c with
      | none => simp [runTask, h, ha] at hv
      | some a =>
        rw [runTask_cons deadline h ha] at hv
        rcases List.mem_cons.mp hv with rfl | hv
        · exact ⟨c, List.mem_cons_self, by simp [verdict?, ha]⟩
        · obtain ⟨d, hd, hverdict⟩ := ih hv
          exact ⟨d, List.mem_cons_of_mem c hd, hverdict⟩

theorem mem_runTasks {job : Job α} {tasks : List (List Entity)} {progress : Progress} {v : Verdict α}
    (hv : v ∈ (runTasks scorer job deadline tasks progress).1.verdicts) :
    ∃ task ∈ tasks, ∃ c ∈ task, scorer.verdict? job c = some v := by
  induction tasks generalizing progress with
  | nil => simp [runTasks, Scored.empty] at hv
  | cons task tasks ih =>
    rcases List.mem_append.mp hv with hv | hv
    · exact ⟨task, List.mem_cons_self, mem_runTask deadline hv⟩
    · obtain ⟨other, hother, hc⟩ := ih hv
      exact ⟨other, List.mem_cons_of_mem task hother, hc⟩

theorem mem_runJobs {jobs : List (Job α)} {progress : Progress}
    {p : Job α × Scored α} (hp : p ∈ jobs.zip (runJobs scorer chunk deadline jobs progress).1)
    {v : Verdict α} (hv : v ∈ p.2.verdicts) :
    p.1 ∈ jobs ∧ ∃ c ∈ p.1.candidates, scorer.verdict? p.1 c = some v := by
  induction jobs generalizing progress with
  | nil => simp at hp
  | cons job jobs ih =>
    rcases List.mem_cons.mp hp with rfl | hp
    · obtain ⟨task, htask, c, hc, hverdict⟩ := mem_runTasks deadline hv
      obtain ⟨interval, _, rfl⟩ := List.mem_map.mp htask
      have hmem := List.mem_of_mem_drop (List.mem_of_mem_take hc)
      exact ⟨List.mem_cons_self, c, hmem, hverdict⟩
    · obtain ⟨hjob, hc⟩ := ih hp
      exact ⟨List.mem_cons_of_mem job hjob, hc⟩

end Scorer

end Screening
