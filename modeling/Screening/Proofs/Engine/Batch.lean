import Screening.Engine
import Screening.Proofs.Engine.Ranking
import Screening.Proofs.Engine.Request
import Screening.Proofs.Engine.Run
import Screening.Proofs.Engine.Sound

namespace Screening

variable {α : Type}

theorem candidateCap_le (limit factor : UInt64) :
    (candidateCap limit factor).toNat ≤ mostCandidates.toNat := by
  unfold candidateCap
  dsimp only
  generalize (if limit > mostCandidates / max factor 1 then mostCandidates
    else limit * factor) = wanted
  split
  next => decide
  next =>
    split
    next => exact Nat.le_refl _
    next h => exact Nat.le_of_not_lt fun hlt => h (UInt64.lt_iff_toNat_lt.mpr hlt)

theorem candidateCap_small (limit factor : UInt64) :
    (candidateCap limit factor).toNat < 2 ^ 63 :=
  Nat.lt_of_le_of_lt (candidateCap_le limit factor) (by decide)

def Entity.person (id name : String) : Entity :=
  ⟨Text.of id, Text.of "Person", [⟨Text.of "name", [Text.of name]⟩]⟩

namespace Job

/-- Whether a job is scored in part, given what falls to it. -/
def isPartial (p : Job α × List Entity) : Bool :=
  decide (0 < p.2.length) && decide (p.2.length < p.1.candidates.length)

theorem portions_zero_partial (jobs : List (Job α)) :
    (jobs.zip (portions 0 jobs)).countP isPartial = 0 := by
  induction jobs with
  | nil => rfl
  | cons job jobs ih => simp [portions, isPartial, ih]

/-- The bound falls within one job at most. -/
theorem portions_partial (k : Nat) (jobs : List (Job α)) :
    (jobs.zip (portions k jobs)).countP isPartial ≤ 1 := by
  induction jobs generalizing k with
  | nil => exact Nat.zero_le 1
  | cons job jobs ih =>
    rw [portions, List.zip_cons_cons, List.countP_cons]
    rcases Nat.lt_or_ge k job.candidates.length with within | beyond
    · rw [Nat.sub_eq_zero_of_le (Nat.le_of_lt within), portions_zero_partial]
      split <;> omega
    · have full : ¬ isPartial (job, job.candidates.take k) = true := by
        simp [isPartial, List.take_of_length_le beyond]
      rw [if_neg full]
      exact ih _

theorem mem_portions {k : Nat} {jobs : List (Job α)} {p : Job α × List Entity}
    (h : p ∈ jobs.zip (portions k jobs)) : ∃ m, p.2 = p.1.candidates.take m := by
  induction jobs generalizing k with
  | nil => simp at h
  | cons job jobs ih =>
    rcases List.mem_cons.mp h with rfl | h
    · exact ⟨k, rfl⟩
    · exact ih h

end Job

/-- What a batch reports when `portions` are the candidates that are scored for its jobs. -/
structure BatchReport.Tells [Scalar α] (scorer : Scorer α) (version : Text) (jobs : List (Job α))
    (portions : List (List Entity)) (report : BatchReport α) : Prop where
  rankings : report.rankings = (jobs.zip portions).map fun p =>
    Ranking.ofVerdicts version p.1 (scorer.verdicts p.1 p.2)
  counts : report.rankings.map (fun r => (r.name, r.scored, r.total)) =
    (jobs.zip portions).map fun p => (p.1.name, p.2.length, p.1.candidates.length)
  cutShort_iff : ∀ r ∈ report.rankings, r.coverage = .cutShort ↔ r.scored < r.total
  onePartial : report.rankings.countP (fun r => 0 < r.scored && r.scored < r.total) ≤ 1
  cutShort : report.cutShort =
    (report.rankings.filter fun r => r.coverage = .cutShort).map Ranking.name
  coverage : report.coverage = if report.cutShort = [] then .complete else .cutShort

namespace Engine

variable [Scalar α]

def withChunkSize (engine : Engine α) (chunk : UInt64) : Engine α :=
  { engine with settings := { engine.settings with chunkSize := chunk } }

omit [Scalar α] in
theorem batchJobs_small {engine : Engine α} {requests : List NamedRequest}
    {overrides : Overrides α} {p : BatchPlan α} {job : Job α}
    (h : job ∈ engine.batchJobs requests overrides p) : job.candidates.length < 2 ^ 63 := by
  obtain ⟨r, _, rfl⟩ := List.mem_map.mp h
  have htake := List.length_take_le (candidateCap p.limit p.candidateFactor).toNat
    (r.candidates.filter fun c => !isExcluded engine.catalog overrides c)
  exact Nat.lt_of_le_of_lt htake (candidateCap_small p.limit p.candidateFactor)

theorem zip_map_zip {β γ δ : Type} (xs : List β) (ys : List γ) (f : β × γ → δ) :
    xs.zip ((xs.zip ys).map f) = (xs.zip ys).map fun p => (p.1, f p) := by
  induction xs generalizing ys with
  | nil => rfl
  | cons x xs ih =>
    cases ys with
    | nil => rfl
    | cons y ys => simp [ih]

/-- Jobs of which no reached candidate's scoring stops without a reason are all ranked, each as far
as it was scored. -/
theorem respond_rankings {engine : Engine α} (chunked : engine.settings.chunkSize ≠ 0)
    (deadline : Option Instant) {jobs : List (Job α)}
    (small : ∀ job ∈ jobs, job.candidates.length < 2 ^ 63) {k : Nat}
    (reached : Progress.reach deadline (Job.pairs jobs).length
      ⟨false, engine.clock, engine.counters⟩ = k)
    (explained : ∀ p ∈ (Job.pairs jobs).take k, (engine.scorer.assess p.1 p.2).isSome) :
    (engine.respond deadline jobs).1 = .ok ((jobs.zip (Job.portions k jobs)).map fun p =>
      Ranking.ofVerdicts engine.catalog.version p.1 (engine.scorer.verdicts p.1 p.2)) := by
  subst reached
  have hrun := Scorer.runJobs_scored deadline chunked small
    ⟨false, engine.clock, engine.counters⟩ explained
  have hstop : ¬ (engine.scorer.runJobs engine.settings.chunkSize deadline jobs
      ⟨false, engine.clock, engine.counters⟩).1.any Scored.stopped = true := by
    rw [hrun]
    simp
  simp only [respond]
  rw [if_neg hstop]
  simp only [hrun, zip_map_zip, List.map_map]
  rfl

theorem names_rankings {scorer : Scorer α} {version : Text} {jobs : List (Job α)}
    {portions : List (List Entity)} (h : portions.length = jobs.length) :
    ((jobs.zip portions).map fun p =>
      Ranking.ofVerdicts version p.1 (scorer.verdicts p.1 p.2)).map Ranking.name =
      jobs.map Job.name := by
  have hfst : (jobs.zip portions).map Prod.fst = jobs := List.map_fst_zip (Nat.le_of_eq h.symm)
  conv => rhs; rw [← hfst]
  simp

/-- A report on jobs of which the first `k` candidates are scored. -/
theorem report_tells {scorer : Scorer α} (version : Text) {jobs : List (Job α)} {k : Nat}
    (explained : ∀ p ∈ (Job.pairs jobs).take k, (scorer.assess p.1 p.2).isSome) :
    (report ((jobs.zip (Job.portions k jobs)).map fun p =>
      Ranking.ofVerdicts version p.1 (scorer.verdicts p.1 p.2))).Tells scorer version jobs
        (Job.portions k jobs) := by
  have hlength : ∀ p ∈ jobs.zip (Job.portions k jobs),
      (scorer.verdicts p.1 p.2).length = p.2.length ∧ p.2.length ≤ p.1.candidates.length := by
    intro p hp
    refine ⟨Scorer.length_verdicts fun c hc => ?_, ?_⟩
    · apply explained (p.1, c)
      rw [← Job.pairs_portions]
      exact List.mem_flatMap.mpr ⟨p, hp, List.mem_map_of_mem hc⟩
    · obtain ⟨m, hm⟩ := Job.mem_portions hp
      rw [hm]
      exact List.length_take_le' _ _
  refine ⟨rfl, ?_, ?_, ?_, ?_, ?_⟩
  · rw [report, List.map_map]
    apply List.map_congr_left
    intro p hp
    simp [(hlength p hp).1]
  · intro r hr
    obtain ⟨p, hp, rfl⟩ := List.mem_map.mp hr
    apply Ranking.cutShort_iff
    rw [(hlength p hp).1]
    exact (hlength p hp).2
  · rw [report, List.countP_map]
    refine Nat.le_trans (Nat.le_of_eq (List.countP_congr fun p hp => ?_)) (Job.portions_partial k jobs)
    simp [Job.isPartial, (hlength p hp).1]
  · simp only [report, Ranking.coversAll]
    congr 2
    funext r
    cases r.coverage <;> rfl
  · simp only [report, List.isEmpty_iff]

theorem answerBatch_scores_prefix {engine : Engine α} (requests : List NamedRequest)
    {overrides : Overrides α} {p : BatchPlan α} (admitted : plan engine.settings overrides = .ok p) :
    let jobs := engine.batchJobs requests overrides p
    ∃ k portions, k ≤ (Job.pairs jobs).length ∧ portions.length = jobs.length ∧
      ((jobs.zip portions).flatMap fun q => q.2.map fun c => (q.1, c)) = (Job.pairs jobs).take k ∧
      ((∀ q ∈ (Job.pairs jobs).take k, (engine.scorer.assess q.1 q.2).isSome) →
        ∀ chunk : UInt64, chunk ≠ 0 → ∃ report,
          ((engine.withChunkSize chunk).answerBatch requests overrides).1 = .ok report ∧
          report.Tells engine.scorer engine.catalog.version jobs portions ∧
          report.cutShort.Pairwise (· < ·) ∧
          (report.rankings.map Ranking.name).Pairwise (· < ·) ∧
          ∀ name, name ∈ report.rankings.map Ranking.name ↔
            name ∈ requests.map NamedRequest.name) := by
  intro jobs
  let start := deadlineAfter engine.clock (overrides.timeout.getD engine.settings.deadline)
  let k := Progress.reach start.1 (Job.pairs jobs).length ⟨false, start.2, engine.counters⟩
  refine ⟨k, Job.portions k jobs, Progress.reach_le _ _ _, Job.length_portions k jobs,
    Job.pairs_portions k jobs, fun explained chunk positive => ?_⟩
  let started := { engine.withChunkSize chunk with clock := start.2 }
  have hranked := started.respond_rankings positive start.1 (fun job => batchJobs_small) rfl explained
  have hplan : plan (engine.withChunkSize chunk).settings overrides = .ok p := admitted
  refine ⟨report _, ?_, report_tells engine.catalog.version explained, ?_⟩
  · simp only [answerBatch, hplan]
    exact congrArg (Except.map report) hranked
  · have hnames : (report ((jobs.zip (Job.portions k jobs)).map fun q =>
        Ranking.ofVerdicts engine.catalog.version q.1 (engine.scorer.verdicts q.1 q.2))).rankings.map
          Ranking.name = (NamedRequest.ordered requests).map NamedRequest.name := by
      refine (names_rankings (Job.length_portions k jobs)).trans ?_
      simp only [jobs, batchJobs, List.map_map]
      rfl
    have hordered := List.pairwise_map.mpr (NamedRequest.ordered_pairwise requests)
    rw [← hnames] at hordered
    refine ⟨hordered.sublist (List.filter_sublist.map _), hordered, fun name => ?_⟩
    rw [← NamedRequest.mem_ordered_names, ← hnames]

/-- The clock stands still for three readings and then is two milliseconds on. -/
def lateEngine : Engine Float := usual fun i => if i < 3 then 0 else .ofMilliseconds 2

def withinMillisecond : Overrides Float :=
  ⟨some .nameBased, none, none, none, none, some 1, [], []⟩

def latePlan : BatchPlan Float := ⟨.nameBased, 5, 10, 0.7, 0⟩

def twoRequests : List NamedRequest :=
  [⟨Text.of "b", .person "b" "Bo", [.person "3" "Bo"]⟩,
    ⟨Text.of "a", .person "a" "Al", [.person "1" "Al", .person "2" "Al Li"]⟩]

theorem twoRequests_scores_prefix :
    let jobs := lateEngine.batchJobs twoRequests withinMillisecond latePlan
    plan lateEngine.settings withinMillisecond = .ok latePlan ∧ ∃ k portions,
      ((jobs.zip portions).flatMap fun q => q.2.map fun c => (q.1, c)) = (Job.pairs jobs).take k ∧
      ∀ chunk : UInt64, chunk ≠ 0 → ∃ report,
        ((lateEngine.withChunkSize chunk).answerBatch twoRequests withinMillisecond).1 =
          .ok report ∧
        report.Tells lateEngine.scorer lateEngine.catalog.version jobs portions := by
  have admitted : plan lateEngine.settings withinMillisecond = .ok latePlan := rfl
  have hassess : ∀ q ∈ Job.pairs (lateEngine.batchJobs twoRequests withinMillisecond latePlan),
      (lateEngine.scorer.assess q.1 q.2).isSome := by
    decide +kernel
  obtain ⟨k, portions, _, _, hparts, hreport⟩ :=
    answerBatch_scores_prefix twoRequests admitted
  refine ⟨admitted, k, portions, hparts, fun chunk hchunk => ?_⟩
  obtain ⟨report, hok, htells, _⟩ :=
    hreport (fun q hq => hassess q (List.mem_of_mem_take hq)) chunk hchunk
  exact ⟨report, hok, htells⟩

/-- The clock shows the deadline before the one candidate of the second query is reached. -/
example : (lateEngine.answerBatch twoRequests withinMillisecond).1.toOption.map
    BatchReport.cutShort = some [Text.of "b"] := by decide +kernel

end Engine

end Screening
