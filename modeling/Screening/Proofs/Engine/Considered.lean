import Mathlib.Data.List.Forall2
import Screening.Proofs.Engine.Solo

namespace Screening

variable {α : Type}

section Cap

theorem toNat_max (a b : UInt64) : (max a b).toNat = max a.toNat b.toNat := by
  change (if a ≤ b then b else a).toNat = _
  split
  next h => exact (Nat.max_eq_right (UInt64.le_iff_toNat_le.mp h)).symm
  next h =>
    have hb : b.toNat ≤ a.toNat := by
      have := mt UInt64.le_iff_toNat_le.mpr h
      omega
    exact (Nat.max_eq_left hb).symm

variable (limit : UInt64) {factor : UInt64} (positive : factor ≠ 0)

include positive

/-- The product is formed only if a word holds it, and else counts for the greatest number of
candidates. -/
theorem min_wanted : min 9999 (if limit > mostCandidates / max factor 1 then mostCandidates
    else limit * factor).toNat = min 9999 (limit.toNat * factor.toNat) := by
  have hfactor : 0 < factor.toNat := Chunk.toNat_pos positive
  have hquotient : (mostCandidates / max factor 1).toNat = 9999 / factor.toNat := by
    rw [UInt64.toNat_div, toNat_max]
    exact congrArg (9999 / ·) (Nat.max_eq_left hfactor)
  have hbig : limit > mostCandidates / max factor 1 ↔ 9999 < limit.toNat * factor.toNat := by
    rw [gt_iff_lt, UInt64.lt_iff_toNat_lt, hquotient]
    exact Nat.div_lt_iff_lt_mul hfactor
  split
  next big =>
    have := hbig.mp big
    change min 9999 9999 = _
    omega
  next small =>
    have := mt hbig.mpr small
    rw [UInt64.toNat_mul, Nat.mod_eq_of_lt (by omega)]

theorem toNat_candidateCap :
    (candidateCap limit factor).toNat = max 20 (min 9999 (limit.toNat * factor.toNat)) := by
  rw [← min_wanted limit positive]
  unfold candidateCap
  dsimp only
  generalize (if limit > mostCandidates / max factor 1 then mostCandidates
    else limit * factor) = wanted
  have hfewest : wanted < fewestCandidates ↔ wanted.toNat < 20 := UInt64.lt_iff_toNat_lt
  have hmost : mostCandidates < wanted ↔ 9999 < wanted.toNat := UInt64.lt_iff_toNat_lt
  split
  next few =>
    have := hfewest.mp few
    change 20 = _
    omega
  next enough =>
    have := mt hfewest.mpr enough
    split
    next many =>
      have := hmost.mp many
      change 9999 = _
      omega
    next within =>
      have := mt hmost.mpr within
      omega

end Cap

theorem forall₂_map_zip {β γ δ : Type} {R : β → γ → Prop} (f : β × γ → δ) {bs : List β}
    {cs : List γ} (h : List.Forall₂ R bs cs) :
    List.Forall₂ (fun b d => ∃ c, R b c ∧ d = f (b, c)) bs ((bs.zip cs).map f) := by
  induction h with
  | nil => exact .nil
  | cons hbc _ ih => exact .cons ⟨_, hbc, rfl⟩ ih

variable [Scalar α]

theorem Scorer.forall₂_portions {scorer : Scorer α} {k : Nat} {jobs : List (Job α)}
    (explained : ∀ p ∈ (Job.pairs jobs).take k, (scorer.assess p.1 p.2).isSome) :
    List.Forall₂ (fun job portion => portion <+: job.candidates ∧ scorer.Explains job portion) jobs
      (Job.portions k jobs) := by
  induction jobs generalizing k with
  | nil => exact .nil
  | cons job jobs ih =>
    rw [Job.pairs_cons, List.take_append, List.length_map, ← List.map_take,
      List.forall_mem_append] at explained
    refine .cons ⟨List.take_prefix _ _, fun c hc => ?_⟩ (ih explained.2)
    exact explained.1 (job, c) (List.mem_map_of_mem hc)

namespace Engine

/-- The candidates of a request that a batch does not leave out. -/
def admissible (engine : Engine α) (overrides : Overrides α) (r : NamedRequest) : List Entity :=
  r.candidates.filter fun c => !isExcluded engine.catalog overrides c

/-- What a batch is to score for a request, if these are the candidates that it considers. -/
def jobOf (plan : BatchPlan α) (r : NamedRequest) (candidates : List Entity) : Job α :=
  ⟨r.name, r.query.withFullNames, candidates, plan.algorithm, plan.limit, plan.threshold, plan.cutoff⟩

variable {engine : Engine α} {requests : List NamedRequest} {overrides : Overrides α}
  {p : BatchPlan α}

theorem plan_factor (admitted : plan engine.settings overrides = .ok p) : p.candidateFactor ≠ 0 := by
  simp only [plan, refuse_eq_ok] at admitted
  obtain ⟨_, hpositive, _, _, hp⟩ := admitted
  obtain rfl := Except.ok.inj hp
  simp only [Bool.or_eq_true, decide_eq_true_eq, not_or] at hpositive
  exact hpositive.2

theorem batchJob_eq (admitted : plan engine.settings overrides = .ok p) (r : NamedRequest) :
    batchJob engine.catalog overrides p r =
      jobOf p r ((engine.admissible overrides r).take
        (min (engine.admissible overrides r).length
          (max 20 (min 9999 (p.limit.toNat * p.candidateFactor.toNat))))) := by
  rw [← toNat_candidateCap p.limit (plan_factor admitted), Nat.min_comm, ← List.take_eq_take_min]
  rfl

/-- Whatever a batch reports, it has scored the candidates of each job from the first one on. -/
theorem answerBatch_portions (chunked : engine.settings.chunkSize ≠ 0)
    (admitted : plan engine.settings overrides = .ok p) {report : BatchReport α}
    (hok : (engine.answerBatch requests overrides).1 = .ok report) :
    List.Forall₂ (fun job ranking => ∃ portion,
      (portion <+: job.candidates ∧ engine.scorer.Explains job portion) ∧
      ranking = Ranking.ofVerdicts engine.catalog.version job (engine.scorer.verdicts job portion))
      (engine.batchJobs requests overrides p) report.rankings := by
  let jobs := engine.batchJobs requests overrides p
  let start := deadlineAfter engine.clock (overrides.timeout.getD engine.settings.deadline)
  let started := { engine with clock := start.2 }
  have hsmall : ∀ job ∈ jobs, job.candidates.length < 2 ^ 63 := fun job => batchJobs_small
  have hstop := started.respond_stopped_iff chunked start.1 hsmall rfl
  simp only [answerBatch, admitted] at hok
  obtain ⟨rankings, hrankings, rfl⟩ := map_eq_ok.mp hok
  have hanswered : (started.respond start.1 jobs).1 ≠ .error .scoringStopped := by
    rw [hrankings]
    simp
  have hexplained := Classical.not_not.mp (mt hstop.mpr hanswered)
  have hranked := started.respond_rankings chunked start.1 hsmall rfl hexplained
  obtain rfl := Except.ok.inj (hrankings.symm.trans hranked)
  exact forall₂_map_zip (fun q => Ranking.ofVerdicts engine.catalog.version q.1
    (engine.scorer.verdicts q.1 q.2)) (Scorer.forall₂_portions hexplained)

/-- The candidates that a batch scores for a request are the first of those that it does not leave
out, as many as the product of limit and factor within 20 and 9999. If time runs out they are a first
part of these; without a deadline they are all of these. -/
theorem answerBatch_scores_first (sound : engine.settings.Sound) (requests : List NamedRequest)
    (admitted : plan engine.settings overrides = .ok p) :
    let most := max 20 (min 9999 (p.limit.toNat * p.candidateFactor.toNat))
    let first (r : NamedRequest) := (engine.admissible overrides r).take
      (min (engine.admissible overrides r).length most)
    let ranked (r : NamedRequest) (scored : List Entity) := Ranking.ofVerdicts
      engine.catalog.version (jobOf p r (first r)) (engine.scorer.verdicts (jobOf p r (first r)) scored)
    (∀ report, (engine.answerBatch requests overrides).1 = .ok report →
      List.Forall₂ (fun r ranking => ∃ scored, scored <+: first r ∧ ranking = ranked r scored ∧
          ranking.scored = scored.length ∧
          ranking.total = min (engine.admissible overrides r).length most ∧
          (ranking.coverage = .complete → scored = first r))
        (NamedRequest.ordered requests) report.rankings) ∧
    (overrides.timeout.getD engine.settings.deadline ≤ 0 →
      (∀ r ∈ NamedRequest.ordered requests, engine.scorer.Explains (jobOf p r (first r)) (first r)) →
      (engine.answerBatch requests overrides).1 =
        .ok (report ((NamedRequest.ordered requests).map fun r => ranked r (first r)))) := by
  intro most first ranked
  have hjob (r : NamedRequest) : batchJob engine.catalog overrides p r = jobOf p r (first r) :=
    batchJob_eq admitted r
  have hjobs : engine.batchJobs requests overrides p =
      (NamedRequest.ordered requests).map fun r => jobOf p r (first r) :=
    List.map_congr_left fun r _ => hjob r
  have hlength (r : NamedRequest) :
      (first r).length = min (engine.admissible overrides r).length most := by
    rw [List.length_take]
    omega
  refine ⟨fun report hok => ?_, fun unhurried explained => ?_⟩
  · have hportions := answerBatch_portions sound.chunkSize admitted hok
    rw [hjobs, List.forall₂_map_left_iff] at hportions
    refine hportions.imp fun r ranking => ?_
    rintro ⟨scored, ⟨hpart, hexplained⟩, rfl⟩
    have hscored := Scorer.length_verdicts hexplained
    refine ⟨scored, hpart, rfl, hscored, hlength r, fun hcomplete => ?_⟩
    have hall := (Ranking.complete_iff _ _ _).mp hcomplete
    exact hpart.eq_of_length (hscored.symm.trans hall)
  · have hexplained : ∀ job ∈ engine.batchJobs requests overrides p,
        engine.scorer.Explains job job.candidates := by
      rw [hjobs]
      exact List.forall_mem_map.mpr explained
    rw [answerBatch_unhurried sound admitted unhurried hexplained, hjobs, List.map_map]
    rfl

/-- A limit and a factor whose product a word holds as 0. -/
def boundless : Overrides Float :=
  ⟨some .nameBased, some 0x8000000000000000, none, none, some 2, none, [], [Text.of "2"]⟩

theorem scores_first_of_boundless :
    let company : Entity := ⟨Text.of "1", Text.of "Company", []⟩
    let companies := List.replicate 21 company
    let r : NamedRequest := ⟨Text.of "a", .person "a" "Al", .person "2" "Al" :: companies⟩
    let engine : Engine Float := guarded
    ∃ p, plan engine.settings boundless = .ok p ∧ p.limit * p.candidateFactor = 0 ∧
      (engine.answerBatch [r] boundless).1 =
        .ok (report [Ranking.ofVerdicts engine.catalog.version (jobOf p r companies)
          (engine.scorer.verdicts (jobOf p r companies) companies)]) := by
  intro company companies r engine
  let p : BatchPlan Float := ⟨.nameBased, 0x8000000000000000, 2, 0.7, 0⟩
  have admitted : plan engine.settings boundless = .ok p :=
    show plan Settings.usual boundless = .ok p from rfl
  have hfirst : (engine.admissible boundless r).take (min (engine.admissible boundless r).length
      (max 20 (min 9999 (p.limit.toNat * p.candidateFactor.toNat)))) = companies := by
    decide +kernel
  have explained : engine.scorer.Explains (jobOf p r companies) companies := by
    unfold Scorer.Explains
    decide +kernel
  obtain ⟨_, hall⟩ := answerBatch_scores_first Settings.usual_sound [r] admitted
  simp only [NamedRequest.ordered_singleton, List.forall_mem_singleton, List.map_singleton,
    hfirst] at hall
  exact ⟨p, admitted, by decide, hall (by decide) explained⟩

end Engine

end Screening
