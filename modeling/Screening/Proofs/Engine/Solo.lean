import Screening.Proofs.Engine.Batch
import Screening.Proofs.Engine.Stop

namespace Screening

variable {α : Type}

/-- Asks for an algorithm and a number of results, and leaves the rest to the settings. -/
def Overrides.asking (algorithm : Algorithm) (most : UInt64) : Overrides α :=
  ⟨some algorithm, some most, none, none, none, none, [], []⟩

def BatchReport.ranking? (report : BatchReport α) (name : Text) : Option (Ranking α) :=
  report.rankings.find? fun ranking => ranking.name == name

theorem NamedRequest.ordered_singleton (r : NamedRequest) : ordered [r] = [r] := rfl

theorem NamedRequest.find?_map {requests : List NamedRequest} {rank : NamedRequest → Ranking α}
    (named : ∀ r, (rank r).name = r.name)
    (ordered : requests.Pairwise fun r s => r.name < s.name) {r : NamedRequest}
    (hr : r ∈ requests) :
    (requests.map rank).find? (fun ranking => ranking.name == r.name) = some (rank r) := by
  induction requests with
  | nil => simp at hr
  | cons s rest ih =>
    obtain ⟨before, hrest⟩ := List.pairwise_cons.mp ordered
    rcases List.mem_cons.mp hr with rfl | hr
    · simp [named]
    · have different : s.name ≠ r.name := fun same => List.lt_irrefl r.name (same ▸ before r hr)
      simp [named, different, ih hrest hr]

theorem Job.zip_portions (jobs : List (Job α)) :
    jobs.zip (portions (pairs jobs).length jobs) = jobs.map fun job => (job, job.candidates) := by
  induction jobs with
  | nil => rfl
  | cons job jobs ih =>
    rw [pairs_cons, List.length_append, List.length_map, portions, Nat.add_sub_cancel_left,
      List.take_of_length_le (Nat.le_add_right _ _), List.zip_cons_cons, ih, List.map_cons]

namespace Engine

variable [Scalar α] {engine : Engine α} {query : Entity} {candidates : List Entity}
  {algorithm : Algorithm} {most : UInt64}

def queryReach (engine : Engine α) (n : Nat) : Nat :=
  let start := engine.queryDeadline none
  Progress.reach start.1 n ⟨false, start.2, engine.counters⟩

theorem plan_asking (sound : engine.settings.Sound)
    (enabled : engine.settings.enables algorithm = true) (positive : most ≠ 0) :
    plan engine.settings (.asking algorithm most) =
      .ok ⟨algorithm, most, engine.settings.candidateFactor, engine.settings.threshold,
        engine.settings.cutoff⟩ := by
  have hthreshold := Scalar.isFraction_iff.mpr sound.threshold
  have hcutoff := Scalar.isFraction_iff.mpr sound.cutoff
  simp [plan, Overrides.asking, enabled, positive, sound.candidateFactor, hthreshold, hcutoff]

omit [Scalar α] in
theorem considered_asking {cap : UInt64} (few : candidates.length ≤ cap.toNat) :
    considered engine.catalog (.asking algorithm most : Overrides α) cap candidates =
      candidates := by
  have hall : (candidates.filter fun c =>
      !isExcluded engine.catalog (.asking algorithm most : Overrides α) c) = candidates := by
    simp [isExcluded, Overrides.asking]
  rw [considered, hall, List.take_of_length_le few]

theorem answerBatch_asking (sound : engine.settings.Sound)
    (enabled : engine.settings.enables algorithm = true) (positive : most ≠ 0)
    (few : candidates.length ≤ (candidateCap most engine.settings.candidateFactor).toNat) :
    let start := engine.queryDeadline none
    let job := engine.queryJob query candidates algorithm most
    let responded := { engine with clock := start.2 }.respond start.1 [job]
    engine.answerBatch [⟨query.id, query, candidates⟩] (.asking algorithm most) =
      (responded.1.map report, responded.2) := by
  intro start job responded
  have hplan := plan_asking sound enabled positive
  have hjobs : engine.batchJobs [⟨query.id, query, candidates⟩] (.asking algorithm most)
      ⟨algorithm, most, engine.settings.candidateFactor, engine.settings.threshold,
        engine.settings.cutoff⟩ = [job] := by
    rw [batchJobs, NamedRequest.ordered_singleton, List.map_singleton, batchJob,
      considered_asking few]
    rfl
  unfold answerBatch
  simp only [hplan, hjobs]
  rfl

theorem respond_singleton (deadline : Option Instant) (job : Job α)
    (explained : (engine.respond deadline [job]).1 ≠ .error .scoringStopped) :
    ∃ ranking, (engine.respond deadline [job]).1 = .ok [ranking] ∧ ranking.name = job.name := by
  unfold respond at explained ⊢
  dsimp only at explained ⊢
  split at explained
  next => exact absurd rfl explained
  next hstop =>
    rw [if_neg hstop]
    exact ⟨_, rfl, rfl⟩

/-- A query and a batch of nothing but that query have one outcome and leave one engine behind,
whatever the clock reads. Neither has a ranking if a candidate that is reached stops without a
reason. -/
theorem answerBatch_single_agrees (sound : engine.settings.Sound)
    (enabled : engine.settings.enables algorithm = true) (positive : most ≠ 0) (query : Entity)
    (few : candidates.length ≤ (candidateCap most engine.settings.candidateFactor).toNat) :
    let single := engine.answer query candidates algorithm most none
    let batch := engine.answerBatch [⟨query.id, query, candidates⟩] (.asking algorithm most)
    let explained := engine.scorer.Explains (engine.queryJob query candidates algorithm most)
      (candidates.take (engine.queryReach candidates.length))
    batch.2 = single.2 ∧
    (explained → ∃ ranking report, single.1 = .ok ranking ∧ batch.1 = .ok report ∧
      report.rankings = [ranking] ∧ report.coverage = ranking.coverage ∧
      ranking.name = query.id) ∧
    (¬ explained → single.1 = .error .scoringStopped ∧ batch.1 = .error .scoringStopped) := by
  intro single batch explained
  let start := engine.queryDeadline none
  let job := engine.queryJob query candidates algorithm most
  let started := { engine with clock := start.2 }
  have hsingle : single = _ := answer_eq_respond none enabled positive
  have hbatch : batch = _ := answerBatch_asking sound enabled positive few
  have hpairs : Job.pairs [job] = candidates.map fun c => (job, c) := Job.pairs_singleton job
  have hsmall : ∀ j ∈ [job], j.candidates.length < 2 ^ 63 :=
    List.forall_mem_singleton.mpr (Nat.lt_of_le_of_lt few (candidateCap_small most _))
  have hstop := started.respond_stopped_iff sound.chunkSize start.1 hsmall rfl
  have hreach : Progress.reach start.1 (Job.pairs [job]).length
      ⟨false, started.clock, started.counters⟩ = engine.queryReach candidates.length := by
    rw [hpairs, List.length_map]
    rfl
  rw [hreach, hpairs, ← List.map_take, List.forall_mem_map] at hstop
  refine ⟨by rw [hsingle, hbatch], fun h => ?_, fun h => ?_⟩
  · obtain ⟨ranking, hok, hname⟩ :=
      started.respond_singleton start.1 job fun hstopped => hstop.mp hstopped h
    refine ⟨ranking, report [ranking], ?_, ?_, rfl, ?_, hname⟩
    · rw [hsingle]
      exact congrArg (Except.map _) hok
    · rw [hbatch]
      exact congrArg (Except.map report) hok
    · cases hcoverage : ranking.coverage <;> simp [report, Ranking.coversAll, hcoverage]
  · have hstopped := hstop.mpr h
    rw [hsingle, hbatch]
    exact ⟨congrArg (Except.map _) hstopped, congrArg (Except.map report) hstopped⟩

theorem single_agrees_of_guarded :
    let query := Entity.person "q" "Ann Lee"
    let one := [Entity.person "1" "Ann Li"]
    let two := [Entity.person "1" "Ann Li", Entity.person "2" "kaput"]
    let engine : Engine Float := guarded
    (∃ ranking report, (engine.answer query one .nameBased 1 none).1 = .ok ranking ∧
      (engine.answerBatch [⟨query.id, query, one⟩] (.asking .nameBased 1)).1 = .ok report ∧
      report.rankings = [ranking]) ∧
    (engine.answer query two .nameBased 1 none).1 = .error .scoringStopped ∧
    (engine.answerBatch [⟨query.id, query, two⟩] (.asking .nameBased 1)).1 =
      .error .scoringStopped := by
  intro query one two engine
  have enabled : engine.settings.enables .nameBased = true := rfl
  have positive : (1 : UInt64) ≠ 0 := by decide
  have explained : engine.scorer.Explains (engine.queryJob query one .nameBased 1)
      (one.take (engine.queryReach one.length)) := by
    unfold Scorer.Explains
    decide +kernel
  have stopped : ¬ engine.scorer.Explains (engine.queryJob query two .nameBased 1)
      (two.take (engine.queryReach two.length)) := by
    unfold Scorer.Explains
    decide +kernel
  have hone := answerBatch_single_agrees Settings.usual_sound enabled positive query
    (show one.length ≤ (candidateCap 1 engine.settings.candidateFactor).toNat by decide)
  have htwo := answerBatch_single_agrees Settings.usual_sound enabled positive query
    (show two.length ≤ (candidateCap 1 engine.settings.candidateFactor).toNat by decide)
  obtain ⟨ranking, report, hsingle, hbatch, hrankings, _⟩ := hone.2.1 explained
  exact ⟨⟨ranking, report, hsingle, hbatch, hrankings⟩, htwo.2.2 stopped⟩

variable {requests : List NamedRequest} {overrides : Overrides α}

theorem answerBatch_unhurried (sound : engine.settings.Sound) {p : BatchPlan α}
    (admitted : plan engine.settings overrides = .ok p)
    (unhurried : overrides.timeout.getD engine.settings.deadline ≤ 0)
    (explained : ∀ job ∈ engine.batchJobs requests overrides p,
      engine.scorer.Explains job job.candidates) :
    (engine.answerBatch requests overrides).1 =
      .ok (report ((engine.batchJobs requests overrides p).map fun job =>
        Ranking.ofVerdicts engine.catalog.version job
          (engine.scorer.verdicts job job.candidates))) := by
  let jobs := engine.batchJobs requests overrides p
  have hstart : deadlineAfter engine.clock (overrides.timeout.getD engine.settings.deadline) =
      (none, engine.clock) := if_pos unhurried
  have hreach : Progress.reach none (Job.pairs jobs).length
      ⟨false, engine.clock, engine.counters⟩ = (Job.pairs jobs).length :=
    Progress.reach_eq_of_quiet none rfl fun d hd => nomatch hd
  have hexplained : ∀ q ∈ (Job.pairs jobs).take (Job.pairs jobs).length,
      (engine.scorer.assess q.1 q.2).isSome := by
    intro q hq
    obtain ⟨job, hjob, hq⟩ := List.mem_flatMap.mp (List.mem_of_mem_take hq)
    obtain ⟨c, hc, rfl⟩ := List.mem_map.mp hq
    exact explained job hjob c hc
  have hranked := engine.respond_rankings sound.chunkSize none (fun job => batchJobs_small)
    hreach hexplained
  rw [Job.zip_portions, List.map_map] at hranked
  simp only [answerBatch, admitted, hstart]
  exact congrArg (Except.map report) hranked

/-- What a request gets in a batch without deadline hangs on the request, the catalog and what is
asked of the batch, and on nothing else. -/
theorem answerBatch_ranking? (sound : engine.settings.Sound) {p : BatchPlan α}
    (admitted : plan engine.settings overrides = .ok p)
    (unhurried : overrides.timeout.getD engine.settings.deadline ≤ 0)
    (explained : ∀ job ∈ engine.batchJobs requests overrides p,
      engine.scorer.Explains job job.candidates)
    {r : NamedRequest} (hr : r ∈ NamedRequest.ordered requests) :
    let job := batchJob engine.catalog overrides p r
    (engine.answerBatch requests overrides).1.map (fun report => report.ranking? r.name) =
      .ok (some (Ranking.ofVerdicts engine.catalog.version job
        (engine.scorer.verdicts job job.candidates))) := by
  intro job
  let rank (r : NamedRequest) : Ranking α :=
    let job := batchJob engine.catalog overrides p r
    Ranking.ofVerdicts engine.catalog.version job (engine.scorer.verdicts job job.candidates)
  have hfind : ((NamedRequest.ordered requests).map rank).find?
      (fun ranking => ranking.name == r.name) = some (rank r) :=
    NamedRequest.find?_map (fun _ => rfl) (NamedRequest.ordered_pairwise requests) hr
  have hranking : (report ((engine.batchJobs requests overrides p).map fun job =>
      Ranking.ofVerdicts engine.catalog.version job
        (engine.scorer.verdicts job job.candidates))).ranking? r.name = some (rank r) := by
    rw [batchJobs, List.map_map]
    exact hfind
  rw [answerBatch_unhurried sound admitted unhurried explained]
  exact congrArg Except.ok hranking

/-- Without a deadline, what a request gets in a batch is what it gets in a batch of its own under
the same overrides, at whatever time and after whatever other requests. -/
theorem answerBatch_alone (sound : engine.settings.Sound)
    (unhurried : overrides.timeout.getD engine.settings.deadline ≤ 0)
    (explained : ∀ p, plan engine.settings overrides = .ok p →
      ∀ job ∈ engine.batchJobs requests overrides p, engine.scorer.Explains job job.candidates)
    {r : NamedRequest} (hr : r ∈ NamedRequest.ordered requests) (clock : Clock)
    (counters : Counters) :
    let alone := { engine with clock, counters }.answerBatch [r] overrides
    let together := engine.answerBatch requests overrides
    alone.1.map (fun report => report.ranking? r.name) =
      together.1.map (fun report => report.ranking? r.name) ∧
    ∀ p, plan engine.settings overrides = .ok p → ∃ ranking,
      together.1.map (fun report => report.ranking? r.name) = .ok (some ranking) := by
  intro alone together
  let other := { engine with clock, counters }
  cases hplan : plan engine.settings overrides with
  | error fault =>
    refine ⟨?_, fun p hp => nomatch hp⟩
    simp only [alone, together, answerBatch, hplan]
  | ok p =>
    have htogether := answerBatch_ranking? sound hplan unhurried (explained p hplan) hr
    have honly : ∀ job ∈ other.batchJobs [r] overrides p,
        other.scorer.Explains job job.candidates := by
      intro job hjob
      obtain rfl := List.mem_singleton.mp hjob
      exact explained p hplan _ (List.mem_map_of_mem hr)
    have halone := other.answerBatch_ranking? sound hplan unhurried honly List.mem_cons_self
    exact ⟨halone.trans htogether.symm, fun _ _ => ⟨_, htogether⟩⟩

def nameBasedOnly : Overrides Float := ⟨some .nameBased, none, none, none, none, none, [], []⟩

theorem alone_of_twoRequests :
    let r : NamedRequest := ⟨Text.of "a", .person "a" "Al", [.person "1" "boom", .person "2" "Al"]⟩
    let requests := [⟨Text.of "b", .person "b" "Bo", [.person "3" "Bo"]⟩, r]
    let engine : Engine Float := guarded
    let later := (engine.answerBatch requests nameBasedOnly).2
    let alone := { engine with clock := later.clock, counters := later.counters }.answerBatch [r]
      nameBasedOnly
    let together := engine.answerBatch requests nameBasedOnly
    alone.1.map (fun report => report.ranking? r.name) =
      together.1.map (fun report => report.ranking? r.name) ∧
    ∃ ranking, together.1.map (fun report => report.ranking? r.name) = .ok (some ranking) := by
  intro r requests engine later alone together
  have admitted : plan Settings.usual nameBasedOnly = .ok latePlan := rfl
  have explained : ∀ job ∈ engine.batchJobs requests nameBasedOnly latePlan,
      engine.scorer.Explains job job.candidates := by
    unfold Scorer.Explains
    decide +kernel
  have hexplained : ∀ p, plan engine.settings nameBasedOnly = .ok p →
      ∀ job ∈ engine.batchJobs requests nameBasedOnly p,
        engine.scorer.Explains job job.candidates := by
    intro p hp
    obtain rfl := Except.ok.inj (admitted.symm.trans hp)
    exact explained
  have hr : r ∈ NamedRequest.ordered requests := by decide +kernel
  have h := answerBatch_alone Settings.usual_sound (by decide) hexplained hr later.clock
    later.counters
  exact ⟨h.1, h.2 latePlan admitted⟩

end Engine

end Screening
