import Mathlib.Algebra.GroupWithZero.Nat
import Screening.Proofs.Engine.Agreement
import Screening.Proofs.Engine.Tally

namespace Screening

variable {α : Type}

def Verdict.outOfLine (v : Verdict α) : Bool :=
  !v.errored && v.remark == Text.of "schema_mismatch"

theorem Verdict.countP_errored_add_outOfLine_le (verdicts : List (Verdict α)) :
    verdicts.countP errored + verdicts.countP outOfLine ≤ verdicts.length := by
  rw [verdicts.length_eq_countP_add_countP errored]
  refine Nat.add_le_add_left (List.countP_mono_left fun v _ hv => ?_) _
  have hv := (Bool.and_eq_true _ _ ▸ hv).1
  simpa using hv

namespace Counters

def including (counters : Counters) (verdicts : List (Verdict α)) : Counters :=
  { counters with
    scored := counters.scored + verdicts.length
    errored := counters.errored + verdicts.countP Verdict.errored
    mismatches := counters.mismatches + verdicts.countP Verdict.outOfLine }

theorem including_nil (counters : Counters) :
    counters.including ([] : List (Verdict α)) = counters := rfl

theorem including_append (counters : Counters) (first second : List (Verdict α)) :
    counters.including (first ++ second) = (counters.including first).including second := by
  simp [including, Nat.add_assoc]

/-- What holds of the counters at all times. -/
structure Consistent (counters : Counters) : Prop where
  queries : counters.queries = counters.complete + counters.cutShort
  scored : counters.errored + counters.mismatches ≤ counters.scored

theorem consistent_zero : zero.Consistent := ⟨rfl, Nat.le_refl 0⟩

theorem Consistent.including {counters : Counters} (h : counters.Consistent)
    (verdicts : List (Verdict α)) : (counters.including verdicts).Consistent := by
  refine ⟨h.queries, ?_⟩
  have hscored := h.scored
  have hverdicts := Verdict.countP_errored_add_outOfLine_le verdicts
  simp only [Counters.including]
  omega

end Counters

theorem Ranking.foldl_count (rankings : List (Ranking α)) (counters : Counters) :
    rankings.foldl count counters =
      { counters with
        queries := counters.queries + rankings.length
        complete := counters.complete + rankings.countP coversAll
        cutShort := counters.cutShort + rankings.countP fun r => !r.coversAll } := by
  induction rankings generalizing counters with
  | nil => rfl
  | cons r rankings ih =>
    rw [List.foldl_cons, ih]
    cases hcoverage : r.coverage <;>
      simp [count, coversAll, hcoverage, Nat.add_assoc, Nat.add_comm 1]

namespace Engine

/-- What a request is answered with: its rankings, or a fault. -/
abbrev Reply (α : Type) := Except EngineFault (List (Ranking α))

def Reply.rankings (replies : List (Reply α)) : List (Ranking α) :=
  replies.flatMap fun reply => reply.toOption.getD []

theorem Reply.rankings_append (replies : List (Reply α)) (reply : Reply α) :
    rankings (replies ++ [reply]) = rankings replies ++ reply.toOption.getD [] := by
  simp [rankings]

/-- Whether a request failed although it was admitted. -/
def Reply.failed : Reply α → Bool
  | .ok _ => false
  | .error fault => fault.kind == .internal

/-- How the counters move when an admitted request is answered. -/
inductive Counted (before : Counters) : Counters → Reply α → Prop
  | stopped (verdicts : List (Verdict α)) :
      Counted before
        { before.including verdicts with failures := before.failures + 1 } (.error .scoringStopped)
  | ranked (verdicts : List (Verdict α)) (rankings : List (Ranking α))
      (scored : verdicts.length = (rankings.map Ranking.scored).sum)
      (errored : verdicts.countP Verdict.errored = (rankings.map Ranking.errored).sum) :
      Counted before (rankings.foldl Ranking.count (before.including verdicts)) (.ok rankings)

theorem counted_nil (counters : Counters) : Counted counters counters (.ok [] : Reply α) :=
  .ranked ([] : List (Verdict α)) [] rfl rfl

theorem Counted.kind {before after : Counters} {fault : EngineFault}
    (h : Counted before after (.error fault : Reply α)) : fault.kind = .internal := by
  cases h
  rfl

theorem Counted.consistent {before after : Counters} {reply : Reply α}
    (h : Counted before after reply) (consistent : before.Consistent) : after.Consistent := by
  cases h with
  | stopped verdicts =>
    have hnext := consistent.including verdicts
    exact ⟨hnext.queries, hnext.scored⟩
  | ranked verdicts rankings scored errored =>
    have hnext := consistent.including verdicts
    rw [Ranking.foldl_count]
    refine ⟨?_, hnext.scored⟩
    have hqueries := hnext.queries
    have hall := rankings.length_eq_countP_add_countP Ranking.coversAll
    simp only [Bool.not_eq_true, Bool.decide_eq_false] at hall ⊢
    omega

/-- What the counters tell: the rankings that were returned and how many requests failed. Of the
candidates they tell only while none failed, because what was scored for a failed request is in no
ranking. -/
structure Tells (counters : Counters) (rankings : List (Ranking α)) (failed : Nat) : Prop where
  queries : counters.queries = rankings.length
  complete : counters.complete = rankings.countP Ranking.coversAll
  cutShort : counters.cutShort = rankings.countP fun r => !r.coversAll
  failures : counters.failures = failed
  scored : failed = 0 → counters.scored = (rankings.map Ranking.scored).sum
  errored : failed = 0 → counters.errored = (rankings.map Ranking.errored).sum

theorem tells_zero : Tells .zero ([] : List (Ranking α)) 0 :=
  ⟨rfl, rfl, rfl, rfl, fun _ => rfl, fun _ => rfl⟩

theorem Counted.tells {before after : Counters} {reply : Reply α}
    (h : Counted before after reply) {rankings : List (Ranking α)} {failed : Nat}
    (tells : Tells before rankings failed) :
    Tells after (rankings ++ reply.toOption.getD []) (failed + [reply].countP Reply.failed) := by
  cases h with
  | stopped verdicts =>
    have hnone : (.error .scoringStopped : Reply α).toOption.getD [] = [] := rfl
    rw [hnone, List.append_nil]
    exact ⟨tells.queries, tells.complete, tells.cutShort, congrArg (· + 1) tells.failures,
      fun h => (nomatch h), fun h => (nomatch h)⟩
  | ranked verdicts more scored errored =>
    have hmore : (.ok more : Reply α).toOption.getD [] = more := rfl
    rw [Ranking.foldl_count, hmore]
    refine ⟨?_, ?_, ?_, tells.failures, fun h => ?_, fun h => ?_⟩
    · rw [List.length_append, ← tells.queries]
      rfl
    · rw [List.countP_append, ← tells.complete]
      rfl
    · rw [List.countP_append, ← tells.cutShort]
      rfl
    · rw [List.map_append, List.sum_append, ← tells.scored h, ← scored]
      rfl
    · rw [List.map_append, List.sum_append, ← tells.errored h, ← errored]
      rfl

end Engine

variable [Scalar α]

theorem Assessment.count_eq_including (assessment : Assessment α) (job : Job α) (c : Entity)
    (counters : Counters) :
    assessment.count counters = counters.including [assessment.verdict job c] := by
  cases assessment with
  | mismatch => rfl
  | scored outcome =>
    have herrored : ((scored outcome).verdict job c).errored = false := rfl
    have hline : ((scored outcome).verdict job c).outOfLine = false := by
      cases h : outcome.unfounded <;> simp [verdict, errored, Verdict.outOfLine, remark, h] <;>
        decide
    simp [count, Counters.including, herrored, hline]
  | failed reason => rfl

namespace Scorer

variable (scorer : Scorer α) (job : Job α) (deadline : Option Instant)

/-- A task counts the verdicts that it gives, also when it is stopped. -/
theorem counters_runTask (candidates : List Entity) (progress : Progress) :
    let run := runTask scorer job deadline candidates progress
    run.2.counters = progress.counters.including run.1.verdicts := by
  induction candidates generalizing progress with
  | nil => rfl
  | cons c cs ih =>
    have hcheck := Progress.counters_check deadline progress
    by_cases h : (progress.check deadline).expired = true
    · simp [runTask, h, hcheck, Scored.empty, Counters.including_nil]
    · cases ha : scorer.assess job c with
      | none => simp [runTask, h, ha, hcheck, Counters.including_nil]
      | some a =>
        simp only [runTask_cons deadline h ha, ih, hcheck, a.count_eq_including job c]
        rw [← Counters.including_append, List.singleton_append]

theorem counters_runTasks (tasks : List (List Entity)) (progress : Progress) :
    let run := runTasks scorer job deadline tasks progress
    run.2.counters = progress.counters.including run.1.verdicts := by
  induction tasks generalizing progress with
  | nil => rfl
  | cons task tasks ih =>
    simp only [runTasks, Scored.append, ih, counters_runTask, Counters.including_append]

theorem counters_runJobs (chunk : UInt64) (jobs : List (Job α)) (progress : Progress) :
    let run := runJobs scorer chunk deadline jobs progress
    run.2.counters = progress.counters.including (run.1.flatMap Scored.verdicts) := by
  induction jobs generalizing progress with
  | nil => rfl
  | cons job jobs ih =>
    simp only [runJobs, ih, counters_runTasks, List.flatMap_cons, Counters.including_append]

theorem length_runJobs (chunk : UInt64) (jobs : List (Job α)) (progress : Progress) :
    (runJobs scorer chunk deadline jobs progress).1.length = jobs.length := by
  induction jobs generalizing progress with
  | nil => rfl
  | cons job jobs ih => simp [runJobs, ih]

end Scorer

/-- Whether a batch asks for an algorithm that is disabled, or for numbers that are out of range. -/
def Overrides.OutOfRange (overrides : Overrides α) (settings : Settings α) : Prop :=
  settings.enables (overrides.algorithm.getD settings.defaultAlgorithm) = false ∨
    overrides.limit.getD settings.limit = 0 ∨
    overrides.candidateFactor.getD settings.candidateFactor = 0 ∨
    ¬ Scalar.Fraction (overrides.threshold.getD settings.threshold) ∨
    ¬ Scalar.Fraction (overrides.cutoff.getD settings.cutoff)

def Use.OutOfRange (settings : Settings α) : Use α → Prop
  | .answer _ _ algorithm most _ => settings.enables algorithm = false ∨ most = 0
  | .answerBatch _ overrides => overrides.OutOfRange settings
  | .install _ | .resetCounters => False

namespace Engine

theorem counted_respond (engine : Engine α) (deadline : Option Instant) (jobs : List (Job α)) :
    let responded := engine.respond deadline jobs
    Counted engine.counters responded.2.counters responded.1 := by
  let run := engine.scorer.runJobs engine.settings.chunkSize deadline jobs
    ⟨false, engine.clock, engine.counters⟩
  have hcounters : run.2.counters = engine.counters.including (run.1.flatMap Scored.verdicts) :=
    Scorer.counters_runJobs _ _ _ _ _
  have hsnd : (jobs.zip run.1).map Prod.snd = run.1 :=
    List.map_snd_zip (Nat.le_of_eq (Scorer.length_runJobs _ _ _ _ _))
  intro responded
  unfold responded respond
  dsimp only
  split
  next =>
    rw [hcounters]
    exact .stopped (run.1.flatMap Scored.verdicts)
  next =>
    rw [hcounters]
    apply Counted.ranked
    · rw [List.length_flatMap, ← hsnd, List.map_map, List.map_map, hsnd]
      rfl
    · rw [List.countP_flatMap, ← hsnd, List.map_map, List.map_map, hsnd]
      rfl

/-- The reply to a use. One that asks for no ranking gets none. -/
def reply (engine : Engine α) : Use α → Reply α
  | .answer query candidates algorithm most deadline =>
    (engine.answer query candidates algorithm most deadline).1.map fun ranking => [ranking]
  | .answerBatch requests overrides =>
    (engine.answerBatch requests overrides).1.map BatchReport.rankings
  | .install _ | .resetCounters => .ok []

/-- The replies after a use, where a reset forgets those before it. -/
def remember (engine : Engine α) (replies : List (Reply α)) : Use α → List (Reply α)
  | .resetCounters => []
  | u => replies ++ [engine.reply u]

/-- The replies to uses in a row since the last reset, behind those that came before. -/
def repliesSince (engine : Engine α) (replies : List (Reply α)) : List (Use α) → List (Reply α)
  | [] => replies
  | u :: uses => repliesSince (engine.use u) (engine.remember replies u) uses

theorem plan_isOk_iff {settings : Settings α} {overrides : Overrides α} :
    (∃ p, plan settings overrides = .ok p) ↔ ¬ overrides.OutOfRange settings := by
  unfold plan Overrides.OutOfRange
  simp only [refuse_eq_ok, ← Scalar.isFraction_iff]
  simp [and_assoc]

theorem kind_plan {settings : Settings α} {overrides : Overrides α} {fault : EngineFault}
    (h : plan settings overrides = .error fault) : fault.kind ≠ .internal := by
  simp only [plan, refuse_eq_error] at h
  obtain ⟨_, rfl⟩ | ⟨_, ⟨_, rfl⟩ | ⟨_, ⟨_, rfl⟩ | ⟨_, ⟨_, rfl⟩ | ⟨_, h⟩⟩⟩⟩ := h
  case inr.inr.inr.inr => exact nomatch h
  all_goals simp [EngineFault.kind]

/-- What can become of a use that is no reset: it is refused and changes nothing, or it is admitted
and counted. -/
inductive Replied (engine : Engine α) (u : Use α) : Prop
  | refused (fault : EngineFault) (outOfRange : u.OutOfRange engine.settings)
      (reply : engine.reply u = .error fault) (kind : fault.kind ≠ .internal)
      (unchanged : engine.use u = engine)
  | admitted (inRange : ¬ u.OutOfRange engine.settings)
      (counted : Counted engine.counters (engine.use u).counters (engine.reply u))

theorem respond_one (engine : Engine α) (deadline : Option Instant) (job : Job α)
    (other : Ranking α) :
    let reply : Reply α := (engine.respond deadline [job]).1
    (reply.map fun rankings => rankings.headD other).map (fun ranking => [ranking]) = reply := by
  intro reply
  unfold reply respond
  dsimp only
  split
  next => rfl
  next => rfl

theorem replied_answer (engine : Engine α) (query : Entity) (candidates : List Entity)
    (algorithm : Algorithm) (most : UInt64) (deadline : Option Instant) :
    Replied engine (.answer query candidates algorithm most deadline) := by
  by_cases enabled : engine.settings.enables algorithm = true
  · by_cases zero : most = 0
    · have hanswer : engine.answer query candidates algorithm most deadline =
          (.error .noResults, engine) := by simp [answer, enabled, zero]
      exact .refused .noResults (.inr zero) (by simp only [reply, hanswer]; rfl)
        (by simp [EngineFault.kind]) (by simp only [use, hanswer])
    · refine .admitted (by simp [Use.OutOfRange, enabled, zero]) ?_
      simp only [reply, use, answer_eq_respond deadline enabled zero, respond_one]
      exact counted_respond { engine with clock := (engine.queryDeadline deadline).2 } _ _
  · have hanswer : engine.answer query candidates algorithm most deadline =
        (.error (.disabled algorithm), engine) := by simp [answer, enabled]
    exact .refused (.disabled algorithm) (.inl (Bool.eq_false_iff.mpr enabled))
      (by simp only [reply, hanswer]; rfl) (by simp [EngineFault.kind])
      (by simp only [use, hanswer])

theorem replied_answerBatch (engine : Engine α) (requests : List NamedRequest)
    (overrides : Overrides α) : Replied engine (.answerBatch requests overrides) := by
  cases hplan : plan engine.settings overrides with
  | error fault =>
    have hanswer : engine.answerBatch requests overrides = (.error fault, engine) := by
      simp only [answerBatch, hplan]
    have hout : overrides.OutOfRange engine.settings := by
      refine Classical.not_not.mp fun hin => ?_
      obtain ⟨p, hp⟩ := plan_isOk_iff.mpr hin
      simp [hplan] at hp
    exact .refused fault hout (by simp only [reply, hanswer]; rfl) (kind_plan hplan)
      (by simp only [use, hanswer])
  | ok p =>
    refine .admitted (plan_isOk_iff.mp ⟨p, hplan⟩) ?_
    let start := deadlineAfter engine.clock (overrides.timeout.getD engine.settings.deadline)
    have hcounted := counted_respond { engine with clock := start.2 } start.1
      (engine.batchJobs requests overrides p)
    have hreport (reply : Reply α) : (reply.map report).map BatchReport.rankings = reply := by
      cases reply <;> rfl
    simp only [reply, use, answerBatch, hplan, hreport]
    exact hcounted

theorem replied_use (engine : Engine α) {u : Use α} (h : u ≠ .resetCounters) :
    Replied engine u := by
  cases u with
  | answer query candidates algorithm most deadline =>
    exact replied_answer engine query candidates algorithm most deadline
  | answerBatch requests overrides => exact replied_answerBatch engine requests overrides
  | install catalog =>
    have hcounters : (engine.use (.install catalog)).counters = engine.counters := by
      cases catalog <;> rfl
    refine .admitted id ?_
    rw [hcounters]
    exact counted_nil engine.counters
  | resetCounters => exact absurd rfl h

theorem consistent_use {engine : Engine α} (h : engine.counters.Consistent) (u : Use α) :
    (engine.use u).counters.Consistent := by
  by_cases reset : u = .resetCounters
  · rw [reset]
    exact Counters.consistent_zero
  · cases engine.replied_use reset with
    | refused _ _ _ _ unchanged => rwa [unchanged]
    | admitted _ counted => exact counted.consistent h

theorem tells_use {engine : Engine α} {replies : List (Reply α)}
    (h : Tells engine.counters (Reply.rankings replies) (replies.countP Reply.failed))
    (u : Use α) :
    Tells (engine.use u).counters (Reply.rankings (engine.remember replies u))
      ((engine.remember replies u).countP Reply.failed) := by
  by_cases reset : u = .resetCounters
  · rw [reset]
    exact tells_zero
  · have hremember : engine.remember replies u = replies ++ [engine.reply u] := by
      cases u with
      | resetCounters => exact absurd rfl reset
      | _ => rfl
    rw [hremember, Reply.rankings_append, List.countP_append]
    cases engine.replied_use reset with
    | refused fault _ reply kind unchanged =>
      have hfailed : [engine.reply u].countP Reply.failed = 0 := by
        simp [reply, Reply.failed, kind]
      have hnone : (engine.reply u).toOption.getD [] = [] := by
        rw [reply]
        rfl
      rwa [hfailed, hnone, unchanged, List.append_nil]
    | admitted _ counted => exact counted.tells h

theorem counters_after {engine : Engine α} (consistent : engine.counters.Consistent)
    {replies : List (Reply α)}
    (tells : Tells engine.counters (Reply.rankings replies) (replies.countP Reply.failed))
    (uses : List (Use α)) :
    let since := engine.repliesSince replies uses
    (engine.after uses).counters.Consistent ∧
      Tells (engine.after uses).counters (Reply.rankings since) (since.countP Reply.failed) := by
  induction uses generalizing engine replies with
  | nil => exact ⟨consistent, tells⟩
  | cons u uses ih => exact ih (consistent_use consistent u) (tells_use tells u)

theorem refused_iff (engine : Engine α) (u : Use α) :
    u.OutOfRange engine.settings ↔
      ∃ fault, engine.reply u = .error fault ∧ fault.kind ≠ .internal := by
  by_cases reset : u = .resetCounters
  · rw [reset]
    exact ⟨False.elim, fun ⟨_, h, _⟩ => nomatch h⟩
  · cases engine.replied_use reset with
    | refused fault outOfRange reply kind _ =>
      exact ⟨fun _ => ⟨fault, reply, kind⟩, fun _ => outOfRange⟩
    | admitted inRange counted =>
      refine ⟨fun h => absurd h inRange, fun ⟨fault, hreply, hkind⟩ => ?_⟩
      rw [hreply] at counted
      exact absurd counted.kind hkind

theorem use_of_outOfRange {engine : Engine α} {u : Use α} (h : u.OutOfRange engine.settings) :
    engine.use u = engine := by
  have reset : u ≠ .resetCounters := fun reset => by
    rw [reset] at h
    exact h
  cases engine.replied_use reset with
  | refused _ _ _ _ unchanged => exact unchanged
  | admitted inRange _ => exact absurd h inRange

/-- At any time the counters are consistent and tell of the replies since the last reset. A request
is refused just if it is out of range, and that counts nothing. -/
theorem counters_tell {settings : Settings α} {slot : Option CatalogSlot}
    {normalizer : Option Normalizer} {clock : Clock} {unicode : Unicode} {engine : Engine α}
    (h : create settings slot normalizer clock unicode = .ok engine) (uses : List (Use α)) :
    let later := engine.after uses
    let since := engine.repliesSince [] uses
    later.counters.Consistent ∧
      Tells later.counters (Reply.rankings since) (since.countP Reply.failed) ∧
      ∀ u : Use α,
        (u.OutOfRange later.settings ↔
          ∃ fault, later.reply u = .error fault ∧ fault.kind ≠ .internal) ∧
        (u.OutOfRange later.settings → later.use u = later) := by
  intro later since
  have hzero : engine.counters = .zero := by
    obtain ⟨_, _, _, _, rfl⟩ := create_eq_ok.mp h
    rfl
  have htells : Tells engine.counters (Reply.rankings ([] : List (Reply α)))
      (([] : List (Reply α)).countP Reply.failed) := hzero ▸ tells_zero
  have hcounters := counters_after (hzero ▸ Counters.consistent_zero) htells uses
  exact ⟨hcounters.1, hcounters.2, fun u => ⟨later.refused_iff u, use_of_outOfRange⟩⟩

def watchful : Engine Float :=
  { (guarded : Engine Float) with settings := { Settings.usual with normalizer := .full } }

def askAbout (other : String) (most : UInt64) : Use Float :=
  .answer (.person "q" "Ann Lee") [.person "1" "Ann Lee", .person "2" other] .nameBased most none

theorem counters_tell_of_watchful :
    let uses := [askAbout "kaput" 1, .resetCounters, askAbout "boom" 1, askAbout "Bo" 0]
    let later := watchful.after uses
    create Settings.usual none (some watchful.normalizer) (.start fun _ => 0) = .ok watchful ∧
      later.counters.Consistent ∧
      Tells later.counters (Reply.rankings (watchful.repliesSince [] uses)) 0 ∧
      (askAbout "Bo" 0).OutOfRange later.settings ∧ later.use (askAbout "Bo" 0) = later := by
  intro uses later
  have hmade : create Settings.usual none (some watchful.normalizer) (.start fun _ => 0) =
      .ok watchful := create_builtin Settings.usual_sound rfl .ascii _ _
  obtain ⟨consistent, tells, hrefused⟩ := counters_tell hmade uses
  have hfailed : (watchful.repliesSince [] uses).countP Reply.failed = 0 := by decide +kernel
  have hout : (askAbout "Bo" 0).OutOfRange later.settings := .inr rfl
  exact ⟨hmade, consistent, hfailed ▸ tells, hout, (hrefused _).2 hout⟩

/-- The first request fails after a candidate was scored for it, and the third one is refused. -/
example : (watchful.after [askAbout "kaput" 1, askAbout "boom" 1, askAbout "Bo" 0]).counters =
    { queries := 1, complete := 1, cutShort := 0, failures := 1, scored := 3, errored := 1,
      mismatches := 0 } := by
  decide +kernel

end Engine

end Screening
