import Screening.Engine.Request
import Screening.Feature.Extraction

namespace Screening

structure Job (α : Type) where
  name : Text
  query : Entity
  candidates : List Entity
  algorithm : Algorithm
  most : UInt64
  threshold : α
  cutoff : α

inductive Assessment (α : Type)
  | mismatch
  | scored (outcome : ExplainedScore α)
  | failed (reason : Text)

namespace Assessment

variable {α : Type} [Scalar α]

def score : Assessment α → α
  | scored outcome => outcome.score
  | _ => 0

def lines : Assessment α → List (ScoreLine α)
  | scored outcome => outcome.lines
  | _ => []

def errored : Assessment α → Bool
  | failed _ => true
  | _ => false

def remark : Assessment α → Text
  | mismatch => Text.of "schema_mismatch"
  | scored outcome => if outcome.unfounded then Text.of "no_evidence" else []
  | failed reason => Text.of "scoring_error: " ++ reason

/-- The verdict on a candidate; a score above the job's threshold is a match. -/
def verdict (job : Job α) (candidate : Entity) (assessment : Assessment α) : Verdict α :=
  { query := job.query.id
    candidate := candidate.id
    schema := candidate.schema
    score := assessment.score
    isMatch := decide (job.threshold < assessment.score)
    algorithm := job.algorithm
    lines := assessment.lines
    errored := assessment.errored
    remark := assessment.remark }

def count (counters : Counters) : Assessment α → Counters
  | mismatch =>
    { counters with
      scored := counters.scored + 1
      mismatches := counters.mismatches + 1 }
  | scored _ => { counters with scored := counters.scored + 1 }
  | failed _ =>
    { counters with
      scored := counters.scored + 1
      errored := counters.errored + 1 }

end Assessment

structure Scorer (α : Type) where
  normalizer : Normalizer
  aligner : Aligner α
  catalog : Catalog

namespace Scorer

variable {α : Type} [Scalar α]

/-- Scores a candidate. A refusal with a reason is an assessment of the candidate; a stop without
one leaves nothing. -/
def assess (scorer : Scorer α) (job : Job α) (candidate : Entity) : Option (Assessment α) :=
  if scorer.catalog.inOneLine job.query.schema candidate.schema then
    match Evidence.build scorer.normalizer scorer.aligner scorer.catalog job.algorithm
        job.algorithm.features job.query candidate with
    | .ok evidence => some (.scored (job.algorithm.score evidence))
    | .error (.refused reason) => some (.failed reason)
    | .error .unexplained => none
  else some .mismatch

end Scorer

namespace Chunk

/-- The intervals of `size` that begin at `start` or later, each `chunk` long but the last. -/
def intervalsFrom (size chunk : UInt64) : (most : Nat) → (start : UInt64) → List (UInt64 × UInt64)
  | 0, _ => []
  | most + 1, start =>
    if start < size then
      (start, min (start + chunk) size) :: intervalsFrom size chunk most (start + chunk)
    else []

def intervals (size chunk : UInt64) : List (UInt64 × UInt64) :=
  intervalsFrom size chunk size.toNat 0

def slice {β : Type} (items : List β) (interval : UInt64 × UInt64) : List β :=
  (items.drop interval.1.toNat).take (interval.2.toNat - interval.1.toNat)

def tasks {β : Type} (chunk : UInt64) (items : List β) : List (List β) :=
  (intervals (UInt64.ofNat items.length) chunk).map (slice items)

end Chunk

structure Progress where
  expired : Bool
  clock : Clock
  counters : Counters

namespace Progress

/-- Looks at the clock, unless there is no deadline or it is known to have passed. -/
def check (progress : Progress) (deadline : Option Instant) : Progress :=
  match deadline with
  | none => progress
  | some deadline =>
    if progress.expired then progress
    else
      { progress with
        expired := decide (deadline ≤ progress.clock.now), clock := progress.clock.tick }

end Progress

structure Scored (α : Type) where
  verdicts : List (Verdict α)
  stopped : Bool

namespace Scored

variable {α : Type}

def empty : Scored α := ⟨[], false⟩

def append (s t : Scored α) : Scored α := ⟨s.verdicts ++ t.verdicts, s.stopped || t.stopped⟩

end Scored

namespace Scorer

variable {α : Type} [Scalar α]

/-- Scores the candidates of a task in turn. The task ends at the deadline or at a stop. -/
def runTask (scorer : Scorer α) (job : Job α) (deadline : Option Instant) :
    List Entity → Progress → Scored α × Progress
  | [], progress => (.empty, progress)
  | candidate :: candidates, progress =>
    let progress := progress.check deadline
    if progress.expired then (.empty, progress)
    else
      match scorer.assess job candidate with
      | none => (⟨[], true⟩, progress)
      | some assessment =>
        let rest := runTask scorer job deadline candidates
          { progress with counters := assessment.count progress.counters }
        (⟨assessment.verdict job candidate :: rest.1.verdicts, rest.1.stopped⟩, rest.2)

def runTasks (scorer : Scorer α) (job : Job α) (deadline : Option Instant) :
    List (List Entity) → Progress → Scored α × Progress
  | [], progress => (.empty, progress)
  | task :: tasks, progress =>
    let first := runTask scorer job deadline task progress
    let rest := runTasks scorer job deadline tasks first.2
    (first.1.append rest.1, rest.2)

/-- Runs the jobs in order. A stop ends its own task only. -/
def runJobs (scorer : Scorer α) (chunk : UInt64) (deadline : Option Instant) :
    List (Job α) → Progress → List (Scored α) × Progress
  | [], progress => ([], progress)
  | job :: jobs, progress =>
    let first := runTasks scorer job deadline (Chunk.tasks chunk job.candidates) progress
    let rest := runJobs scorer chunk deadline jobs first.2
    (first.1 :: rest.1, rest.2)

end Scorer

end Screening
