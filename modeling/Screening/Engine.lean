import Screening.Engine.Ranking
import Screening.Entity.Query
import Screening.Schema.Builtin

namespace Screening

structure Engine (α : Type) where
  settings : Settings α
  catalog : Catalog
  normalizer : Normalizer
  clock : Clock
  counters : Counters

namespace Engine

variable {α : Type} [Scalar α]

def clash? (catalog : Catalog) (algorithm : Algorithm) (d : FeatureDecl α)
    (property schema : Text) : Option TypeClash :=
  match catalog.property? schema property with
  | none => none
  | some p =>
    if p.type = d.type then none
    else some ⟨schema, property, p.type, d.name, algorithm, d.type⟩

def clashes (features : List (FeatureDecl α)) (catalog : Catalog) (algorithm : Algorithm) :
    List TypeClash :=
  features.flatMap fun d =>
    (d.properties ++ d.counterparts).flatMap fun property =>
      catalog.names.filterMap (clash? catalog algorithm d property)

/-- The normalizer that is given, or the one of the settings if the system has what it takes, or
else the basic one. -/
def chooseNormalizer (unicode : Unicode) (settings : Settings α) : Option Normalizer → Normalizer
  | some normalizer => normalizer
  | none =>
    match Normalizer.ofFolding settings.normalizer unicode with
    | .ok normalizer => normalizer
    | .error _ => .basic unicode

def chooseCatalog : Option CatalogSlot → Except EngineFault Catalog
  | none => .ok .builtin
  | some ⟨some catalog⟩ => .ok catalog
  | some ⟨none⟩ => .error .noCatalog

/-- Checks the settings, then the catalog, then that every property a feature names has the
feature's type wherever it is defined. -/
def create (settings : Settings α) (slot : Option CatalogSlot) (normalizer : Option Normalizer)
    (clock : Clock) (unicode : Unicode := .ascii) : Except EngineFault (Engine α) := do
  settings.validate.mapError EngineFault.settings
  let catalog ← chooseCatalog slot
  match (settings.algorithms.flatMap fun a =>
      clashes (a.features : List (FeatureDecl α)) catalog a).head? with
  | some clash => throw (.typeClash clash)
  | none => pure ()
  let chosen := chooseNormalizer unicode settings normalizer
  return ⟨{ settings with normalizer := chosen.folding }, catalog, chosen, clock, .zero⟩

def scorer (engine : Engine α) : Scorer α :=
  ⟨engine.normalizer, .clamped engine.settings.alignerFloor engine.settings.alignerSupport,
    engine.catalog⟩

/-- The deadline that a timeout sets from now on, and the clock after it was looked at. A timeout
that is not positive sets none. -/
def deadlineAfter (clock : Clock) (timeout : Int) : Option Instant × Clock :=
  if timeout ≤ 0 then (none, clock) else (some (clock.now.later timeout), clock.tick)

/-- Runs the jobs and ranks what they score. A stop without a reason in any of them leaves no
ranking, but its counts stay. -/
def respond (engine : Engine α) (deadline : Option Instant) (jobs : List (Job α)) :
    Except EngineFault (List (Ranking α)) × Engine α :=
  let run := engine.scorer.runJobs engine.settings.chunkSize deadline jobs
    ⟨false, engine.clock, engine.counters⟩
  let counters := run.2.counters
  if run.1.any Scored.stopped then
    (.error .scoringStopped,
      { engine with
        clock := run.2.clock
        counters := { counters with failures := counters.failures + 1 } })
  else
    let rankings := (jobs.zip run.1).map fun (p : Job α × Scored α) =>
      Ranking.ofVerdicts engine.catalog.version p.1 p.2.verdicts
    (.ok rankings,
      { engine with
        clock := run.2.clock, counters := rankings.foldl Ranking.count counters })

def queryDeadline (engine : Engine α) : Option Instant → Option Instant × Clock
  | some deadline => (some deadline, engine.clock)
  | none => deadlineAfter engine.clock engine.settings.deadline

def queryJob (engine : Engine α) (query : Entity) (candidates : List Entity)
    (algorithm : Algorithm) (most : UInt64) : Job α :=
  { name := query.id
    query := query.withFullNames
    candidates
    algorithm
    most
    threshold := engine.settings.threshold
    cutoff := engine.settings.cutoff }

def answer (engine : Engine α) (query : Entity) (candidates : List Entity)
    (algorithm : Algorithm) (most : UInt64) (deadline : Option Instant) :
    Except EngineFault (Ranking α) × Engine α :=
  if !engine.settings.enables algorithm then (.error (.disabled algorithm), engine)
  else if most = 0 then (.error .noResults, engine)
  else
    let start := engine.queryDeadline deadline
    let job := engine.queryJob query candidates algorithm most
    let responded := { engine with clock := start.2 }.respond start.1 [job]
    (responded.1.map fun rankings =>
      rankings.headD (Ranking.ofVerdicts engine.catalog.version job []), responded.2)

/-- Whether a candidate is left out, for its id or for a schema that its own is or inherits from. -/
def isExcluded (catalog : Catalog) (overrides : Overrides α) (candidate : Entity) : Bool :=
  overrides.withoutSchemas.any (catalog.descends candidate.schema) ||
    overrides.withoutIds.contains candidate.id

def considered (catalog : Catalog) (overrides : Overrides α) (most : UInt64)
    (candidates : List Entity) : List Entity :=
  (candidates.filter fun c => !isExcluded catalog overrides c).take most.toNat

structure BatchPlan (α : Type) where
  algorithm : Algorithm
  limit : UInt64
  candidateFactor : UInt64
  threshold : α
  cutoff : α

def plan (settings : Settings α) (overrides : Overrides α) : Except EngineFault (BatchPlan α) :=
  let p : BatchPlan α :=
    { algorithm := overrides.algorithm.getD settings.defaultAlgorithm
      limit := overrides.limit.getD settings.limit
      candidateFactor := overrides.candidateFactor.getD settings.candidateFactor
      threshold := overrides.threshold.getD settings.threshold
      cutoff := overrides.cutoff.getD settings.cutoff }
  if !settings.enables p.algorithm then .error (.disabled p.algorithm)
  else if p.limit = 0 || p.candidateFactor = 0 then .error .zeroLimitOrFactor
  else if !Scalar.isFraction p.threshold then .error .thresholdRange
  else if !Scalar.isFraction p.cutoff then .error .cutoffRange
  else .ok p

def batchJob (catalog : Catalog) (overrides : Overrides α) (plan : BatchPlan α) (r : NamedRequest) :
    Job α :=
  { name := r.name
    query := r.query.withFullNames
    candidates :=
      considered catalog overrides (candidateCap plan.limit plan.candidateFactor) r.candidates
    algorithm := plan.algorithm
    most := plan.limit
    threshold := plan.threshold
    cutoff := plan.cutoff }

def report (rankings : List (Ranking α)) : BatchReport α :=
  let cutShort := (rankings.filter fun r => !r.coversAll).map Ranking.name
  ⟨if cutShort.isEmpty then .complete else .cutShort, cutShort, rankings⟩

def batchJobs (engine : Engine α) (requests : List NamedRequest) (overrides : Overrides α)
    (plan : BatchPlan α) : List (Job α) :=
  (NamedRequest.ordered requests).map (batchJob engine.catalog overrides plan)

/-- Scores named queries in the order of their names under one deadline. -/
def answerBatch (engine : Engine α) (requests : List NamedRequest) (overrides : Overrides α) :
    Except EngineFault (BatchReport α) × Engine α :=
  match plan engine.settings overrides with
  | .error fault => (.error fault, engine)
  | .ok plan =>
    let start := deadlineAfter engine.clock (overrides.timeout.getD engine.settings.deadline)
    let jobs := engine.batchJobs requests overrides plan
    let responded := { engine with clock := start.2 }.respond start.1 jobs
    (responded.1.map report, responded.2)

def algorithms (engine : Engine α) : List Algorithm :=
  Algorithm.all.filter engine.settings.enables

def resetCounters (engine : Engine α) : Engine α := { engine with counters := .zero }

def install (engine : Engine α) (catalog : Option Catalog) : Outcome (Engine α) :=
  match (CatalogSlot.mk (some engine.catalog)).install catalog with
  | .error failure => .error failure
  | .ok slot => .ok { engine with catalog := slot.current.getD engine.catalog }

end Engine

end Screening
