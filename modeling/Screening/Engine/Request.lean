import Screening.Config.Settings
import Screening.Engine.Clock
import Screening.Entity
import Screening.Schema.Declaration
import Screening.Score

namespace Screening

/-- What became of one candidate. The query and the candidate are told by their ids; an errored
verdict has score 0 and no lines. -/
structure Verdict (α : Type) where
  query : Text
  candidate : Text
  schema : Text
  score : α
  isMatch : Bool
  algorithm : Algorithm
  lines : List (ScoreLine α)
  errored : Bool
  remark : Text
  deriving Repr

inductive Coverage
  | complete
  | cutShort
  deriving DecidableEq, Repr

namespace Coverage

def label : Coverage → Text
  | complete => Text.of "complete"
  | cutShort => Text.of "timed_out"

end Coverage

/-- The verdicts on a query's candidates, best first, under a version of the catalog; with how many
candidates there were, were scored, and were errored. -/
structure Ranking (α : Type) where
  name : Text
  coverage : Coverage
  algorithm : Algorithm
  version : Text
  verdicts : List (Verdict α)
  total : Nat
  scored : Nat
  errored : Nat
  deriving Repr

structure Overrides (α : Type) where
  algorithm : Option Algorithm
  limit : Option UInt64
  threshold : Option α
  cutoff : Option α
  candidateFactor : Option UInt64
  timeout : Option Int
  withoutSchemas : List Text
  withoutIds : List Text
  deriving Repr

structure NamedRequest where
  name : Text
  query : Entity
  candidates : List Entity
  deriving DecidableEq, Repr

namespace NamedRequest

def put (r : NamedRequest) : List NamedRequest → List NamedRequest
  | [] => [r]
  | s :: rest =>
    if r.name = s.name then r :: rest
    else if r.name < s.name then r :: s :: rest
    else s :: put r rest

/-- The requests in bytewise order of their names; of two with one name the later one counts. -/
def ordered (requests : List NamedRequest) : List NamedRequest :=
  requests.foldl (fun sorted r => put r sorted) []

end NamedRequest

structure BatchReport (α : Type) where
  coverage : Coverage
  cutShort : List Text
  rankings : List (Ranking α)
  deriving Repr

/-- What the engine has counted since its start or the last reset: queries answered, in full or cut
short, requests without an answer, and candidates scored, errored or out of line with the query. The
counts are taken to stay below `2 ^ 64`, so that none of them wraps around in its word. -/
structure Counters where
  queries : Nat
  complete : Nat
  cutShort : Nat
  failures : Nat
  scored : Nat
  errored : Nat
  mismatches : Nat
  deriving DecidableEq, Repr

namespace Counters

def zero : Counters := ⟨0, 0, 0, 0, 0, 0, 0⟩

end Counters

structure TypeClash where
  schema : Text
  property : Text
  type : ValueType
  feature : Text
  algorithm : Algorithm
  featureType : ValueType
  deriving DecidableEq, Repr

namespace TypeClash

def message (clash : TypeClash) : Text :=
  clash.schema ++ Text.of "." ++ clash.property ++ Text.of " is a " ++ clash.type.label ++
    Text.of " property but feature " ++ clash.feature ++ Text.of " of " ++ clash.algorithm.name ++
    Text.of " compares " ++ clash.featureType.label ++ Text.of " values"

end TypeClash

inductive EngineFault
  | settings (fault : SettingsFault)
  | noCatalog
  | typeClash (clash : TypeClash)
  | disabled (algorithm : Algorithm)
  | noResults
  | zeroLimitOrFactor
  | thresholdRange
  | cutoffRange
  | scoringStopped
  deriving DecidableEq, Repr

namespace EngineFault

def kind : EngineFault → FailureKind
  | settings _ => .badConfiguration
  | noCatalog => .badState
  | typeClash _ => .unsupportedType
  | disabled _ => .disabledAlgorithm
  | noResults | zeroLimitOrFactor | thresholdRange | cutoffRange => .badArgument
  | scoringStopped => .internal

def message : EngineFault → Text
  | settings fault => fault.message
  | noCatalog => Text.of "catalog handle holds no catalog"
  | typeClash clash => clash.message
  | disabled algorithm => Text.of "algorithm '" ++ algorithm.name ++ Text.of "' is disabled"
  | noResults => Text.of "topK must be positive"
  | zeroLimitOrFactor => Text.of "limit and candidate factor must be positive"
  | thresholdRange => Text.of "threshold must lie in [0,1]"
  | cutoffRange => Text.of "cutoff must lie in [0,1]"
  | scoringStopped => Text.of "unknown failure in scoring task"

def failure (fault : EngineFault) : Failure := .of fault.kind fault.message

end EngineFault

end Screening
