import Screening.Algorithm
import Screening.Normalizer
import Screening.Scalar

namespace Screening

/-- Times are in milliseconds; a deadline that is not positive is none. -/
structure Settings (α : Type) where
  algorithms : List Algorithm
  defaultAlgorithm : Algorithm
  normalizer : Folding
  workers : UInt64
  chunkSize : UInt64
  limit : UInt64
  candidateFactor : UInt64
  threshold : α
  cutoff : α
  alignerFloor : α
  alignerSupport : α
  deadline : Int
  deriving Repr

inductive SettingsFault
  | noAlgorithm
  | defaultDisabled (algorithm : Algorithm)
  | zeroLimit
  | zeroChunkSize
  | zeroCandidateFactor
  | thresholdOrCutoff
  | aligner
  | noSuchAlgorithm (name : Text)
  | invalidValue (key value : Text)
  deriving DecidableEq, Repr

namespace SettingsFault

def sectionName : Text := Text.of "matching"

def message : SettingsFault → Text
  | noAlgorithm => Text.of "no scoring algorithm is enabled"
  | defaultDisabled algorithm =>
    Text.of "default algorithm '" ++ algorithm.name ++ Text.of "' is not enabled"
  | zeroLimit => Text.of "limit must be positive"
  | zeroChunkSize => Text.of "chunk size must be positive"
  | zeroCandidateFactor => Text.of "candidate factor must be positive"
  | thresholdOrCutoff => Text.of "threshold and cutoff must lie in [0,1]"
  | aligner => Text.of "invalid aligner settings"
  | noSuchAlgorithm name => Algorithm.unknownMessage name
  | invalidValue key value =>
    Text.of "invalid value '" ++ value ++ Text.of "' for " ++ sectionName ++ Text.of "." ++ key

def failure (fault : SettingsFault) : Failure := .of .badConfiguration fault.message

end SettingsFault

namespace Settings

variable {α : Type} [Scalar α]

def usual : Settings α where
  algorithms := Algorithm.all
  defaultAlgorithm := .logistic
  normalizer := .basic
  workers := 0
  chunkSize := 16
  limit := 5
  candidateFactor := 10
  threshold := 0.7
  cutoff := 0
  alignerFloor := 0.05
  alignerSupport := 0.5
  deadline := 0

def enables (settings : Settings α) (algorithm : Algorithm) : Bool :=
  settings.algorithms.contains algorithm

/-- Reports the first condition that the settings do not meet. -/
def validate (settings : Settings α) : Except SettingsFault Unit :=
  if settings.algorithms.isEmpty then .error .noAlgorithm
  else if !settings.enables settings.defaultAlgorithm then
    .error (.defaultDisabled settings.defaultAlgorithm)
  else if settings.limit = 0 then .error .zeroLimit
  else if settings.chunkSize = 0 then .error .zeroChunkSize
  else if settings.candidateFactor = 0 then .error .zeroCandidateFactor
  else if !(Scalar.isFraction settings.threshold && Scalar.isFraction settings.cutoff) then
    .error .thresholdOrCutoff
  else if !(Scalar.isFraction settings.alignerFloor &&
      Scalar.isFraction settings.alignerSupport) then
    .error .aligner
  else .ok ()

end Settings

def fewestCandidates : UInt64 := 20

def mostCandidates : UInt64 := 9999

/-- The product of limit and factor within the bounds; it is formed only where it cannot exceed the
upper one. -/
def candidateCap (limit factor : UInt64) : UInt64 :=
  let wanted := if limit > mostCandidates / max factor 1 then mostCandidates else limit * factor
  if wanted < fewestCandidates then fewestCandidates
  else if mostCandidates < wanted then mostCandidates
  else wanted

end Screening
