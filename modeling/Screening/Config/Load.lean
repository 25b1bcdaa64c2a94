import Screening.Config.File
import Screening.Config.Location
import Screening.Config.Numeral
import Screening.Config.Settings

namespace Screening.Settings

def setting (text : Text) (key : String) : Option Text :=
  Environment.nonEmpty (some (ConfigFile.value text SettingsFault.sectionName (Text.of key)))

def override {β : Type} (text : Text) (key : String) (read : Text → Option β)
    (put : β → Settings Float → Settings Float) (settings : Settings Float) :
    Except SettingsFault (Settings Float) :=
  match setting text key with
  | none => .ok settings
  | some given =>
    match read given with
    | some b => .ok (put b settings)
    | none => .error (.invalidValue (Text.of key) given)

def algorithm (name : Text) : Except SettingsFault Algorithm :=
  match Algorithm.ofName? name with
  | some algorithm => .ok algorithm
  | none => .error (.noSuchAlgorithm name)

def distinctAlgorithms : List Algorithm → List Algorithm
  | [] => []
  | a :: as => a :: (distinctAlgorithms as).filter (· != a)

def readAlgorithms (text : Text) (settings : Settings Float) :
    Except SettingsFault (Settings Float) :=
  match setting text "algorithms" with
  | none => .ok settings
  | some given => ((ConfigFile.list given).mapM algorithm).map fun algorithms =>
      { settings with algorithms := distinctAlgorithms algorithms }

/-- Without a default of its own a file that does not enable the usual one falls back on the first
algorithm that it enables. -/
def readDefaultAlgorithm (text : Text) (settings : Settings Float) :
    Except SettingsFault (Settings Float) :=
  match setting text "default_algorithm" with
  | some given => (algorithm given).map fun a => { settings with defaultAlgorithm := a }
  | none =>
    if settings.enables settings.defaultAlgorithm then .ok settings
    else
      .ok { settings with
        defaultAlgorithm := settings.algorithms.headD settings.defaultAlgorithm }

/-- The settings that a file says, in the order in which its faults are reported. -/
def ofText (text : Text) : Except SettingsFault (Settings Float) := do
  let s ← readAlgorithms text usual
  let s ← readDefaultAlgorithm text s
  let s ← override text "normalizer" Folding.ofName?
    (fun v s => { s with normalizer := v }) s
  let s ← override text "workers" Numeral.count? (fun n s => { s with workers := n }) s
  let s ← override text "chunk_size" Numeral.count? (fun n s => { s with chunkSize := n }) s
  let s ← override text "limit" Numeral.count? (fun n s => { s with limit := n }) s
  let s ← override text "candidate_factor" Numeral.count?
    (fun n s => { s with candidateFactor := n }) s
  let s ← override text "threshold" Numeral.float? (fun x s => { s with threshold := x }) s
  let s ← override text "cutoff" Numeral.float? (fun x s => { s with cutoff := x }) s
  let s ← override text "aligner_floor" Numeral.float? (fun x s => { s with alignerFloor := x }) s
  let s ← override text "aligner_support" Numeral.float?
    (fun x s => { s with alignerSupport := x }) s
  let s ← override text "deadline_ms" Numeral.milliseconds? (fun t s => { s with deadline := t }) s
  validate s
  return s

structure Host where
  environment : Environment
  file : Text → Option Text

/-- The settings in the file at a path, or, if the path is empty, in the usual place. A file that is
not there says nothing. -/
def load (host : Host) (requested : Text) : Except SettingsFault (Settings Float) :=
  let path := if requested.isEmpty then host.environment.settingsPath [] else requested
  match if path.isEmpty then none else host.file path with
  | none => .ok usual
  | some text => ofText text

end Screening.Settings
