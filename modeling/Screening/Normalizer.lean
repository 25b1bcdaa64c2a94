import Screening.Failure
import Screening.Unicode

namespace Screening

/-- Case folding alone, or with a conversion to Latin script in front. -/
inductive Folding
  | basic
  | full
  deriving DecidableEq, Repr

namespace Folding

def name : Folding → Text
  | basic => Text.of "basic"
  | full => Text.of "full"

def ofName? (t : Text) : Option Folding := [basic, full].find? fun folding => folding.name == t

end Folding

/-- A normalizer may be interrupted on a value. -/
structure Normalizer where
  folding : Folding
  normalize : Text → Except Interruption Text

namespace Normalizer

def ofFold (folding : Folding) (fold : Text → Text) : Normalizer :=
  ⟨folding, fun t => .ok (fold t)⟩

def basic (unicode : Unicode := .ascii) : Normalizer := ofFold .basic unicode.fold

def full (unicode : Unicode) : Normalizer := ofFold .full unicode.foldLatin

def verbatim : Normalizer := ofFold .basic id

/-- Folds ASCII, but stops without a reason on a value that contains `stop`, and refuses one that
contains `refuse`. -/
def guarded (stop refuse : Text) : Normalizer where
  folding := .full
  normalize t :=
    if t.holds stop then .error .unexplained
    else if t.holds refuse then
      .error (.refusal (Text.of "cannot normalize '" ++ t ++ Text.of "'"))
    else .ok t.lower

/-- The normalizer with a folding, if the system has what it takes. -/
def ofFolding (folding : Folding) (unicode : Unicode := .ascii) : Outcome Normalizer :=
  match folding with
  | .basic => .ok (basic unicode)
  | .full =>
    if unicode.toLatin.isSome then .ok (full unicode)
    else .error (.of .unsupported (Text.of "ICU transliterator for Latin conversion unavailable"))

end Normalizer

end Screening
