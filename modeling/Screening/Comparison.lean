import Screening.Country
import Screening.Gender
import Screening.Identifier
import Screening.IncompleteDate
import Screening.Name.Resemblance
import Screening.TokenSet
import Screening.ValueType

namespace Screening

structure ComparisonRules (α : Type) where
  weights : NameWeights α
  precision : Precision
  scheme : IdentifierScheme
  minLength : Nat
  deriving Repr

namespace ComparisonRules

variable {α : Type} [Scalar α]

def usual : ComparisonRules α := ⟨NameWeights.zero, .any, .any, 1⟩

def ofWeights (weights : NameWeights α) : ComparisonRules α := ⟨weights, .any, .any, 1⟩

def ofPrecision (precision : Precision) : ComparisonRules α :=
  ⟨NameWeights.zero, precision, .any, 1⟩

def ofScheme (scheme : IdentifierScheme) (minLength : Nat) : ComparisonRules α :=
  ⟨NameWeights.zero, .any, scheme, minLength⟩

end ComparisonRules

namespace Comparison

variable {α : Type} [Scalar α]

/-- The resemblance of two names as given; the candidate is prepared first. -/
def names (normalizer : Normalizer) (query candidate : Text) :
    Except Interruption (Option (NameResemblance α)) := do
  let c ← NameForms.prepare normalizer candidate
  let q ← NameForms.prepare normalizer query
  return NameResemblance.compare q c

def dates (precision : Precision) (query candidate : Text) : Option α := do
  let q ← IncompleteDate.ofText? query
  let c ← IncompleteDate.ofText? candidate
  IncompleteDate.agreement precision q c

/-- Equal codes are worth 1 and related ones one half. -/
def countries (query candidate : Text) : Option α := do
  let q ← Country.canonical? query
  let c ← Country.canonical? candidate
  return if q = c then 1 else if Country.related q c then 0.5 else 0

/-- Identifiers are the same or different once cleaned. One that is empty, too short or not of the
scheme tells nothing. -/
def identifiers (scheme : IdentifierScheme) (minLength : Nat) (query candidate : Text) :
    Option α :=
  let q := Identifier.clean query
  let c := Identifier.clean candidate
  let usable (t : Text) : Bool := !t.isEmpty && minLength ≤ t.length && scheme.accepts t
  if usable q && usable c then some (if q = c then 1 else 0) else none

def genders (query candidate : Text) : Option α := do
  let q ← Gender.ofText? query
  let c ← Gender.ofText? candidate
  return if q = c then 1 else 0

/-- Free texts are compared word by word; the query is normalized first. -/
def texts (normalizer : Normalizer) (query candidate : Text) : Except Interruption (Option α) := do
  let q ← normalizer.normalize query
  let c ← normalizer.normalize candidate
  return TokenSet.agreement (TokenSet.ofText q) (TokenSet.ofText c)

def addresses (normalizer : Normalizer) (query candidate : Text) :
    Except Interruption (Option α) := do
  let q ← normalizer.normalize query
  let c ← normalizer.normalize candidate
  return TokenSet.agreement (TokenSet.ofAddress q) (TokenSet.ofAddress c)

def compare (normalizer : Normalizer) (rules : ComparisonRules α) (type : ValueType)
    (query candidate : Text) : Except Interruption (Option α) :=
  match type with
  | .name => (names normalizer query candidate).map fun resemblance =>
      resemblance.map rules.weights.apply
  | .date => .ok (dates rules.precision query candidate)
  | .country => .ok (countries query candidate)
  | .identifier =>
    .ok (identifiers rules.scheme rules.minLength query candidate)
  | .text => texts normalizer query candidate
  | .gender => .ok (genders query candidate)
  | .address => addresses normalizer query candidate

end Comparison

end Screening
