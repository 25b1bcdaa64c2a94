import Screening.Score.NameBased

namespace Screening

/-- How far agreement moves a score towards 1, what disagreement multiplies it by, and the cap that
disagreement puts on it. -/
structure Qualifier (α : Type) where
  feature : Text
  boost : α
  penalty : α
  cap : α
  deriving Repr

namespace NameQualified

variable {α : Type} [Scalar α]

/-- Identifiers do not penalise, since an entity may carry several unrelated numbers. -/
def qualifiers : List (Qualifier α) := [
  ⟨Text.of "country.match", 0.05, 0.85, 0.8⟩,
  ⟨Text.of "dob.match", 0.10, 0.70, 0.6⟩,
  ⟨Text.of "gender.match", 0.02, 0.80, 0.7⟩,
  ⟨Text.of "identifier.match", 0.30, 1, 1⟩]

def features : List (FeatureDecl α) :=
  NameBased.features ++ [
    .similarity "country.match" .country [] .usual,
    .similarity "dob.match" .date ["birthDate"] .usual,
    .similarity "gender.match" .gender ["gender"] .usual,
    .similarity "identifier.match" .identifier ["registrationNumber", "taxNumber", "leiCode",
      "innCode", "ogrnCode", "bicCode", "imoNumber", "mmsi", "isin"] .usual]

def boosted (q : Qualifier α) (value score : α) : α :=
  score + (1 - score) * q.boost * Scalar.clamp value

def boostAll (evidence : Evidence α) :
    List (Qualifier α) → α → α × List (ScoreLine α)
  | [], score => (score, [])
  | q :: qs, score =>
    let presence := evidence.presence q.feature
    match (evidence.present? q.feature).filter fun f => 0 < f.value with
    | some f =>
      let next := boosted q f.value score
      let rest := boostAll evidence qs next
      (rest.1, ⟨q.feature, f.value, q.boost, next - score, presence⟩ :: rest.2)
    | none =>
      let rest := boostAll evidence qs score
      (rest.1, ⟨q.feature, 0, q.boost, 0, presence⟩ :: rest.2)

def penalised (q : Qualifier α) (score : α) : α := Scalar.min (score * q.penalty) q.cap

def disagrees (evidence : Evidence α) (q : Qualifier α) : Bool :=
  (evidence.present? q.feature).any fun f => f.value ≤ 0 && decide (q.penalty < 1)

def penaliseAll (evidence : Evidence α) :
    List (Qualifier α) → List (ScoreLine α) → α → α × List (ScoreLine α)
  | q :: qs, line :: lines, score =>
    if disagrees evidence q then
      let next := penalised q score
      let rest := penaliseAll evidence qs lines next
      (rest.1, { line with weight := q.penalty, change := next - score } :: rest.2)
    else
      let rest := penaliseAll evidence qs lines score
      (rest.1, line :: rest.2)
  | _, lines, score => (score, lines)

/-- Agreement comes first, so that a cap holds whatever the name and the other qualifiers say. -/
def score (evidence : Evidence α) : ExplainedScore α :=
  let name := NameBased.score evidence
  if name.unfounded then
    let lines := qualifiers.map fun (q : Qualifier α) =>
      (⟨q.feature, 0, 0, 0, evidence.presence q.feature⟩ : ScoreLine α)
    { name with lines := name.lines ++ lines }
  else
    let raised := boostAll evidence qualifiers name.score
    let final := penaliseAll evidence qualifiers raised.2 raised.1
    ⟨Scalar.clamp final.1, name.lines ++ final.2, false⟩

end NameQualified

end Screening
