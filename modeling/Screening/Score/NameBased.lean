import Screening.Feature.Declaration
import Screening.Score.Explained

namespace Screening.NameBased

variable {α : Type} [Scalar α]

def feature : Text := Text.of "name.match"

def properties : List String := ["name", "alias", "previousName"]

/-- Half the weight is on the parts of the names as written, half on their sound. -/
def weights : NameWeights α :=
  { (NameWeights.zero : NameWeights α) with closestParts := 0.5, soundex := 0.5 }

def features : List (FeatureDecl α) :=
  [.similarity "name.match" .name properties (.ofWeights weights)]

def score (evidence : Evidence α) : ExplainedScore α :=
  match evidence.present? feature with
  | some name =>
    let score := Scalar.clamp name.value
    ⟨score, [⟨feature, name.value, 1, score, name.presence⟩], false⟩
  | none => ⟨0, [⟨feature, 0, 1, 0, evidence.presence feature⟩], true⟩

end Screening.NameBased
