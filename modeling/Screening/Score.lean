import Screening.Score.Logistic
import Screening.Score.NameQualified

namespace Screening.Algorithm

variable {α : Type} [Scalar α]

def features : Algorithm → List (FeatureDecl α)
  | nameBased => NameBased.features
  | nameQualified => NameQualified.features
  | logistic => Logistic.features

def score : Algorithm → Evidence α → ExplainedScore α
  | nameBased => NameBased.score
  | nameQualified => NameQualified.score
  | logistic => Logistic.score

end Screening.Algorithm
