import Screening.Feature.Evidence

namespace Screening

structure ScoreLine (α : Type) where
  feature : Text
  value : α
  weight : α
  change : α
  presence : Presence
  deriving Repr

/-- A score without evidence is one for which nothing that counts was present. -/
structure ExplainedScore (α : Type) where
  score : α
  lines : List (ScoreLine α)
  unfounded : Bool
  deriving Repr

end Screening
