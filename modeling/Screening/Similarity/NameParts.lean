import Screening.Similarity.EditDistance
import Screening.Similarity.Jaro

namespace Screening.Similarity

variable {α : Type} [Scalar α]

structure PartPair (α : Type) where
  query : Text
  candidate : Text
  closeness : α

def partPairs (query candidate : List Text) : List (PartPair α) :=
  (Text.ascending query).flatMap fun q =>
    (Text.ascending candidate).filterMap fun c =>
      let closeness : α := jaroWinkler q c
      if 0 < closeness && withinEdits q c then some ⟨q, c, closeness⟩ else none

/-- Uses each pair as often as both of its parts are left. -/
def spend : (query candidate : Text → Nat) → List (PartPair α) → List (PartPair α)
  | _, _, [] => []
  | query, candidate, p :: ps =>
    let uses := min (query p.query) (candidate p.candidate)
    List.replicate uses p ++
      spend (fun t => if t = p.query then query t - uses else query t)
        (fun t => if t = p.candidate then candidate t - uses else candidate t) ps

def pairedParts (query candidate : List Text) : List (PartPair α) :=
  spend query.count candidate.count
    (Scalar.descending PartPair.closeness (partPairs query candidate))

/-- The product of the closenesses of the paired parts, or 0 when a part of the query stays without
partner or the two names, put together from the last pair to the first, are too far apart. -/
def partsCloseness (query candidate : List Text) : α :=
  if query.isEmpty || candidate.isEmpty then 0
  else
    let pairs : List (PartPair α) := pairedParts query candidate
    if pairs.length < query.length then 0
    else
      let joined (part : PartPair α → Text) := Text.join [32] (pairs.reverse.map part)
      if withinEdits (joined PartPair.query) (joined PartPair.candidate) then
        pairs.foldl (fun product p => product * p.closeness) 1
      else 0

def disjoint (s t : List Text) : Bool := s.all fun a => !t.contains a

end Screening.Similarity
