import Screening.Name.Likeness

namespace Screening

structure NameResemblance (α : Type) where
  literal : α
  sharedTokens : α
  jaroWinkler : α
  closestParts : α
  levenshtein : α
  phonetic : α
  soundex : α
  deriving Repr

/-- The weight of each way of being alike. With `literalWins`, names that are literally the same are
worth 1 whatever the weights. -/
structure NameWeights (α : Type) where
  literal : α
  sharedTokens : α
  jaroWinkler : α
  closestParts : α
  levenshtein : α
  phonetic : α
  soundex : α
  literalWins : Bool
  deriving Repr

variable {α : Type} [Scalar α]

namespace NameResemblance

/-- The resemblance of two names, unless nothing is left of one of them to compare. -/
def compare (q c : NameForms) : Option (NameResemblance α) :=
  if q.isEmpty || c.isEmpty then none
  else
    some {
      literal := q.literal c
      sharedTokens := q.sharedTokens c
      jaroWinkler := q.jaroWinkler c
      closestParts := q.closestParts c
      levenshtein := q.levenshtein c
      phonetic := q.phonetic c
      soundex := q.soundex c }

def zero : NameResemblance α := ⟨0, 0, 0, 0, 0, 0, 0⟩

end NameResemblance

namespace NameWeights

def zero : NameWeights α := ⟨0, 0, 0, 0, 0, 0, 0, true⟩

def apply (w : NameWeights α) (r : NameResemblance α) : α :=
  if w.literalWins && 1 ≤ r.literal then 1
  else
    Scalar.clamp (w.literal * r.literal + w.sharedTokens * r.sharedTokens +
      w.jaroWinkler * r.jaroWinkler + w.closestParts * r.closestParts +
      w.levenshtein * r.levenshtein + w.phonetic * r.phonetic + w.soundex * r.soundex)

end NameWeights

end Screening
