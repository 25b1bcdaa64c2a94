import Screening.Normalizer
import Screening.Replacement.Tables
import Screening.Similarity.EditDistance
import Screening.Text.Words

namespace Screening.TokenSet

def ofText (t : Text) : List Text := Text.ascending (Text.words (Text.spacePunctuation t))

def ofAddress (t : Text) : List Text :=
  Text.ascending (Text.words
    (Replacer.ordinals.apply (Replacer.streetTerms.apply (Text.spacePunctuation t))))

variable {α : Type} [Scalar α]

/-- How far two sets of words agree: 1 if one contains the other, else the share of common words,
where the words left over count as far as they are alike. Nothing can be told of an empty set. -/
def agreement (q c : List Text) : Option α :=
  if q.isEmpty || c.isEmpty then none
  else
    let common := q.filter c.contains
    if common.length = q.length || common.length = c.length then some 1
    else
      let left := q.filter fun t => !c.contains t
      let right := c.filter fun t => !q.contains t
      let s := Text.join [32] left
      let t := Text.join [32] right
      let likeness : α := Similarity.editSimilarity s t (max s.length t.length)
      let remainder : α := (max left.length right.length : Nat)
      let shared : α := (common.length : α)
      some ((shared + remainder * likeness) / (remainder + shared))

end Screening.TokenSet
