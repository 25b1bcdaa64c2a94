import Screening.Scalar
import Screening.Text

namespace Screening.Similarity

/-- The rest of a row of distances, where `corner` is the distance above and to the left, `left` the
one before, and the row above goes on at the byte where the text does. -/
def rowFrom (a : UInt8) : (corner left : Nat) → Text → List Nat → List Nat
  | corner, left, b :: bs, above :: row =>
    let here := min (min (above + 1) (left + 1)) (corner + if a = b then 0 else 1)
    here :: rowFrom a above here bs row
  | _, _, _, _ => []

def nextRow (t : Text) (row : List Nat) (a : UInt8) : List Nat :=
  match row with
  | [] => []
  | corner :: row => (corner + 1) :: rowFrom a corner (corner + 1) t row

def lastRow (s t : Text) : List Nat := s.foldl (nextRow t) (List.range (t.length + 1))

def levenshtein (s t : Text) : Nat := (lastRow s t).getLastD 0

/-- One edit for each five bytes of the shorter text or part of them. -/
def editBudget (s t : Text) : Nat := (min s.length t.length + 4) / 5

def usualEdits : Nat := 4

def withinEdits (s t : Text) : Bool :=
  s == t || levenshtein s.lower t.lower ≤ min usualEdits (editBudget s t)

variable {α : Type} [Scalar α]

/-- The share of the longer text that needs no edit, and 0 beyond the edits granted. -/
def editSimilarity (s t : Text) (maxEdits : Nat) : α :=
  if s.isEmpty || t.isEmpty then 0
  else if s = t then 1
  else
    let budget := min maxEdits (editBudget s t)
    let longer := max s.length t.length
    if longer - min s.length t.length > budget then 0
    else
      let distance := levenshtein s t
      if distance > budget then 0 else 1 - Scalar.share distance longer

end Screening.Similarity
