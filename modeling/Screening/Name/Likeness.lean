import Screening.Alignment
import Screening.Name.Forms
import Screening.Similarity.NameParts

namespace Screening.NameForms

variable {α : Type} [Scalar α]

def literal (q c : NameForms) : α := if q.cleaned = c.cleaned then 1 else 0

def sharedTokens (q c : NameForms) : α :=
  let tokens := Text.distinct q.tokens
  if tokens.isEmpty then 0
  else Scalar.share (tokens.countP c.tokens.contains) tokens.length

/-- The likeness of the names written without spaces, raised to the number of bytes, where one is at
least half as long as the other and they are within the edits granted. -/
def joinedWinkler (q c : NameForms) : α :=
  let s := q.tokens.flatten
  let t := c.tokens.flatten
  if 0 < s.length && 0 < t.length && max s.length t.length ≤ 2 * min s.length t.length &&
      Similarity.withinEdits s t then
    Scalar.pow (Similarity.jaroWinkler s t) s.length
  else 0

def jaroWinkler (q c : NameForms) : α :=
  Scalar.max (joinedWinkler q c) (Similarity.partsCloseness q.tokens c.tokens)

/-- The greatest of `best` and the similarities above 0.6 of a part with the parts of a name. One that
is completely alike ends the search. -/
def closestFrom (part : Text) (best : α) : List Text → α
  | [] => best
  | other :: parts =>
    let similarity : α := Similarity.jaroWinkler part other
    if 0.6 < similarity then
      let best := Scalar.max best similarity
      if 1 ≤ best then best else closestFrom part best parts
    else closestFrom part best parts

def closestPart (part : Text) (parts : List Text) : α := closestFrom part 0 parts

def closestParts (q c : NameForms) : α :=
  if q.parts.isEmpty || c.parts.isEmpty then 0
  else
    q.parts.foldl (fun total part => total + closestPart part c.parts) 0 / (q.parts.length : α)

/-- Whether two parts sound alike: by their sound keys and within the edits granted, or, where a key
is missing, letter by letter. -/
def soundAlike (q c : Text) : Bool :=
  let k := soundKey q
  let l := soundKey c
  if k.isEmpty || l.isEmpty then q == c else k == l && Similarity.withinEdits q c

/-- The number of parts, in turn, that find a part not yet taken that sounds like them. -/
def soundMatches : (q c : List Text) → Nat
  | [], _ => 0
  | part :: q, c =>
    match c.findIdx? (soundAlike part) with
    | some j => soundMatches q (c.eraseIdx j) + 1
    | none => soundMatches q c

def phonetic (q c : NameForms) : α :=
  if q.parts.isEmpty || c.parts.isEmpty then 0
  else Scalar.share (soundMatches q.parts c.parts) q.parts.length

def soundex (q c : NameForms) : α :=
  if q.parts.isEmpty then 0
  else
    Scalar.share (q.soundexes.countP fun code => !code.isEmpty && c.soundexes.contains code)
      q.parts.length

def pairedTokens (q c : List Text) : List (ValuePair α) :=
  ValuePair.greedy q.length c.length (q.zipIdx.flatMap fun s => c.zipIdx.map fun t =>
    ⟨s.2, t.2, Similarity.editSimilarity s.1 t.1 Similarity.usualEdits⟩)

/-- The similarity of two fingerprints read in the order in which their tokens pair, if each of the
query's tokens finds a partner. -/
def pairedFingerprints (q c : List Text) : Option α :=
  let pairs : List (ValuePair α) := pairedTokens q c
  if q.isEmpty || c.isEmpty || pairs.length < q.length then none
  else
    some (Similarity.editSimilarity (pairs.flatMap fun p => q.getD p.query [])
      (pairs.flatMap fun p => c.getD p.candidate []) Similarity.usualEdits)

def levenshtein (q c : NameForms) : α :=
  if q.cleaned.length < 2 || c.cleaned.length < 2 then 0
  else
    let whole : α := Similarity.editSimilarity q.cleaned c.cleaned Similarity.usualEdits
    let s := q.fingerprint.withoutSpaces
    let t := c.fingerprint.withoutSpaces
    let best :=
      if s.isEmpty || t.isEmpty then whole
      else Scalar.max whole (Similarity.editSimilarity s t Similarity.usualEdits)
    match pairedFingerprints (Text.distinct q.fingerprint.words)
        (Text.distinct c.fingerprint.words) with
    | none => best
    | some paired => Scalar.max best paired

end Screening.NameForms
