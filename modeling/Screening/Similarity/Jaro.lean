import Screening.Scalar
import Screening.Text

namespace Screening.Similarity

/-- Takes the first free position of `t` that holds `c`, after the first `ahead` positions and
within `span` positions; `taken` marks the positions that are not free. -/
def claim (c : UInt8) : (ahead span : Nat) → (t : Text) → (taken : List Bool) → Option (List Bool)
  | _, 0, _, _ => none
  | ahead + 1, span + 1, _ :: bs, mark :: taken => (claim c ahead span bs taken).map (mark :: ·)
  | 0, span + 1, b :: bs, mark :: taken =>
    if !mark && c == b then some (true :: taken) else (claim c 0 span bs taken).map (mark :: ·)
  | _, _, _, _ => none

def claims (window : Nat) (t : Text) : (i : Nat) → Text → List Bool → List Bool × List Bool
  | _, [], taken => ([], taken)
  | i, c :: cs, taken =>
    match claim c (i - window) (i + window + 1) t taken with
    | some taken =>
      let rest := claims window t (i + 1) cs taken
      (true :: rest.1, rest.2)
    | none =>
      let rest := claims window t (i + 1) cs taken
      (false :: rest.1, rest.2)

def marked (t : Text) (marks : List Bool) : Text :=
  (t.zip marks).filterMap fun p => if p.2 then some p.1 else none

def window (s t : Text) : Nat := max s.length t.length / 2 - 1

def sharedBytes (s t : Text) : Text × Text :=
  let marks := claims (window s t) t 0 s (List.replicate t.length false)
  (marked s marks.1, marked t marks.2)

def transpositions (m n : Text) : Nat := (m.zip n).countP fun p => p.1 != p.2

def commonLength : Text → Text → Nat
  | a :: s, b :: t => if a = b then commonLength s t + 1 else 0
  | _, _ => 0

variable {α : Type} [Scalar α]

/-- The mean of three shares: of each text's bytes that are shared, and of the shared bytes that are
in order, where two places that differ count as one exchange. -/
def jaro (s t : Text) : α :=
  if s.isEmpty && t.isEmpty then 1
  else if s.isEmpty || t.isEmpty then 0
  else if s = t then 1
  else
    let shared := sharedBytes s t
    if shared.1.isEmpty then 0
    else
      let m : α := (shared.1.length : α)
      let half : α := Scalar.share (transpositions shared.1 shared.2) 2
      (m / (s.length : α) + m / (t.length : α) + (m - half) / m) / (3 : Nat)

/-- Above 0.7, each of up to four common first bytes closes a tenth of the gap to 1. -/
def jaroWinkler (s t : Text) : α :=
  let similarity : α := jaro s t
  if similarity ≤ 0.7 then similarity
  else
    let common := commonLength (s.take 4) (t.take 4)
    Scalar.min 1 (similarity + 0.1 * (common : α) * (1 - similarity))

end Screening.Similarity
