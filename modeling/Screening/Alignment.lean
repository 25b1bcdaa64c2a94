import Screening.Scalar

namespace Screening

/-- Pairs below `floor` are never chosen; `support` is the share of the headroom above the best pair
that the others can fill. -/
structure Aligner (α : Type) where
  floor : α
  support : α
  deriving Repr

structure ValuePair (α : Type) where
  query : Nat
  candidate : Nat
  similarity : α
  deriving Repr

structure Alignment (α : Type) where
  pairs : List (ValuePair α)
  loneQuery : List Nat
  loneCandidate : List Nat
  aggregate : α
  deriving Repr

variable {α : Type} [Scalar α]

namespace ValuePair

def choose : (room : Nat) → (usedQuery usedCandidate : List Nat) → List (ValuePair α) →
    List (ValuePair α)
  | _, _, _, [] => []
  | 0, _, _, _ => []
  | room + 1, usedQuery, usedCandidate, pair :: pairs =>
    if usedQuery.contains pair.query || usedCandidate.contains pair.candidate then
      choose (room + 1) usedQuery usedCandidate pairs
    else
      pair :: choose room (pair.query :: usedQuery) (pair.candidate :: usedCandidate) pairs

def greedy (rows columns : Nat) (pairs : List (ValuePair α)) : List (ValuePair α) :=
  choose (min rows columns) [] [] (Scalar.descending similarity pairs)

end ValuePair

namespace Aligner

def clamped (floor support : α) : Aligner α := ⟨Scalar.clamp floor, Scalar.clamp support⟩

def cells (aligner : Aligner α) (rows columns : Nat) (similarity : Nat → Nat → α) :
    List (ValuePair α) :=
  (List.range rows).flatMap fun q =>
    (List.range columns).filterMap fun c =>
      let s := Scalar.clamp (similarity q c)
      if 0 < s && aligner.floor ≤ s then some ⟨q, c, s⟩ else none

def strongest : List α → Nat
  | [] => 0
  | a :: as =>
    (as.zipIdx 1).foldl (fun (best : α × Nat) next => if best.1 < next.1 then next else best) (a, 0)
      |>.2

/-- The greatest similarity, raised by the mean of the others over a share of the headroom. -/
def aggregate (aligner : Aligner α) (similarities : List α) : α :=
  let i := strongest similarities
  match similarities[i]? with
  | none => 0
  | some greatest =>
    let best := Scalar.clamp greatest
    let others := similarities.eraseIdx i
    if others.isEmpty then best
    else
      let mean := others.foldl (fun sum s => sum + Scalar.clamp s) 0 / (others.length : α)
      Scalar.clamp (best + (1 - best) * aligner.support * mean)

/-- The greedy alignment: the most similar pair is chosen first, ties by query index and then by
candidate index. -/
def align (aligner : Aligner α) (rows columns : Nat) (similarity : Nat → Nat → α) : Alignment α :=
  let pairs := ValuePair.greedy rows columns (aligner.cells rows columns similarity)
  { pairs
    loneQuery := (List.range rows).filter fun q => pairs.all fun pair => pair.query != q
    loneCandidate :=
      (List.range columns).filter fun c => pairs.all fun pair => pair.candidate != c
    aggregate := aligner.aggregate (pairs.map ValuePair.similarity) }

/-- The alignment of a matrix, as wide as its first row; what a later row lacks counts as 0. -/
def alignMatrix (aligner : Aligner α) (matrix : List (List α)) : Alignment α :=
  aligner.align matrix.length (matrix.headD []).length fun q c => (matrix.getD q []).getD c 0

end Aligner

namespace Alignment

def isEmpty (alignment : Alignment α) : Bool := alignment.pairs.isEmpty

def best (alignment : Alignment α) : α :=
  match alignment.pairs with
  | [] => 0
  | pair :: _ => pair.similarity

end Alignment

end Screening
