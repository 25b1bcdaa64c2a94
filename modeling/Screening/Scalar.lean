import Screening.Sorting

namespace Screening

class Scalar (α : Type) extends Zero α, One α, Add α, Sub α, Mul α, Div α, Neg α, NatCast α,
    OfScientific α, LT α, LE α where
  decLt : DecidableLT α
  decLe : DecidableLE α
  exp : α → α
  pow : α → Nat → α

namespace Scalar

variable {α : Type} [Scalar α]

instance : DecidableLT α := Scalar.decLt

instance : DecidableLE α := Scalar.decLe

/-- The left one of two equal or unordered numbers. -/
def max (a b : α) : α := if a < b then b else a

def min (a b : α) : α := if b < a then b else a

/-- Brings a number into the unit interval; an unordered one stays as it is. -/
def clamp (a : α) : α := if a < 0 then 0 else if 1 < a then 1 else a

def isFraction (a : α) : Bool := 0 ≤ a && a ≤ 1

def descending {β : Type} (key : β → α) (items : List β) : List β :=
  Sorting.sort (fun a b => !decide (key a < key b)) items

def share (part whole : Nat) : α := (part : α) / (whole : α)

end Scalar

/-- A count is converted as a machine word, the greatest one if it does not fit. -/
instance : Scalar Float where
  zero := 0.0
  one := 1.0
  natCast n := (UInt64.ofNatClamp n).toFloat
  decLt := inferInstance
  decLe := inferInstance
  exp := Float.exp
  pow a n := Float.pow a (Float.ofNat n)

end Screening
