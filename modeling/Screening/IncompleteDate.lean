import Screening.Scalar
import Screening.Text.Words

namespace Screening

inductive Precision
  | any
  | year
  | day
  deriving DecidableEq, Repr

/-- A day is known only where the month is, in a date made by `ofText?`. -/
structure IncompleteDate where
  year : Nat
  month : Option Nat
  day : Option Nat
  deriving DecidableEq, Repr

namespace IncompleteDate

def numeral? (most : Nat) : Text → Option Nat
  | tens :: units :: _ =>
    let n := 10 * Byte.digit tens + Byte.digit units
    if Byte.isDigit tens && Byte.isDigit units && 1 ≤ n && n ≤ most then some n else none
  | _ => none

/-- Four digits for the year, and no fifth; the month two digits after one byte more, and then the
day likewise. What does not read as a month or a day is unknown. -/
def ofText? (t : Text) : Option IncompleteDate :=
  let t := t.trim
  if t.length < 4 || !(t.take 4).all Byte.isDigit || (t.drop 4).head?.any Byte.isDigit then none
  else
    let year := Text.digitsValue (t.take 4)
    match numeral? 12 (t.drop 5) with
    | none => some ⟨year, none, none⟩
    | some month => some ⟨year, some month, numeral? 31 (t.drop 8)⟩

variable {α : Type} [Scalar α]

def monthAgreement (q c : IncompleteDate) : α :=
  match q.month, c.month with
  | some m, some n =>
    if m = n then
      match q.day, c.day with
      | some d, some e => if d = e then 1 else 0
      | _, _ => 0.85
    else if q.day = some n && c.day = some m then 0.5
    else 0
  | _, _ => 0.7

/-- The agreement of two dates; there is none to tell if precision `day` is asked of a date without
a day. -/
def agreement (precision : Precision) (q c : IncompleteDate) : Option α :=
  if precision = .day && (q.day.isNone || c.day.isNone) then none
  else if q.year ≠ c.year then some 0
  else if precision = .year then some 1
  else some (monthAgreement q c)

end IncompleteDate

end Screening
