import Screening.Text.Words

namespace Screening.Numeral

def count? (t : Text) : Option UInt64 :=
  let n := Text.digitsValue t
  if !t.isEmpty && t.all Byte.isDigit && n < UInt64.size then some (UInt64.ofNat n) else none

def milliseconds? (t : Text) : Option Int :=
  let n := Text.digitsValue t
  if !t.isEmpty && t.all Byte.isDigit && n < Nat.pow 2 63 then some (n : Int) else none

structure Ratio where
  numerator : Nat
  denominator : Nat
  deriving DecidableEq, Repr

namespace Ratio

def isZero (r : Ratio) : Bool := r.numerator == 0

def atLeast (r : Ratio) (m : Nat) (e : Int) : Bool :=
  if 0 ≤ e then m * Nat.pow 2 e.toNat * r.denominator ≤ r.numerator
  else m * r.denominator ≤ r.numerator * Nat.pow 2 (-e).toNat

def scaleDown (r : Ratio) (e : Int) : Ratio :=
  if 0 ≤ e then ⟨r.numerator, r.denominator * Nat.pow 2 e.toNat⟩
  else ⟨r.numerator * Nat.pow 2 (-e).toNat, r.denominator⟩

def divide (r : Ratio) (e : Int) : Nat × Bool :=
  let s := r.scaleDown e
  (s.numerator / s.denominator, s.numerator % s.denominator != 0)

def roundBy (r : Ratio) (e : Int) : Nat :=
  let s := r.scaleDown e
  let q := s.numerator / s.denominator
  let rest := s.numerator % s.denominator
  if 2 * rest > s.denominator || 2 * rest == s.denominator && q % 2 == 1 then q + 1 else q

def lastPlace (r : Ratio) : Int :=
  let e : Int := (Nat.log2 r.numerator : Int) - Nat.log2 r.denominator - 53
  if r.atLeast 1 (e + 53) then e + 1 else e

/-- Whether `r` exceeds the largest float by half a place or more, where rounding goes up to
infinity. -/
def isHuge (r : Ratio) : Bool := r.atLeast (Nat.pow 2 54 - 1) 970

/-- Whether `r`, rounded to 53 binary digits, still lies below the smallest normal float. -/
def isTiny (r : Ratio) : Bool := !r.atLeast (Nat.pow 2 54 - 1) (-1076)

/-- Whether a tiny fraction is seen not to be a float: the first 53 of its binary digits go beyond
the last place of the floats, or something comes after them. A 54th digit that comes alone is not
seen if its place is `finest` or above. -/
def isInexact (r : Ratio) (finest : Option Int) : Bool :=
  let place := r.lastPlace
  let digits := r.divide place
  let alone := !(r.divide (place - 1)).2 && finest.all fun least => decide (least ≤ place - 1)
  digits.1 % Nat.pow 2 (-1074 - place).toNat != 0 || digits.2 && !alone

/-- The float nearest to a fraction. There is none beyond the largest float, nor for a tiny fraction
that is inexact. -/
def toFloat? (r : Ratio) (finest : Option Int) : Option Float :=
  if r.isZero then some 0
  else if r.isHuge || r.isTiny && r.isInexact finest then none
  else
    let place := max r.lastPlace (-1074)
    some (Float.scaleB (Float.ofNat (r.roundBy place)) place)

end Ratio

/-- Digits of a base with at most one point among them: the number that they stand for without the
point, how many there are, how many of them come after the point, and what follows. -/
structure Digits where
  value : Nat
  count : Nat
  places : Nat
  rest : Text
  deriving DecidableEq, Repr

def digitValue? (base : Nat) (b : UInt8) : Option Nat :=
  let lower := Byte.toLower b
  if Byte.isDigit b then some (Byte.digit b)
  else if base = 16 && 97 ≤ lower && lower ≤ 102 then some (lower.toNat - 87)
  else none

def readDigits (base : Nat) : (point : Bool) → (value count places : Nat) → Text → Digits
  | _, value, count, places, [] => ⟨value, count, places, []⟩
  | point, value, count, places, b :: rest =>
    match digitValue? base b with
    | some d =>
      readDigits base point (base * value + d) (count + 1) (if point then places + 1 else places)
        rest
    | none =>
      if b == 46 && !point then readDigits base true value count places rest
      else ⟨value, count, places, b :: rest⟩

def exponent? (mark : UInt8) (t : Text) : Option Int :=
  match t with
  | [] => some 0
  | b :: rest =>
    if Byte.toLower b != mark then none
    else
      let digits :=
        match rest with
        | 43 :: digits => digits
        | 45 :: digits => digits
        | digits => digits
      if digits.isEmpty || !digits.all Byte.isDigit then none
      else
        let n : Int := Text.digitsValue digits
        some (if rest.head? == some 45 then -n else n)

/-- The number of digits in front of the point beyond which a fraction is far outside the floats,
and of zeros after the point likewise. -/
def farDigits : Int := 5000

def scaled? (base value : Nat) (exponent : Int) : Option Ratio :=
  let size : Int := (Nat.toDigits base value).length + exponent
  if value = 0 then some ⟨0, 1⟩
  else if farDigits < size || size < -farDigits then none
  else if 0 ≤ exponent then some ⟨value * Nat.pow base exponent.toNat, 1⟩
  else some ⟨value, Nat.pow base (-exponent).toNat⟩

/-- The binary place that 1076 decimal places come down to. Of decimal places after these it only
counts that there are any. -/
def finestDecimal : Int := -1076

def magnitude? (t : Text) : Option Float :=
  let hexadecimal := t.head? == some 48 && (t.drop 1).head?.any fun b => Byte.toLower b == 120
  if hexadecimal then
    let d := readDigits 16 false 0 0 0 (t.drop 2)
    if d.count = 0 then none
    else
      (exponent? 112 d.rest).bind fun e =>
        (scaled? 2 d.value (e - 4 * d.places)).bind fun r => r.toFloat? none
  else
    let d := readDigits 10 false 0 0 0 t
    if d.count = 0 then none
    else
      (exponent? 101 d.rest).bind fun e =>
        (scaled? 10 d.value (e - d.places)).bind fun r => r.toFloat? (some finestDecimal)

def float? (t : Text) : Option Float :=
  match t.trimLeft with
  | 45 :: rest => (magnitude? rest).map fun x => -x
  | 43 :: rest => magnitude? rest
  | t => magnitude? t

end Screening.Numeral
