import Screening.Text

namespace Screening

/-- The kinds of numbers that can be checked. Those of vessels come in two kinds, and `vessel` takes
either. -/
inductive IdentifierScheme
  | any
  | lei
  | isin
  | ogrn
  | inn
  | bic
  | imo
  | mmsi
  | vessel
  deriving DecidableEq, Repr

namespace Identifier

def clean (t : Text) : Text := (t.filter Byte.isAlphanum).map Byte.toUpper

def isNumeral (t : Text) : Bool := !t.isEmpty && t.all Byte.isDigit

/-- The value of a digit, or of a letter counted on from ten in either case. -/
def value (b : UInt8) : Nat :=
  if Byte.isDigit b then Byte.digit b else (Byte.toUpper b).toNat - 55

def weightedSum (weights : List Nat) (t : Text) : Nat :=
  (t.zip weights).foldl (fun sum p => sum + Byte.digit p.1 * p.2) 0

def hasDigitAt (t : Text) (i : Nat) (n : Nat) : Bool := t[i]?.any fun b => Byte.digit b == n

/-- Thirteen digits, of which the last is the rest modulo 11 of the number before it. -/
def isOgrn (t : Text) : Bool :=
  t.length == 13 && isNumeral t && hasDigitAt t 12 (Text.digitsValue (t.take 12) % 11 % 10)

def isInn (t : Text) : Bool :=
  isNumeral t &&
    (t.length == 10 && hasDigitAt t 9 (weightedSum [2, 4, 10, 3, 5, 9, 4, 6, 8] t % 11 % 10) ||
      t.length == 12 && hasDigitAt t 10 (weightedSum [7, 2, 4, 10, 3, 5, 9, 4, 6, 8] t % 11 % 10) &&
        hasDigitAt t 11 (weightedSum [3, 7, 2, 4, 10, 3, 5, 9, 4, 6, 8] t % 11 % 10))

def isMmsi (t : Text) : Bool := t.length == 9 && isNumeral t

def vesselDigits (t : Text) : Text :=
  if t.length > 3 && (t.take 3 == Text.of "IMO" || t.take 3 == Text.of "imo") then t.drop 3 else t

/-- Seven digits, of which the last is the last digit of the weighted sum of the others. -/
def isImo (t : Text) : Bool :=
  let digits := vesselDigits t
  digits.length == 7 && isNumeral digits &&
    hasDigitAt digits 6 (weightedSum [7, 6, 5, 4, 3, 2] digits % 10)

def isBic (t : Text) : Bool :=
  (t.length == 8 || t.length == 11) && (t.take 6).all Byte.isAlpha && (t.drop 6).all Byte.isAlphanum

def expand (b : UInt8) : List Nat :=
  let n := value b
  if n < 10 then [n] else [n / 10, n % 10]

def doubled (d : Nat) : Nat := if 2 * d > 9 then 2 * d - 9 else 2 * d

/-- The sum of digits of which every other one is doubled, from the first or the second on. -/
def luhnSum : (doubling : Bool) → List Nat → Nat
  | _, [] => 0
  | doubling, d :: ds => (if doubling then doubled d else d) + luhnSum (!doubling) ds

def isLuhn (digits : List Nat) : Bool := luhnSum false digits.reverse % 10 == 0

def isIsin (t : Text) : Bool :=
  t.length == 12 && (t.take 2).all Byte.isAlpha && ((t.drop 2).take 9).all Byte.isAlphanum &&
    (t.drop 11).all Byte.isDigit && isLuhn (t.flatMap expand)

/-- The rest modulo 97 of the decimal number with each letter written as its value. -/
def restModulo97 (t : Text) : Nat :=
  t.foldl (fun rest b =>
    let n := value b
    if n < 10 then (rest * 10 + n) % 97 else (rest * 100 + n) % 97) 0

def isLei (t : Text) : Bool :=
  t.length == 20 && t.all Byte.isAlphanum && isNumeral (t.drop 18) && restModulo97 t == 1

end Identifier

namespace IdentifierScheme

def accepts : IdentifierScheme → Text → Bool
  | any, _ => true
  | lei, t => Identifier.isLei t
  | isin, t => Identifier.isIsin t
  | ogrn, t => Identifier.isOgrn t
  | inn, t => Identifier.isInn t
  | bic, t => Identifier.isBic t
  | imo, t => Identifier.isImo t
  | mmsi, t => Identifier.isMmsi t
  | vessel, t => Identifier.isImo t || Identifier.isMmsi t

end IdentifierScheme

end Screening
