import Screening.Sorting

namespace Screening

/-- Text is a sequence of bytes: lengths, positions and orderings are over bytes. -/
abbrev Text := List UInt8

namespace Byte

/-- Space, tab, line feed, vertical tab, form feed and carriage return. -/
def isWhitespace (b : UInt8) : Bool := b == 32 || (9 ≤ b && b ≤ 13)

def isDigit (b : UInt8) : Bool := 48 ≤ b && b ≤ 57

def isUpper (b : UInt8) : Bool := 65 ≤ b && b ≤ 90

def isLower (b : UInt8) : Bool := 97 ≤ b && b ≤ 122

def isAlpha (b : UInt8) : Bool := isUpper b || isLower b

def isAlphanum (b : UInt8) : Bool := isAlpha b || isDigit b

/-- A byte of a word: an ASCII letter or digit, or any byte of a multi-byte character. -/
def isWord (b : UInt8) : Bool := 128 ≤ b || isAlphanum b

def toLower (b : UInt8) : UInt8 := if isUpper b then b + 32 else b

def toUpper (b : UInt8) : UInt8 := if isLower b then b - 32 else b

def digit (b : UInt8) : Nat := b.toNat - 48

end Byte

namespace Text

def of (s : String) : Text := s.toUTF8.data.toList

def isAscii (t : Text) : Bool := t.all (· < 128)

def lower (t : Text) : Text := t.map Byte.toLower

/-- A decimal reading that passes over everything but the value of each digit. -/
def digitsValue (t : Text) : Nat := t.foldl (fun n b => 10 * n + Byte.digit b) 0

def join (separator : Text) (parts : List Text) : Text := separator.intercalate parts

def beforeNul (t : Text) : Text := t.takeWhile (· != 0)

def holds (t part : Text) : Bool :=
  part.isPrefixOf t || match t with
    | [] => false
    | _ :: rest => holds rest part

/-- Bytewise order, unsigned. -/
def precedes (s t : Text) : Bool := decide (s < t)

def sort (ts : List Text) : List Text := Sorting.sort (fun s t => !precedes t s) ts

def distinct : List Text → List Text
  | [] => []
  | t :: ts => t :: (distinct ts).filter (· != t)

/-- The different texts of a list in bytewise ascending order. -/
def ascending (ts : List Text) : List Text := sort (distinct ts)

end Text

end Screening
