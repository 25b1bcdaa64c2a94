import Screening.Text

namespace Screening.Text

/-- Keeps the word bytes. A byte in `breaks` that is no word byte leaves a space owed, which is paid
before the next word byte unless no word byte has come yet. -/
def cleanFrom (breaks : UInt8 → Bool) : (begun owed : Bool) → Text → Text
  | _, _, [] => []
  | begun, owed, b :: rest =>
    if Byte.isWord b then
      if begun && owed then 32 :: b :: cleanFrom breaks true false rest
      else b :: cleanFrom breaks true false rest
    else cleanFrom breaks begun (owed || breaks b) rest

def dropPunctuation (t : Text) : Text := cleanFrom Byte.isWhitespace false false t

def spacePunctuation (t : Text) : Text := cleanFrom (fun _ => true) false false t

/-- The maximal runs of bytes in a class, where `run` is the run that is open. -/
def runsFrom (inside : UInt8 → Bool) (run : Text) : Text → List Text
  | [] => if run.isEmpty then [] else [run]
  | b :: rest =>
    if inside b then runsFrom inside (run ++ [b]) rest
    else if run.isEmpty then runsFrom inside [] rest
    else run :: runsFrom inside [] rest

def words (t : Text) : List Text := runsFrom (fun b => !Byte.isWhitespace b) [] t

def numerals (t : Text) : List Text := runsFrom Byte.isDigit [] t

def withoutSpaces (t : Text) : Text := t.filter fun b => !Byte.isWhitespace b

/-- The number of bytes that do not continue a multi-byte character. -/
def characterCount (t : Text) : Nat := t.countP fun b => b &&& 0xC0 != 0x80

/-- The texts between the occurrences of a byte; there is one more of them than of the byte. -/
def pieces (separator : UInt8) : Text → List Text
  | [] => [[]]
  | b :: rest =>
    if b == separator then [] :: pieces separator rest
    else
      match pieces separator rest with
      | [] => [[b]]
      | piece :: others => (b :: piece) :: others

def trimLeft (t : Text) : Text := t.dropWhile Byte.isWhitespace

def trimRight (t : Text) : Text := (t.reverse.dropWhile Byte.isWhitespace).reverse

def trim (t : Text) : Text := trimRight (trimLeft t)

end Screening.Text
