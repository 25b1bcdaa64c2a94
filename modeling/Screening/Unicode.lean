import Screening.Text

namespace Screening

abbrev CodePoint := UInt32

/-- What a system can do with text beyond ASCII. Compatibility decomposition may fail on a text, and
there may be no conversion to Latin script at all. -/
structure Unicode where
  decode : Text → List CodePoint
  encode : List CodePoint → Text
  decompose : List CodePoint → Option (List CodePoint)
  isNonspacingMark : CodePoint → Bool
  foldCase : List CodePoint → List CodePoint
  toLatin : Option (List CodePoint → List CodePoint)

namespace Unicode

def foldPoints (unicode : Unicode) (s : List CodePoint) : List CodePoint :=
  unicode.foldCase (((unicode.decompose s).getD s).filter fun c => !unicode.isNonspacingMark c)

def fold (unicode : Unicode) (t : Text) : Text :=
  if t.isAscii then t.lower else unicode.encode (unicode.foldPoints (unicode.decode t))

/-- Folds what a text is converted to, or the text itself where there is no conversion. -/
def foldLatin (unicode : Unicode) (t : Text) : Text :=
  if t.isAscii then t.lower
  else
    match unicode.toLatin with
    | none => unicode.fold t
    | some toLatin => unicode.encode (unicode.foldPoints (toLatin (unicode.decode t)))

/-- A system that knows no more than ASCII: each byte is a character, and none is a mark. -/
def ascii : Unicode where
  decode t := t.map UInt8.toUInt32
  encode s := s.map UInt32.toUInt8
  decompose := some
  isNonspacingMark _ := false
  foldCase s := s.map fun c => (Byte.toLower c.toUInt8).toUInt32
  toLatin := none

end Unicode

end Screening
