import Screening.Failure

namespace Screening

/-- Names alone, names with bounded qualifiers, or a logistic model over all evidence. -/
inductive Algorithm
  | nameBased
  | nameQualified
  | logistic
  deriving DecidableEq, Repr

namespace Algorithm

def name : Algorithm → Text
  | nameBased => Text.of "name-based"
  | nameQualified => Text.of "name-qualified"
  | logistic => Text.of "logic-v1"

def all : List Algorithm := [nameBased, nameQualified, logistic]

def ofName? (t : Text) : Option Algorithm := all.find? fun algorithm => algorithm.name == t

def unknownMessage (t : Text) : Text := Text.of "unknown algorithm '" ++ t ++ Text.of "'"

def ofName (t : Text) : Outcome Algorithm :=
  match ofName? t with
  | some algorithm => .ok algorithm
  | none => .error (.of .noSuchAlgorithm (unknownMessage t))

end Algorithm

end Screening
