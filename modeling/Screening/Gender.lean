import Screening.Text.Words

namespace Screening

inductive Gender
  | male
  | female
  | other
  deriving DecidableEq, Repr

namespace Gender

def name : Gender → Text
  | male => Text.of "male"
  | female => Text.of "female"
  | other => Text.of "other"

def words : Gender → List Text
  | male => ["male", "m", "man"].map Text.of
  | female => ["female", "f", "woman"].map Text.of
  | other => ["other", "x", "diverse"].map Text.of

/-- The gender that a word, in either case, stands for. -/
def ofText? (t : Text) : Option Gender :=
  [male, female, other].find? fun g => g.words.contains t.trim.lower

end Gender

end Screening
