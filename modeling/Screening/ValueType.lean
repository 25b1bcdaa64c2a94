import Screening.Text

namespace Screening

/-- What the values of a property are, which tells how they are compared. -/
inductive ValueType
  | name
  | date
  | country
  | identifier
  | text
  | gender
  | address
  deriving DecidableEq, Repr

namespace ValueType

def label : ValueType → Text
  | name => Text.of "name"
  | date => Text.of "date"
  | country => Text.of "country"
  | identifier => Text.of "identifier"
  | text => Text.of "text"
  | gender => Text.of "gender"
  | address => Text.of "address"

def all : List ValueType := [name, date, country, identifier, text, gender, address]

def ofLabel? (t : Text) : Option ValueType := all.find? fun type => type.label == t

end ValueType

end Screening
