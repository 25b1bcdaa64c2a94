import Screening.Normalizer
import Screening.Phonetic.Metaphone
import Screening.Phonetic.Soundex
import Screening.Replacement.Tables
import Screening.Text.Words

namespace Screening

/-- A name as given and its cleaned form: normalized, without punctuation. -/
structure NameForms where
  given : Text
  cleaned : Text
  deriving DecidableEq, Repr

namespace NameForms

def prepare (normalizer : Normalizer) (value : Text) : Except Interruption NameForms :=
  (normalizer.normalize value).map fun t => ⟨value, t.dropPunctuation⟩

def isEmpty (name : NameForms) : Bool := name.cleaned.isEmpty

def tokens (name : NameForms) : List Text := name.cleaned.words

def parts (name : NameForms) : List Text := name.tokens.filter fun t => 1 < t.length

def soundexes (name : NameForms) : List Text := name.parts.map Phonetic.soundex

/-- The sound of a part; a key of less than three bytes tells too little and is left empty. -/
def soundKey (part : Text) : Text :=
  let key := Phonetic.metaphone part Phonetic.keyLength
  if key.length < 3 then [] else key

def metaphones (name : NameForms) : List Text := name.parts.map soundKey

/-- The cleaned name without forms of address and with legal forms abbreviated. -/
def fingerprint (name : NameForms) : Text :=
  (Replacer.legalForms.apply (Replacer.honorifics.apply name.cleaned)).dropPunctuation

end NameForms

end Screening
