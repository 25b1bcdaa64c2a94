import Screening.Text.Words

namespace Screening.Country

def regions : List (Text × List Text) :=
  [("su", ["ru", "ua", "by", "kz", "uz", "ge", "az", "lt", "lv", "ee", "md", "kg", "tj", "am",
      "tm"]),
    ("yu", ["rs", "me", "hr", "si", "ba", "mk"]),
    ("yucs", ["rs", "me"]),
    ("csxx", ["rs", "me"]),
    ("cshh", ["cz", "sk"]),
    ("ddde", ["de"]),
    ("eu", ["at", "be", "bg", "hr", "cy", "cz", "dk", "ee", "fi", "fr", "de", "gr", "hu", "ie",
      "it", "lv", "lt", "lu", "mt", "nl", "pl", "pt", "ro", "sk", "si", "es", "se"])].map
    fun region => (Text.of region.1, region.2.map Text.of)

def parent (code : Text) : Text := code.takeWhile (· != 45)

/-- The code in lower case: two letters, two letters with a subdivision after a dash, or a region.
The code uk by itself means gb. -/
def canonical? (t : Text) : Option Text :=
  let code := t.trim.lower
  let head := parent code
  let wellFormed :=
    match code.drop head.length with
    | [] => head.length == 2 || regions.any (·.1 == head)
    | _ :: subdivision =>
      head.length == 2 && !subdivision.isEmpty && subdivision.all Byte.isAlphanum
  if 2 ≤ code.length && !head.isEmpty && head.all Byte.isAlpha && wellFormed then
    some (if code == Text.of "uk" then Text.of "gb" else code)
  else none

def within (region member : Text) : Bool :=
  regions.any fun r => r.1 == region && r.2.contains (parent member)

/-- Whether one code is the country of the other or a region with the other in it. -/
def related (q c : Text) : Bool :=
  parent q == c || parent c == q || within q c || within c q

end Screening.Country
