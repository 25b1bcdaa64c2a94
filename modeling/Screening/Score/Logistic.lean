import Screening.Score.NameBased

namespace Screening.Logistic

variable {α : Type} [Scalar α]

def bias : α := -3.5

/-- Sums of evidence are kept within this distance of zero, so that a score never reaches 0 or 1. -/
def maxLogit : α := ((30 : Nat) : α)

/-- The weight of each feature, in the order in which the evidence is summed. -/
def weights : List (Text × α) :=
  [("name.literal", 4.0), ("name.jaro_winkler", 3.0), ("name.phonetic", 1.5),
    ("name.fingerprint", 3.5), ("name.weak_alias", 2.5), ("address.match", 5.5),
    ("crypto.wallet", 7.0), ("identifier.isin", 6.0), ("identifier.lei", 5.5),
    ("identifier.ogrn", 5.5), ("identifier.inn", 5.5), ("identifier.bic", 5.5),
    ("identifier.vessel", 5.5), ("identifier.match", 3.0), ("country.mismatch", -1.5),
    ("last_name.mismatch", -1.5), ("dob.year_mismatch", -1.2), ("dob.day_mismatch", -1.0),
    ("gender.mismatch", -1.5), ("orgid.mismatch", -1.5), ("name.numbers_mismatch", -0.8)].map
    fun (row : String × α) => (Text.of row.1, row.2)

def fullNames (name : String) (weights : NameWeights α) : FeatureDecl α :=
  .similarity name .name NameBased.properties (.ofWeights weights)

def byLiteral : NameWeights α := { (NameWeights.zero : NameWeights α) with literal := 1 }

def byJaroWinkler : NameWeights α := { (NameWeights.zero : NameWeights α) with jaroWinkler := 1 }

def bySound : NameWeights α := { (NameWeights.zero : NameWeights α) with phonetic := 1 }

def byFingerprint : NameWeights α := { (NameWeights.zero : NameWeights α) with levenshtein := 1 }

def byTokens : NameWeights α := { (NameWeights.zero : NameWeights α) with sharedTokens := 1 }

def weakAlias : FeatureDecl α :=
  { FeatureDecl.similarity "name.weak_alias" .name ["name", "alias"] (.ofWeights byLiteral) with
    counterparts := [Text.of "weakAlias"] }

def foreignNumbers : FeatureDecl α :=
  { FeatureDecl.similarity "name.numbers_mismatch" .name ["name", "alias"] .usual with
    kind := .foreignNumbers }

def identifiers (name : String) (properties : List String) (scheme : IdentifierScheme)
    (minLength : Nat) : FeatureDecl α :=
  .similarity name .identifier properties (.ofScheme scheme minLength)

def supporting : List (FeatureDecl α) := [
  fullNames "name.literal" byLiteral,
  (fullNames "name.jaro_winkler" byJaroWinkler).within .either "Person",
  (fullNames "name.phonetic" bySound).within .either "Person",
  (fullNames "name.fingerprint" byFingerprint).within .neither "Person",
  weakAlias,
  (FeatureDecl.similarity "address.match" .address ["full"] .usual).within .both "Address",
  (identifiers "crypto.wallet" ["publicKey"] .any 10).within .both "CryptoWallet",
  identifiers "identifier.isin" ["isin"] .isin 1,
  identifiers "identifier.lei" ["leiCode"] .lei 1,
  identifiers "identifier.ogrn" ["ogrnCode"] .ogrn 1,
  identifiers "identifier.inn" ["innCode"] .inn 1,
  identifiers "identifier.bic" ["bicCode"] .bic 1,
  identifiers "identifier.vessel" ["imoNumber", "mmsi"] .vessel 1,
  identifiers "identifier.match" ["registrationNumber", "taxNumber", "passportNumber"] .any 5]

def opposing : List (FeatureDecl α) := [
  .disagreement "country.mismatch" .country [] .usual,
  (FeatureDecl.disagreement "last_name.mismatch" .name ["lastName"]
    (.ofWeights byTokens)).within .either "Person",
  (FeatureDecl.disagreement "dob.year_mismatch" .date ["birthDate"]
    (.ofPrecision .year)).within .either "Person",
  (FeatureDecl.disagreement "dob.day_mismatch" .date ["birthDate"]
    (.ofPrecision .day)).within .either "Person",
  .disagreement "gender.mismatch" .gender ["gender"] .usual,
  (FeatureDecl.disagreement "orgid.mismatch" .identifier
    ["registrationNumber", "taxNumber", "leiCode", "innCode", "ogrnCode", "bicCode"]
    .usual).within .both "Organization",
  foreignNumbers]

def features : List (FeatureDecl α) := supporting ++ opposing

/-- A line for each weight; a feature that is not present contributes nothing. -/
def line (evidence : Evidence α) (w : Text × α) : ScoreLine α :=
  match evidence.present? w.1 with
  | some f =>
    let value := Scalar.clamp f.value
    ⟨w.1, value, w.2, w.2 * value, f.presence⟩
  | none => ⟨w.1, 0, w.2, 0, evidence.presence w.1⟩

def lines (evidence : Evidence α) : List (ScoreLine α) := weights.map (line evidence)

def logit (evidence : Evidence α) : α :=
  (lines evidence).foldl (fun sum line => sum + line.change) bias

/-- Whether a feature with a positive weight is present. -/
def hasEvidence (evidence : Evidence α) : Bool :=
  weights.any fun (w : Text × α) => evidence.isPresent w.1 && decide (0 < w.2)

def logistic (x : α) : α := 1 / (1 + Scalar.exp (-x))

def bounded (x : α) : α :=
  if x < -maxLogit then -maxLogit else if maxLogit < x then maxLogit else x

/-- Without a present feature of positive weight there is nothing to go by, and the score is 0. -/
def score (evidence : Evidence α) : ExplainedScore α :=
  if hasEvidence evidence then
    ⟨logistic (bounded (logit evidence)), lines evidence, false⟩
  else ⟨0, lines evidence, true⟩

end Screening.Logistic
