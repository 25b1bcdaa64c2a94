import Screening.Schema.Catalog

namespace Screening.Catalog

def propertyRow (name type : String) : PropertyDecl := ⟨Text.of name, Text.of type, []⟩

/-- A schema by its name, its parents, and what it declares itself. -/
def schemaRow (name : String) (parents : List String) (matchable : Bool)
    (properties : List PropertyDecl) : SchemaDecl :=
  ⟨Text.of name, parents.map Text.of, matchable, properties⟩

def thingDecl : SchemaDecl :=
  schemaRow "Thing" [] false [
    propertyRow "name" "name",
    propertyRow "alias" "name",
    propertyRow "previousName" "name",
    ⟨Text.of "weakAlias", Text.of "name", [Text.of "logic-v1"]⟩,
    propertyRow "country" "country",
    propertyRow "address" "text",
    propertyRow "notes" "text"]

def legalEntityDecl : SchemaDecl :=
  schemaRow "LegalEntity" ["Thing"] true [
    propertyRow "registrationNumber" "identifier",
    propertyRow "taxNumber" "identifier",
    propertyRow "innCode" "identifier",
    propertyRow "ogrnCode" "identifier",
    propertyRow "jurisdiction" "country",
    propertyRow "mainCountry" "country",
    propertyRow "email" "identifier"]

def personDecl : SchemaDecl :=
  schemaRow "Person" ["LegalEntity"] true [
    propertyRow "firstName" "name",
    propertyRow "secondName" "name",
    propertyRow "middleName" "name",
    propertyRow "fatherName" "name",
    propertyRow "lastName" "name",
    propertyRow "birthDate" "date",
    propertyRow "deathDate" "date",
    propertyRow "gender" "gender",
    propertyRow "nationality" "country",
    propertyRow "citizenship" "country",
    propertyRow "birthPlace" "text",
    propertyRow "passportNumber" "identifier"]

def organizationDecl : SchemaDecl :=
  schemaRow "Organization" ["LegalEntity"] true [
    propertyRow "leiCode" "identifier",
    propertyRow "bicCode" "identifier",
    propertyRow "incorporationDate" "date",
    propertyRow "dissolutionDate" "date"]

def companyDecl : SchemaDecl :=
  schemaRow "Company" ["Organization"] true [
    propertyRow "isin" "identifier"]

def publicBodyDecl : SchemaDecl :=
  schemaRow "PublicBody" ["Organization"] true []

def vesselDecl : SchemaDecl :=
  schemaRow "Vessel" ["Thing"] true [
    propertyRow "imoNumber" "identifier",
    propertyRow "mmsi" "identifier",
    propertyRow "callSign" "identifier",
    propertyRow "flag" "country",
    propertyRow "buildDate" "date",
    propertyRow "registrationNumber" "identifier"]

def airplaneDecl : SchemaDecl :=
  schemaRow "Airplane" ["Thing"] true [
    propertyRow "registrationNumber" "identifier",
    propertyRow "serialNumber" "identifier",
    propertyRow "buildDate" "date"]

def addressDecl : SchemaDecl :=
  schemaRow "Address" ["Thing"] true [
    propertyRow "full" "address",
    propertyRow "street" "text",
    propertyRow "city" "text",
    propertyRow "postalCode" "identifier"]

def cryptoWalletDecl : SchemaDecl :=
  schemaRow "CryptoWallet" ["Thing"] true [
    propertyRow "publicKey" "identifier",
    propertyRow "currency" "text"]

def securityDecl : SchemaDecl :=
  schemaRow "Security" ["Thing"] true [
    propertyRow "isin" "identifier",
    propertyRow "ticker" "identifier"]

def builtinDecls : List SchemaDecl := [
  thingDecl, legalEntityDecl, personDecl, organizationDecl, companyDecl, publicBodyDecl, vesselDecl,
  airplaneDecl, addressDecl, cryptoWalletDecl, securityDecl]

def builtinVersion : Text := Text.of "ftm-builtin-1"

def builtin : Catalog :=
  match create builtinVersion builtinDecls with
  | .ok catalog => catalog
  | .error _ => ⟨builtinVersion, []⟩

/-- The declarations are without fault, so the catalog holds all of them. -/
theorem create_builtinDecls : create builtinVersion builtinDecls = .ok builtin := rfl

end Screening.Catalog
