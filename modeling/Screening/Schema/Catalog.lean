import Screening.Schema.Declaration

namespace Screening

/-- A schema with itself and its ancestors in the order of their discovery, and with the properties
that it declares or inherits. -/
structure Schema where
  name : Text
  matchable : Bool
  lineage : List Text
  properties : List TypedProperty
  deriving DecidableEq, Repr

structure Catalog where
  version : Text
  schemas : List Schema
  deriving DecidableEq, Repr

namespace Catalog

def checkNames : (seen : List Text) → List SchemaDecl → Except CatalogFault Unit
  | _, [] => .ok ()
  | seen, d :: ds =>
    if d.name.isEmpty then .error .unnamed
    else if seen.contains d.name then .error (.duplicate d.name)
    else checkNames (d.name :: seen) ds

def resolveAlgorithm (schema property name : Text) : Except CatalogFault Algorithm :=
  match Algorithm.ofName? name with
  | some algorithm => .ok algorithm
  | none => .error (.noSuchAlgorithm schema property name)

def resolveProperty (schema : Text) (d : PropertyDecl) : Except CatalogFault TypedProperty :=
  match ValueType.ofLabel? d.type with
  | none => .error (.unsupportedType schema d.name d.type)
  | some type =>
    (d.algorithms.mapM (resolveAlgorithm schema d.name)).map fun algorithms =>
      ⟨d.name, type, algorithms⟩

def resolveOwn (known : List Text) (d : SchemaDecl) : Except CatalogFault (List TypedProperty) :=
  match d.parents.find? fun parent => !known.contains parent with
  | some parent => .error (.noSuchParent d.name parent)
  | none => d.properties.mapM (resolveProperty d.name)

/-- Walks from a schema to its parents, depth first, and adds what is new to the lineage. There is
no lineage if a schema comes up again on the path that leads to it, or if the path grows longer than
`depth`. -/
def walk (parents : Text → List Text) : (depth : Nat) → (path lineage : List Text) → Text →
    Option (List Text)
  | 0, _, _, _ => none
  | depth + 1, path, lineage, schema =>
    if path.contains schema then none
    else if lineage.contains schema then some lineage
    else
      (parents schema).foldlM
        (fun lineage parent => walk parents depth (schema :: path) lineage parent)
        (lineage ++ [schema])

/-- The first property of each name. -/
def nearest : List TypedProperty → List TypedProperty
  | [] => []
  | p :: ps => p :: (nearest ps).filter fun q => q.name != p.name

def entryOf {β : Type} (entries : List (Text × List β)) (schema : Text) : List β :=
  (entries.lookup schema).getD []

def resolveSchema (decls : List SchemaDecl) (own : List (Text × List TypedProperty))
    (d : SchemaDecl) : Except CatalogFault Schema :=
  let parents := entryOf (decls.map fun d => (d.name, d.parents))
  match walk parents (decls.length + 1) [] [] d.name with
  | none => .error (.cycle d.name)
  | some lineage => .ok ⟨d.name, d.matchable, lineage, nearest (lineage.flatMap (entryOf own))⟩

/-- Names are checked first, then parents and properties schema by schema, then inheritance. -/
def create (version : Text) (decls : List SchemaDecl) : Except CatalogFault Catalog := do
  checkNames [] decls
  let known := decls.map SchemaDecl.name
  let own ← decls.mapM fun d => (resolveOwn known d).map fun properties => (d.name, properties)
  let schemas ← decls.mapM (resolveSchema decls own)
  return ⟨version, schemas⟩

def find? (catalog : Catalog) (schema : Text) : Option Schema :=
  catalog.schemas.find? fun s => s.name == schema

def contains (catalog : Catalog) (schema : Text) : Bool := (catalog.find? schema).isSome

def canBeCandidate (catalog : Catalog) (schema : Text) : Bool :=
  (catalog.find? schema).any Schema.matchable

def descends (catalog : Catalog) (schema ancestor : Text) : Bool :=
  (catalog.find? schema).any fun s => s.lineage.contains ancestor

/-- Whether a query's and a matchable candidate's schema belong to one line of descent. -/
def inOneLine (catalog : Catalog) (query candidate : Text) : Bool :=
  catalog.contains query && catalog.canBeCandidate candidate &&
    (catalog.descends candidate query || catalog.descends query candidate)

def properties (catalog : Catalog) (schema : Text) : List TypedProperty :=
  ((catalog.find? schema).map Schema.properties).getD []

def property? (catalog : Catalog) (schema name : Text) : Option TypedProperty :=
  (catalog.properties schema).find? fun p => p.name == name

def namesOfType (catalog : Catalog) (schema : Text) (type : ValueType)
    (algorithm : Algorithm) : List Text :=
  ((catalog.properties schema).filter fun p =>
    p.type == type && p.isFor algorithm).map TypedProperty.name

def names (catalog : Catalog) : List Text := Text.sort (catalog.schemas.map Schema.name)

end Catalog

/-- The place that holds the catalog in force, if there is one. -/
structure CatalogSlot where
  current : Option Catalog
  deriving DecidableEq, Repr

namespace CatalogSlot

def install (_handle : CatalogSlot) : Option Catalog → Outcome CatalogSlot
  | none => .error (.of .badArgument (Text.of "cannot install an empty catalog"))
  | some catalog => .ok ⟨some catalog⟩

end CatalogSlot

end Screening
