import Screening.Algorithm
import Screening.ValueType

namespace Screening

/-- A property declared by the name of its type. Without algorithms it is for all of them. -/
structure PropertyDecl where
  name : Text
  type : Text
  algorithms : List Text
  deriving DecidableEq, Repr

/-- A schema inherits from its parents; one that is not matchable is never a candidate. -/
structure SchemaDecl where
  name : Text
  parents : List Text
  matchable : Bool
  properties : List PropertyDecl
  deriving DecidableEq, Repr

structure TypedProperty where
  name : Text
  type : ValueType
  algorithms : List Algorithm
  deriving DecidableEq, Repr

namespace TypedProperty

def isFor (property : TypedProperty) (algorithm : Algorithm) : Bool :=
  property.algorithms.isEmpty || property.algorithms.contains algorithm

end TypedProperty

inductive CatalogFault
  | unnamed
  | duplicate (schema : Text)
  | noSuchParent (schema parent : Text)
  | unsupportedType (schema property type : Text)
  | noSuchAlgorithm (schema property algorithm : Text)
  | cycle (schema : Text)
  deriving DecidableEq, Repr

namespace CatalogFault

def kind : CatalogFault → FailureKind
  | noSuchParent .. => .noSuchSchema
  | unsupportedType .. => .unsupportedType
  | _ => .badConfiguration

def message : CatalogFault → Text
  | unnamed => Text.of "schema without a name"
  | duplicate schema => Text.of "duplicate schema '" ++ schema ++ Text.of "'"
  | noSuchParent schema parent =>
    Text.of "schema '" ++ schema ++ Text.of "' extends unknown '" ++ parent ++ Text.of "'"
  | unsupportedType schema property type =>
    Text.of "no comparator for property " ++ schema ++ Text.of "." ++ property ++
      Text.of " of type '" ++ type ++ Text.of "'"
  | noSuchAlgorithm schema property algorithm =>
    Text.of "property " ++ schema ++ Text.of "." ++ property ++ Text.of ": " ++
      Algorithm.unknownMessage algorithm
  | cycle schema => Text.of "inheritance cycle through schema '" ++ schema ++ Text.of "'"

def failure (fault : CatalogFault) : Failure := .of fault.kind fault.message

end CatalogFault

end Screening
