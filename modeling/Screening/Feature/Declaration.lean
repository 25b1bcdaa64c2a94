import Screening.Comparison
import Screening.Schema.Catalog

namespace Screening

/-- What a feature says: how alike the values are, how far they disagree, or which share of the
query's numbers the candidate lacks. -/
inductive FeatureKind
  | similarity
  | disagreement
  | foreignNumbers
  deriving DecidableEq, Repr

inductive ScopeKind
  | any
  | either
  | neither
  | both
  deriving DecidableEq, Repr

structure FeatureScope where
  kind : ScopeKind
  schema : Text
  deriving DecidableEq, Repr

namespace FeatureScope

def any : FeatureScope := ⟨.any, []⟩

/-- Whether a scope takes in a pair of schemas; no schema is or inherits from the empty name. -/
def includes (scope : FeatureScope) (catalog : Catalog) (query candidate : Text) : Bool :=
  let isOne (schema : Text) : Bool := !scope.schema.isEmpty && catalog.descends schema scope.schema
  match scope.kind with
  | .any => true
  | .either => isOne query || isOne candidate
  | .neither => !isOne query && !isOne candidate
  | .both => isOne query && isOne candidate

end FeatureScope

/-- A feature without properties reads all properties of its type. The candidate's properties are
those of the query unless they are given. -/
structure FeatureDecl (α : Type) where
  name : Text
  type : ValueType
  properties : List Text
  counterparts : List Text
  kind : FeatureKind
  scope : FeatureScope
  rules : ComparisonRules α
  deriving Repr

namespace FeatureDecl

variable {α : Type}

def similarity (name : String) (type : ValueType) (properties : List String)
    (rules : ComparisonRules α) : FeatureDecl α :=
  ⟨Text.of name, type, properties.map Text.of, [], .similarity, .any, rules⟩

def disagreement (name : String) (type : ValueType) (properties : List String)
    (rules : ComparisonRules α) : FeatureDecl α :=
  ⟨Text.of name, type, properties.map Text.of, [], .disagreement, .any, rules⟩

def within (d : FeatureDecl α) (kind : ScopeKind) (schema : String) : FeatureDecl α :=
  { d with scope := ⟨kind, Text.of schema⟩ }

end FeatureDecl

end Screening
