import Screening.Alignment
import Screening.Entity
import Screening.Feature.Declaration
import Screening.Feature.Evidence

namespace Screening

/-- What is known of names so far: prepared names by side and list of properties, and tables of
resemblances by both lists. Lists of properties are told apart by their names joined with commas. -/
structure NameMemo (α : Type) where
  queryNames : List (Text × List NameForms)
  candidateNames : List (Text × List NameForms)
  tables : List (Text × List (List (Option (NameResemblance α))))

namespace NameMemo

variable {α : Type} [Scalar α]

def empty : NameMemo α := ⟨[], [], []⟩

def key (properties : List Text) : Text := Text.join [44] properties

def tableKey (query candidate : Text) : Text := query ++ 124 :: candidate

def prepared (normalizer : Normalizer) (names : List (Text × List NameForms)) (key : Text)
    (values : List Text) :
    Except Interruption (List NameForms × List (Text × List NameForms)) :=
  match names.lookup key with
  | some prepared => .ok (prepared, names)
  | none => do
    let prepared ← values.mapM (NameForms.prepare normalizer)
    return (prepared, (key, prepared) :: names)

def resemblances (q c : List NameForms) : List (List (Option (NameResemblance α))) :=
  q.map fun s => c.map fun t => NameResemblance.compare s t

def table (memo : NameMemo α) (normalizer : Normalizer) (queryKey : Text) (query : List Text)
    (candidateKey : Text) (candidate : List Text) :
    Except Interruption (List (List (Option (NameResemblance α))) × NameMemo α) :=
  match memo.tables.lookup (tableKey queryKey candidateKey) with
  | some table => .ok (table, memo)
  | none => do
    let (q, queryNames) ← prepared normalizer memo.queryNames queryKey query
    let (c, candidateNames) ← prepared normalizer memo.candidateNames candidateKey candidate
    let table := resemblances q c
    let tables := (tableKey queryKey candidateKey, table) :: memo.tables
    return (table, { queryNames, candidateNames, tables })

end NameMemo

namespace Feature

variable {α : Type} [Scalar α]

def isBlank (value : Text) : Bool := value.all fun b => [32, 9, 13, 10].contains b

def meaningful (values : List Text) : List Text := values.filter fun v => !isBlank v

/-- The properties of a schema that a feature reads: those asked for that the algorithm considers,
or all of the feature's type if none is asked for. -/
def propertiesRead (catalog : Catalog) (schema : Text) (type : ValueType)
    (requested : List Text) (algorithm : Algorithm) : List Text :=
  if requested.isEmpty then catalog.namesOfType schema type algorithm
  else
    requested.filter fun name =>
      (catalog.property? schema name).any fun p => p.isFor algorithm

/-- The schema on which properties are looked up: the candidate's if it is the query's or inherits
from it, else the query's. -/
def lookupSchema (catalog : Catalog) (query candidate : Text) : Text :=
  if catalog.descends candidate query then candidate else query

def numbers (values : List Text) : List Text := Text.distinct (values.flatMap Text.numerals)

/-- The share of the query's numbers that the candidate lacks, by the shorter of the two lists. -/
def foreignNumbers (query candidate : List Text) : Option α :=
  let left := numbers query
  let right := numbers candidate
  if left.isEmpty then none
  else
    some (Scalar.clamp (Scalar.share (left.countP fun n => !right.contains n)
      (max 1 (min left.length right.length))))

def missing (name : Text) : Feature α := ⟨name, 0, .missing, 0⟩

/-- The feature of a table of similarities, of which some may be absent. The table is read as one of
`rows` rows and `columns` columns. -/
def ofSimilarities (aligner : Aligner α) (d : FeatureDecl α) (rows columns : Nat)
    (similarities : List (List (Option α))) : Feature α :=
  if similarities.all fun row => row.all Option.isNone then ⟨d.name, 0, .ignored, 0⟩
  else
    let alignment := aligner.align rows columns fun q c =>
      (((similarities.getD q []).getD c none).getD 0)
    let value :=
      match d.kind with
      | .disagreement => 1 - alignment.best
      | _ => alignment.aggregate
    ⟨d.name, value, .present, alignment.pairs.length⟩

def compareAll (normalizer : Normalizer) (d : FeatureDecl α) (query candidate : List Text) :
    Except Interruption (List (List (Option α))) :=
  query.mapM fun q => candidate.mapM fun c => Comparison.compare normalizer d.rules d.type q c

structure Reading where
  queryProperties : List Text
  query : List Text
  counterparts : List Text
  candidate : List Text

/-- The properties and values that a feature reads. The candidate's properties are resolved only if
they are declared apart. -/
def read (catalog : Catalog) (algorithm : Algorithm) (query candidate : Entity)
    (d : FeatureDecl α) : Reading :=
  let schema := lookupSchema catalog query.schema candidate.schema
  let queryProperties := propertiesRead catalog schema d.type d.properties algorithm
  let counterparts :=
    if d.counterparts.isEmpty then queryProperties
    else propertiesRead catalog schema d.type d.counterparts algorithm
  { queryProperties
    query := meaningful (query.gather queryProperties)
    counterparts
    candidate := meaningful (candidate.gather counterparts) }

def evaluate (normalizer : Normalizer) (aligner : Aligner α) (catalog : Catalog)
    (algorithm : Algorithm) (query candidate : Entity) (d : FeatureDecl α) (memo : NameMemo α) :
    Except Interruption (Feature α × NameMemo α) :=
  let r := read catalog algorithm query candidate d
  if !d.scope.includes catalog query.schema candidate.schema || r.query.isEmpty ||
      r.candidate.isEmpty then
    .ok (missing d.name, memo)
  else
    let finish (similarities : List (List (Option α))) : Feature α :=
      ofSimilarities aligner d r.query.length r.candidate.length similarities
    match d.kind, d.type with
    | .foreignNumbers, _ =>
      match foreignNumbers r.query r.candidate with
      | none => .ok (missing d.name, memo)
      | some value => .ok (⟨d.name, value, .present, 0⟩, memo)
    | _, .name => do
      let (table, memo) ← memo.table normalizer (NameMemo.key r.queryProperties) r.query
        (NameMemo.key r.counterparts) r.candidate
      return (finish (table.map fun row => row.map fun resemblance =>
        resemblance.map d.rules.weights.apply), memo)
    | _, _ => do
      let similarities ← compareAll normalizer d r.query r.candidate
      return (finish similarities, memo)

def evaluateFrom (normalizer : Normalizer) (aligner : Aligner α) (catalog : Catalog)
    (algorithm : Algorithm) (query candidate : Entity) :
    List (FeatureDecl α) → NameMemo α → Except Interruption (Evidence α)
  | [], _ => .ok []
  | d :: ds, memo => do
    let (feature, memo) ← evaluate normalizer aligner catalog algorithm query candidate d memo
    let rest ← evaluateFrom normalizer aligner catalog algorithm query candidate ds memo
    return feature :: rest

end Feature

def Evidence.build {α : Type} [Scalar α] (normalizer : Normalizer) (aligner : Aligner α)
    (catalog : Catalog) (algorithm : Algorithm) (decls : List (FeatureDecl α))
    (query candidate : Entity) : Except Interruption (Evidence α) :=
  Feature.evaluateFrom normalizer aligner catalog algorithm query candidate decls NameMemo.empty

end Screening
