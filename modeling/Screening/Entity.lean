import Screening.Text

namespace Screening

/-- Values under a name, in the order of the source data and with repetitions. -/
structure Property where
  name : Text
  values : List Text
  deriving DecidableEq, Repr

/-- The names of properties are all different in an entity made by `Entity.ofEntries`. -/
structure Entity where
  id : Text
  schema : Text
  properties : List Property
  deriving DecidableEq, Repr

namespace Entity

/-- Adds values to the property of a name, or adds the property at the end. -/
def addValues (name : Text) (values : List Text) : List Property → List Property
  | [] => [⟨name, values⟩]
  | p :: ps =>
    if p.name = name then ⟨p.name, p.values ++ values⟩ :: ps else p :: addValues name values ps

/-- Entries of one name are one property, in the order of first occurrence. -/
def ofEntries (id schema : Text) (entries : List Property) : Entity :=
  ⟨id, schema, entries.foldl (fun properties p => addValues p.name p.values properties) []⟩

def property (entity : Entity) (name : Text) : List Text :=
  match entity.properties.find? fun p => p.name == name with
  | some p => p.values
  | none => []

theorem find?_addValues {name other : Text} (values : List Text) (properties : List Property)
    (h : other ≠ name) : (addValues name values properties).find? (fun p => p.name == other) =
      properties.find? fun p => p.name == other := by
  induction properties with
  | nil => simp [addValues, Ne.symm h]
  | cons p ps ih =>
    rw [addValues]
    split
    next hname => simp [hname, Ne.symm h]
    next => rw [List.find?_cons, List.find?_cons, ih]

theorem property_addValues (entity : Entity) {name other : Text} (values : List Text)
    (h : other ≠ name) :
    property { entity with properties := addValues name values entity.properties } other =
      entity.property other := by
  rw [property, property, find?_addValues values entity.properties h]

def has (entity : Entity) (name : Text) : Bool := (entity.property name).any fun v => !v.isEmpty

def gather (entity : Entity) (names : List Text) : List Text := names.flatMap entity.property

def isEmpty (entity : Entity) : Bool := entity.properties.isEmpty

structure Draft where
  id : Text
  schema : Text
  properties : List Property
  deriving DecidableEq, Repr

namespace Draft

def start (schema : Text) : Draft := ⟨[], schema, []⟩

def withId (draft : Draft) (id : Text) : Draft := { draft with id }

def add (draft : Draft) (name : Text) (values : List Text) : Draft :=
  { draft with properties := addValues name values draft.properties }

def addSingle (draft : Draft) (name value : Text) : Draft := draft.add name [value]

def build (draft : Draft) : Entity := ofEntries draft.id draft.schema draft.properties

end Draft

end Entity

end Screening
