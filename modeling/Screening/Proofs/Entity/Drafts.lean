import Screening.Proofs.Entity.Entries
import Screening.Proofs.Text.Distinct

namespace Screening.Entity

open Text (distinct nodup_distinct)

/-- All values that entries have under a name, one entry after the other. -/
def valuesUnder (name : Text) (entries : List Property) : List Text :=
  (entries.filter fun p => p.name == name).flatMap Property.values

theorem valuesUnder_cons (name : Text) (p : Property) (entries : List Property) :
    valuesUnder name (p :: entries) =
      (if p.name = name then p.values else []) ++ valuesUnder name entries := by
  by_cases h : p.name = name <;> simp [valuesUnder, h]

theorem names_foldl_addValues (properties entries : List Property) :
    (entries.foldl (fun properties p => addValues p.name p.values properties) properties).map
        Property.name =
      properties.map Property.name ++ (distinct (entries.map Property.name)).filter
        fun name => !(properties.map Property.name).contains name := by
  induction entries generalizing properties with
  | nil => simp [distinct]
  | cons p entries ih =>
    rw [List.foldl_cons, ih, names_addValues, List.map_cons, distinct]
    by_cases hold : p.name ∈ properties.map Property.name
    · rw [if_pos hold, List.filter_cons_of_neg (by simpa using hold), List.filter_filter]
      congr 1
      apply List.filter_congr
      intro name _
      have hknown : (properties.map Property.name).contains p.name = true :=
        List.contains_iff_mem.mpr hold
      by_cases hname : name = p.name
      · rw [hname, hknown, Bool.not_true, Bool.false_and]
      · rw [bne_iff_ne.mpr hname, Bool.and_true]
    · rw [if_neg hold, List.filter_cons_of_pos (by simpa using hold), List.filter_filter,
        List.append_assoc, List.singleton_append]
      congr 2
      apply List.filter_congr
      intro name _
      by_cases hname : name = p.name <;> simp [hname]

theorem property_addValues_same (entity : Entity) (name : Text) (values : List Text) :
    property { entity with properties := addValues name values entity.properties } name =
      entity.property name ++ values := by
  obtain ⟨id, schema, properties⟩ := entity
  induction properties with
  | nil => simp [property, addValues]
  | cons p ps ih =>
    by_cases hname : p.name = name
    · simp [property, addValues, hname]
    · simpa [property, addValues, hname] using ih

theorem property_foldl_addValues (id schema name : Text) (properties entries : List Property) :
    property ⟨id, schema, entries.foldl
        (fun properties p => addValues p.name p.values properties) properties⟩ name =
      property ⟨id, schema, properties⟩ name ++ valuesUnder name entries := by
  induction entries generalizing properties with
  | nil => simp [valuesUnder]
  | cons p entries ih =>
    rw [List.foldl_cons, ih, valuesUnder_cons, ← List.append_assoc]
    congr 1
    by_cases hname : p.name = name
    · rw [if_pos hname, ← hname]
      exact property_addValues_same ⟨id, schema, properties⟩ p.name p.values
    · rw [if_neg hname, List.append_nil]
      exact property_addValues ⟨id, schema, properties⟩ p.values (Ne.symm hname)

theorem property_ofEntries (id schema : Text) (entries : List Property) (name : Text) :
    (ofEntries id schema entries).property name = valuesUnder name entries :=
  property_foldl_addValues id schema name [] entries

theorem names_ofEntries (id schema : Text) (entries : List Property) :
    (ofEntries id schema entries).properties.map Property.name =
      distinct (entries.map Property.name) := by
  rw [ofEntries, names_foldl_addValues]
  simp

theorem ofEntries_properties (id schema : Text) (entries : List Property) :
    ofEntries id schema (ofEntries id schema entries).properties = ofEntries id schema entries :=
  ofEntries_of_nodup id schema (nodup_ofEntries id schema entries)

namespace Draft

/-- What may be done to a draft: it is given an id, values under a name, or one value. -/
inductive Step
  | identify (id : Text)
  | add (name : Text) (values : List Text)
  | addSingle (name value : Text)

def Step.entry? : Step → Option Property
  | .identify _ => none
  | .add name values => some ⟨name, values⟩
  | .addSingle name value => some ⟨name, [value]⟩

def Step.id? : Step → Option Text
  | .identify id => some id
  | _ => none

def follow (draft : Draft) : Step → Draft
  | .identify id => draft.withId id
  | .add name values => draft.add name values
  | .addSingle name value => draft.addSingle name value

def after (draft : Draft) (steps : List Step) : Draft := steps.foldl follow draft

def lastId (steps : List Step) : Text := (steps.filterMap Step.id?).getLast?.getD []

theorem schema_follow (draft : Draft) (step : Step) : (draft.follow step).schema = draft.schema := by
  cases step <;> rfl

theorem id_follow (draft : Draft) (step : Step) :
    (draft.follow step).id = step.id?.getD draft.id := by
  cases step <;> rfl

theorem properties_follow (draft : Draft) (step : Step) :
    (draft.follow step).properties = (step.entry?.toList).foldl
      (fun properties p => addValues p.name p.values properties) draft.properties := by
  cases step <;> rfl

theorem schema_after (draft : Draft) (steps : List Step) :
    (draft.after steps).schema = draft.schema := by
  induction steps generalizing draft with
  | nil => rfl
  | cons step steps ih => exact (ih (draft.follow step)).trans (schema_follow draft step)

theorem id_after (draft : Draft) (steps : List Step) :
    (draft.after steps).id = (steps.filterMap Step.id?).getLast?.getD draft.id := by
  induction steps generalizing draft with
  | nil => rfl
  | cons step steps ih =>
    have hrest : (draft.after (step :: steps)).id = _ := ih (draft.follow step)
    rw [hrest, id_follow, List.filterMap_cons]
    cases step.id? with
    | none => rfl
    | some id =>
      rw [List.getLast?_cons]
      cases (steps.filterMap Step.id?).getLast? <;> rfl

theorem properties_after (draft : Draft) (steps : List Step) :
    (draft.after steps).properties = (steps.filterMap Step.entry?).foldl
      (fun properties p => addValues p.name p.values properties) draft.properties := by
  induction steps generalizing draft with
  | nil => rfl
  | cons step steps ih =>
    have hrest : (draft.after (step :: steps)).properties = _ := ih (draft.follow step)
    rw [hrest, properties_follow, List.filterMap_cons]
    cases step.entry? <;> rfl

/-- A draft has merged what it was given already, and is built as if all of it came at once. -/
theorem build_after (schema : Text) (steps : List Step) :
    ((start schema).after steps).build =
      ofEntries (lastId steps) schema (steps.filterMap Step.entry?) := by
  have hproperties : ((start schema).after steps).properties =
      (ofEntries (lastId steps) schema (steps.filterMap Step.entry?)).properties :=
    properties_after (start schema) steps
  have hid : ((start schema).after steps).id = lastId steps := id_after (start schema) steps
  rw [build, hproperties, hid, schema_after]
  exact ofEntries_properties _ _ _

end Draft

/-- Nothing is lost or moved when an entity is made of entries. There is one property of each name, in
the order in which the names first occur, and it has all values of that name in their order. The
entity stays the same when it is made again of its own properties, and it is the one that is built
when the entries come one by one, whenever the id is given. -/
theorem ofEntries_keeps_values (id schema : Text) (entries : List Property) :
    let entity := ofEntries id schema entries
    (entity.properties.map Property.name).Nodup ∧
    entity.properties.map Property.name = distinct (entries.map Property.name) ∧
    (∀ name, entity.property name = valuesUnder name entries) ∧
    (∀ names, entity.gather names = names.flatMap fun name => valuesUnder name entries) ∧
    ofEntries entity.id entity.schema entity.properties = entity ∧
    ∀ steps : List Draft.Step, steps.filterMap Draft.Step.entry? = entries →
      Draft.lastId steps = id → ((Draft.start schema).after steps).build = entity := by
  intro entity
  have hproperty (name : Text) : entity.property name = valuesUnder name entries :=
    property_ofEntries id schema entries name
  refine ⟨nodup_ofEntries id schema entries, names_ofEntries id schema entries, hproperty,
    fun names => ?_, ofEntries_properties id schema entries, ?_⟩
  · rw [gather, funext hproperty]
  · rintro steps rfl rfl
    exact Draft.build_after schema steps

/-- The id comes between the values, and the name a second time after a property without values. -/
theorem ofEntries_keeps_values_of_steps :
    let entries : List Property := [⟨Text.of "name", [Text.of "Ali"]⟩, ⟨Text.of "alias", []⟩,
      ⟨Text.of "name", [Text.of "A.", Text.of "Ali"]⟩]
    let steps : List Draft.Step := [.addSingle (Text.of "name") (Text.of "Ali"),
      .add (Text.of "alias") [], .identify (Text.of "e1"),
      .add (Text.of "name") [Text.of "A.", Text.of "Ali"]]
    steps.filterMap Draft.Step.entry? = entries ∧ Draft.lastId steps = Text.of "e1" ∧
      ((Draft.start (Text.of "Person")).after steps).build =
        ofEntries (Text.of "e1") (Text.of "Person") entries ∧
      (ofEntries (Text.of "e1") (Text.of "Person") entries).property (Text.of "name") =
        ["Ali", "A.", "Ali"].map Text.of := by
  intro entries steps
  obtain ⟨_, _, hproperty, _, _, hbuild⟩ :=
    ofEntries_keeps_values (Text.of "e1") (Text.of "Person") entries
  have hentries : steps.filterMap Draft.Step.entry? = entries := rfl
  have hid : Draft.lastId steps = Text.of "e1" := rfl
  exact ⟨hentries, hid, hbuild steps hentries hid, (hproperty _).trans (by decide +kernel)⟩

end Screening.Entity
