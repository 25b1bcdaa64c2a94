import Screening.Proofs.Entity.FullNames

namespace Screening.Entity

open Text (nodup_distinct)

/-- The values of the parts of a name, of those parts that have any. -/
def filledParts (entity : Entity) : List (List Text) :=
  (nameParts.map entity.property).filter fun values => !values.isEmpty

theorem filledParts_filled (entity : Entity) : ∀ values ∈ entity.filledParts, values ≠ [] := by
  intro values hvalues
  simpa using (List.mem_filter.mp hvalues).2

theorem nodup_combineNames {parts : List (List Text)} (filled : ∀ values ∈ parts, values ≠ []) :
    (combineNames parts).Nodup := by
  rw [combineNames_eq filled]
  exact (nodup_distinct _).sublist (List.take_sublist _ _)

theorem withFullNames_of_parts {query : Entity}
    (distinct : (query.properties.map Property.name).Nodup) (h : query.filledParts ≠ []) :
    query.withFullNames =
      { query with properties := addNewNames (combineNames query.filledParts) query.properties } := by
  have hnames := nodup_combineNames query.filledParts_filled
  have hadd : query.withFullNames = ofEntries query.id query.schema
      (addNewNames (combineNames query.filledParts) query.properties) :=
    if_neg (mt List.isEmpty_iff.mp h)
  rw [hadd, ofEntries_of_nodup _ _ (nodup_addNewNames hnames distinct)]

theorem find?_addNewNames {other : Text} (names : List Text) (properties : List Property)
    (h : other ≠ Text.of "name") :
    (addNewNames names properties).find? (fun p => p.name == other) =
      properties.find? fun p => p.name == other := by
  induction properties with
  | nil => simp [addNewNames, Ne.symm h]
  | cons p ps ih =>
    rw [addNewNames]
    split
    next hname => simp [hname, Ne.symm h]
    next => rw [List.find?_cons, List.find?_cons, ih]

/-- No part of a name has the full names among its values, so adding them leaves all parts as they
are. -/
theorem filledParts_addNewNames (names : List Text) (entity : Entity) :
    filledParts { entity with properties := addNewNames names entity.properties } =
      entity.filledParts := by
  unfold filledParts
  congr 1
  apply List.map_congr_left
  intro part hpart
  have hother : part ≠ Text.of "name" := by
    rintro rfl
    exact absurd hpart (by decide)
  rw [property, property, find?_addNewNames names entity.properties hother]

theorem addNewNames_cons {names : List Text} (distinct : names.Nodup) (old : List Text)
    (ps : List Property) : addNewNames names (⟨Text.of "name", old⟩ :: ps) =
      ⟨Text.of "name", old ++ names.filter fun n => !old.contains n⟩ :: ps := by
  have hfold := foldl_add_eq_append distinct old
  rw [addNewNames, if_pos rfl, ← hfold]

theorem find?_name_addNewNames {names : List Text} (distinct : names.Nodup)
    (properties : List Property) : ∃ p, (addNewNames names properties).find?
      (fun p => p.name == Text.of "name") = some p ∧ ∀ n ∈ names, n ∈ p.values := by
  induction properties with
  | nil => exact ⟨⟨Text.of "name", names⟩, rfl, fun n hn => hn⟩
  | cons p ps ih =>
    obtain ⟨name, old⟩ := p
    by_cases hname : name = Text.of "name"
    · subst hname
      rw [addNewNames_cons distinct]
      refine ⟨_, rfl, fun n hn => ?_⟩
      by_cases hold : n ∈ old <;> simp [hn, hold]
    · rw [addNewNames, if_neg hname, List.find?_cons_of_neg (by simpa using hname)]
      exact ih

theorem addNewNames_twice {names : List Text} (distinct : names.Nodup)
    (properties : List Property) :
    addNewNames names (addNewNames names properties) = addNewNames names properties := by
  induction properties with
  | nil =>
    rw [addNewNames, addNewNames_cons distinct]
    simp
  | cons p ps ih =>
    obtain ⟨name, old⟩ := p
    by_cases hname : name = Text.of "name"
    · subst hname
      have hknown : (names.filter fun n =>
          !(old ++ names.filter fun m => !old.contains m).contains n) = [] := by
        rw [List.filter_eq_nil_iff]
        intro n hn
        by_cases hold : n ∈ old <;> simp [hn, hold]
      rw [addNewNames_cons distinct, addNewNames_cons distinct, hknown, List.append_nil]
    · rw [addNewNames, if_neg hname, addNewNames, if_neg hname, ih]

/-- A query that was prepared stays as it is when it is prepared again: it has the parts that it had,
and their first hundred combinations are among its names already. -/
theorem withFullNames_twice (id schema : Text) (entries : List Property) :
    let query := ofEntries id schema entries
    query.withFullNames.withFullNames = query.withFullNames ∧
      query.withFullNames.filledParts = query.filledParts ∧
      ∀ name ∈ combineNames query.filledParts, name ∈ query.withFullNames.property (Text.of "name") := by
  intro query
  have distinct := nodup_ofEntries id schema entries
  by_cases hparts : query.filledParts = []
  · have hsame : query.withFullNames = query := if_pos (List.isEmpty_iff.mpr hparts)
    have hnone : combineNames [] = [] := combineNames_eq (by simp)
    refine ⟨by rw [hsame, hsame], by rw [hsame], ?_⟩
    rw [hparts, hnone]
    simp
  · let names := combineNames query.filledParts
    let prepared := { query with properties := addNewNames names query.properties }
    have hnames : names.Nodup := nodup_combineNames query.filledParts_filled
    have hprepared : query.withFullNames = prepared := withFullNames_of_parts distinct hparts
    have hsame : prepared.filledParts = query.filledParts := filledParts_addNewNames names query
    have hagain : prepared.withFullNames =
        { query with properties := addNewNames names prepared.properties } := by
      rw [withFullNames_of_parts (nodup_addNewNames hnames distinct) (by rwa [hsame]), hsame]
    obtain ⟨p, hp, hknown⟩ := find?_name_addNewNames hnames query.properties
    refine ⟨?_, ?_, fun name hname => ?_⟩
    · rw [hprepared, hagain, addNewNames_twice hnames]
    · rw [hprepared, hsame]
    · rw [hprepared, property, hp]
      exact hknown name hname

end Screening.Entity
