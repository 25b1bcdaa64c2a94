import Screening.Entity

namespace Screening.Entity

theorem names_addValues (name : Text) (values : List Text) (properties : List Property) :
    (addValues name values properties).map Property.name =
      if name ∈ properties.map Property.name then properties.map Property.name
      else properties.map Property.name ++ [name] := by
  induction properties with
  | nil => simp [addValues]
  | cons p ps ih =>
    rw [addValues]
    by_cases h : p.name = name
    · simp [h]
    · rw [if_neg h, List.map_cons, ih]
      by_cases hmem : name ∈ ps.map Property.name
      · simp [hmem]
      · simp [hmem, Ne.symm h]

theorem nodup_addValues (name : Text) (values : List Text) {properties : List Property}
    (h : (properties.map Property.name).Nodup) :
    ((addValues name values properties).map Property.name).Nodup := by
  rw [names_addValues]
  split
  next => exact h
  next hnew =>
    refine List.nodup_append.mpr ⟨h, by simp, ?_⟩
    intro other hother _ hname
    obtain rfl := List.mem_singleton.mp hname
    exact fun heq => hnew (heq ▸ hother)

theorem nodup_foldl_addValues {properties : List Property} (entries : List Property)
    (h : (properties.map Property.name).Nodup) :
    ((entries.foldl (fun properties p => addValues p.name p.values properties) properties).map
      Property.name).Nodup := by
  induction entries generalizing properties with
  | nil => exact h
  | cons p entries ih => exact ih (nodup_addValues p.name p.values h)

theorem nodup_ofEntries (id schema : Text) (entries : List Property) :
    ((ofEntries id schema entries).properties.map Property.name).Nodup :=
  nodup_foldl_addValues entries List.nodup_nil

theorem addValues_of_new {name : Text} (values : List Text) {properties : List Property}
    (h : name ∉ properties.map Property.name) :
    addValues name values properties = properties ++ [⟨name, values⟩] := by
  induction properties with
  | nil => rfl
  | cons p ps ih =>
    rw [List.map_cons, List.mem_cons, not_or] at h
    rw [addValues, if_neg (Ne.symm h.1), ih h.2, List.cons_append]

theorem foldl_addValues_of_nodup (first rest : List Property)
    (h : ((first ++ rest).map Property.name).Nodup) :
    rest.foldl (fun properties p => addValues p.name p.values properties) first =
      first ++ rest := by
  induction rest generalizing first with
  | nil => simp
  | cons p rest ih =>
    have hnew : p.name ∉ first.map Property.name := by
      rw [List.map_append, List.map_cons] at h
      exact fun hmem => (List.nodup_append.mp h).2.2 p.name hmem p.name List.mem_cons_self rfl
    have hstep := ih (first ++ [p]) (by simpa using h)
    rw [List.foldl_cons, addValues_of_new p.values hnew, hstep]
    simp

theorem ofEntries_of_nodup (id schema : Text) {properties : List Property}
    (h : (properties.map Property.name).Nodup) :
    ofEntries id schema properties = ⟨id, schema, properties⟩ :=
  congrArg (Entity.mk id schema) (foldl_addValues_of_nodup [] properties h)

end Screening.Entity
