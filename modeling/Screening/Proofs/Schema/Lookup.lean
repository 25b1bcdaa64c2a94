import Screening.Proofs.Schema.Nearest
import Screening.Proofs.Text.Distinct

namespace Screening.Catalog

open Relation (ReflTransGen)
open SchemaDecl (Extends)

variable {version : Text} {decls : List SchemaDecl} {catalog : Catalog}
  {schema property : Text} {x : TypedProperty}

theorem nodup_nearest (ps : List TypedProperty) :
    ((nearest ps).map TypedProperty.name).Nodup := by
  induction ps with
  | nil => exact List.nodup_nil
  | cons p ps ih =>
    have hrest : (((nearest ps).filter fun q => q.name != p.name).map TypedProperty.name).Nodup :=
      ih.sublist (List.filter_sublist.map _)
    have hfirst : p.name ∉ ((nearest ps).filter fun q => q.name != p.name).map
        TypedProperty.name := by simp
    rw [nearest, List.map_cons]
    exact List.nodup_cons.mpr ⟨hfirst, hrest⟩

/-- Along a lineage a property of each name is kept once, however often it is declared. -/
theorem nodup_properties (h : create version decls = .ok catalog) (schema : Text) :
    ((catalog.properties schema).map TypedProperty.name).Nodup := by
  by_cases hmem : schema ∈ decls.map SchemaDecl.name
  · obtain ⟨own, lineage, _, _, _, hproperties⟩ := properties_create h hmem
    rw [hproperties]
    exact nodup_nearest _
  · rw [properties_of_not_mem h hmem]
    exact List.nodup_nil

theorem property?_eq_some_iff (h : create version decls = .ok catalog) :
    catalog.property? schema property = some x ↔
      x ∈ catalog.properties schema ∧ x.name = property := by
  constructor
  · intro hfound
    exact ⟨List.mem_of_find?_eq_some hfound, by simpa using List.find?_some hfound⟩
  · rintro ⟨hx, rfl⟩
    exact find?_of_mem (nodup_properties h schema) hx

theorem nodup_namesOfType (h : create version decls = .ok catalog) (schema : Text)
    (type : ValueType) (algorithm : Algorithm) :
    (catalog.namesOfType schema type algorithm).Nodup :=
  (nodup_properties h schema).sublist (List.filter_sublist.map _)

theorem mem_namesOfType (h : create version decls = .ok catalog) {type : ValueType}
    {algorithm : Algorithm} : property ∈ catalog.namesOfType schema type algorithm ↔
      ∃ x, catalog.property? schema property = some x ∧ x.type = type ∧
        x.isFor algorithm = true := by
  simp only [namesOfType, List.mem_map, List.mem_filter, Bool.and_eq_true, beq_iff_eq,
    property?_eq_some_iff h]
  constructor
  · rintro ⟨x, ⟨hx, htype, hfor⟩, hname⟩
    exact ⟨x, ⟨hx, hname⟩, htype, hfor⟩
  · rintro ⟨x, ⟨hx, hname⟩, htype, hfor⟩
    exact ⟨x, ⟨hx, htype, hfor⟩, hname⟩

theorem mem_names_of_inherits {ancestor : Text}
    (hreach : ReflTransGen (Extends decls) schema ancestor)
    (hdeclares : declares decls property ancestor = true) :
    schema ∈ decls.map SchemaDecl.name := by
  rcases hreach.cases_head with rfl | ⟨_, ⟨d, hd, hname, _⟩, _⟩
  · obtain ⟨d, hd, hname, _⟩ := declares_iff.mp hdeclares
    exact List.mem_map.mpr ⟨d, hd, hname⟩
  · exact List.mem_map.mpr ⟨d, hd, hname⟩

theorem isSome_property? (h : create version decls = .ok catalog) :
    (catalog.property? schema property).isSome = true ↔
      ∃ ancestor, ReflTransGen (Extends decls) schema ancestor ∧
        declares decls property ancestor = true := by
  have hdistinct := (wellFormed_of_create h).distinct
  by_cases hmem : schema ∈ decls.map SchemaDecl.name
  · obtain ⟨own, lineage, hown, hwalk, hlineage, hproperties⟩ := properties_create h hmem
    have hreach (s : Text) : s ∈ lineage ↔ ReflTransGen (Extends decls) schema s := by
      rw [mem_walk_iff hwalk, above_parentsIn hdistinct]
    rw [property?, hproperties, find?_nearest, List.find?_flatMap, List.findSome?_isSome_iff]
    constructor
    · rintro ⟨s, hs, hfound⟩
      exact ⟨s, (hreach s).mp hs, by rwa [isSome_own hdistinct hown (hlineage s hs)] at hfound⟩
    · rintro ⟨s, hs, hdeclares⟩
      have hin := (hreach s).mpr hs
      exact ⟨s, hin, by rwa [isSome_own hdistinct hown (hlineage s hin)]⟩
  · rw [property?, properties_of_not_mem h hmem]
    constructor
    · exact fun hfalse => absurd hfalse Bool.false_ne_true
    · rintro ⟨ancestor, hreach, hdeclares⟩
      exact absurd (mem_names_of_inherits hreach hdeclares) hmem

theorem names_pairwise (h : create version decls = .ok catalog) : catalog.names.Pairwise (· < ·) :=
  Text.sort_pairwise (names_create h ▸ (wellFormed_of_create h).distinct)

theorem mem_names (h : create version decls = .ok catalog) :
    schema ∈ catalog.names ↔ catalog.contains schema = true := by
  rw [names, Text.sort, Sorting.mem_sort, names_create h, contains_create h]

/-- Look-ups agree. By type and algorithm the same properties are found as by name, each once; by
name those are found that a schema or one above it declares, so that nothing is lost on the way down;
and a name that is not listed among the schemas has no properties. -/
theorem lookups_agree (h : create version decls = .ok catalog) :
    (∀ schema type algorithm, (catalog.namesOfType schema type algorithm).Nodup ∧
      ∀ property, property ∈ catalog.namesOfType schema type algorithm ↔
        ∃ x, catalog.property? schema property = some x ∧ x.type = type ∧
          x.isFor algorithm = true) ∧
    (∀ schema property, (catalog.property? schema property).isSome = true ↔
      ∃ ancestor, ReflTransGen (Extends decls) schema ancestor ∧
        declares decls property ancestor = true) ∧
    (∀ schema ancestor, ReflTransGen (Extends decls) schema ancestor → ∀ property,
      (catalog.property? ancestor property).isSome = true →
        (catalog.property? schema property).isSome = true) ∧
    (catalog.names.Pairwise (· < ·) ∧
      ∀ schema, schema ∈ catalog.names ↔ catalog.contains schema = true) ∧
    ∀ schema, catalog.contains schema = false →
      (∀ property, catalog.property? schema property = none) ∧
        ∀ type algorithm, catalog.namesOfType schema type algorithm = [] := by
  refine ⟨fun schema type algorithm => ⟨nodup_namesOfType h schema type algorithm, ?_⟩, ?_, ?_,
    ⟨names_pairwise h, fun _ => mem_names h⟩, fun schema hout => ?_⟩
  · exact fun property => mem_namesOfType h
  · exact fun schema property => isSome_property? h
  · intro schema ancestor hreach property hfound
    obtain ⟨source, hup, hdeclares⟩ := (isSome_property? h).mp hfound
    exact (isSome_property? h).mpr ⟨source, hreach.trans hup, hdeclares⟩
  · have hunknown : schema ∉ decls.map SchemaDecl.name := by
      rw [← contains_create h, hout]
      exact Bool.false_ne_true
    have hnone : catalog.properties schema = [] := properties_of_not_mem h hunknown
    constructor
    · intro property
      rw [property?, hnone]
      rfl
    · intro type algorithm
      rw [namesOfType, hnone]
      rfl

/-- The code that the ferry has from the asset is among its texts and not among its identifiers, and
the code that the vessel defines anew is on the ferry too, if not in force there. -/
theorem lookups_agree_of_diamond : ∃ catalog, create (Text.of "1") diamondDecls = .ok catalog ∧
    Text.of "code" ∈ catalog.namesOfType (Text.of "Ferry") .text .logistic ∧
    Text.of "code" ∉ catalog.namesOfType (Text.of "Ferry") .identifier .logistic ∧
    (catalog.property? (Text.of "Ferry") (Text.of "code")).isSome = true ∧
    catalog.property? (Text.of "Barge") (Text.of "code") = none := by
  obtain ⟨catalog, h, hferry, hvessel, hbarge⟩ : ∃ catalog,
      create (Text.of "1") diamondDecls = .ok catalog ∧
      catalog.property? (Text.of "Ferry") (Text.of "code") = some ⟨Text.of "code", .text, []⟩ ∧
      (catalog.property? (Text.of "Vessel") (Text.of "code")).isSome = true ∧
      catalog.contains (Text.of "Barge") = false :=
    ⟨_, rfl, by decide +kernel, by decide +kernel, by decide +kernel⟩
  obtain ⟨htypes, _, hinherits, _, hunknown⟩ := lookups_agree h
  have hup : Extends diamondDecls (Text.of "Ferry") (Text.of "Vessel") :=
    ⟨_, .tail _ (.tail _ (.tail _ (.head _))), rfl, .tail _ (.head _)⟩
  refine ⟨catalog, h, ?_, ?_, hinherits _ _ (.single hup) _ hvessel, (hunknown _ hbarge).1 _⟩
  · exact ((htypes _ _ _).2 _).mpr ⟨_, hferry, rfl, rfl⟩
  · intro hmem
    obtain ⟨x, hx, htype, _⟩ := ((htypes _ _ _).2 _).mp hmem
    obtain rfl := Option.some.inj (hferry.symm.trans hx)
    exact nomatch htype

end Screening.Catalog
