import Mathlib.Order.Defs.Unbundled
import Screening.Proofs.Schema.Walk
import Screening.Schema.Builtin

namespace Screening

open Relation (ReflTransGen TransGen)

namespace SchemaDecl

def Extends (decls : List SchemaDecl) (schema parent : Text) : Prop :=
  ∃ d ∈ decls, d.name = schema ∧ parent ∈ d.parents

/-- Declarations without fault. -/
structure WellFormed (decls : List SchemaDecl) : Prop where
  named : ∀ d ∈ decls, d.name ≠ []
  distinct : (decls.map SchemaDecl.name).Nodup
  parents : ∀ d ∈ decls, ∀ parent ∈ d.parents, parent ∈ decls.map SchemaDecl.name
  types : ∀ d ∈ decls, ∀ p ∈ d.properties, ∃ type, ValueType.ofLabel? p.type = some type
  algorithms : ∀ d ∈ decls, ∀ p ∈ d.properties, ∀ name ∈ p.algorithms,
    ∃ algorithm, Algorithm.ofName? name = some algorithm
  acyclic : ∀ schema, ¬ TransGen (Extends decls) schema schema

end SchemaDecl

namespace Catalog

open SchemaDecl

section Entries

variable {β : Type} {entries : List (Text × List β)} {schema : Text}

theorem entryOf_of_mem {values : List β} (hnodup : (entries.map Prod.fst).Nodup)
    (h : (schema, values) ∈ entries) : entryOf entries schema = values := by
  induction entries with
  | nil => exact nomatch h
  | cons entry entries ih =>
    obtain ⟨other, others⟩ := entry
    rw [List.map_cons, List.nodup_cons] at hnodup
    rcases List.mem_cons.mp h with heq | h
    · obtain ⟨rfl, rfl⟩ := Prod.mk.inj heq
      simp [entryOf]
    · have hne : (schema == other) = false :=
        beq_eq_false_iff_ne.mpr fun heq => hnodup.1 (List.mem_map.mpr ⟨_, h, heq⟩)
      rw [entryOf, List.lookup_cons, hne]
      exact ih hnodup.2 h

theorem mem_of_mem_entryOf {value : β} (h : value ∈ entryOf entries schema) :
    ∃ values, (schema, values) ∈ entries ∧ value ∈ values := by
  unfold entryOf at h
  cases hlookup : entries.lookup schema with
  | none =>
    rw [hlookup] at h
    exact nomatch h
  | some values =>
    rw [hlookup] at h
    obtain ⟨before, after, rfl, _⟩ := List.lookup_eq_some_iff.mp hlookup
    exact ⟨values, List.mem_append_right before List.mem_cons_self, h⟩

end Entries

variable {version : Text} {decls : List SchemaDecl} {catalog : Catalog}

def parentsIn (decls : List SchemaDecl) : Text → List Text :=
  entryOf (decls.map fun d => (d.name, d.parents))

theorem above_parentsIn (hnodup : (decls.map SchemaDecl.name).Nodup) :
    Above (parentsIn decls) = Extends decls := by
  funext schema parent
  apply propext
  constructor
  · intro h
    obtain ⟨parents, hmem, hparent⟩ := mem_of_mem_entryOf h
    obtain ⟨d, hd, hentry⟩ := List.mem_map.mp hmem
    obtain ⟨rfl, rfl⟩ := Prod.mk.inj hentry
    exact ⟨d, hd, rfl, hparent⟩
  · rintro ⟨d, hd, rfl, hparent⟩
    have hkeys : ((decls.map fun d => (d.name, d.parents)).map Prod.fst).Nodup := by
      rw [List.map_map]
      exact hnodup
    have hentry : parentsIn decls d.name = d.parents :=
      entryOf_of_mem hkeys (List.mem_map_of_mem (f := fun d => (d.name, d.parents)) hd)
    rwa [Above, hentry]

theorem checkNames_eq_ok {seen : List Text} :
    checkNames seen decls = .ok () ↔ (∀ d ∈ decls, d.name ≠ []) ∧
      (decls.map SchemaDecl.name).Nodup ∧ ∀ d ∈ decls, d.name ∉ seen := by
  induction decls generalizing seen with
  | nil => simp [checkNames]
  | cons d decls ih =>
    rw [checkNames, refuse_eq_ok, refuse_eq_ok, ih, List.forall_mem_cons, List.forall_mem_cons]
    simp only [List.isEmpty_iff, List.contains_iff_mem, List.map_cons, List.nodup_cons,
      List.mem_map, List.mem_cons, not_or, not_exists, not_and]
    constructor
    · rintro ⟨hnamed, hfresh, hrest, hnodup, hseen⟩
      exact ⟨⟨hnamed, hrest⟩, ⟨fun e he => (hseen e he).1, hnodup⟩, hfresh,
        fun e he => (hseen e he).2⟩
    · rintro ⟨⟨hnamed, hrest⟩, ⟨hother, hnodup⟩, hfresh, hseen⟩
      exact ⟨hnamed, hfresh, hrest, hnodup, fun e he => ⟨hother e he, hseen e he⟩⟩

theorem resolveAlgorithm_exists {schema property name : Text} :
    (∃ algorithm, resolveAlgorithm schema property name = .ok algorithm) ↔
      ∃ algorithm, Algorithm.ofName? name = some algorithm := by
  unfold resolveAlgorithm
  cases Algorithm.ofName? name <;> simp

theorem resolveProperty_exists {schema : Text} {p : PropertyDecl} :
    (∃ x, resolveProperty schema p = .ok x) ↔ (∃ type, ValueType.ofLabel? p.type = some type) ∧
      ∀ name ∈ p.algorithms, ∃ algorithm, Algorithm.ofName? name = some algorithm := by
  have halgorithms : (∃ algorithms, p.algorithms.mapM (resolveAlgorithm schema p.name) =
      .ok algorithms) ↔
        ∀ name ∈ p.algorithms, ∃ algorithm, Algorithm.ofName? name = some algorithm := by
    simp only [mapM_exists, resolveAlgorithm_exists]
  rw [← halgorithms]
  unfold resolveProperty
  cases ValueType.ofLabel? p.type with
  | none => simp
  | some type => cases p.algorithms.mapM (resolveAlgorithm schema p.name) <;> simp [Except.map]

theorem resolveOwn_eq_ok {known : List Text} {d : SchemaDecl} {properties : List TypedProperty} :
    resolveOwn known d = .ok properties ↔ (∀ parent ∈ d.parents, parent ∈ known) ∧
      d.properties.mapM (resolveProperty d.name) = .ok properties := by
  unfold resolveOwn
  split
  next parent hparent =>
    have hunknown := List.find?_some hparent
    have hmem := List.mem_of_find?_eq_some hparent
    constructor
    · exact fun h => nomatch h
    · rintro ⟨hknown, _⟩
      simp [hknown parent hmem] at hunknown
  next hnone =>
    have hknown : ∀ parent ∈ d.parents, parent ∈ known := by simpa using hnone
    exact ⟨fun h => ⟨hknown, h⟩, fun h => h.2⟩

theorem resolveSchema_eq_ok {own : List (Text × List TypedProperty)} {d : SchemaDecl}
    {schema : Schema} : resolveSchema decls own d = .ok schema ↔
      ∃ lineage, walk (parentsIn decls) (decls.length + 1) [] [] d.name = some lineage ∧
        schema = ⟨d.name, d.matchable, lineage, nearest (lineage.flatMap (entryOf own))⟩ := by
  unfold resolveSchema
  dsimp only
  rw [← parentsIn]
  cases walk (parentsIn decls) (decls.length + 1) [] [] d.name with
  | none => simp
  | some lineage => simp [eq_comm]

theorem create_eq_ok : create version decls = .ok catalog ↔
    checkNames [] decls = .ok () ∧ ∃ own, (decls.mapM fun d =>
        (resolveOwn (decls.map SchemaDecl.name) d).map fun properties => (d.name, properties)) =
          .ok own ∧
      decls.mapM (resolveSchema decls own) = .ok catalog.schemas ∧ catalog.version = version := by
  unfold create
  rw [bind_eq_ok]
  constructor
  · rintro ⟨_, hnames, h⟩
    obtain ⟨own, hown, h⟩ := bind_eq_ok.mp h
    obtain ⟨schemas, hschemas, h⟩ := bind_eq_ok.mp h
    obtain rfl := Except.ok.inj h
    exact ⟨hnames, own, hown, hschemas, rfl⟩
  · rintro ⟨hnames, own, hown, hschemas, rfl⟩
    exact ⟨(), hnames, bind_eq_ok.mpr ⟨own, hown, bind_eq_ok.mpr ⟨_, hschemas, rfl⟩⟩⟩

theorem wellFormed_of_create (h : create version decls = .ok catalog) : WellFormed decls := by
  obtain ⟨hnames, own, hown, hschemas, _⟩ := create_eq_ok.mp h
  obtain ⟨hnamed, hdistinct, _⟩ := checkNames_eq_ok.mp hnames
  have hresolved : ∀ d ∈ decls, (∀ parent ∈ d.parents, parent ∈ decls.map SchemaDecl.name) ∧
      ∃ properties, d.properties.mapM (resolveProperty d.name) = .ok properties := by
    intro d hd
    obtain ⟨_, _, hentry⟩ := exists_mem_of_mapM hown hd
    obtain ⟨properties, hproperties, _⟩ := map_eq_ok.mp hentry
    obtain ⟨hparents, hproperties⟩ := resolveOwn_eq_ok.mp hproperties
    exact ⟨hparents, properties, hproperties⟩
  have hproperty : ∀ d ∈ decls, ∀ p ∈ d.properties, ∃ x, resolveProperty d.name p = .ok x :=
    fun d hd => mapM_exists.mp (hresolved d hd).2
  refine ⟨hnamed, hdistinct, fun d hd => (hresolved d hd).1,
    fun d hd p hp => (resolveProperty_exists.mp (hproperty d hd p hp)).1,
    fun d hd p hp => (resolveProperty_exists.mp (hproperty d hd p hp)).2, fun schema hcycle => ?_⟩
  obtain ⟨parent, ⟨d, hd, rfl, hparent⟩, hback⟩ := TransGen.head'_iff.mp hcycle
  obtain ⟨_, _, hs⟩ := exists_mem_of_mapM hschemas hd
  obtain ⟨lineage, hwalk, _⟩ := resolveSchema_eq_ok.mp hs
  have hacyclic := not_cycle_of_walk hwalk
  rw [above_parentsIn hdistinct] at hacyclic
  exact hacyclic hcycle

theorem create_of_wellFormed (version : Text) (h : WellFormed decls) :
    ∃ catalog, create version decls = .ok catalog := by
  have hnames : checkNames [] decls = .ok () :=
    checkNames_eq_ok.mpr ⟨h.named, h.distinct, fun _ _ hmem => nomatch hmem⟩
  obtain ⟨own, hown⟩ : ∃ own, (decls.mapM fun d => (resolveOwn (decls.map SchemaDecl.name) d).map
      fun properties => (d.name, properties)) = .ok own := by
    refine mapM_exists.mpr fun d hd => ?_
    obtain ⟨properties, hproperties⟩ := mapM_exists.mpr fun p hp =>
      resolveProperty_exists.mpr ⟨h.types d hd p hp, h.algorithms d hd p hp⟩
    rw [resolveOwn_eq_ok.mpr ⟨h.parents d hd, hproperties⟩]
    exact ⟨_, rfl⟩
  obtain ⟨schemas, hschemas⟩ : ∃ schemas, decls.mapM (resolveSchema decls own) = .ok schemas := by
    refine mapM_exists.mpr fun d hd => ?_
    have hacyclic : ∀ s, ¬ TransGen (Above (parentsIn decls)) s s := by
      rw [above_parentsIn h.distinct]
      exact h.acyclic
    have hknown : ∀ s ∈ decls.map SchemaDecl.name, ∀ parent ∈ parentsIn decls s,
        parent ∈ decls.map SchemaDecl.name := by
      intro s _ parent hparent
      have hextends : Extends decls s parent := by
        rw [← above_parentsIn h.distinct]
        exact hparent
      obtain ⟨e, he, _, hparent⟩ := hextends
      exact h.parents e he parent hparent
    have hdeep : (decls.map SchemaDecl.name).length < ([] : List Text).length +
        (decls.length + 1) := by simp
    obtain ⟨lineage, hwalk⟩ := walk_isSome hacyclic hknown (List.mem_map_of_mem hd) List.nodup_nil
      (List.nil_subset _) (fun _ hmem => nomatch hmem) hdeep []
    exact ⟨_, resolveSchema_eq_ok.mpr ⟨lineage, hwalk, rfl⟩⟩
  exact ⟨⟨version, schemas⟩, create_eq_ok.mpr ⟨hnames, own, hown, hschemas, rfl⟩⟩

theorem find?_of_mem {β : Type} {key : β → Text} {entries : List β} (hnodup : (entries.map key).Nodup)
    {b : β} (hb : b ∈ entries) : entries.find? (fun c => key c == key b) = some b := by
  induction entries with
  | nil => exact nomatch hb
  | cons c entries ih =>
    rw [List.map_cons, List.nodup_cons] at hnodup
    rcases List.mem_cons.mp hb with rfl | hb
    · simp
    · have hne : key c ≠ key b := fun heq => hnodup.1 (heq ▸ List.mem_map_of_mem hb)
      rw [List.find?_cons_of_neg (by simpa using hne), ih hnodup.2 hb]

theorem names_create (h : create version decls = .ok catalog) :
    catalog.schemas.map Schema.name = decls.map SchemaDecl.name := by
  obtain ⟨_, own, _, hschemas, _⟩ := create_eq_ok.mp h
  refine map_eq_map_of_mapM (fun d s hs => ?_) hschemas
  obtain ⟨_, _, rfl⟩ := resolveSchema_eq_ok.mp hs
  rfl

theorem find?_create (h : create version decls = .ok catalog) :
    ∃ own, (∀ d ∈ decls, d.properties.mapM (resolveProperty d.name) = .ok (entryOf own d.name)) ∧
      ∀ d ∈ decls, ∃ lineage,
        walk (parentsIn decls) (decls.length + 1) [] [] d.name = some lineage ∧
        catalog.find? d.name =
          some ⟨d.name, d.matchable, lineage, nearest (lineage.flatMap (entryOf own))⟩ := by
  have hdistinct := (wellFormed_of_create h).distinct
  obtain ⟨_, own, hown, hschemas, _⟩ := create_eq_ok.mp h
  have hkeys : own.map Prod.fst = decls.map SchemaDecl.name := by
    refine map_eq_map_of_mapM (fun d entry hentry => ?_) hown
    obtain ⟨_, _, rfl⟩ := map_eq_ok.mp hentry
    rfl
  refine ⟨own, fun d hd => ?_, fun d hd => ?_⟩
  · obtain ⟨entry, hmem, hentry⟩ := exists_mem_of_mapM hown hd
    obtain ⟨properties, hproperties, rfl⟩ := map_eq_ok.mp hentry
    rw [entryOf_of_mem (hkeys ▸ hdistinct) hmem]
    exact (resolveOwn_eq_ok.mp hproperties).2
  · obtain ⟨s, hmem, hs⟩ := exists_mem_of_mapM hschemas hd
    obtain ⟨lineage, hwalk, rfl⟩ := resolveSchema_eq_ok.mp hs
    exact ⟨lineage, hwalk, find?_of_mem (names_create h ▸ hdistinct) hmem⟩

theorem contains_create (h : create version decls = .ok catalog) {schema : Text} :
    catalog.contains schema = true ↔ schema ∈ decls.map SchemaDecl.name := by
  rw [← names_create h, contains, find?, List.find?_isSome, List.mem_map]
  simp

theorem find?_of_not_mem (h : create version decls = .ok catalog) {schema : Text}
    (hout : schema ∉ decls.map SchemaDecl.name) : catalog.find? schema = none := by
  rw [← Option.not_isSome_iff_eq_none]
  exact mt (contains_create h).mp hout

theorem descends_create (h : create version decls = .ok catalog) {schema ancestor : Text} :
    catalog.descends schema ancestor = true ↔
      schema ∈ decls.map SchemaDecl.name ∧ ReflTransGen (Extends decls) schema ancestor := by
  by_cases hmem : schema ∈ decls.map SchemaDecl.name
  · obtain ⟨d, hd, rfl⟩ := List.mem_map.mp hmem
    obtain ⟨own, _, hfind⟩ := find?_create h
    obtain ⟨lineage, hwalk, hfound⟩ := hfind d hd
    have hreach := mem_walk_iff hwalk (s := ancestor)
    rw [above_parentsIn (wellFormed_of_create h).distinct] at hreach
    rw [descends, hfound, Option.any_some, List.contains_iff_mem, hreach]
    exact (and_iff_right hmem).symm
  · rw [descends, find?_of_not_mem h hmem]
    exact ⟨fun hfalse => (nomatch hfalse), fun hboth => absurd hboth.1 hmem⟩

/-- Of the declarations that are without fault, and of no others, a catalog can be made. On its
schemas descent is the order that the declarations lay down. -/
theorem create_exactly_wellFormed (version : Text) (decls : List SchemaDecl) :
    ((∃ catalog, create version decls = .ok catalog) ↔ WellFormed decls) ∧
    ∀ catalog, create version decls = .ok catalog →
      (∀ schema, catalog.contains schema = true ↔ schema ∈ decls.map SchemaDecl.name) ∧
      (∀ schema ancestor, catalog.contains schema = true →
        (catalog.descends schema ancestor = true ↔ ReflTransGen (Extends decls) schema ancestor)) ∧
      (∀ schema ancestor, catalog.contains schema = false →
        catalog.descends schema ancestor = false) ∧
      IsPartialOrder {schema : Text // catalog.contains schema = true}
        fun s t => catalog.descends s.1 t.1 = true := by
  refine ⟨⟨fun ⟨_, h⟩ => wellFormed_of_create h, create_of_wellFormed version⟩, fun catalog h => ?_⟩
  have hcontains (schema : Text) :
      catalog.contains schema = true ↔ schema ∈ decls.map SchemaDecl.name := contains_create h
  have hdescends (schema ancestor : Text) : catalog.descends schema ancestor = true ↔
      schema ∈ decls.map SchemaDecl.name ∧ ReflTransGen (Extends decls) schema ancestor :=
    descends_create h
  refine ⟨hcontains, fun schema ancestor hin => ?_, fun schema ancestor hout => ?_, ?_⟩
  · rw [hdescends, ← hcontains]
    exact and_iff_right hin
  · rw [← Bool.not_eq_true, hdescends, ← hcontains, hout]
    exact fun hboth => nomatch hboth.1
  · refine
      { refl := fun s => ?_
        trans := fun s t u hst htu => ?_
        antisymm := fun s t hst hts => ?_ }
    · exact (hdescends _ _).mpr ⟨(hcontains _).mp s.2, .refl⟩
    · rw [hdescends] at hst htu ⊢
      exact ⟨hst.1, hst.2.trans htu.2⟩
    · rw [hdescends] at hst hts
      apply Subtype.ext
      rcases ReflTransGen.cases_head hst.2 with heq | ⟨parent, hparent, hback⟩
      · exact heq
      · have hcycle := TransGen.head' hparent (hback.trans hts.2)
        exact absurd hcycle ((wellFormed_of_create h).acyclic _)

/-- A schema with two parents that have a parent in common; one of the two defines a property
anew. -/
def diamondDecls : List SchemaDecl := [
  schemaRow "Asset" [] false [propertyRow "code" "text"],
  schemaRow "Craft" ["Asset"] true [],
  schemaRow "Vessel" ["Asset"] true [propertyRow "code" "identifier"],
  schemaRow "Ferry" ["Craft", "Vessel"] true []]

theorem create_exactly_wellFormed_of_diamond :
    ∃ catalog, create (Text.of "1") diamondDecls = .ok catalog ∧
      catalog.descends (Text.of "Ferry") (Text.of "Asset") = true ∧
      catalog.descends (Text.of "Barge") (Text.of "Barge") = false ∧
      WellFormed diamondDecls := by
  obtain ⟨hwellFormed, hresolved⟩ := create_exactly_wellFormed (Text.of "1") diamondDecls
  have hcreate : ∃ catalog, create (Text.of "1") diamondDecls = .ok catalog := ⟨_, rfl⟩
  obtain ⟨catalog, h⟩ := hcreate
  obtain ⟨hcontains, hdescends, habsent, _⟩ := hresolved catalog h
  have hferry := (hcontains (Text.of "Ferry")).mpr (by decide +kernel)
  have hbarge : catalog.contains (Text.of "Barge") = false := by
    rw [← Bool.not_eq_true, hcontains]
    decide +kernel
  have hup : Extends diamondDecls (Text.of "Ferry") (Text.of "Craft") :=
    ⟨_, .tail _ (.tail _ (.tail _ (.head _))), rfl, .head _⟩
  have htop : Extends diamondDecls (Text.of "Craft") (Text.of "Asset") :=
    ⟨_, .tail _ (.head _), rfl, .head _⟩
  exact ⟨catalog, h, (hdescends _ _ hferry).mpr (.head hup (.single htop)), habsent _ _ hbarge,
    hwellFormed.mp ⟨catalog, h⟩⟩

end Catalog

end Screening
