import Mathlib.Data.List.Nodup
import Screening.Proofs.Schema.WellFormed

namespace Screening.Catalog

open Relation (ReflTransGen TransGen)
open SchemaDecl (Extends WellFormed)

section Walk

variable {parents : Text → List Text} {has : Text → Bool} {depth : Nat}
  {path lineage lineage' targets : List Text} {schema source : Text}

/-- A schema has something, or leads to one that has it. -/
def Offers (parents : Text → List Text) (has : Text → Bool) (schema : Text) : Prop :=
  ∃ source, has source = true ∧ ReflTransGen (Above parents) schema source

/-- A schema that lacks something turns to the first of its parents that offers it. -/
def TurnsTo (parents : Text → List Text) (has : Text → Bool) (schema parent : Text) : Prop :=
  has schema = false ∧ ∃ before after, parents schema = before ++ parent :: after ∧
    (∀ other ∈ before, ¬ Offers parents has other) ∧ Offers parents has parent

/-- The schema from which a schema takes what it lacks itself. -/
def TakesFrom (parents : Text → List Text) (has : Text → Bool) (schema source : Text) : Prop :=
  ReflTransGen (TurnsTo parents has) schema source ∧ has source = true

theorem TurnsTo.above {parent : Text} (h : TurnsTo parents has schema parent) :
    Above parents schema parent := by
  obtain ⟨_, before, after, hparents, _⟩ := h
  rw [Above, hparents]
  exact List.mem_append_right before List.mem_cons_self

theorem above_of_turns (h : ReflTransGen (TurnsTo parents has) schema source) :
    ReflTransGen (Above parents) schema source :=
  ReflTransGen.mono (fun _ _ => TurnsTo.above) _ _ h

theorem TakesFrom.offers (h : TakesFrom parents has schema source) : Offers parents has schema :=
  ⟨source, h.2, above_of_turns h.1⟩

open Classical in
theorem TurnsTo.find?_eq {parent : Text} (h : TurnsTo parents has schema parent) :
    (parents schema).find? (fun p => decide (Offers parents has p)) = some parent := by
  obtain ⟨_, before, after, hparents, hbefore, hparent⟩ := h
  rw [hparents, List.find?_append, List.find?_eq_none.mpr (by simpa using hbefore),
    Option.none_or, List.find?_cons_of_pos (by simpa using hparent)]

theorem TurnsTo.unique {parent parent' : Text} (h : TurnsTo parents has schema parent)
    (h' : TurnsTo parents has schema parent') : parent = parent' :=
  Option.some.inj (h.find?_eq.symm.trans h'.find?_eq)

theorem TakesFrom.unique {source' : Text} (h : TakesFrom parents has schema source)
    (h' : TakesFrom parents has schema source') : source = source' := by
  have hstops {s t : Text} (hs : has s = true) (hturns : ReflTransGen (TurnsTo parents has) s t) :
      s = t := by
    rcases hturns.cases_head with heq | ⟨_, hturn, _⟩
    · exact heq
    · exact absurd hs (by simp [hturn.1])
  have hunique : Relator.RightUnique (TurnsTo parents has) := fun _ _ _ => TurnsTo.unique
  rcases ReflTransGen.total_of_right_unique hunique h.1 h'.1 with hturns | hturns
  · exact hstops h.2 hturns
  · exact (hstops h'.2 hturns).symm

theorem Walked.not_offers (h : Walked parents path lineage targets lineage')
    (hnone : lineage'.find? has = none) : ∀ t ∈ targets, ¬ Offers parents has t := by
  rintro t ht ⟨s, hs, hreach⟩
  obtain ⟨hin, hout⟩ := h.met t ht
  exact List.find?_eq_none.mp hnone s (h.settled.mem_of_reach hin hout hreach).1 hs

theorem takesFrom_foldlM
    (hwalk : ∀ {lineage lineage' : List Text} {schema : Text}, Settled parents path lineage →
      lineage.find? has = none → walk parents depth path lineage schema = some lineage' →
        lineage'.find? has = some source → TakesFrom parents has schema source)
    (h : Settled parents path lineage) (hnone : lineage.find? has = none)
    (hfold : targets.foldlM (walk parents depth path) lineage = some lineage')
    (hfound : lineage'.find? has = some source) :
    ∃ before parent after, targets = before ++ parent :: after ∧
      (∀ other ∈ before, ¬ Offers parents has other) ∧ TakesFrom parents has parent source := by
  induction targets generalizing lineage with
  | nil =>
    obtain rfl := Option.some.inj hfold
    exact nomatch hnone.symm.trans hfound
  | cons t targets ih =>
    rw [List.foldlM_cons] at hfold
    obtain ⟨middle, hmiddle, hrest⟩ := Option.bind_eq_some_iff.mp hfold
    have hwalked := walked_of_walk h hmiddle
    cases hfirst : middle.find? has with
    | none =>
      obtain ⟨before, parent, after, rfl, hbefore, htakes⟩ := ih hwalked.settled hfirst hrest
      refine ⟨t :: before, parent, after, rfl, List.forall_mem_cons.mpr ⟨?_, hbefore⟩, htakes⟩
      exact hwalked.not_offers hfirst t List.mem_cons_self
    | some first =>
      have hlater := walked_foldlM (fun h' => walked_of_walk h') hwalked.settled hrest
      obtain ⟨later, rfl⟩ := hlater.grows
      rw [List.find?_append, hfirst, Option.some_or] at hfound
      obtain rfl := Option.some.inj hfound
      exact ⟨[], t, targets, rfl, fun _ h => (nomatch h), hwalk h hnone hmiddle hfirst⟩

theorem takesFrom_of_walk (h : Settled parents path lineage) (hnone : lineage.find? has = none)
    (hwalk : walk parents depth path lineage schema = some lineage')
    (hfound : lineage'.find? has = some source) : TakesFrom parents has schema source := by
  induction depth generalizing path lineage lineage' schema with
  | zero => cases hwalk
  | succ depth ih =>
    rw [walk] at hwalk
    split at hwalk
    next => cases hwalk
    next =>
      split at hwalk
      next =>
        obtain rfl := Option.some.inj hwalk
        cases hnone.symm.trans hfound
      next hnew =>
        rw [List.contains_iff_mem] at hnew
        have hentered := h.enter hnew
        obtain ⟨later, rfl⟩ := (walked_foldlM (fun h' => walked_of_walk h') hentered hwalk).grows
        cases hhere : has schema with
        | true =>
          rw [List.append_assoc, List.find?_append, hnone, Option.none_or, List.singleton_append,
            List.find?_cons_of_pos hhere] at hfound
          obtain rfl := Option.some.inj hfound
          exact ⟨.refl, hhere⟩
        | false =>
          have hstart : (lineage ++ [schema]).find? has = none := by
            rw [List.find?_append, hnone, Option.none_or]
            simp [hhere]
          obtain ⟨before, parent, after, hparents, hbefore, htakes⟩ :=
            takesFrom_foldlM (fun h' hn hw hf => ih h' hn hw hf) hentered hstart hwalk hfound
          exact ⟨.head ⟨hhere, before, after, hparents, hbefore, htakes.offers⟩ htakes.1, htakes.2⟩

theorem find?_walk_iff (hwalk : walk parents depth [] [] schema = some lineage) :
    lineage.find? has = some source ↔ TakesFrom parents has schema source := by
  have htakes {first : Text} (hfirst : lineage.find? has = some first) :
      TakesFrom parents has schema first := takesFrom_of_walk .nil rfl hwalk hfirst
  constructor
  · exact htakes
  · intro h
    cases hfirst : lineage.find? has with
    | none => exact absurd h.offers ((walked_of_walk .nil hwalk).not_offers hfirst schema
        List.mem_cons_self)
    | some first => rw [(htakes hfirst).unique h]

/-- What is passed over although it comes nearer is reached by another parent than the one that was
turned to. -/
theorem exists_fork (hacyclic : ∀ s, ¬ TransGen (Above parents) s s)
    (h : TakesFrom parents has schema source) {nearer : Text} (hne : nearer ≠ source)
    (hhas : has nearer = true) (hreach : ReflTransGen (Above parents) schema nearer)
    (hsource : ReflTransGen (Above parents) nearer source) :
    ∃ fork parent other, ReflTransGen (TurnsTo parents has) schema fork ∧
      TurnsTo parents has fork parent ∧ other ∈ parents fork ∧ other ≠ parent ∧
      ReflTransGen (Above parents) other nearer := by
  obtain ⟨hturns, _⟩ := h
  induction hturns using ReflTransGen.head_induction_on with
  | refl =>
    rcases hreach.cases_head with heq | ⟨parent, hparent, hrest⟩
    · exact absurd heq.symm hne
    · exact absurd (TransGen.head' hparent (hrest.trans hsource)) (hacyclic source)
  | @head schema parent hturn _ ih =>
    rcases hreach.cases_head with rfl | ⟨other, hother, hrest⟩
    · exact absurd hhas (by simp [hturn.1])
    · by_cases heq : other = parent
      · obtain ⟨fork, hfork⟩ := ih (heq ▸ hrest)
        obtain ⟨parent', other', hturns, hfork⟩ := hfork
        exact ⟨fork, parent', other', .head hturn hturns, hfork⟩
      · exact ⟨schema, parent, other, .refl, hturn, hother, heq, hrest⟩

end Walk

section Properties

variable {version : Text} {decls : List SchemaDecl} {catalog : Catalog}
  {schema property source : Text} {x : TypedProperty}

theorem find?_nearest (ps : List TypedProperty) :
    (nearest ps).find? (fun p => p.name == property) = ps.find? fun p => p.name == property := by
  induction ps with
  | nil => rfl
  | cons p ps ih =>
    rw [nearest, List.find?_cons, List.find?_cons, List.find?_filter, ← ih]
    split
    next => rfl
    next hne =>
      congr 1
      funext q
      by_cases hq : q.name = property
      · subst hq
        simpa using fun heq : q.name = p.name => by simp [heq] at hne
      · simp [hq]

theorem findSome?_of_first {β : Type} {has : Text → Bool} {define : Text → Option β}
    {schemas : List Text} (h : ∀ s ∈ schemas, (define s).isSome = has s) :
    schemas.findSome? define = (schemas.find? has).bind define := by
  induction schemas with
  | nil => rfl
  | cons s schemas ih =>
    obtain ⟨hs, hrest⟩ := List.forall_mem_cons.mp h
    rw [List.findSome?_cons, List.find?_cons, ← hs, ih hrest]
    cases hdefine : define s with
    | none => rfl
    | some _ => exact hdefine.symm

def declares (decls : List SchemaDecl) (property schema : Text) : Bool :=
  decls.any fun d => d.name == schema && d.properties.any fun p => p.name == property

/-- The first definition that a schema gives of a property, as it is read. -/
def Defines (decls : List SchemaDecl) (source property : Text) (x : TypedProperty) : Prop :=
  ∃ d ∈ decls, d.name = source ∧ ∃ p, d.properties.find? (fun p => p.name == property) = some p ∧
    resolveProperty source p = .ok x

theorem name_of_resolved {p : PropertyDecl} (h : resolveProperty schema p = .ok x) :
    x.name = p.name := by
  unfold resolveProperty at h
  split at h
  next => exact nomatch h
  next =>
    obtain ⟨_, _, rfl⟩ := map_eq_ok.mp h
    rfl

theorem find?_resolved {rows : List PropertyDecl} {properties : List TypedProperty}
    (h : rows.mapM (resolveProperty schema) = .ok properties) :
    properties.find? (fun x => x.name == property) = some x ↔
      ∃ p, rows.find? (fun p => p.name == property) = some p ∧
        resolveProperty schema p = .ok x := by
  induction rows generalizing properties with
  | nil =>
    obtain rfl := Except.ok.inj h
    simp
  | cons p rows ih =>
    rw [List.mapM_cons] at h
    obtain ⟨y, hy, h⟩ := bind_eq_ok.mp h
    obtain ⟨rest, hrest, h⟩ := bind_eq_ok.mp h
    obtain rfl := Except.ok.inj h
    rw [List.find?_cons, List.find?_cons, name_of_resolved hy]
    split
    next =>
      constructor
      · intro heq
        obtain rfl := Option.some.inj heq
        exact ⟨p, rfl, hy⟩
      · rintro ⟨q, hq, hx⟩
        obtain rfl := Option.some.inj hq
        rw [Except.ok.inj (hy.symm.trans hx)]
    next => exact ih hrest

theorem declares_iff : declares decls property schema = true ↔
    ∃ d ∈ decls, d.name = schema ∧ ∃ p ∈ d.properties, p.name = property := by
  simp [declares]

theorem decl_unique (hdistinct : (decls.map SchemaDecl.name).Nodup) {d e : SchemaDecl}
    (hd : d ∈ decls) (he : e ∈ decls) (heq : d.name = e.name) : d = e :=
  List.inj_on_of_nodup_map hdistinct hd he heq

theorem mem_names_of_reach (h : WellFormed decls)
    (hschema : schema ∈ decls.map SchemaDecl.name)
    (hreach : ReflTransGen (Extends decls) schema source) :
    source ∈ decls.map SchemaDecl.name := by
  rcases hreach.cases_tail with rfl | ⟨_, _, d, hd, _, hparent⟩
  · exact hschema
  · exact h.parents d hd _ hparent

theorem TakesFrom.mem_names (hdistinct : (decls.map SchemaDecl.name).Nodup)
    (h : TakesFrom (parentsIn decls) (declares decls property) schema source) :
    schema ∈ decls.map SchemaDecl.name := by
  rcases h.1.cases_head with rfl | ⟨parent, hturns, _⟩
  · obtain ⟨d, hd, hname, _⟩ := declares_iff.mp h.2
    exact List.mem_map.mpr ⟨d, hd, hname⟩
  · have habove := hturns.above
    rw [above_parentsIn hdistinct] at habove
    obtain ⟨d, hd, hname, _⟩ := habove
    exact List.mem_map.mpr ⟨d, hd, hname⟩

section Own

variable {own : List (Text × List TypedProperty)}
  (hdistinct : (decls.map SchemaDecl.name).Nodup)
  (hown : ∀ d ∈ decls, d.properties.mapM (resolveProperty d.name) = .ok (entryOf own d.name))
  (hschema : schema ∈ decls.map SchemaDecl.name)

include hdistinct hown hschema

theorem find?_own : (entryOf own schema).find? (fun x => x.name == property) = some x ↔
    Defines decls schema property x := by
  obtain ⟨d, hd, rfl⟩ := List.mem_map.mp hschema
  rw [find?_resolved (hown d hd)]
  constructor
  · exact fun h => ⟨d, hd, rfl, h⟩
  · rintro ⟨e, he, hname, h⟩
    rwa [decl_unique hdistinct he hd hname] at h

theorem isSome_own : ((entryOf own schema).find? fun x => x.name == property).isSome =
    declares decls property schema := by
  obtain ⟨d, hd, rfl⟩ := List.mem_map.mp hschema
  have hnames : (entryOf own d.name).map TypedProperty.name = d.properties.map PropertyDecl.name :=
    map_eq_map_of_mapM (fun _ _ => name_of_resolved) (hown d hd)
  have hmem : property ∈ (entryOf own d.name).map TypedProperty.name ↔
      property ∈ d.properties.map PropertyDecl.name := by rw [hnames]
  rw [Bool.eq_iff_iff, List.find?_isSome, declares_iff]
  simp only [List.mem_map, beq_iff_eq] at hmem ⊢
  rw [hmem]
  constructor
  · exact fun h => ⟨d, hd, rfl, h⟩
  · rintro ⟨e, he, hname, h⟩
    rwa [decl_unique hdistinct he hd hname] at h

end Own

/-- The properties of a schema are the first of each name that are declared along its lineage. -/
theorem properties_create (h : create version decls = .ok catalog)
    (hmem : schema ∈ decls.map SchemaDecl.name) : ∃ own lineage,
      (∀ d ∈ decls, d.properties.mapM (resolveProperty d.name) = .ok (entryOf own d.name)) ∧
      walk (parentsIn decls) (decls.length + 1) [] [] schema = some lineage ∧
      (∀ s ∈ lineage, s ∈ decls.map SchemaDecl.name) ∧
      catalog.properties schema = nearest (lineage.flatMap (entryOf own)) := by
  have hwellFormed := wellFormed_of_create h
  obtain ⟨own, hown, hfind⟩ := find?_create h
  obtain ⟨d, hd, rfl⟩ := List.mem_map.mp hmem
  obtain ⟨lineage, hwalk, hfound⟩ := hfind d hd
  refine ⟨own, lineage, hown, hwalk, fun s hs => ?_, ?_⟩
  · have hreach := (mem_walk_iff hwalk).mp hs
    rw [above_parentsIn hwellFormed.distinct] at hreach
    exact mem_names_of_reach hwellFormed hmem hreach
  · rw [properties, hfound, Option.map_some, Option.getD_some]

theorem properties_of_not_mem (h : create version decls = .ok catalog)
    (hout : schema ∉ decls.map SchemaDecl.name) : catalog.properties schema = [] := by
  rw [properties, find?_of_not_mem h hout]
  rfl

theorem property?_create (h : create version decls = .ok catalog) :
    catalog.property? schema property = some x ↔
      ∃ source, TakesFrom (parentsIn decls) (declares decls property) schema source ∧
        Defines decls source property x := by
  have hdistinct := (wellFormed_of_create h).distinct
  by_cases hmem : schema ∈ decls.map SchemaDecl.name
  · obtain ⟨own, lineage, hown, hwalk, hlineage, hproperties⟩ := properties_create h hmem
    have hfirst : lineage.findSome? (fun s => (entryOf own s).find? fun x => x.name == property) =
        (lineage.find? (declares decls property)).bind
          fun s => (entryOf own s).find? fun x => x.name == property :=
      findSome?_of_first fun s hs => isSome_own hdistinct hown (hlineage s hs)
    rw [property?, hproperties, find?_nearest, List.find?_flatMap, hfirst, Option.bind_eq_some_iff]
    constructor
    · rintro ⟨source, hsource, hx⟩
      have hin := hlineage source (List.mem_of_find?_eq_some hsource)
      have hdefines := (find?_own hdistinct hown hin).mp hx
      exact ⟨source, (find?_walk_iff hwalk).mp hsource, hdefines⟩
    · rintro ⟨source, htakes, hx⟩
      have hsource := (find?_walk_iff hwalk).mpr htakes
      have hin := hlineage source (List.mem_of_find?_eq_some hsource)
      exact ⟨source, hsource, (find?_own hdistinct hown hin).mpr hx⟩
  · rw [property?, properties_of_not_mem h hmem]
    constructor
    · exact fun hfalse => nomatch hfalse
    · rintro ⟨source, htakes, _⟩
      exact absurd (htakes.mem_names hdistinct) hmem

/-- Another schema that descends from a source gives a definition of its own. -/
def Overrides (catalog : Catalog) (decls : List SchemaDecl) (property source nearer : Text) :
    Prop :=
  nearer ≠ source ∧ declares decls property nearer = true ∧ catalog.descends nearer source = true

theorem descends_iff_above (h : create version decls = .ok catalog) {ancestor : Text}
    (hschema : schema ∈ decls.map SchemaDecl.name) :
    catalog.descends schema ancestor = true ↔
      ReflTransGen (Above (parentsIn decls)) schema ancestor := by
  rw [descends_create h, above_parentsIn (wellFormed_of_create h).distinct]
  exact and_iff_right hschema

/-- A definition is hidden by one that it overrides just where another parent on the way leads to
it. -/
theorem hidden_iff_forked (h : create version decls = .ok catalog)
    (htakes : TakesFrom (parentsIn decls) (declares decls property) schema source) :
    (∃ nearer, catalog.descends schema nearer = true ∧
        Overrides catalog decls property source nearer) ↔
      ∃ fork parent other nearer,
        ReflTransGen (TurnsTo (parentsIn decls) (declares decls property)) schema fork ∧
        TurnsTo (parentsIn decls) (declares decls property) fork parent ∧
        other ∈ parentsIn decls fork ∧ other ≠ parent ∧ catalog.descends other nearer = true ∧
        Overrides catalog decls property source nearer := by
  have hwellFormed := wellFormed_of_create h
  have hacyclic : ∀ s, ¬ TransGen (Above (parentsIn decls)) s s := by
    rw [above_parentsIn hwellFormed.distinct]
    exact hwellFormed.acyclic
  have hschema := htakes.mem_names hwellFormed.distinct
  have hknown {s : Text} (hreach : ReflTransGen (Above (parentsIn decls)) schema s) :
      s ∈ decls.map SchemaDecl.name := by
    rw [above_parentsIn hwellFormed.distinct] at hreach
    exact mem_names_of_reach hwellFormed hschema hreach
  constructor
  · rintro ⟨nearer, hdescends, hoverrides⟩
    have hreach := (descends_iff_above h hschema).mp hdescends
    obtain ⟨hne, hdeclares, hup⟩ := hoverrides
    obtain ⟨fork, parent, other, hturns, hturn, hother, hparent, hrest⟩ :=
      exists_fork hacyclic htakes hne hdeclares hreach
        ((descends_iff_above h (hknown hreach)).mp hup)
    have hin := hknown ((above_of_turns hturns).tail hother)
    exact ⟨fork, parent, other, nearer, hturns, hturn, hother, hparent,
      (descends_iff_above h hin).mpr hrest, hne, hdeclares, hup⟩
  · rintro ⟨fork, parent, other, nearer, hturns, hturn, hother, _, hdescends, hoverrides⟩
    have hreach := (above_of_turns hturns).tail hother
    have hrest := (descends_iff_above h (hknown hreach)).mp hdescends
    exact ⟨nearer, (descends_iff_above h hschema).mpr (hreach.trans hrest), hoverrides⟩

theorem not_hidden_of_one_parent (h : create version decls = .ok catalog)
    (hone : ∀ s, (parentsIn decls s).length ≤ 1)
    (htakes : TakesFrom (parentsIn decls) (declares decls property) schema source) {nearer : Text}
    (hdescends : catalog.descends schema nearer = true) :
    ¬ Overrides catalog decls property source nearer := by
  intro hoverrides
  obtain ⟨fork, parent, other, _, _, hturn, hother, hne, _⟩ :=
    (hidden_iff_forked h htakes).mp ⟨nearer, hdescends, hoverrides⟩
  obtain ⟨only, honly⟩ := List.length_eq_one_iff.mp
    (Nat.le_antisymm (hone fork) (List.length_pos_of_mem hother))
  have hparent : parent ∈ parentsIn decls fork := hturn.above
  rw [honly, List.mem_singleton] at hother hparent
  exact hne (hother.trans hparent.symm)

/-- A property is taken from the first parent that offers it, and from the first of that one's, up
to the schema that defines it. A nearer definition is hidden just where another parent on the way
leads to it. -/
theorem nearest_unless_forked (h : create version decls = .ok catalog) (schema property : Text) :
    (∀ x, catalog.property? schema property = some x ↔
      ∃ source, TakesFrom (parentsIn decls) (declares decls property) schema source ∧
        Defines decls source property x) ∧
    ∀ source, TakesFrom (parentsIn decls) (declares decls property) schema source →
      ((∃ nearer, catalog.descends schema nearer = true ∧
          Overrides catalog decls property source nearer) ↔
        ∃ fork parent other nearer,
          ReflTransGen (TurnsTo (parentsIn decls) (declares decls property)) schema fork ∧
          TurnsTo (parentsIn decls) (declares decls property) fork parent ∧
          other ∈ parentsIn decls fork ∧ other ≠ parent ∧ catalog.descends other nearer = true ∧
          Overrides catalog decls property source nearer) :=
  ⟨fun _ => property?_create h, fun _ htakes => hidden_iff_forked h htakes⟩

end Properties

/-- The ferry has its code from the asset by way of the craft, and the vessel's is passed over. -/
theorem ferry_takes_code : TakesFrom (parentsIn diamondDecls)
    (declares diamondDecls (Text.of "code")) (Text.of "Ferry") (Text.of "Asset") := by
  have hasset : declares diamondDecls (Text.of "code") (Text.of "Asset") = true := by decide +kernel
  have hcraft : TurnsTo (parentsIn diamondDecls) (declares diamondDecls (Text.of "code"))
      (Text.of "Craft") (Text.of "Asset") :=
    ⟨by decide +kernel, [], [], by decide +kernel, fun _ h => (nomatch h), ⟨_, hasset, .refl⟩⟩
  have hferry : TurnsTo (parentsIn diamondDecls) (declares diamondDecls (Text.of "code"))
      (Text.of "Ferry") (Text.of "Craft") :=
    ⟨by decide +kernel, [], [Text.of "Vessel"], by decide +kernel, fun _ h => (nomatch h),
      ⟨_, hasset, .single hcraft.above⟩⟩
  exact ⟨.head hferry (.single hcraft), hasset⟩

theorem nearest_unless_forked_of_diamond :
    ∃ catalog, create (Text.of "1") diamondDecls = .ok catalog ∧
      catalog.property? (Text.of "Ferry") (Text.of "code") = some ⟨Text.of "code", .text, []⟩ ∧
      ∃ fork parent other, other ∈ parentsIn diamondDecls fork ∧ other ≠ parent ∧
        TurnsTo (parentsIn diamondDecls) (declares diamondDecls (Text.of "code")) fork parent := by
  obtain ⟨catalog, h, hvessel, hoverrides⟩ : ∃ catalog,
      create (Text.of "1") diamondDecls = .ok catalog ∧
      catalog.descends (Text.of "Ferry") (Text.of "Vessel") = true ∧
      Overrides catalog diamondDecls (Text.of "code") (Text.of "Asset") (Text.of "Vessel") :=
    ⟨_, rfl, by decide +kernel, by decide +kernel, by decide +kernel, by decide +kernel⟩
  obtain ⟨htaken, hhidden⟩ := nearest_unless_forked h (Text.of "Ferry") (Text.of "code")
  have hdefines : Defines diamondDecls (Text.of "Asset") (Text.of "code")
      ⟨Text.of "code", .text, []⟩ := ⟨_, .head _, rfl, _, rfl, rfl⟩
  obtain ⟨fork, parent, other, _, _, hturn, hother, hne, _⟩ :=
    (hhidden _ ferry_takes_code).mp ⟨_, hvessel, hoverrides⟩
  have hcode := (htaken _).mpr ⟨_, ferry_takes_code, hdefines⟩
  exact ⟨catalog, h, hcode, fork, parent, other, hother, hne, hturn⟩

/-- A catalog in which the definition of the vessel is hidden from the ferry by the one that it
overrides. -/
theorem diamond_hides_nearer : ∃ catalog, create (Text.of "1") diamondDecls = .ok catalog ∧
    TakesFrom (parentsIn diamondDecls) (declares diamondDecls (Text.of "code")) (Text.of "Ferry")
      (Text.of "Asset") ∧
    catalog.property? (Text.of "Ferry") (Text.of "code") = some ⟨Text.of "code", .text, []⟩ ∧
    catalog.property? (Text.of "Vessel") (Text.of "code") =
      some ⟨Text.of "code", .identifier, []⟩ ∧
    catalog.descends (Text.of "Ferry") (Text.of "Vessel") = true ∧
    Overrides catalog diamondDecls (Text.of "code") (Text.of "Asset") (Text.of "Vessel") :=
  ⟨_, rfl, ferry_takes_code, by decide +kernel, by decide +kernel, by decide +kernel,
    by decide +kernel, by decide +kernel, by decide +kernel⟩

end Screening.Catalog
