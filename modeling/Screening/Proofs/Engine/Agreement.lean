import Screening.Proofs.Engine.Sound

namespace Screening

inductive Use (α : Type)
  | answer (query : Entity) (candidates : List Entity) (algorithm : Algorithm) (most : UInt64)
      (deadline : Option Instant)
  | answerBatch (requests : List NamedRequest) (overrides : Overrides α)
  | install (catalog : Option Catalog)
  | resetCounters

/-- The catalog that a use offers in place of the one in force. -/
def Use.offered {α : Type} : Use α → Option Catalog
  | install catalog => catalog
  | _ => none

namespace Engine

variable {α : Type} [Scalar α]

/-- The engine after a use; what is refused leaves it as it is. -/
def use (engine : Engine α) : Use α → Engine α
  | .answer query candidates algorithm most deadline =>
    (engine.answer query candidates algorithm most deadline).2
  | .answerBatch requests overrides => (engine.answerBatch requests overrides).2
  | .install catalog =>
    match engine.install catalog with
    | .ok next => next
    | .error _ => engine
  | .resetCounters => engine.resetCounters

def after (engine : Engine α) (uses : List (Use α)) : Engine α := uses.foldl use engine

omit [Scalar α] in
def lastInstalled (uses : List (Use α)) : Option Catalog := (uses.filterMap Use.offered).getLast?

theorem settings_use (engine : Engine α) (u : Use α) :
    (engine.use u).settings = engine.settings := by
  cases u with
  | answer query candidates algorithm most deadline =>
    exact (frame_answer engine query candidates algorithm most deadline).settings
  | answerBatch requests overrides => exact (frame_answerBatch engine requests overrides).settings
  | install catalog => cases catalog <;> rfl
  | resetCounters => rfl

theorem catalog_use (engine : Engine α) (u : Use α) :
    (engine.use u).catalog = u.offered.getD engine.catalog := by
  cases u with
  | answer query candidates algorithm most deadline =>
    exact (frame_answer engine query candidates algorithm most deadline).catalog
  | answerBatch requests overrides => exact (frame_answerBatch engine requests overrides).catalog
  | install catalog => cases catalog <;> rfl
  | resetCounters => rfl

theorem settings_after (engine : Engine α) (uses : List (Use α)) :
    (engine.after uses).settings = engine.settings := by
  induction uses generalizing engine with
  | nil => rfl
  | cons u uses ih => exact (ih (engine.use u)).trans (settings_use engine u)

theorem catalog_after (engine : Engine α) (uses : List (Use α)) :
    (engine.after uses).catalog = (lastInstalled uses).getD engine.catalog := by
  induction uses generalizing engine with
  | nil => rfl
  | cons u uses ih =>
    have hrest : (engine.after (u :: uses)).catalog = _ := ih (engine.use u)
    rw [hrest, catalog_use, lastInstalled, lastInstalled, List.filterMap_cons]
    cases u.offered with
    | none => rfl
    | some catalog =>
      rw [List.getLast?_cons]
      cases (uses.filterMap Use.offered).getLast? <;> rfl

/-- The catalog suits an engine when it is made. Later the one that requests are answered with does
so just if the one that was last put in force does, if any was: none is refused on account of its
types. -/
theorem suited_after_iff {settings : Settings α} {slot : Option CatalogSlot}
    {normalizer : Option Normalizer} {clock : Clock} {unicode : Unicode} {engine : Engine α}
    (h : create settings slot normalizer clock unicode = .ok engine) :
    engine.settings.Suited engine.scorer.catalog ∧
    ∀ uses : List (Use α),
      (∀ catalog, (engine.after (uses ++ [.install (some catalog)])).scorer.catalog = catalog) ∧
      ((engine.after uses).settings.Suited (engine.after uses).scorer.catalog ↔
        ∀ catalog, lastInstalled uses = some catalog → engine.settings.Suited catalog) := by
  have hsuited := suited_create h
  refine ⟨hsuited, fun uses => ⟨fun catalog => ?_, ?_⟩⟩
  · rw [scorer, catalog_after]
    simp [lastInstalled, Use.offered]
  · rw [settings_after, scorer, catalog_after]
    cases lastInstalled uses with
    | none => exact ⟨fun _ _ hnone => (nomatch hnone), fun _ => hsuited⟩
    | some last =>
      constructor
      · intro hlast catalog hcatalog
        obtain rfl := Option.some.inj hcatalog
        exact hlast
      · exact fun hall => hall last rfl

theorem suited_builtin (settings : Settings Float) : settings.Suited .builtin := by
  have husual : (Settings.usual : Settings Float).Suited .builtin := by
    apply head?_clashes_eq_none.mp
    decide +kernel
  intro algorithm _
  exact husual algorithm (by cases algorithm <;> rfl)

omit [Scalar α] in
/-- Where no normalizer is given and the settings name the full one, it is taken if the system can
convert to Latin script. -/
theorem chooseNormalizer_eq (unicode : Unicode) (settings : Settings α)
    (normalizer : Option Normalizer) :
    chooseNormalizer unicode settings normalizer = normalizer.getD
      (if settings.normalizer = .full ∧ unicode.toLatin.isSome then .full unicode
        else .basic unicode) := by
  cases normalizer with
  | some normalizer => rfl
  | none =>
    rw [chooseNormalizer, Option.getD_none]
    cases settings.normalizer with
    | basic => rfl
    | full => cases hlatin : unicode.toLatin <;> simp [Normalizer.ofFolding, hlatin]

/-- An engine is made of any sound settings and the built-in catalog, on every system. -/
theorem create_builtin {settings : Settings Float} (sound : settings.Sound)
    {slot : Option CatalogSlot} (hslot : chooseCatalog slot = .ok .builtin) (unicode : Unicode)
    (normalizer : Option Normalizer) (clock : Clock) :
    let chosen := normalizer.getD
      (if settings.normalizer = .full ∧ unicode.toLatin.isSome then .full unicode
        else .basic unicode)
    create settings slot normalizer clock unicode =
      .ok ⟨{ settings with normalizer := chosen.folding }, .builtin, chosen, clock, .zero⟩ := by
  intro chosen
  refine create_eq_ok.mpr ⟨sound, .builtin, hslot, suited_builtin settings, ?_⟩
  rw [chooseNormalizer_eq]

/-- The full normalizer gives way to the basic one where there is no conversion to Latin script. -/
example :
    let made (unicode : Unicode) := create { (Settings.usual : Settings Float) with
      normalizer := .full } none none (.start fun _ => 0) unicode
    let folding unicode := (made unicode).toOption.map fun engine => engine.settings.normalizer
    folding { Unicode.ascii with toLatin := some id } = some .full ∧
      folding .ascii = some .basic := by
  decide +kernel

theorem create_usual (reading : Nat → Instant) :
    create Settings.usual none none (.start reading) = .ok (usual reading : Engine Float) :=
  create_builtin Settings.usual_sound rfl .ascii none _

def pilotDecl : SchemaDecl :=
  Catalog.schemaRow "Pilot" ["Person"] true [Catalog.propertyRow "birthDate" "text"]

/-- The built-in catalog, with which the engine is made, suits it also after it is put in force once
more. -/
theorem suited_after_iff_of_usual :
    let engine : Engine Float := usual fun _ => 0
    let later := engine.after [.install (some .builtin), .resetCounters]
    create Settings.usual none none (.start fun _ => 0) = .ok engine ∧
      later.settings.Suited later.scorer.catalog := by
  intro engine later
  have hmade := create_usual fun _ => 0
  have hagrees := suited_after_iff hmade
  refine ⟨hmade, ((hagrees.2 _).2).mpr fun catalog hcatalog => ?_⟩
  obtain rfl := Option.some.inj hcatalog
  exact hagrees.1

/-- An engine that is made, and a catalog that is put in force although it does not suit it. -/
theorem pilot_unsuited :
    let engine : Engine Float := usual fun _ => 0
    create Settings.usual none none (.start fun _ => 0) = .ok engine ∧
      ∃ catalog, Catalog.create (Text.of "mistyped") (Catalog.builtinDecls ++ [pilotDecl]) =
          .ok catalog ∧
        ∃ next, engine.install (some catalog) = .ok next ∧
          ¬ next.settings.Suited next.scorer.catalog := by
  intro engine
  refine ⟨create_usual _, _, rfl, _, rfl, fun hsuited => ?_⟩
  have hdates := hsuited .nameQualified rfl (.similarity "dob.match" .date ["birthDate"] .usual)
    (by simp [Algorithm.features, NameQualified.features]) (Text.of "birthDate") (by decide)
    (Text.of "Pilot")
  exact absurd (hdates _ rfl) (by decide)

end Engine

end Screening
