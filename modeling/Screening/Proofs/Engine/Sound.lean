import Screening.Engine
import Screening.Proofs.Scalar.Order

namespace Screening

variable {α : Type} [Scalar α]

structure Settings.Sound (settings : Settings α) : Prop where
  algorithms : settings.algorithms ≠ []
  defaultAlgorithm : settings.enables settings.defaultAlgorithm = true
  limit : settings.limit ≠ 0
  chunkSize : settings.chunkSize ≠ 0
  candidateFactor : settings.candidateFactor ≠ 0
  threshold : Scalar.Fraction settings.threshold
  cutoff : Scalar.Fraction settings.cutoff
  alignerFloor : Scalar.Fraction settings.alignerFloor
  alignerSupport : Scalar.Fraction settings.alignerSupport

theorem Scalar.isFraction_iff {a : α} : isFraction a = true ↔ Fraction a := by
  simp [isFraction, Fraction]

theorem Settings.validate_eq_ok {settings : Settings α} :
    settings.validate = .ok () ↔ settings.Sound := by
  unfold validate
  simp only [refuse_eq_ok, Bool.not_eq_true', Bool.not_eq_false, Bool.and_eq_true,
    Scalar.isFraction_iff, List.isEmpty_iff, and_true]
  constructor
  · rintro ⟨halgorithms, hdefault, hlimit, hchunk, hfactor, hscores, haligner⟩
    exact ⟨halgorithms, hdefault, hlimit, hchunk, hfactor, hscores.1, hscores.2, haligner.1,
      haligner.2⟩
  · intro h
    exact ⟨h.algorithms, h.defaultAlgorithm, h.limit, h.chunkSize, h.candidateFactor,
      ⟨h.threshold, h.cutoff⟩, h.alignerFloor, h.alignerSupport⟩

theorem Settings.usual_sound : (usual : Settings Float).Sound := validate_eq_ok.mp rfl

omit [Scalar α] in
/-- Wherever a catalog has a property that a feature names, the property has the feature's type. -/
def Catalog.Suits (catalog : Catalog) (d : FeatureDecl α) : Prop :=
  ∀ property ∈ d.properties ++ d.counterparts, ∀ schema p,
    catalog.property? schema property = some p → p.type = d.type

theorem Catalog.mem_names_of_property? {catalog : Catalog} {schema property : Text}
    {p : TypedProperty} (h : catalog.property? schema property = some p) :
    schema ∈ catalog.names := by
  unfold property? properties find? at h
  cases hfind : catalog.schemas.find? fun s => s.name == schema with
  | none =>
    rw [hfind] at h
    exact nomatch h
  | some s =>
    have hname : s.name = schema := by simpa using List.find?_some hfind
    have hmem := List.mem_map.mpr ⟨s, List.mem_of_find?_eq_some hfind, hname⟩
    exact (Sorting.mem_sort _).mpr hmem

def Settings.Suited (settings : Settings α) (catalog : Catalog) : Prop :=
  ∀ algorithm, settings.enables algorithm = true →
    ∀ d ∈ (algorithm.features : List (FeatureDecl α)), catalog.Suits d

namespace Engine

/-- The engine that is made where nothing is said but what the clock reads. -/
def usual (reading : Nat → Instant) : Engine α := ⟨.usual, .builtin, .basic, .start reading, .zero⟩

/-- The usual engine on a clock that stands still, with a normalizer that is interrupted on the
values that hold "kaput" or "boom". -/
def guarded : Engine α :=
  { usual fun _ => 0 with normalizer := .guarded (Text.of "kaput") (Text.of "boom") }

/-- The engines that are made and then used. -/
inductive Reached : Engine α → Prop
  | create {settings : Settings α} {slot : Option CatalogSlot} {normalizer : Option Normalizer}
      {clock : Clock} {unicode : Unicode} {engine : Engine α}
      (h : create settings slot normalizer clock unicode = .ok engine) : Reached engine
  | answer {engine : Engine α} (h : Reached engine) (query : Entity) (candidates : List Entity)
      (algorithm : Algorithm) (most : UInt64) (deadline : Option Instant) :
      Reached (engine.answer query candidates algorithm most deadline).2
  | answerBatch {engine : Engine α} (h : Reached engine) (requests : List NamedRequest)
      (overrides : Overrides α) : Reached (engine.answerBatch requests overrides).2
  | install {engine next : Engine α} (h : Reached engine) {catalog : Option Catalog}
      (hnext : engine.install catalog = .ok next) : Reached next
  | resetCounters {engine : Engine α} (h : Reached engine) : Reached engine.resetCounters

omit [Scalar α] in
theorem clash?_eq_none {catalog : Catalog} {algorithm : Algorithm} {d : FeatureDecl α}
    {property schema : Text} : clash? catalog algorithm d property schema = none ↔
      ∀ p, catalog.property? schema property = some p → p.type = d.type := by
  unfold clash?
  cases catalog.property? schema property with
  | none => simp
  | some p => simp

omit [Scalar α] in
theorem clashes_eq_nil {features : List (FeatureDecl α)} {catalog : Catalog}
    {algorithm : Algorithm} :
    clashes features catalog algorithm = [] ↔ ∀ d ∈ features, catalog.Suits d := by
  simp only [clashes, List.flatMap_eq_nil_iff, List.filterMap_eq_nil_iff, clash?_eq_none]
  constructor
  · exact fun h d hd property hproperty schema p hp =>
      h d hd property hproperty schema (Catalog.mem_names_of_property? hp) p hp
  · exact fun h d hd property hproperty schema _ p hp => h d hd property hproperty schema p hp

theorem head?_clashes_eq_none {settings : Settings α} {catalog : Catalog} :
    (settings.algorithms.flatMap fun a =>
      clashes (a.features : List (FeatureDecl α)) catalog a).head? = none ↔
        settings.Suited catalog := by
  simp only [List.head?_eq_none_iff, List.flatMap_eq_nil_iff, clashes_eq_nil, Settings.Suited,
    Settings.enables, List.contains_iff_mem]

/-- An engine is made just if the settings are sound and suited to the catalog. -/
theorem create_eq_ok {settings : Settings α} {slot : Option CatalogSlot}
    {normalizer : Option Normalizer} {clock : Clock} {unicode : Unicode} {engine : Engine α} :
    create settings slot normalizer clock unicode = .ok engine ↔
      settings.Sound ∧ ∃ catalog, chooseCatalog slot = .ok catalog ∧ settings.Suited catalog ∧
        engine = ⟨{ settings with normalizer := (chooseNormalizer unicode settings normalizer).folding },
          catalog, chooseNormalizer unicode settings normalizer, clock, .zero⟩ := by
  have hvalid : settings.validate.mapError EngineFault.settings = .ok () ↔ settings.Sound := by
    rw [← Settings.validate_eq_ok]
    cases settings.validate with
    | error fault => exact ⟨fun h => (nomatch h), fun h => (nomatch h)⟩
    | ok _ => exact ⟨fun _ => rfl, fun _ => rfl⟩
  unfold create
  rw [bind_eq_ok]
  constructor
  · rintro ⟨_, hsettings, h⟩
    obtain ⟨catalog, hcatalog, h⟩ := bind_eq_ok.mp h
    dsimp only at h
    split at h
    next => exact nomatch h
    next hnone =>
      obtain rfl := Except.ok.inj h
      exact ⟨hvalid.mp hsettings, catalog, hcatalog, head?_clashes_eq_none.mp hnone, rfl⟩
  · rintro ⟨hsound, catalog, hcatalog, hsuited, rfl⟩
    refine ⟨(), hvalid.mpr hsound, bind_eq_ok.mpr ⟨catalog, hcatalog, ?_⟩⟩
    rw [head?_clashes_eq_none.mpr hsuited]
    rfl

theorem create_sound {settings : Settings α} {slot : Option CatalogSlot}
    {normalizer : Option Normalizer} {clock : Clock} {unicode : Unicode} {engine : Engine α}
    (h : create settings slot normalizer clock unicode = .ok engine) : engine.settings.Sound := by
  obtain ⟨hsound, catalog, _, _, rfl⟩ := create_eq_ok.mp h
  exact ⟨hsound.algorithms, hsound.defaultAlgorithm, hsound.limit, hsound.chunkSize,
    hsound.candidateFactor, hsound.threshold, hsound.cutoff, hsound.alignerFloor,
    hsound.alignerSupport⟩

theorem suited_create {settings : Settings α} {slot : Option CatalogSlot}
    {normalizer : Option Normalizer} {clock : Clock} {unicode : Unicode} {engine : Engine α}
    (h : create settings slot normalizer clock unicode = .ok engine) :
    engine.settings.Suited engine.catalog := by
  obtain ⟨_, catalog, _, hsuited, rfl⟩ := create_eq_ok.mp h
  exact hsuited

theorem answer_eq_respond {engine : Engine α} {query : Entity} {candidates : List Entity}
    {algorithm : Algorithm} {most : UInt64} (deadline : Option Instant)
    (enabled : engine.settings.enables algorithm = true) (positive : most ≠ 0) :
    let start := engine.queryDeadline deadline
    let job := engine.queryJob query candidates algorithm most
    let responded := { engine with clock := start.2 }.respond start.1 [job]
    engine.answer query candidates algorithm most deadline =
      (responded.1.map fun rankings =>
        rankings.headD (Ranking.ofVerdicts engine.catalog.version job []), responded.2) := by
  intro start job responded
  unfold answer
  rw [if_neg (by simp [enabled]), if_neg positive]

omit [Scalar α] in
/-- What a request leaves as it is: only the clock and the counters move on. -/
structure Frame (engine later : Engine α) : Prop where
  settings : later.settings = engine.settings
  catalog : later.catalog = engine.catalog
  normalizer : later.normalizer = engine.normalizer

theorem frame_respond (engine : Engine α) (deadline : Option Instant) (jobs : List (Job α)) :
    Frame engine (engine.respond deadline jobs).2 := by
  unfold respond
  dsimp only
  split <;> exact ⟨rfl, rfl, rfl⟩

theorem frame_answer (engine : Engine α) (query : Entity) (candidates : List Entity)
    (algorithm : Algorithm) (most : UInt64) (deadline : Option Instant) :
    Frame engine (engine.answer query candidates algorithm most deadline).2 := by
  unfold answer
  split
  next => exact ⟨rfl, rfl, rfl⟩
  next =>
    split
    next => exact ⟨rfl, rfl, rfl⟩
    next =>
      have hframe := frame_respond { engine with clock := (engine.queryDeadline deadline).2 }
        (engine.queryDeadline deadline).1 [engine.queryJob query candidates algorithm most]
      exact ⟨hframe.settings, hframe.catalog, hframe.normalizer⟩

theorem frame_answerBatch (engine : Engine α) (requests : List NamedRequest)
    (overrides : Overrides α) : Frame engine (engine.answerBatch requests overrides).2 := by
  unfold answerBatch
  split
  next => exact ⟨rfl, rfl, rfl⟩
  next =>
    dsimp only
    generalize deadlineAfter engine.clock _ = start
    have hframe := frame_respond { engine with clock := start.2 } start.1
    exact ⟨(hframe _).settings, (hframe _).catalog, (hframe _).normalizer⟩

omit [Scalar α] in
theorem settings_install {engine next : Engine α} {catalog : Option Catalog}
    (h : engine.install catalog = .ok next) : next.settings = engine.settings := by
  unfold install at h
  split at h
  next => exact nomatch h
  next =>
    obtain rfl := Except.ok.inj h
    rfl

/-- The settings of an engine are sound as long as it is used. -/
theorem Reached.sound {engine : Engine α} (h : Reached engine) : engine.settings.Sound := by
  induction h with
  | create h => exact create_sound h
  | answer _ query candidates algorithm most deadline ih =>
    rwa [(frame_answer _ query candidates algorithm most deadline).settings]
  | answerBatch _ requests overrides ih => rwa [(frame_answerBatch _ requests overrides).settings]
  | install _ hnext ih => rwa [settings_install hnext]
  | resetCounters _ ih => exact ih

end Engine

end Screening
