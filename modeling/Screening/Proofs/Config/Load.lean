import Screening.Config.Load
import Screening.Proofs.Engine.Agreement

namespace Screening

namespace Settings

/-- A value is what a text says under a key, or the usual one where the text says nothing. -/
def Reads {β : Type} (text : Text) (key : String) (read : Text → Option β) (usual b : β) : Prop :=
  match setting text key with
  | none => b = usual
  | some given => read given = some b

theorem Reads.elim {β : Type} {text : Text} {key : String} {read : Text → Option β} {usual b : β}
    (h : Reads text key read usual b) {P : β → Prop} (husual : P usual)
    (hread : ∀ given b, read given = some b → P b) : P b := by
  unfold Reads at h
  cases hgiven : setting text key with
  | none =>
    rw [hgiven] at h
    exact h ▸ husual
  | some given =>
    rw [hgiven] at h
    exact hread given b h

theorem override_bind_eq_ok {β : Type} {text : Text} {key : String} {read : Text → Option β}
    {put : β → Settings Float → Settings Float}
    {next : Settings Float → Except SettingsFault (Settings Float)} {s t : Settings Float} {old : β}
    (hput : put old s = s) :
    override text key read put s >>= next = .ok t ↔
      ∃ b, Reads text key read old b ∧ next (put b s) = .ok t := by
  unfold override Reads
  rw [bind_eq_ok]
  cases setting text key with
  | none => simp [hput]
  | some given => cases hread : read given <;> simp [hread]

def algorithmsIn (given : Text) : Option (List Algorithm) :=
  (((ConfigFile.list given).mapM algorithm).map distinctAlgorithms).toOption

/-- The algorithm that is taken where none is said. -/
def fallback (algorithms : List Algorithm) : Algorithm :=
  if algorithms.contains .logistic then .logistic else algorithms.headD .logistic

theorem readAlgorithms_eq_ok {text : Text} {s t : Settings Float} :
    readAlgorithms text s = .ok t ↔
      ∃ as, Reads text "algorithms" algorithmsIn s.algorithms as ∧
        { s with algorithms := as } = t := by
  unfold readAlgorithms Reads algorithmsIn
  cases setting text "algorithms" with
  | none => simp
  | some given =>
    dsimp only
    cases hnames : List.mapM algorithm (ConfigFile.list given) with
    | error fault => simp [Except.map, Except.toOption]
    | ok names => simp [Except.map, Except.toOption]

theorem readDefaultAlgorithm_eq_ok {text : Text} {s t : Settings Float}
    (hdefault : s.defaultAlgorithm = .logistic) :
    readDefaultAlgorithm text s = .ok t ↔
      ∃ a, Reads text "default_algorithm" Algorithm.ofName? (fallback s.algorithms) a ∧
        { s with defaultAlgorithm := a } = t := by
  unfold readDefaultAlgorithm Reads fallback algorithm
  cases setting text "default_algorithm" with
  | none =>
    dsimp only
    rw [← hdefault, ← enables]
    by_cases h : s.enables s.defaultAlgorithm = true <;> simp [h]
  | some given =>
    cases hname : Algorithm.ofName? given <;> simp [Except.map, hname]

structure Says (text : Text) (s : Settings Float) : Prop where
  algorithms : Reads text "algorithms" algorithmsIn Algorithm.all s.algorithms
  defaultAlgorithm :
    Reads text "default_algorithm" Algorithm.ofName? (fallback s.algorithms) s.defaultAlgorithm
  normalizer : Reads text "normalizer" Folding.ofName? .basic s.normalizer
  workers : Reads text "workers" Numeral.count? 0 s.workers
  chunkSize : Reads text "chunk_size" Numeral.count? 16 s.chunkSize
  limit : Reads text "limit" Numeral.count? 5 s.limit
  candidateFactor : Reads text "candidate_factor" Numeral.count? 10 s.candidateFactor
  threshold : Reads text "threshold" Numeral.float? 0.7 s.threshold
  cutoff : Reads text "cutoff" Numeral.float? 0 s.cutoff
  alignerFloor : Reads text "aligner_floor" Numeral.float? 0.05 s.alignerFloor
  alignerSupport : Reads text "aligner_support" Numeral.float? 0.5 s.alignerSupport
  deadline : Reads text "deadline_ms" Numeral.milliseconds? 0 s.deadline

theorem ofText_eq_ok {text : Text} {s : Settings Float} :
    ofText text = .ok s ↔ s.Says text ∧ s.Sound := by
  unfold ofText
  constructor
  · intro h
    obtain ⟨_, h1, h⟩ := bind_eq_ok.mp h
    obtain ⟨_, algorithms, rfl⟩ := readAlgorithms_eq_ok.mp h1
    obtain ⟨_, h2, h⟩ := bind_eq_ok.mp h
    obtain ⟨_, defaultAlgorithm, rfl⟩ := (readDefaultAlgorithm_eq_ok rfl).mp h2
    obtain ⟨_, normalizer, h⟩ := (override_bind_eq_ok rfl).mp h
    obtain ⟨_, workers, h⟩ := (override_bind_eq_ok rfl).mp h
    obtain ⟨_, chunkSize, h⟩ := (override_bind_eq_ok rfl).mp h
    obtain ⟨_, limit, h⟩ := (override_bind_eq_ok rfl).mp h
    obtain ⟨_, candidateFactor, h⟩ := (override_bind_eq_ok rfl).mp h
    obtain ⟨_, threshold, h⟩ := (override_bind_eq_ok rfl).mp h
    obtain ⟨_, cutoff, h⟩ := (override_bind_eq_ok rfl).mp h
    obtain ⟨_, alignerFloor, h⟩ := (override_bind_eq_ok rfl).mp h
    obtain ⟨_, alignerSupport, h⟩ := (override_bind_eq_ok rfl).mp h
    obtain ⟨_, deadline, h⟩ := (override_bind_eq_ok rfl).mp h
    obtain ⟨_, hvalid, h⟩ := bind_eq_ok.mp h
    obtain rfl := Except.ok.inj h
    exact ⟨⟨algorithms, defaultAlgorithm, normalizer, workers, chunkSize, limit, candidateFactor,
      threshold, cutoff, alignerFloor, alignerSupport, deadline⟩, validate_eq_ok.mp hvalid⟩
  · rintro ⟨told, sound⟩
    refine bind_eq_ok.mpr ⟨_, readAlgorithms_eq_ok.mpr ⟨_, told.algorithms, rfl⟩, ?_⟩
    refine bind_eq_ok.mpr
      ⟨_, (readDefaultAlgorithm_eq_ok rfl).mpr ⟨_, told.defaultAlgorithm, rfl⟩, ?_⟩
    refine (override_bind_eq_ok rfl).mpr ⟨_, told.normalizer, ?_⟩
    refine (override_bind_eq_ok rfl).mpr ⟨_, told.workers, ?_⟩
    refine (override_bind_eq_ok rfl).mpr ⟨_, told.chunkSize, ?_⟩
    refine (override_bind_eq_ok rfl).mpr ⟨_, told.limit, ?_⟩
    refine (override_bind_eq_ok rfl).mpr ⟨_, told.candidateFactor, ?_⟩
    refine (override_bind_eq_ok rfl).mpr ⟨_, told.threshold, ?_⟩
    refine (override_bind_eq_ok rfl).mpr ⟨_, told.cutoff, ?_⟩
    refine (override_bind_eq_ok rfl).mpr ⟨_, told.alignerFloor, ?_⟩
    refine (override_bind_eq_ok rfl).mpr ⟨_, told.alignerSupport, ?_⟩
    refine (override_bind_eq_ok rfl).mpr ⟨_, told.deadline, ?_⟩
    exact bind_eq_ok.mpr ⟨(), validate_eq_ok.mpr sound, rfl⟩

theorem nodup_distinctAlgorithms (as : List Algorithm) : (distinctAlgorithms as).Nodup := by
  induction as with
  | nil => exact List.nodup_nil
  | cons a as ih =>
    refine List.nodup_cons.mpr ⟨fun ha => ?_, ih.filter _⟩
    have hne := (List.mem_filter.mp ha).2
    simp at hne

theorem nodup_algorithmsIn {given : Text} {as : List Algorithm} (h : algorithmsIn given = some as) :
    as.Nodup := by
  unfold algorithmsIn at h
  cases hnames : (ConfigFile.list given).mapM algorithm with
  | error fault => simp [hnames, Except.map, Except.toOption] at h
  | ok names =>
    simp only [hnames, Except.map, Except.toOption, Option.some.injEq] at h
    rw [← h]
    exact nodup_distinctAlgorithms names

theorem Says.nodup {text : Text} {s : Settings Float} (told : s.Says text) :
    s.algorithms.Nodup :=
  told.algorithms.elim (by decide) fun _ _ => nodup_algorithmsIn

/-- The text that settings are loaded from, absent if there is no file. -/
def Host.text? (host : Host) (requested : Text) : Option Text :=
  let path := if requested.isEmpty then host.environment.settingsPath [] else requested
  if path.isEmpty then none else host.file path

/-- Settings are what a file says, or the usual ones where there is no file. -/
def Given (file : Option Text) (s : Settings Float) : Prop :=
  match file with
  | none => s = usual
  | some text => s.Says text

theorem Given.nodup {file : Option Text} {s : Settings Float} (given : s.Given file) :
    s.algorithms.Nodup := by
  cases file with
  | none =>
    obtain rfl := given
    decide
  | some text => exact Says.nodup given

theorem load_eq_ok {host : Host} {requested : Text} {s : Settings Float} :
    load host requested = .ok s ↔ s.Given (host.text? requested) ∧ s.Sound := by
  have hload : load host requested = match host.text? requested with
    | none => .ok usual
    | some text => ofText text := rfl
  rw [hload]
  cases host.text? requested with
  | none =>
    constructor
    · intro h
      obtain rfl := Except.ok.inj h
      exact ⟨rfl, usual_sound⟩
    · exact fun h => congrArg Except.ok h.1.symm
  | some text => exact ofText_eq_ok

end Settings

/-- Loading ends in one of two ways. Either the settings are what the file says, and then they are
valid and an engine can be made of them, or the configuration is refused, because what the file says
cannot be read or does not meet the conditions. -/
theorem Settings.load_creates_or_refuses (host : Settings.Host) (requested : Text) :
    (∃ settings, load host requested = .ok settings ∧ settings.Given (host.text? requested) ∧
      settings.validate = .ok () ∧ settings.algorithms.Nodup ∧
      settings.defaultAlgorithm ∈ settings.algorithms ∧
      ∀ slot, Engine.chooseCatalog slot = .ok .builtin → ∀ (unicode : Unicode) normalizer clock,
        let chosen := normalizer.getD
          (if settings.normalizer = .full ∧ unicode.toLatin.isSome then .full unicode
            else .basic unicode)
        Engine.create settings slot normalizer clock unicode =
          .ok ⟨{ settings with normalizer := chosen.folding }, .builtin, chosen, clock, .zero⟩) ∨
    (∃ fault, load host requested = .error fault ∧
      fault.failure.kind = some .badConfiguration ∧
      ∀ settings : Settings Float, settings.Given (host.text? requested) → ¬ settings.Sound) := by
  cases hload : load host requested with
  | ok settings =>
    obtain ⟨given, sound⟩ := load_eq_ok.mp hload
    refine .inl ⟨settings, rfl, given, validate_eq_ok.mpr sound, given.nodup, ?_, ?_⟩
    · exact List.contains_iff_mem.mp sound.defaultAlgorithm
    · exact fun slot hslot => Engine.create_builtin sound hslot
  | error fault =>
    refine .inr ⟨fault, rfl, rfl, fun settings given sound => ?_⟩
    exact nomatch hload.symm.trans (load_eq_ok.mpr ⟨given, sound⟩)

/-- An algorithm that is named twice is enabled once, and is the default where no other is said. -/
example :
    let text := Text.of "[matching]\nalgorithms = [name-based, name-based]\n"
    (Settings.ofText text).toOption.map (fun s => (s.algorithms, s.defaultAlgorithm)) =
      some ([.nameBased], .nameBased) := by
  decide +kernel

end Screening
