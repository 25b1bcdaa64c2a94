import Mathlib.Tactic.NormNum
import Screening.Config.Settings
import Screening.Proofs.Score.Itself

namespace Screening

variable {K : Type} [ExactScalar K]

open Scalar (Fraction)

namespace IncompleteDate

theorem monthAgreement_self (d : IncompleteDate) : (monthAgreement d d : K) = 1 ∨
    (monthAgreement d d : K) = 0.85 ∨ (monthAgreement d d : K) = 0.7 := by
  unfold monthAgreement
  cases d.month with
  | none => simp
  | some month =>
    cases d.day with
    | none => simp
    | some day => simp

theorem seven_tenths_le_self (d : IncompleteDate) : (0.7 : K) ≤ monthAgreement d d := by
  rcases monthAgreement_self (K := K) d with h | h | h <;> rw [h] <;> norm_num

theorem fraction_monthAgreement (d e : IncompleteDate) : Fraction (monthAgreement d e : K) := by
  unfold monthAgreement Fraction
  split
  next =>
    split
    next =>
      split
      next => split <;> norm_num
      next => norm_num
    next => split <;> norm_num
  next => norm_num

theorem le_self_of_le_seven_tenths {s : K} (h : s ≤ 0.7) (d : IncompleteDate) :
    s ≤ monthAgreement d d :=
  le_trans h (seven_tenths_le_self d)

theorem monthAgreement_le_self (d e : IncompleteDate) :
    (monthAgreement d e : K) ≤ monthAgreement d d ∨
      (monthAgreement d e : K) ≤ monthAgreement e e := by
  obtain ⟨year, dm, dd⟩ := d
  obtain ⟨_, em, ed⟩ := e
  cases dm with
  | none => exact .inl (le_self_of_le_seven_tenths (by simp [monthAgreement]) _)
  | some m =>
    cases em with
    | none => exact .inr (le_self_of_le_seven_tenths (by simp [monthAgreement]) _)
    | some n =>
      by_cases hmonth : m = n
      · cases dd with
        | none => exact .inl (by simp [monthAgreement, hmonth])
        | some day =>
          cases ed with
          | none => exact .inr (by simp [monthAgreement, hmonth])
          | some day' =>
            refine .inl ?_
            have hself : (monthAgreement ⟨year, some m, some day⟩ ⟨year, some m, some day⟩ : K) =
                1 := by simp [monthAgreement]
            rw [hself]
            exact (fraction_monthAgreement _ _).2
      · refine .inl (le_self_of_le_seven_tenths ?_ _)
        simp only [monthAgreement, hmonth, if_false]
        split <;> norm_num

theorem dates_self {v : Text} {d : IncompleteDate} (h : ofText? v = some d) :
    Comparison.dates .any v v = some (monthAgreement d d : K) := by
  simp [Comparison.dates, h, agreement]

theorem dates_of_pos {v w : Text} {s : K} (h : Comparison.dates .any v w = some s) (hpos : 0 < s) :
    ∃ d e, ofText? v = some d ∧ ofText? w = some e ∧ s = monthAgreement d e := by
  obtain ⟨d, hd, h⟩ := Option.bind_eq_some_iff.mp h
  obtain ⟨e, he, h⟩ := Option.bind_eq_some_iff.mp h
  refine ⟨d, e, hd, he, ?_⟩
  simp only [agreement, reduceCtorEq, decide_false, Bool.false_and, Bool.false_eq_true, if_false] at h
  split at h
  next =>
    obtain rfl := Option.some.inj h
    exact absurd hpos (lt_irrefl 0)
  next => exact (Option.some.inj h).symm

theorem dates_of_clamp_pos {v w : Text} {s : K}
    (h : s = Scalar.clamp ((Comparison.dates .any v w).getD 0)) (hpos : 0 < s) :
    ∃ d e, ofText? v = some d ∧ ofText? w = some e ∧ s = monthAgreement d e := by
  cases hdates : Comparison.dates (α := K) .any v w with
  | none =>
    rw [hdates, Option.getD_none, Scalar.clamp_zero] at h
    exact absurd h (ne_of_gt hpos)
  | some t =>
    rw [hdates, Option.getD_some] at h
    have htpos : 0 < t := by
      by_contra hneg
      have hle := Scalar.clamp_mono (not_lt.mp hneg)
      rw [Scalar.clamp_zero, ← h] at hle
      exact absurd hpos (not_lt.mpr hle)
    obtain ⟨d, e, hd, he, rfl⟩ := dates_of_pos hdates htpos
    have hfraction := fraction_monthAgreement (K := K) d e
    exact ⟨d, e, hd, he, h.trans (Scalar.clamp_of_mem hfraction.1 hfraction.2)⟩

end IncompleteDate

namespace Feature

open IncompleteDate

def birthDate : FeatureDecl K := .similarity "dob.match" .date ["birthDate"] .usual

def birthDatesRead (catalog : Catalog) (e : Entity) : List Text :=
  meaningful (e.gather (propertiesRead catalog e.schema .date [Text.of "birthDate"] .nameQualified))

/-- Whether a date among some values agrees with itself as far as a floor asks for. -/
def Reaches (floor : K) (values : List Text) : Prop :=
  ∃ v ∈ values, ∃ d, ofText? v = some d ∧ floor ≤ monthAgreement d d

variable {aligner : Aligner K} {catalog : Catalog} {folding : Folding} {fold : Text → Text}
  {e : Entity}

theorem eligible_iff_reaches {values : List Text} :
    (∃ p, aligner.Eligible values.length values.length (fun q c =>
      ((((values.map fun v => values.map fun w => Comparison.dates .any v w).getD q []).getD c
        none).getD 0)) p) ↔ Reaches aligner.floor values := by
  let cells (q c : Nat) : K :=
    (((values.map fun v => values.map fun w => Comparison.dates .any v w).getD q []).getD c
      none).getD 0
  have hcell {i j : Nat} (hi : i < values.length) (hj : j < values.length) :
      cells i j = (Comparison.dates .any values[i] values[j]).getD 0 := by
    simp [cells, List.getD_eq_getElem?_getD, hi, hj]
  constructor
  · rintro ⟨⟨i, j, s⟩, hi, hj, hclamped, hpos, hfloor⟩
    dsimp only at hi hj hpos hfloor
    change s = Scalar.clamp (cells i j) at hclamped
    rw [hcell hi hj] at hclamped
    obtain ⟨d, d', hd, hd', rfl⟩ := dates_of_clamp_pos hclamped hpos
    rcases monthAgreement_le_self (K := K) d d' with hle | hle
    · exact ⟨values[i], List.getElem_mem hi, d, hd, le_trans hfloor hle⟩
    · exact ⟨values[j], List.getElem_mem hj, d', hd', le_trans hfloor hle⟩
  · rintro ⟨v, hv, d, hd, hfloor⟩
    obtain ⟨i, hi, rfl⟩ := List.mem_iff_getElem.mp hv
    have hself : cells i i = monthAgreement d d := by
      rw [hcell hi hi, dates_self hd, Option.getD_some]
    have hfraction := fraction_monthAgreement (K := K) d d
    refine ⟨⟨i, i, monthAgreement d d⟩, hi, hi, ?_, ?_, hfloor⟩
    · change _ = Scalar.clamp (cells i i)
      rw [hself, Scalar.clamp_of_mem hfraction.1 hfraction.2]
    · exact lt_of_lt_of_le (by norm_num) (seven_tenths_le_self d)

theorem told_iff_read {values : List Text} :
    (¬ ((values.map fun v => values.map fun w => Comparison.dates (α := K) .any v w).all fun row =>
      row.all Option.isNone) = true) ↔ ∃ v ∈ values, ∃ d, ofText? v = some d := by
  rw [told_iff]
  constructor
  · rintro ⟨v, hv, w, _, _, hdates⟩
    obtain ⟨d, hd, _⟩ := Option.bind_eq_some_iff.mp hdates
    exact ⟨v, hv, d, hd⟩
  · rintro ⟨v, hv, d, hd⟩
    exact ⟨v, hv, v, hv, _, dates_self hd⟩

/-- The date of birth disagrees with itself if it can be read, but none reaches the floor. -/
theorem afresh_birthDate (ht : Fraction aligner.support) :
    let f := afresh (.ofFold folding fold) aligner catalog .nameQualified e e birthDate
    let values := birthDatesRead catalog e
    (f.presence = .present ∧ f.value ≤ 0) ↔
      (∃ v ∈ values, ∃ d, ofText? v = some d) ∧ ¬ Reaches aligner.floor values := by
  intro f values
  have hread : (read catalog .nameQualified e e (birthDate (K := K))).query = values := by
    unfold read
    rw [lookupSchema_self]
    rfl
  have hf : f = _ := afresh_self (d := birthDate) rfl
  rw [hread] at hf
  let table := values.map fun v => values.map fun w => Comparison.dates (α := K) .any v w
  have hf : f = if values.isEmpty then missing (birthDate (K := K)).name
      else ofSimilarities aligner birthDate values.length values.length table := hf
  split at hf
  next hempty =>
    rw [hf, List.isEmpty_iff.mp hempty]
    simp [missing]
  next hnonempty =>
    unfold ofSimilarities at hf
    split at hf
    next hnone =>
      have hread := mt told_iff_read.mpr (not_not.mpr hnone)
      rw [hf]
      simp [hread]
    next htold =>
      have hread := told_iff_read.mp htold
      rw [hf]
      dsimp only [birthDate, FeatureDecl.similarity]
      rw [← eligible_iff_reaches, ← Aligner.aggregate_align_pos_iff ht, not_lt]
      exact ⟨fun h => ⟨hread, h.2⟩, fun h => ⟨rfl, h.2⟩⟩

end Feature

namespace NameQualified

theorem features_nodup : ((features : List (FeatureDecl K)).map FeatureDecl.name).Nodup := by
  have hnames : (features : List (FeatureDecl K)).map FeatureDecl.name =
      (features : List (FeatureDecl Float)).map FeatureDecl.name := rfl
  rw [hnames]
  decide +kernel

def evidenceOfItself (folding : Folding) (fold : Text → Text) (aligner : Aligner K)
    (catalog : Catalog) (e : Entity) : Evidence K :=
  features.map (Feature.afresh (.ofFold folding fold) aligner catalog .nameQualified e e)

variable {folding : Folding} {fold : Text → Text} {aligner : Aligner K} {catalog : Catalog}
  {e : Entity}

theorem disagrees_itself_iff {q : Qualifier K} {d : FeatureDecl K} (hd : d ∈ features)
    (hname : d.name = q.feature) (hpenalty : q.penalty < 1) :
    let f := Feature.afresh (.ofFold folding fold) aligner catalog .nameQualified e e d
    disagrees (evidenceOfItself folding fold aligner catalog e) q = true ↔
      f.presence = .present ∧ f.value ≤ 0 := by
  intro f
  have hfound : (evidenceOfItself folding fold aligner catalog e).find? q.feature = some f :=
    hname ▸ Evidence.find?_afresh features_nodup hd
  rw [disagrees_iff]
  constructor
  · rintro ⟨g, hg, hvalue, _⟩
    obtain ⟨hfind, hpresent⟩ := Evidence.present?_eq_some.mp hg
    obtain rfl := Option.some.inj (hfound.symm.trans hfind)
    exact ⟨hpresent, hvalue⟩
  · rintro ⟨hpresent, hvalue⟩
    exact ⟨f, Evidence.present?_eq_some.mpr ⟨hfound, hpresent⟩, hvalue, hpenalty⟩

theorem not_disagrees_of_strict (hfloor : aligner.floor ≤ 1) (ht : Fraction aligner.support)
    {q : Qualifier K} {d : FeatureDecl K} (hd : d ∈ features) (hname : d.name = q.feature)
    (hpenalty : q.penalty < 1) (hkind : d.kind = .similarity) (hcounterparts : d.counterparts = [])
    (hstrict : d.rules.Strict d.type) :
    ¬ disagrees (evidenceOfItself folding fold aligner catalog e) q = true := by
  intro hdisagrees
  obtain ⟨hpresent, hvalue⟩ := (disagrees_itself_iff hd hname hpenalty).mp hdisagrees
  have hspotless := Feature.spotless_afresh folding hfloor ht hcounterparts hstrict hpresent
  rw [if_pos hkind] at hspotless
  rw [hspotless] at hvalue
  exact absurd hvalue (not_le.mpr zero_lt_one)

def birthDate : Qualifier K := ⟨Text.of "dob.match", 0.10, 0.70, 0.6⟩

theorem disagrees_birthDate_iff (ht : Fraction aligner.support) :
    disagrees (evidenceOfItself folding fold aligner catalog e) birthDate = true ↔
      (∃ v ∈ Feature.birthDatesRead catalog e, ∃ d, IncompleteDate.ofText? v = some d) ∧
        ¬ Feature.Reaches aligner.floor (Feature.birthDatesRead catalog e) := by
  have hmem : (Feature.birthDate : FeatureDecl K) ∈ features := .tail _ (.tail _ (.head _))
  have hpenalty : (birthDate : Qualifier K).penalty < 1 := by norm_num [birthDate]
  exact (disagrees_itself_iff hmem rfl hpenalty).trans (Feature.afresh_birthDate ht)

theorem foldl_raised_one (evidence : Evidence K) : qualifiers.foldl (raised evidence) 1 = 1 := by
  refine List.foldlRecOn qualifiers _ (motive := fun s => s = 1) rfl ?_
  rintro s rfl q hq
  have hraised := raised_mem evidence (sound_qualifiers q hq) Scalar.fraction_one
  exact le_antisymm hraised.2 hraised.1

/-- Of the qualifiers of an entity and itself only the date of birth can lower the score. -/
theorem foldl_lowered_itself (hfloor : aligner.floor ≤ 1) (ht : Fraction aligner.support) (s : K) :
    qualifiers.foldl (lowered (evidenceOfItself folding fold aligner catalog e)) s =
      lowered (evidenceOfItself folding fold aligner catalog e) s birthDate := by
  let evidence := evidenceOfItself folding fold aligner catalog e
  have hcountry : ¬ disagrees evidence ⟨Text.of "country.match", 0.05, 0.85, 0.8⟩ = true := by
    have hmem : FeatureDecl.similarity "country.match" .country [] .usual ∈
        (features : List (FeatureDecl K)) := .tail _ (.head _)
    exact not_disagrees_of_strict hfloor ht hmem rfl (by norm_num) rfl rfl
      ⟨fun h => (nomatch h), fun h => (nomatch h)⟩
  have hgender : ¬ disagrees evidence ⟨Text.of "gender.match", 0.02, 0.80, 0.7⟩ = true := by
    have hmem : FeatureDecl.similarity "gender.match" .gender ["gender"] .usual ∈
        (features : List (FeatureDecl K)) := .tail _ (.tail _ (.tail _ (.head _)))
    exact not_disagrees_of_strict hfloor ht hmem rfl (by norm_num) rfl rfl
      ⟨fun h => (nomatch h), fun h => (nomatch h)⟩
  have hidentifier : ¬ disagrees evidence ⟨Text.of "identifier.match", 0.30, 1, 1⟩ = true := by
    intro hdisagrees
    obtain ⟨_, _, _, hpenalty⟩ := disagrees_iff.mp hdisagrees
    exact lt_irrefl 1 hpenalty
  change lowered evidence (lowered evidence (lowered evidence (lowered evidence s _) _) _) _ = _
  rw [lowered_of_not_disagrees _ hidentifier, lowered_of_not_disagrees _ hgender,
    lowered_of_not_disagrees _ hcountry]
  rfl

/-- An entity of which a name can be compared matches itself, unless it has a date of birth that can
be read and none agrees with itself as far as the floor asks for. No floor up to 0.7 asks too much. -/
theorem score_of_own_date (folding : Folding) (fold : Text → Text) (catalog : Catalog) (e : Entity)
    {floor support : K} (hfloor : Fraction floor) (hsupport : Fraction support)
    (hnamed : ∃ v ∈ Feature.namesRead catalog .nameQualified e, (fold v).dropPunctuation ≠ []) :
    let dates := Feature.birthDatesRead catalog e
    let isRead := ∃ v ∈ dates, ∃ d, IncompleteDate.ofText? v = some d
    ∃ evidence, Evidence.build (.ofFold folding fold) (.clamped floor support) catalog .nameQualified
        NameQualified.features e e = .ok evidence ∧
      (¬ isRead ∨ Feature.Reaches floor dates → (score evidence).score = 1) ∧
      (isRead ∧ ¬ Feature.Reaches floor dates → (score evidence).score = 0.6) ∧
      (floor ≤ 0.7 → (score evidence).score = 1) := by
  intro dates isRead
  rw [Aligner.clamped_of_fraction hfloor hsupport]
  let aligner : Aligner K := ⟨floor, support⟩
  let evidence := evidenceOfItself folding fold aligner catalog e
  have hweights : (NameBased.weights : NameWeights K).literalWins = true := rfl
  obtain ⟨name, hname, hvalue⟩ : ∃ f, evidence.present? NameBased.feature = some f ∧ f.value = 1 :=
    Evidence.present?_of_named folding hfloor.2 hsupport "name.match" hweights _ hnamed
  have hscore : (score evidence).score = Scalar.clamp (lowered evidence 1 birthDate) := by
    rw [score_of_name hname, hvalue, Scalar.clamp_one, foldl_raised_one,
      foldl_lowered_itself hfloor.2 hsupport]
  have hdisagrees : disagrees evidence birthDate = true ↔ isRead ∧ ¬ Feature.Reaches floor dates :=
    disagrees_birthDate_iff hsupport
  have hwhole : ¬ isRead ∨ Feature.Reaches floor dates → (score evidence).score = 1 := by
    intro h
    have hnot : ¬ disagrees evidence birthDate = true := by
      rw [hdisagrees]
      rintro ⟨hread, hpassed⟩
      exact h.elim (fun hunread => hunread hread) hpassed
    rw [hscore, lowered_of_not_disagrees _ hnot, Scalar.clamp_one]
  refine ⟨evidence, Evidence.build_features folding fold aligner catalog .nameQualified e e, hwhole,
    fun h => ?_, fun hlow => hwhole ?_⟩
  · rw [hscore, lowered_of_disagrees _ (hdisagrees.mpr h), penalised_eq]
    have hmin : min (1 * (birthDate : Qualifier K).penalty) (birthDate : Qualifier K).cap = 0.6 := by
      norm_num [birthDate]
    rw [hmin]
    exact Scalar.clamp_of_mem (by norm_num) (by norm_num)
  · by_cases hread : isRead
    · obtain ⟨v, hv, d, hd⟩ := hread
      exact .inr ⟨v, hv, d, hd, le_trans hlow (IncompleteDate.seven_tenths_le_self d)⟩
    · exact .inl hread

def bornIn (year : String) : Entity :=
  ⟨Text.of "e", Text.of "Person",
    [⟨Text.of "name", [Text.of "Ali Hassan"]⟩, ⟨Text.of "birthDate", [Text.of year]⟩]⟩

/-- A floor of 0.8 passes over a year that is the same on both sides, one of 0.05 does not. -/
theorem score_of_own_date_of_year :
    let build (floor : ℚ) := Evidence.build .basic (.clamped floor 0.5) .builtin .nameQualified
      features (bornIn "1975") (bornIn "1975")
    (∃ evidence, build 0.8 = .ok evidence ∧ (score evidence).score = 0.6) ∧
      ∃ evidence, build 0.05 = .ok evidence ∧ (score evidence).score = 1 := by
  intro build
  have hdates : Feature.birthDatesRead .builtin (bornIn "1975") = [Text.of "1975"] := by
    decide +kernel
  have hdate : IncompleteDate.ofText? (Text.of "1975") = some ⟨1975, none, none⟩ := by
    decide +kernel
  have hhalf : Fraction (0.5 : ℚ) := ⟨by norm_num, by norm_num⟩
  have hhigh : Fraction (0.8 : ℚ) := ⟨by norm_num, by norm_num⟩
  have hlow : Fraction (0.05 : ℚ) := ⟨by norm_num, by norm_num⟩
  have hnamed : ∃ v ∈ Feature.namesRead .builtin .nameQualified (bornIn "1975"),
      (Unicode.ascii.fold v).dropPunctuation ≠ [] := by decide +kernel
  have hread : ∃ v ∈ Feature.birthDatesRead .builtin (bornIn "1975"),
      ∃ d, IncompleteDate.ofText? v = some d := by
    rw [hdates]
    exact ⟨_, List.mem_singleton_self _, _, hdate⟩
  have hpassed : ¬ Feature.Reaches (0.8 : ℚ) (Feature.birthDatesRead .builtin (bornIn "1975")) := by
    rw [hdates]
    rintro ⟨v, hv, d, hd, hfloor⟩
    obtain rfl := List.mem_singleton.mp hv
    obtain rfl := Option.some.inj (hdate.symm.trans hd)
    norm_num [IncompleteDate.monthAgreement] at hfloor
  obtain ⟨evidence, hbuild, _, hpenalised, _⟩ :=
    score_of_own_date .basic Unicode.ascii.fold .builtin (bornIn "1975") hhigh hhalf hnamed
  obtain ⟨evidence', hbuild', _, _, hwhole⟩ :=
    score_of_own_date .basic Unicode.ascii.fold .builtin (bornIn "1975") hlow hhalf hnamed
  exact ⟨⟨evidence, hbuild, hpenalised ⟨hread, hpassed⟩⟩, evidence', hbuild', hwhole (by norm_num)⟩

/-- Settings that an engine accepts, and a person who does not match herself under them. -/
theorem own_year_penalised :
    let settings : Settings Float := { Settings.usual with alignerFloor := 0.8 }
    settings.validate = .ok () ∧
      (∃ v ∈ Feature.namesRead .builtin .nameQualified (bornIn "1975"),
        (Text.lower v).dropPunctuation ≠ []) ∧
      ∃ evidence, Evidence.build .basic (.clamped settings.alignerFloor settings.alignerSupport)
          .builtin .nameQualified features (bornIn "1975") (bornIn "1975") = .ok evidence ∧
        (score evidence).score < 1 := by
  intro settings
  exact ⟨by decide +kernel, by decide +kernel, _,
    Evidence.build_features .basic Unicode.ascii.fold _ .builtin .nameQualified _ _,
    by decide +kernel⟩

end NameQualified

end Screening
