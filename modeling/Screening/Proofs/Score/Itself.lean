import Screening.Proofs.Feature.Itself
import Screening.Proofs.Score.Passes
import Screening.Proofs.Score.Weighing
import Screening.Schema.Builtin

namespace Screening

variable {α : Type} [Scalar α]

open Scalar (Fraction Within)

theorem Feature.name_afresh {normalizer : Normalizer} {aligner : Aligner α} {catalog : Catalog}
    {algorithm : Algorithm} {query candidate : Entity} (d : FeatureDecl α) :
    (afresh normalizer aligner catalog algorithm query candidate d).name = d.name := by
  unfold afresh ofSimilarities
  dsimp only
  split
  next => rfl
  next =>
    split
    next => exact name_ofShare d.name _
    next => split <;> rfl

theorem Evidence.find?_afresh {normalizer : Normalizer} {aligner : Aligner α} {catalog : Catalog}
    {algorithm : Algorithm} {query candidate : Entity} {decls : List (FeatureDecl α)}
    (hnodup : (decls.map FeatureDecl.name).Nodup) {d : FeatureDecl α} (hd : d ∈ decls) :
    find? (decls.map (Feature.afresh normalizer aligner catalog algorithm query candidate)) d.name =
      some (Feature.afresh normalizer aligner catalog algorithm query candidate d) := by
  induction decls with
  | nil => exact nomatch hd
  | cons d' decls ih =>
    rw [List.map_cons, List.nodup_cons] at hnodup
    rw [List.map_cons, find?_cons, Feature.name_afresh]
    rcases List.mem_cons.mp hd with rfl | hd
    · rw [if_pos rfl]
    · have hne : d'.name ≠ d.name := fun heq => hnodup.1 (heq ▸ List.mem_map_of_mem hd)
      rw [if_neg hne]
      exact ih hnodup.2 hd

namespace Logistic

theorem names_opposing : (opposing : List (FeatureDecl α)).map FeatureDecl.name =
    ["country.mismatch", "last_name.mismatch", "dob.year_mismatch", "dob.day_mismatch",
      "gender.mismatch", "orgid.mismatch", "name.numbers_mismatch"].map Text.of := rfl

/-- What speaks against a candidate is read on both sides alike and compared strictly. -/
theorem strict_opposing : ∀ d ∈ (opposing : List (FeatureDecl α)),
    d.kind ≠ .similarity ∧ d.counterparts = [] ∧ d.rules.Strict d.type := by
  unfold opposing
  simp only [List.forall_mem_cons]
  refine ⟨⟨?_, rfl, fun _ => rfl, ?_⟩, ⟨?_, rfl, fun _ => rfl, ?_⟩,
    ⟨?_, rfl, fun _ => rfl, fun _ hdate => nomatch hdate⟩,
    ⟨?_, rfl, fun _ => rfl, fun _ hdate => nomatch hdate⟩, ⟨?_, rfl, fun _ => rfl, ?_⟩,
    ⟨?_, rfl, fun _ => rfl, ?_⟩, ⟨?_, rfl, fun _ => rfl, ?_⟩, List.forall_mem_nil _⟩
  all_goals exact fun h => nomatch h

section Itself

variable [FaithfulScalar α]

theorem sign_weights : ∀ w ∈ (weights : List (Text × α)),
    0 ≤ w.2 ∨ w.1 ∈ (opposing : List (FeatureDecl α)).map FeatureDecl.name := by
  have pro (feature : Text) {m e : Nat} (h : (0 < m && m ≤ 100 && e ≤ 2) = true) :
      0 ≤ (OfScientific.ofScientific m true e : α) ∨
        feature ∈ (opposing : List (FeatureDecl α)).map FeatureDecl.name := by
    simp only [Bool.and_eq_true, decide_eq_true_eq] at h
    exact .inl (Scalar.le_of_lt (FaithfulScalar.decimal_pos h.1.1 h.1.2 h.2))
  have con {name : String} (a : α) (h : name ∈ ["country.mismatch", "last_name.mismatch",
        "dob.year_mismatch", "dob.day_mismatch", "gender.mismatch", "orgid.mismatch",
        "name.numbers_mismatch"]) :
      0 ≤ a ∨ Text.of name ∈ (opposing : List (FeatureDecl α)).map FeatureDecl.name := by
    rw [names_opposing]
    exact .inr (List.mem_map_of_mem h)
  unfold weights
  simp only [List.forall_mem_map, List.forall_mem_cons]
  exact ⟨pro _ rfl, pro _ rfl, pro _ rfl, pro _ rfl, pro _ rfl, pro _ rfl, pro _ rfl, pro _ rfl,
    pro _ rfl, pro _ rfl, pro _ rfl, pro _ rfl, pro _ rfl, pro _ rfl, con _ (by simp),
    con _ (by simp), con _ (by simp), con _ (by simp), con _ (by simp), con _ (by simp),
    con _ (by simp), List.forall_mem_nil _⟩

theorem change_nonneg_of_pos {evidence : Evidence α} (hnumeric : evidence.Numeric)
    {w : Text × α} (hwithin : Within 3 w.2) (hw : 0 ≤ w.2) : 0 ≤ (line evidence w).change := by
  cases h : evidence.present? w.1 with
  | none =>
    rw [change_of_absent h]
    exact Scalar.number_zero
  | some f =>
    have hfraction := Scalar.fraction_clamp (hnumeric.of_present h)
    rw [change_of_present h]
    exact FaithfulScalar.mul_nonneg (by omega) hwithin (LawfulScalar.within_fraction hfraction) hw
      hfraction.1

theorem change_nonneg_of_ties {evidence : Evidence α} {w : Text × α} (hwithin : Within 3 w.2)
    (hw : ∀ f, evidence.present? w.1 = some f → Scalar.Ties f.value 0) :
    0 ≤ (line evidence w).change := by
  cases h : evidence.present? w.1 with
  | none =>
    rw [change_of_absent h]
    exact Scalar.number_zero
  | some f =>
    have hvalue := (hw f h).clamp
    rw [Scalar.clamp_zero] at hvalue
    rw [change_of_present h]
    exact (FaithfulScalar.mul_zero (by omega) hwithin hvalue).2

theorem change_itself_nonneg {folding : Folding} {fold : Text → Text} {aligner : Aligner α}
    {catalog : Catalog} {e : Entity} (hfloor : aligner.floor ≤ 1) (ht : Fraction aligner.support)
    {evidence : Evidence α}
    (h : Evidence.build (.ofFold folding fold) aligner catalog .logistic features e e =
      .ok evidence) {w : Text × α} (hw : w ∈ (weights : List (Text × α))) :
    0 ≤ (line evidence w).change := by
  rcases sign_weights w hw with hpos | hopposing
  · exact change_nonneg_of_pos (Evidence.numeric_build ht h) (within_weights w hw) hpos
  · refine change_nonneg_of_ties (within_weights w hw) fun f hf => ?_
    obtain ⟨hfind, hpresent⟩ := Evidence.present?_eq_some.mp hf
    obtain rfl := Except.ok.inj
      ((Evidence.build_features folding fold aligner catalog .logistic e e).symm.trans h)
    obtain ⟨d, hd, hname⟩ := List.mem_map.mp hopposing
    have hnodup : ((features : List (FeatureDecl α)).map FeatureDecl.name).Nodup := by
      rw [map_name_features]
      exact weights_nodup
    have hfound : Evidence.find? (features.map (Feature.afresh (.ofFold folding fold) aligner catalog
        .logistic e e)) d.name = _ :=
      Evidence.find?_afresh hnodup (List.mem_append_right supporting hd)
    rw [hname] at hfound
    obtain rfl := Option.some.inj (hfind.symm.trans hfound)
    obtain ⟨hkind, hcounterparts, hstrict⟩ := strict_opposing d hd
    have hspotless := Feature.spotless_afresh folding hfloor ht hcounterparts hstrict hpresent
    rwa [if_neg hkind] at hspotless

end Itself

end Logistic

section Itself

variable [FaithfulScalar α]

theorem Aligner.clamped_of_fraction {floor support : α} (hfloor : Fraction floor)
    (hsupport : Fraction support) : clamped floor support = ⟨floor, support⟩ := by
  rw [clamped, Scalar.clamp_of_mem hfloor.1 hfloor.2, Scalar.clamp_of_mem hsupport.1 hsupport.2]

theorem Evidence.present?_of_named (folding : Folding) {fold : Text → Text} {aligner : Aligner α}
    {catalog : Catalog} {algorithm : Algorithm} {e : Entity} (hfloor : aligner.floor ≤ 1)
    (ht : Fraction aligner.support) (name : String) {weights : NameWeights α}
    (hweights : weights.literalWins = true) (decls : List (FeatureDecl α))
    (h : ∃ v ∈ Feature.namesRead catalog algorithm e, (fold v).dropPunctuation ≠ []) :
    let d : FeatureDecl α := .similarity name .name NameBased.properties (.ofWeights weights)
    ∃ f, Evidence.present? ((d :: decls).map
        (Feature.afresh (.ofFold folding fold) aligner catalog algorithm e e)) (Text.of name) =
      some f ∧ f.value = 1 := by
  intro d
  obtain ⟨hpresent, hvalue⟩ := Feature.afresh_of_named folding hfloor ht name hweights h
  exact ⟨_, present?_head (Feature.name_afresh d) hpresent, hvalue⟩

/-- An entity of which a name can be compared matches itself by its names, and no line of the
explanation of a logistic score is held against it. -/
theorem Algorithm.score_itself (folding : Folding) (fold : Text → Text) (catalog : Catalog)
    (e : Entity) {floor support : α} (hfloor : Fraction floor) (hsupport : Fraction support) :
    let build (algorithm : Algorithm) := Evidence.build (.ofFold folding fold)
      (.clamped floor support) catalog algorithm algorithm.features e e
    let named (algorithm : Algorithm) :=
      ∃ v ∈ Feature.namesRead catalog algorithm e, (fold v).dropPunctuation ≠ []
    (named .nameBased → ∃ evidence, build .nameBased = .ok evidence ∧
      (NameBased.score evidence).score = 1) ∧
    (named .logistic → ∃ evidence, build .logistic = .ok evidence ∧
      (∃ f, evidence.present? (Text.of "name.literal") = some f ∧ f.value = 1) ∧
      ∀ line ∈ (Logistic.score evidence).lines, 0 ≤ line.change) := by
  intro build named
  have haligner := Aligner.clamped_of_fraction hfloor hsupport
  have hfloor' : (Aligner.clamped floor support).floor ≤ 1 := by
    rw [haligner]
    exact hfloor.2
  have hsupport' : Fraction (Aligner.clamped floor support).support := by
    rw [haligner]
    exact hsupport
  refine ⟨fun hnamed => ?_, fun hnamed => ?_⟩
  · have hweights : (NameBased.weights : NameWeights α).literalWins = true := rfl
    obtain ⟨f, hf, hvalue⟩ := Evidence.present?_of_named folding hfloor' hsupport' "name.match"
      hweights [] hnamed
    refine ⟨_, Evidence.build_features folding fold _ catalog .nameBased e e, ?_⟩
    have hscore := congrArg ExplainedScore.score (NameBased.score_of_present hf)
    rw [hvalue, Scalar.clamp_one] at hscore
    exact hscore
  · have hbuild := Evidence.build_features folding fold (.clamped floor support) catalog .logistic
      e e
    refine ⟨_, hbuild, ?_, fun line hline => ?_⟩
    · exact Evidence.present?_of_named folding hfloor' hsupport' "name.literal" rfl _ hnamed
    · rw [Logistic.lines_score] at hline
      obtain ⟨w, hw, rfl⟩ := List.mem_map.mp hline
      exact Logistic.change_itself_nonneg hfloor' hsupport' hbuild hw

/-- An entity with a year of birth, something that is no date and something that is no country. -/
theorem Algorithm.score_itself_of_malformed :
    let e : Entity := ⟨Text.of "1", Text.of "Person",
      [⟨Text.of "name", [Text.of "Ann Lee"]⟩, ⟨Text.of "lastName", [Text.of "Lee", Text.of "-"]⟩,
        ⟨Text.of "birthDate", [Text.of "1975", Text.of "March"]⟩,
        ⟨Text.of "nationality", [Text.of "Atlantis"]⟩]⟩
    let build (algorithm : Algorithm) : Except Interruption (Evidence Float) :=
      Evidence.build .basic (.clamped 1 0.5) .builtin algorithm algorithm.features e e
    (∃ evidence, build .nameBased = .ok evidence ∧ (NameBased.score evidence).score = 1) ∧
      ∃ evidence, build .logistic = .ok evidence ∧
        ∀ line ∈ (Logistic.score evidence).lines, 0 ≤ line.change := by
  intro e build
  have hfloor : Fraction (1 : Float) := ⟨by decide +kernel, by decide +kernel⟩
  have hsupport : Fraction (0.5 : Float) := ⟨by decide +kernel, by decide +kernel⟩
  obtain ⟨hname, hlogistic⟩ := Algorithm.score_itself .basic Unicode.ascii.fold .builtin e hfloor hsupport
  obtain ⟨evidence, hbuild, _, hlines⟩ := hlogistic (by decide +kernel)
  exact ⟨hname (by decide +kernel), evidence, hbuild, hlines⟩

end Itself

end Screening
