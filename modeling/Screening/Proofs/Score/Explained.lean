import Mathlib.Data.List.Forall2
import Screening.Proofs.Score.Logistic
import Screening.Proofs.Score.Passes

namespace Screening

/-- A line for the feature of a name. It changes nothing unless the feature is present. -/
structure ScoreLine.Tells {α : Type} [Scalar α] (evidence : Evidence α) (name : Text)
    (line : ScoreLine α) : Prop where
  feature : line.feature = name
  presence : line.presence = evidence.presence name
  absent : line.presence ≠ .present → line.change = 0

namespace ScoreLine

variable {α : Type} [Scalar α] {evidence : Evidence α} {name : Text}

theorem Tells.of_present {f : Feature α} (h : evidence.present? name = some f)
    (value weight change : α) : Tells evidence name ⟨name, value, weight, change, f.presence⟩ := by
  have hpresence := (Evidence.present?_eq_some.mp h).2
  have hpresent := Evidence.presence_eq_present.mpr ⟨f, h⟩
  exact ⟨rfl, hpresence.trans hpresent.symm, fun habsent => absurd hpresence habsent⟩

theorem Tells.of_unchanged (value weight : α) :
    Tells evidence name ⟨name, value, weight, 0, evidence.presence name⟩ :=
  ⟨rfl, rfl, fun _ => rfl⟩

end ScoreLine

namespace NameBased

theorem lines_tell {α : Type} [Scalar α] (evidence : Evidence α) :
    List.Forall₂ (ScoreLine.Tells evidence) [feature] (score evidence).lines := by
  cases hname : evidence.present? feature with
  | none =>
    rw [score_of_absent hname]
    exact .cons (.of_unchanged ..) .nil
  | some name =>
    rw [score_of_present hname]
    exact .cons (.of_present hname ..) .nil

theorem sum_changes {K : Type} [ExactScalar K] (evidence : Evidence K) :
    ((score evidence).lines.map ScoreLine.change).sum = (score evidence).score := by
  cases hname : evidence.present? feature with
  | none =>
    rw [score_of_absent hname]
    exact List.sum_singleton
  | some name =>
    rw [score_of_present hname]
    exact List.sum_singleton

end NameBased

namespace NameQualified

variable {K : Type} [ExactScalar K] {evidence : Evidence K}

theorem sum_boostAll (evidence : Evidence K) (qs : List (Qualifier K)) (score : K) :
    (boostAll evidence qs score).1 =
      score + ((boostAll evidence qs score).2.map ScoreLine.change).sum := by
  induction qs generalizing score with
  | nil => simp [boostAll]
  | cons q qs ih =>
    rw [boostAll]
    split
    next f hf =>
      simp only [List.map_cons, List.sum_cons]
      rw [ih]
      ring
    next =>
      simp only [List.map_cons, List.sum_cons, zero_add]
      exact ih score

/-- The line of a qualifier before disagreement is looked at. -/
structure Opens (evidence : Evidence K) (q : Qualifier K) (line : ScoreLine K) : Prop where
  feature : line.feature = q.feature
  presence : line.presence = evidence.presence q.feature
  unmoved : (¬ ∃ f, evidence.present? q.feature = some f ∧ 0 < f.value) → line.change = 0

theorem boostAll_opens (evidence : Evidence K) (qs : List (Qualifier K)) (score : K) :
    List.Forall₂ (Opens evidence) qs (boostAll evidence qs score).2 := by
  induction qs generalizing score with
  | nil => exact .nil
  | cons q qs ih =>
    rw [boostAll]
    split
    next f hf =>
      rw [Option.filter_eq_some_iff, decide_eq_true_eq] at hf
      exact .cons ⟨rfl, rfl, fun h => absurd ⟨f, hf⟩ h⟩ (ih _)
    next => exact .cons ⟨rfl, rfl, fun _ => rfl⟩ (ih _)

theorem Opens.of_disagrees {q : Qualifier K} {line : ScoreLine K} (h : Opens evidence q line)
    (hq : disagrees evidence q = true) : line.change = 0 := by
  obtain ⟨f, hf, hvalue, _⟩ := disagrees_iff.mp hq
  refine h.unmoved fun ⟨g, hg, hpos⟩ => ?_
  obtain rfl := Option.some.inj (hf.symm.trans hg)
  exact not_lt.mpr hvalue hpos

/-- A disagreeing qualifier had changed nothing before, so that its line may be written over. -/
theorem sum_penaliseAll {qs : List (Qualifier K)} {lines : List (ScoreLine K)}
    (h : List.Forall₂ (Opens evidence) qs lines) (score : K) :
    (penaliseAll evidence qs lines score).1 + (lines.map ScoreLine.change).sum =
      score + ((penaliseAll evidence qs lines score).2.map ScoreLine.change).sum := by
  induction h generalizing score with
  | nil => simp [penaliseAll]
  | @cons q line qs lines hline _ ih =>
    rw [penaliseAll]
    split
    next hq =>
      have hnone := hline.of_disagrees hq
      have hrest := ih (penalised q score)
      simp only [List.map_cons, List.sum_cons, hnone]
      linarith
    next =>
      have hrest := ih score
      simp only [List.map_cons, List.sum_cons]
      linarith

theorem penaliseAll_tells {qs : List (Qualifier K)} {lines : List (ScoreLine K)}
    (h : List.Forall₂ (Opens evidence) qs lines) (score : K) :
    List.Forall₂ (ScoreLine.Tells evidence) (qs.map Qualifier.feature)
      (penaliseAll evidence qs lines score).2 := by
  induction h generalizing score with
  | nil => exact .nil
  | @cons q line qs lines hline _ ih =>
    rw [penaliseAll, List.map_cons]
    split
    next hq =>
      obtain ⟨f, hf, _⟩ := disagrees_iff.mp hq
      have hpresent := Evidence.presence_eq_present.mpr ⟨f, hf⟩
      exact .cons ⟨hline.feature, hline.presence,
        fun h => absurd (hline.presence.trans hpresent) h⟩ (ih _)
    next =>
      refine .cons ⟨hline.feature, hline.presence, fun h => hline.unmoved ?_⟩ (ih _)
      rintro ⟨f, hf, _⟩
      exact h (hline.presence.trans (Evidence.presence_eq_present.mpr ⟨f, hf⟩))

theorem lines_tell (evidence : Evidence K) :
    List.Forall₂ (ScoreLine.Tells evidence)
      ([NameBased.feature] ++ (qualifiers : List (Qualifier K)).map Qualifier.feature)
      (score evidence).lines := by
  unfold score
  dsimp only
  split
  next =>
    refine List.rel_append (NameBased.lines_tell evidence) ?_
    rw [List.forall₂_map_left_iff, List.forall₂_map_right_iff, List.forall₂_same]
    exact fun q _ => .of_unchanged ..
  next =>
    exact List.rel_append (NameBased.lines_tell evidence)
      (penaliseAll_tells (boostAll_opens ..) _)

/-- What all lines changed after the name adds up to the score before it is brought into the unit
interval, where it lies already. -/
theorem sum_passes (evidence : Evidence K) {start : K} (hstart : Scalar.Fraction start) :
    let opened := boostAll evidence qualifiers start
    let closed := penaliseAll evidence qualifiers opened.2 opened.1
    start + (closed.2.map ScoreLine.change).sum = Scalar.clamp closed.1 := by
  intro opened closed
  have hopened : opened.1 = start + (opened.2.map ScoreLine.change).sum := sum_boostAll ..
  have hclosed := sum_penaliseAll (boostAll_opens evidence qualifiers start) opened.1
  have hraised : Scalar.Fraction opened.1 := by
    rw [boostAll_score]
    exact fraction_foldl_raised evidence sound_qualifiers hstart
  have hlowered : 0 ≤ closed.1 ∧ closed.1 ≤ opened.1 := by
    rw [penaliseAll_score (length_boostAll _ _)]
    exact foldl_lowered_mem evidence sound_qualifiers hraised
  rw [Scalar.clamp_of_mem hlowered.1 (le_trans hlowered.2 hraised.2)]
  linarith

theorem sum_changes (evidence : Evidence K) :
    ((score evidence).lines.map ScoreLine.change).sum = (score evidence).score := by
  cases hname : evidence.present? NameBased.feature with
  | none =>
    rw [score, NameBased.score_of_absent hname]
    simp [Function.comp_def]
  | some name =>
    rw [score, NameBased.score_of_present hname]
    exact sum_passes evidence (Scalar.fraction_clamp (ExactScalar.isNumber name.value))

end NameQualified

namespace Logistic

theorem lines_tell {α : Type} [Scalar α] (evidence : Evidence α) :
    List.Forall₂ (ScoreLine.Tells evidence) ((weights : List (Text × α)).map Prod.fst)
      (lines evidence) := by
  unfold lines
  rw [List.forall₂_map_left_iff, List.forall₂_map_right_iff, List.forall₂_same]
  intro w _
  unfold line
  split
  next f hf => exact .of_present hf ..
  next => exact .of_unchanged ..

end Logistic

/-- There is one line for each feature that is declared, in the order of the declarations, and what
the lines changed makes up the score. -/
theorem Algorithm.lines_explain {K : Type} [ExactScalar K] (algorithm : Algorithm)
    (evidence : Evidence K) :
    let explained := algorithm.score evidence
    let changes := (explained.lines.map ScoreLine.change).sum
    List.Forall₂ (ScoreLine.Tells evidence)
        ((algorithm.features : List (FeatureDecl K)).map FeatureDecl.name) explained.lines ∧
      match algorithm with
      | .logistic => explained.unfounded = false →
          explained.score = Logistic.logistic (max (-30) (min 30 (Logistic.bias + changes)))
      | _ => changes = explained.score := by
  cases algorithm with
  | nameBased => exact ⟨NameBased.lines_tell evidence, NameBased.sum_changes evidence⟩
  | nameQualified => exact ⟨NameQualified.lines_tell evidence, NameQualified.sum_changes evidence⟩
  | logistic =>
    refine ⟨?_, Logistic.score_of_founded⟩
    change List.Forall₂ _ (Logistic.features.map _) (Logistic.score evidence).lines
    rw [Logistic.lines_score, Logistic.map_name_features]
    exact Logistic.lines_tell evidence

/-- A literal match speaks for a candidate, and a gender that differs against it. -/
theorem Algorithm.lines_explain_of_literal :
    let evidence : Evidence ℚ :=
      [⟨Text.of "gender.mismatch", 2, .present, 1⟩, ⟨Text.of "name.literal", 1, .present, 1⟩]
    let explained := Algorithm.logistic.score evidence
    let changes := (explained.lines.map ScoreLine.change).sum
    changes = 4 - 1.5 ∧
      explained.score = Logistic.logistic (max (-30) (min 30 (Logistic.bias + changes))) := by
  intro evidence explained changes
  have hfounded : explained.unfounded = false := by decide +kernel
  exact ⟨by decide +kernel, (lines_explain .logistic evidence).2 hfounded⟩

end Screening
