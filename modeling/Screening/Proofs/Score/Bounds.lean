import Screening.Proofs.Score.Logistic
import Screening.Proofs.Feature.Interruption
import Screening.Schema.Builtin

namespace Screening

variable {K : Type} [ExactScalar K]

open Scalar (Fraction)

theorem Aligner.fraction_support_clamped (floor support : K) :
    Fraction (clamped floor support).support :=
  Scalar.fraction_clamp (ExactScalar.isNumber support)

theorem Evidence.bounded_build (folding : Folding) (fold : Text → Text) (floor support : K)
    (catalog : Catalog) (algorithm : Algorithm) (decls : List (FeatureDecl K))
    (query candidate : Entity) :
    ∃ evidence, build (.ofFold folding fold) (.clamped floor support) catalog algorithm decls query
        candidate = .ok evidence ∧
      List.Forall₂ (fun d f => f.Bounded d (Feature.read catalog algorithm query candidate d)) decls
        evidence := by
  obtain ⟨evidence, h⟩ := build_ofFold folding fold (.clamped floor support) catalog algorithm decls
    query candidate
  exact ⟨evidence, h, Feature.bounded_evaluateFrom (Aligner.fraction_support_clamped ..) h⟩

/-- Every feature of an algorithm and every score lies in the unit interval. A logistic score is
strictly inside if there is evidence for it, and 0 otherwise. -/
theorem Algorithm.evidence_and_score_bounded (folding : Folding) (fold : Text → Text) (floor support : K)
    (catalog : Catalog) (algorithm : Algorithm) (query candidate : Entity) :
    (∃ evidence, Evidence.build (.ofFold folding fold) (.clamped floor support) catalog algorithm
        algorithm.features query candidate = .ok evidence ∧
      List.Forall₂ (fun d f => f.Bounded d (Feature.read catalog algorithm query candidate d))
        algorithm.features evidence) ∧
    ∀ evidence : Evidence K, Fraction (algorithm.score evidence).score ∧
      let logistic := Logistic.score evidence
      ((∃ w ∈ (Logistic.weights : List (Text × K)), 0 < w.2 ∧ evidence.isPresent w.1 = true) →
        0 < logistic.score ∧ logistic.score < 1 ∧ logistic.unfounded = false) ∧
      ((¬ ∃ w ∈ (Logistic.weights : List (Text × K)), 0 < w.2 ∧ evidence.isPresent w.1 = true) →
        logistic.score = 0 ∧ logistic.unfounded = true) := by
  refine ⟨Evidence.bounded_build .., fun evidence => ⟨?_, ?_, ?_⟩⟩
  · exact fraction_score (fun _ => ExactScalar.expNonneg) evidence.numeric_exact
  · exact fun h => Logistic.score_mem_of_evidence (Logistic.hasEvidence_iff.mpr h)
  · exact fun h => Logistic.score_of_no_evidence fun hevidence =>
      h (Logistic.hasEvidence_iff.mp hevidence)

/-- Evidence of positive weight keeps a score apart from 0 and 1; there is none from the contrary. -/
theorem Algorithm.evidence_and_score_bounded_of_literal :
    let literal : Feature ℚ := ⟨Text.of "name.literal", 3, .present, 1⟩
    let contrary : Feature ℚ := ⟨Text.of "gender.mismatch", 1, .present, 1⟩
    0 < (Logistic.score [literal]).score ∧ (Logistic.score [literal]).score < 1 ∧
      (Logistic.score [contrary]).score = 0 := by
  intro literal contrary
  let entity : Entity := ⟨Text.of "q", Text.of "Person", []⟩
  obtain ⟨_, hscore⟩ := Algorithm.evidence_and_score_bounded .basic id (0 : ℚ) 1 Catalog.builtin
    .logistic entity entity
  obtain ⟨_, hfounded, _⟩ := hscore [literal]
  obtain ⟨_, _, hunfounded⟩ := hscore [contrary]
  have hin := hfounded (by decide +kernel)
  exact ⟨hin.1, hin.2.1, (hunfounded (by decide +kernel)).1⟩

end Screening
