import Screening.Proofs.Score.Number

namespace Screening.Logistic

section Table

variable {α : Type} [Scalar α]

theorem hasEvidence_iff {evidence : Evidence α} : hasEvidence evidence = true ↔
    ∃ w ∈ (weights : List (Text × α)), 0 < w.2 ∧ evidence.isPresent w.1 = true := by
  simp [hasEvidence, List.any_eq_true, and_comm]

theorem map_name_features :
    (features : List (FeatureDecl α)).map FeatureDecl.name =
      (weights : List (Text × α)).map Prod.fst := rfl

theorem lines_score (evidence : Evidence α) : (score evidence).lines = lines evidence := by
  unfold score
  split
  next => rfl
  next => rfl

end Table

variable {K : Type} [ExactScalar K]

theorem logistic_mem (x : K) : 0 < logistic x ∧ logistic x < 1 := by
  have hexp : 0 < Scalar.exp (-x) := ExactScalar.exp_pos (-x)
  have hsum : 1 < 1 + Scalar.exp (-x) := lt_add_of_pos_right 1 hexp
  have hpos : 0 < 1 + Scalar.exp (-x) := lt_trans zero_lt_one hsum
  exact ⟨div_pos zero_lt_one hpos, (div_lt_one hpos).mpr hsum⟩

theorem logistic_strictMono : StrictMono (logistic : K → K) := by
  intro x y hxy
  have hexp : Scalar.exp (-y) < Scalar.exp (-x) := ExactScalar.exp_strictMono (neg_lt_neg hxy)
  have hpos : 0 < 1 + Scalar.exp (-y) := add_pos zero_lt_one (ExactScalar.exp_pos (-y))
  exact one_div_lt_one_div_of_lt hpos (add_lt_add_right hexp 1)

theorem bounded_eq (x : K) : bounded x = max (-30) (min 30 x) := by
  have hmost : (maxLogit : K) = 30 := Nat.cast_ofNat
  unfold bounded
  rw [hmost]
  split
  next h => rw [max_eq_left (min_le_of_right_le (le_of_lt h))]
  next h =>
    have hlow := not_lt.mp h
    split
    next hbig => rw [min_eq_left (le_of_lt hbig), max_eq_right (by linarith)]
    next hsmall => rw [min_eq_right (not_lt.mp hsmall), max_eq_right hlow]

theorem bounded_mono : Monotone (bounded : K → K) := by
  intro x y hxy
  rw [bounded_eq, bounded_eq]
  exact max_le_max_left _ (min_le_min_left _ hxy)

theorem logit_eq (evidence : Evidence K) :
    logit evidence = bias + ((lines evidence).map ScoreLine.change).sum := by
  rw [← ExactScalar.foldl_add, List.foldl_map]
  rfl

theorem score_mem_of_evidence {evidence : Evidence K} (h : hasEvidence evidence = true) :
    0 < (score evidence).score ∧ (score evidence).score < 1 ∧
      (score evidence).unfounded = false := by
  rw [score, if_pos h]
  exact ⟨(logistic_mem _).1, (logistic_mem _).2, rfl⟩

theorem score_of_no_evidence {evidence : Evidence K} (h : ¬ hasEvidence evidence = true) :
    (score evidence).score = 0 ∧ (score evidence).unfounded = true := by
  rw [score, if_neg h]
  exact ⟨rfl, rfl⟩

theorem score_of_founded {evidence : Evidence K} (h : (score evidence).unfounded = false) :
    (score evidence).score = logistic (max (-30)
      (min 30 (bias + ((score evidence).lines.map ScoreLine.change).sum))) := by
  have hevidence : hasEvidence evidence = true := by
    by_contra hnone
    exact Bool.false_ne_true (h.symm.trans (score_of_no_evidence hnone).2)
  rw [lines_score, ← logit_eq, ← bounded_eq, score, if_pos hevidence]

end Screening.Logistic
