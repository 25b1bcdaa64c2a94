import Screening.Proofs.Score.Number

namespace Screening

namespace NameBased

variable {α : Type} [Scalar α] {evidence : Evidence α}

theorem score_of_present {name : Feature α} (h : evidence.present? feature = some name) :
    score evidence = ⟨Scalar.clamp name.value,
      [⟨feature, name.value, 1, Scalar.clamp name.value, name.presence⟩], false⟩ := by
  rw [score, h]

theorem score_of_absent (h : evidence.present? feature = none) :
    score evidence = ⟨0, [⟨feature, 0, 1, 0, evidence.presence feature⟩], true⟩ := by
  rw [score, h]

end NameBased

namespace NameQualified

section Passes

variable {α : Type} [Scalar α]

/-- The score after a qualifier, in the pass in which qualifiers raise it. -/
def raised (evidence : Evidence α) (score : α) (q : Qualifier α) : α :=
  match (evidence.present? q.feature).filter fun f => 0 < f.value with
  | some f => boosted q f.value score
  | none => score

/-- The score after a qualifier, in the pass in which qualifiers lower it. -/
def lowered (evidence : Evidence α) (score : α) (q : Qualifier α) : α :=
  if disagrees evidence q then penalised q score else score

variable {evidence : Evidence α}

theorem raised_of_pos {q : Qualifier α} {f : Feature α} (score : α)
    (h : evidence.present? q.feature = some f) (hf : 0 < f.value) :
    raised evidence score q = boosted q f.value score := by
  have hfilter : (evidence.present? q.feature).filter (fun f => 0 < f.value) = some f :=
    Option.filter_eq_some_iff.mpr ⟨h, decide_eq_true hf⟩
  rw [raised, hfilter]

theorem raised_of_not_pos {q : Qualifier α} (score : α)
    (h : ¬ ∃ f, evidence.present? q.feature = some f ∧ 0 < f.value) :
    raised evidence score q = score := by
  unfold raised
  split
  next f hf =>
    rw [Option.filter_eq_some_iff, decide_eq_true_eq] at hf
    exact absurd ⟨f, hf⟩ h
  next => rfl

theorem disagrees_iff {q : Qualifier α} : disagrees evidence q = true ↔
    ∃ f, evidence.present? q.feature = some f ∧ f.value ≤ 0 ∧ q.penalty < 1 := by
  simp [disagrees, Option.any_eq_true]

theorem lowered_of_disagrees {q : Qualifier α} (score : α) (h : disagrees evidence q = true) :
    lowered evidence score q = penalised q score :=
  if_pos h

theorem lowered_of_not_disagrees {q : Qualifier α} (score : α) (h : ¬ disagrees evidence q = true) :
    lowered evidence score q = score :=
  if_neg h

theorem boostAll_score (qs : List (Qualifier α)) (score : α) :
    (boostAll evidence qs score).1 = qs.foldl (raised evidence) score := by
  induction qs generalizing score with
  | nil => rfl
  | cons q qs ih =>
    rw [boostAll, List.foldl_cons, raised]
    cases (evidence.present? q.feature).filter fun f => 0 < f.value with
    | some f => exact ih _
    | none => exact ih _

theorem length_boostAll (qs : List (Qualifier α)) (score : α) :
    (boostAll evidence qs score).2.length = qs.length := by
  induction qs generalizing score with
  | nil => rfl
  | cons q qs ih =>
    rw [boostAll]
    split
    next => exact congrArg Nat.succ (ih _)
    next => exact congrArg Nat.succ (ih _)

theorem penaliseAll_score {qs : List (Qualifier α)} {lines : List (ScoreLine α)}
    (h : lines.length = qs.length) (score : α) :
    (penaliseAll evidence qs lines score).1 = qs.foldl (lowered evidence) score := by
  induction qs generalizing lines score with
  | nil => rfl
  | cons q qs ih =>
    cases lines with
    | nil => exact nomatch h
    | cons line lines =>
      rw [penaliseAll, List.foldl_cons, lowered]
      split
      next => exact ih (Nat.succ.inj h) _
      next => exact ih (Nat.succ.inj h) _

theorem score_of_name {name : Feature α} (h : evidence.present? NameBased.feature = some name) :
    (score evidence).score = Scalar.clamp (qualifiers.foldl (lowered evidence)
      (qualifiers.foldl (raised evidence) (Scalar.clamp name.value))) := by
  rw [← boostAll_score, ← penaliseAll_score (length_boostAll qualifiers _), score,
    NameBased.score_of_present h]
  rfl

theorem score_of_no_name (h : evidence.present? NameBased.feature = none) :
    (score evidence).score = 0 := by
  rw [score, NameBased.score_of_absent h]
  rfl

end Passes

variable {K : Type} [ExactScalar K]

open Scalar (Fraction)

/-- What keeps scores in the unit interval. A qualifier that does not penalise has no cap. -/
structure Sound (q : Qualifier K) : Prop where
  boost : Fraction q.boost
  penalty : Fraction q.penalty
  cap : Fraction q.cap
  uncapped : ¬ q.penalty < 1 → q.cap = 1

theorem sound_qualifiers : ∀ q ∈ (qualifiers : List (Qualifier K)), Sound q := by
  unfold qualifiers
  simp only [List.forall_mem_cons]
  have row (feature : Text) {b p c : K} (hb : 0 ≤ b ∧ b ≤ 1) (hp : 0 ≤ p ∧ p < 1)
      (hc : 0 ≤ c ∧ c ≤ 1) : Sound ⟨feature, b, p, c⟩ :=
    ⟨hb, ⟨hp.1, le_of_lt hp.2⟩, hc, fun h => absurd hp.2 h⟩
  have uncapped (feature : Text) {b : K} (hb : 0 ≤ b ∧ b ≤ 1) : Sound ⟨feature, b, 1, 1⟩ :=
    ⟨hb, Scalar.fraction_one, Scalar.fraction_one, fun _ => rfl⟩
  refine ⟨row _ ?_ ?_ ?_, row _ ?_ ?_ ?_, row _ ?_ ?_ ?_, uncapped _ ?_, List.forall_mem_nil _⟩
  all_goals norm_num

variable {q : Qualifier K} {s t v w : K}

theorem boosted_mem (hq : Sound q) (hs : Fraction s) (hv : Fraction (Scalar.clamp v)) :
    s ≤ boosted q v s ∧ boosted q v s ≤ 1 :=
  Aligner.lift_mem hs.2 hq.boost hv

theorem boosted_mono (hq : Sound q) (ht : Fraction t) (hst : s ≤ t) (hvw : v ≤ w) :
    boosted q v s ≤ boosted q w t :=
  Aligner.lift_mono hst ht.2 hq.boost (Scalar.clamp_mono hvw)
    (Scalar.fraction_clamp (ExactScalar.isNumber v))

theorem penalised_eq (q : Qualifier K) (s : K) : penalised q s = min (s * q.penalty) q.cap :=
  ExactScalar.min_eq _ _

theorem penalised_mem (hq : Sound q) (hs : Fraction s) :
    0 ≤ penalised q s ∧ penalised q s ≤ s := by
  rw [penalised_eq]
  exact ⟨le_min (mul_nonneg hs.1 hq.penalty.1) hq.cap.1,
    min_le_of_left_le (mul_le_of_le_one_right hs.1 hq.penalty.2)⟩

theorem penalised_mono (hq : Sound q) (hst : s ≤ t) : penalised q s ≤ penalised q t := by
  rw [penalised_eq, penalised_eq]
  exact min_le_min_right _ (mul_le_mul_of_nonneg_right hst hq.penalty.1)

theorem penalised_le_cap (q : Qualifier K) (s : K) : penalised q s ≤ q.cap := by
  rw [penalised_eq]
  exact min_le_right _ _

section Steps

variable (evidence : Evidence K)

theorem raised_mem (hq : Sound q) (hs : Fraction s) :
    s ≤ raised evidence s q ∧ raised evidence s q ≤ 1 := by
  unfold raised
  split
  next f _ => exact boosted_mem hq hs (Scalar.fraction_clamp (ExactScalar.isNumber _))
  next => exact ⟨le_refl s, hs.2⟩

theorem fraction_raised (hq : Sound q) (hs : Fraction s) : Fraction (raised evidence s q) :=
  ⟨le_trans hs.1 (raised_mem evidence hq hs).1, (raised_mem evidence hq hs).2⟩

theorem lowered_mem (hq : Sound q) (hs : Fraction s) :
    0 ≤ lowered evidence s q ∧ lowered evidence s q ≤ s := by
  unfold lowered
  split
  next => exact penalised_mem hq hs
  next => exact ⟨hs.1, le_refl s⟩

theorem fraction_lowered (hq : Sound q) (hs : Fraction s) : Fraction (lowered evidence s q) :=
  ⟨(lowered_mem evidence hq hs).1, le_trans (lowered_mem evidence hq hs).2 hs.2⟩

theorem fraction_foldl_raised {qs : List (Qualifier K)} (hqs : ∀ q ∈ qs, Sound q)
    (hs : Fraction s) : Fraction (qs.foldl (raised evidence) s) :=
  List.foldlRecOn qs _ hs fun _ hs q hq => fraction_raised evidence (hqs q hq) hs

theorem foldl_lowered_mem {qs : List (Qualifier K)} (hqs : ∀ q ∈ qs, Sound q)
    (hs : Fraction s) : 0 ≤ qs.foldl (lowered evidence) s ∧ qs.foldl (lowered evidence) s ≤ s := by
  refine List.foldlRecOn qs _ (motive := fun t => 0 ≤ t ∧ t ≤ s) ⟨hs.1, le_refl s⟩ ?_
  intro t ht q hq
  have hlowered := lowered_mem evidence (hqs q hq) ⟨ht.1, le_trans ht.2 hs.2⟩
  exact ⟨hlowered.1, le_trans hlowered.2 ht.2⟩

theorem foldl_lowered_le_cap {qs : List (Qualifier K)} (hqs : ∀ q ∈ qs, Sound q)
    (hs : Fraction s) (hq : q ∈ qs) (h : disagrees evidence q = true) :
    qs.foldl (lowered evidence) s ≤ q.cap := by
  obtain ⟨front, back, rfl⟩ := List.append_of_mem hq
  simp only [List.forall_mem_append, List.forall_mem_cons] at hqs
  have hfront := foldl_lowered_mem evidence hqs.1 hs
  have hstep := fraction_lowered evidence hqs.2.1
    ⟨hfront.1, le_trans hfront.2 hs.2⟩
  have hcap : lowered evidence (front.foldl (lowered evidence) s) q ≤ q.cap := by
    rw [lowered_of_disagrees _ h]
    exact penalised_le_cap q _
  rw [List.foldl_append, List.foldl_cons]
  exact le_trans (foldl_lowered_mem evidence hqs.2.2 hstep).2 hcap

end Steps

end NameQualified

end Screening
