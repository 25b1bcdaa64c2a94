import Screening.Proofs.Alignment.Aggregate
import Screening.Proofs.Alignment.Align
import Screening.Feature.Extraction

namespace Screening

variable {α : Type}

theorem ValuePair.length_choose_le {room : Nat} {usedQuery usedCandidate : List Nat}
    {pairs : List (ValuePair α)} :
    (choose room usedQuery usedCandidate pairs).length ≤ room := by
  induction pairs generalizing room usedQuery usedCandidate with
  | nil => simp [choose]
  | cons p pairs ih =>
    cases room with
    | zero => simp [choose]
    | succ room =>
      rw [choose]
      split
      next => exact ih
      next => exact Nat.succ_le_succ ih

variable [Scalar α]

theorem Aligner.length_pairs_le (aligner : Aligner α) (rows columns : Nat)
    (similarity : Nat → Nat → α) :
    (aligner.align rows columns similarity).pairs.length ≤ min rows columns :=
  ValuePair.length_choose_le

namespace Feature

variable {aligner : Aligner α} {d : FeatureDecl α}

open Scalar (Fraction)

/-- What a feature may be that is made for a declaration from the values that are read for it. -/
structure Bounded (d : FeatureDecl α) (reading : Reading) (feature : Feature α) : Prop where
  name : feature.name = d.name
  fraction : Fraction feature.value
  absent : feature.presence ≠ .present → feature.value = 0 ∧ feature.pairCount = 0
  pairCount : feature.pairCount ≤ min reading.query.length reading.candidate.length

variable [LawfulScalar α] {reading : Reading}

theorem fraction_foreignNumbers {query candidate : List Text} {value : α}
    (h : foreignNumbers query candidate = some value) : Fraction value := by
  unfold foreignNumbers at h
  dsimp only at h
  split at h
  next => exact nomatch h
  next =>
    obtain rfl := Option.some.inj h
    exact Scalar.fraction_clamp (LawfulScalar.share_number _ (by omega))

theorem bounded_blank (presence : Presence) : Bounded d reading ⟨d.name, 0, presence, 0⟩ :=
  ⟨rfl, Scalar.fraction_zero, fun _ => ⟨rfl, rfl⟩, Nat.zero_le _⟩

theorem bounded_ofSimilarities (ht : Fraction aligner.support)
    (similarities : List (List (Option α))) :
    Bounded d reading
      (ofSimilarities aligner d reading.query.length reading.candidate.length similarities) := by
  unfold ofSimilarities
  split
  next => exact bounded_blank _
  next =>
    refine ⟨rfl, ?_, fun h => absurd rfl h, aligner.length_pairs_le _ _ _⟩
    dsimp only
    split
    next => exact LawfulScalar.fraction_complement (aligner.fraction_best _ _ _)
    next => exact aligner.fraction_aggregate (aligner.fraction_pairs _ _ _) ht

theorem bounded_evaluate {normalizer : Normalizer} {catalog : Catalog} {algorithm : Algorithm}
    {query candidate : Entity} {memo memo' : NameMemo α} {feature : Feature α}
    (ht : Fraction aligner.support)
    (h : evaluate normalizer aligner catalog algorithm query candidate d memo =
      .ok (feature, memo')) : Bounded d (read catalog algorithm query candidate d) feature := by
  unfold evaluate at h
  dsimp only at h
  split at h
  next =>
    obtain ⟨rfl, _⟩ := Prod.mk.inj (Except.ok.inj h)
    exact bounded_blank _
  next =>
    split at h
    next =>
      split at h
      next =>
        obtain ⟨rfl, _⟩ := Prod.mk.inj (Except.ok.inj h)
        exact bounded_blank _
      next hvalue =>
        obtain ⟨rfl, _⟩ := Prod.mk.inj (Except.ok.inj h)
        exact ⟨rfl, fraction_foreignNumbers hvalue, fun h => absurd rfl h, Nat.zero_le _⟩
    next =>
      obtain ⟨_, _, h⟩ := bind_eq_ok.mp h
      obtain ⟨rfl, _⟩ := Prod.mk.inj (Except.ok.inj h)
      exact bounded_ofSimilarities ht _
    next =>
      obtain ⟨_, _, h⟩ := bind_eq_ok.mp h
      obtain ⟨rfl, _⟩ := Prod.mk.inj (Except.ok.inj h)
      exact bounded_ofSimilarities ht _

omit [LawfulScalar α] in
theorem forall₂_evaluateFrom {normalizer : Normalizer} {catalog : Catalog} {algorithm : Algorithm}
    {query candidate : Entity} {made : FeatureDecl α → Feature α → Prop}
    (hmade : ∀ d memo f memo', evaluate normalizer aligner catalog algorithm query candidate d memo =
      .ok (f, memo') → made d f) {decls : List (FeatureDecl α)} {memo : NameMemo α}
    {evidence : Evidence α}
    (h : evaluateFrom normalizer aligner catalog algorithm query candidate decls memo =
      .ok evidence) : List.Forall₂ made decls evidence := by
  induction decls generalizing memo evidence with
  | nil =>
    obtain rfl := Except.ok.inj h
    exact .nil
  | cons d decls ih =>
    obtain ⟨⟨f, memo'⟩, hf, h⟩ := bind_eq_ok.mp h
    obtain ⟨rest, hrest, h⟩ := bind_eq_ok.mp h
    obtain rfl := Except.ok.inj h
    exact .cons (hmade d memo f memo' hf) (ih hrest)

theorem bounded_evaluateFrom {normalizer : Normalizer} {catalog : Catalog} {algorithm : Algorithm}
    {query candidate : Entity} {decls : List (FeatureDecl α)} {memo : NameMemo α}
    {evidence : Evidence α} (ht : Fraction aligner.support)
    (h : evaluateFrom normalizer aligner catalog algorithm query candidate decls memo =
      .ok evidence) :
    List.Forall₂ (fun d f => Bounded d (read catalog algorithm query candidate d) f) decls
      evidence :=
  forall₂_evaluateFrom (fun _ _ _ _ => bounded_evaluate ht) h

omit [LawfulScalar α] in
theorem fraction_of_bounded {reading : FeatureDecl α → Reading} {decls : List (FeatureDecl α)}
    {evidence : Evidence α}
    (h : List.Forall₂ (fun d f => Bounded d (reading d) f) decls evidence) :
    ∀ f ∈ evidence, Fraction f.value := by
  induction h with
  | nil => simp
  | cons hd _ ih => exact List.forall_mem_cons.mpr ⟨hd.fraction, ih⟩

end Feature

end Screening
