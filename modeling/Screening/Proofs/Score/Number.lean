import Screening.Proofs.Feature.Bounds
import Screening.Score

namespace Screening

variable {α : Type} [Scalar α] [LawfulScalar α]

open Scalar (IsNumber Fraction Within)

def Evidence.Numeric (evidence : Evidence α) : Prop := ∀ f ∈ evidence, IsNumber f.value

namespace Evidence

variable {evidence : Evidence α}

theorem numeric_build {normalizer : Normalizer} {aligner : Aligner α} {catalog : Catalog}
    {algorithm : Algorithm} {decls : List (FeatureDecl α)} {query candidate : Entity}
    (ht : Fraction aligner.support)
    (h : build normalizer aligner catalog algorithm decls query candidate = .ok evidence) :
    evidence.Numeric :=
  fun f hf => (Feature.fraction_of_bounded (Feature.bounded_evaluateFrom ht h) f hf).isNumber

omit [LawfulScalar α] in
theorem Numeric.of_present {name : Text} {f : Feature α} (h : evidence.Numeric)
    (hf : evidence.present? name = some f) : IsNumber f.value := by
  have hfind := (Option.filter_eq_some_iff.mp hf).1
  exact h f (List.mem_of_find?_eq_some hfind)

theorem numeric_exact {K : Type} [ExactScalar K] (evidence : Evidence K) : evidence.Numeric :=
  fun f _ => ExactScalar.isNumber f.value

end Evidence

theorem NameBased.fraction_score {evidence : Evidence α} (h : evidence.Numeric) :
    Fraction (NameBased.score evidence).score := by
  unfold NameBased.score
  split
  next hf => exact Scalar.fraction_clamp (h.of_present hf)
  next => exact Scalar.fraction_zero

namespace NameQualified

/-- Whether the numbers of a qualifier are of the size of 1. -/
def Moderate (q : Qualifier α) : Prop := Within 0 q.boost ∧ Within 0 q.penalty ∧ Within 0 q.cap

theorem moderate_qualifiers : ∀ q ∈ (qualifiers : List (Qualifier α)), Moderate q := by
  have row {a b c d e f : Nat} (h : (a ≤ 100 && b ≤ 2 && 0 ≤ 60 && a ≤ 2 ^ 0 * 10 ^ b) = true)
      (k : (c ≤ 100 && d ≤ 2 && 0 ≤ 60 && c ≤ 2 ^ 0 * 10 ^ d) = true)
      (l : (e ≤ 100 && f ≤ 2 && 0 ≤ 60 && e ≤ 2 ^ 0 * 10 ^ f) = true) (feature : Text) :
      Moderate (⟨feature, OfScientific.ofScientific a true b, OfScientific.ofScientific c true d,
        OfScientific.ofScientific e true f⟩ : Qualifier α) :=
    ⟨Scalar.within_literal h, Scalar.within_literal k, Scalar.within_literal l⟩
  unfold qualifiers
  simp only [List.forall_mem_cons]
  exact ⟨row rfl rfl rfl _, row rfl rfl rfl _, row rfl rfl rfl _,
    ⟨Scalar.within_literal rfl, Scalar.within_one, Scalar.within_one⟩, List.forall_mem_nil _⟩

theorem within_boosted {q : Qualifier α} {value score : α} {k : Nat} (hq : Moderate q)
    (hvalue : IsNumber value) (hk : k + 2 ≤ 60) (h : Within k score) :
    Within (k + 2) (boosted q value score) := by
  have hone : Within k (1 : α) := Scalar.fraction_one.within (by omega)
  have hgap := LawfulScalar.within_sub (by omega) hone h
  have hpart := LawfulScalar.within_mul (by omega) hgap hq.1
  have hgain := LawfulScalar.within_mul (by omega) hpart
    (LawfulScalar.within_fraction (Scalar.fraction_clamp hvalue))
  have hscore := LawfulScalar.within_mono (Nat.le_succ k) (by omega) h
  exact LawfulScalar.within_add (by omega) hscore hgain

/-- Each boost may double a score twice over, so that few of them leave it a number. -/
theorem within_boostAll {evidence : Evidence α} (hnumeric : evidence.Numeric)
    {qs : List (Qualifier α)} (hqs : ∀ q ∈ qs, Moderate q) {k : Nat} {score : α}
    (hk : k + 2 * qs.length ≤ 60) (h : Within k score) :
    Within (k + 2 * qs.length) (boostAll evidence qs score).1 := by
  induction qs generalizing k score with
  | nil => exact h
  | cons q qs ih =>
    have hq := List.forall_mem_cons.mp hqs
    rw [List.length_cons] at hk ⊢
    have hlength : k + 2 * (qs.length + 1) = k + 2 + 2 * qs.length := by omega
    rw [hlength]
    unfold boostAll
    dsimp only
    split
    next f hf =>
      have hvalue := hnumeric.of_present (Option.filter_eq_some_iff.mp hf).1
      exact ih hq.2 (by omega) (within_boosted hq.1 hvalue (by omega) h)
    next => exact ih hq.2 (by omega) (LawfulScalar.within_mono (by omega) (by omega) h)

theorem within_penalised {q : Qualifier α} {score : α} {k : Nat} (hq : Moderate q) (hk : k ≤ 60)
    (h : Within k score) : Within k (penalised q score) := by
  have hscaled := LawfulScalar.within_mul hk h hq.2.1
  have hcap := LawfulScalar.within_mono (Nat.zero_le k) hk hq.2.2
  unfold penalised Scalar.min
  split
  next => exact hcap
  next => exact hscaled

theorem within_penaliseAll {evidence : Evidence α} {qs : List (Qualifier α)}
    (hqs : ∀ q ∈ qs, Moderate q) {lines : List (ScoreLine α)} {k : Nat} {score : α} (hk : k ≤ 60)
    (h : Within k score) : Within k (penaliseAll evidence qs lines score).1 := by
  induction qs generalizing lines score with
  | nil => exact h
  | cons q qs ih =>
    have hq := List.forall_mem_cons.mp hqs
    cases lines with
    | nil => exact h
    | cons line lines =>
      unfold penaliseAll
      split
      next => exact ih hq.2 (within_penalised hq.1 hk h)
      next => exact ih hq.2 h

theorem fraction_score {evidence : Evidence α} (h : evidence.Numeric) :
    Fraction (score evidence).score := by
  unfold score
  dsimp only
  split
  next => exact NameBased.fraction_score h
  next =>
    have hname := LawfulScalar.within_fraction (NameBased.fraction_score h)
    have hlength : 0 + 2 * (qualifiers : List (Qualifier α)).length = 8 := rfl
    have hraised := within_boostAll h moderate_qualifiers (by rw [hlength]; decide) hname
    rw [hlength] at hraised
    exact Scalar.fraction_clamp
      (within_penaliseAll moderate_qualifiers (by omega) hraised).isNumber

end NameQualified

namespace Logistic

theorem within_weights : ∀ w ∈ (weights : List (Text × α)), Within 3 w.2 := by
  have pro {m e : Nat} (h : (m ≤ 100 && e ≤ 2 && 3 ≤ 60 && m ≤ 2 ^ 3 * 10 ^ e) = true) :
      Within 3 (OfScientific.ofScientific m true e : α) := Scalar.within_literal h
  have con {m e : Nat} (h : (m ≤ 100 && e ≤ 2 && 3 ≤ 60 && m ≤ 2 ^ 3 * 10 ^ e) = true) :
      Within 3 (-(OfScientific.ofScientific m true e : α)) :=
    LawfulScalar.within_neg (by omega) (Scalar.within_literal h)
  unfold weights
  simp only [List.forall_mem_map, List.forall_mem_cons]
  exact ⟨pro rfl, pro rfl, pro rfl, pro rfl, pro rfl, pro rfl, pro rfl, pro rfl, pro rfl, pro rfl,
    pro rfl, pro rfl, pro rfl, pro rfl, con rfl, con rfl, con rfl, con rfl, con rfl, con rfl,
    con rfl, List.forall_mem_nil _⟩

theorem within_line {evidence : Evidence α} (h : evidence.Numeric) {w : Text × α}
    (hw : Within 3 w.2) : Within 3 (line evidence w).change := by
  unfold line
  split
  next f hf =>
    have hvalue := LawfulScalar.within_fraction (Scalar.fraction_clamp (h.of_present hf))
    exact LawfulScalar.within_mul (by omega) hw hvalue
  next => exact Scalar.fraction_zero.within (by omega)

theorem within_sum {lines : List (ScoreLine α)} {j k : Nat}
    (hlines : ∀ line ∈ lines, Within j line.change) (hjk : j ≤ k) (hk : k + lines.length ≤ 60)
    {sum : α} (h : Within k sum) :
    Within (k + lines.length) (lines.foldl (fun sum line => sum + line.change) sum) := by
  induction lines generalizing k sum with
  | nil => exact h
  | cons line lines ih =>
    have hline := List.forall_mem_cons.mp hlines
    rw [List.length_cons] at hk ⊢
    have hchange := LawfulScalar.within_mono hjk (by omega) hline.1
    have hsum := LawfulScalar.within_add (by omega) h hchange
    have hlength : k + (lines.length + 1) = k + 1 + lines.length := by omega
    rw [List.foldl_cons, hlength]
    exact ih hline.2 (by omega) (by omega) hsum

theorem within_logit {evidence : Evidence α} (h : evidence.Numeric) :
    Within 24 (logit evidence) := by
  have hbias : Within 3 (bias : α) := by
    apply LawfulScalar.within_neg (by omega)
    exact Scalar.within_literal rfl
  have hlines : ∀ line ∈ lines evidence, Within 3 line.change := by
    intro line hline
    obtain ⟨w, hw, rfl⟩ := List.mem_map.mp hline
    exact within_line h (within_weights w hw)
  have hlength : (lines evidence).length = 21 := by
    unfold lines
    rw [List.length_map]
    rfl
  have hsum := within_sum hlines (Nat.le_refl 3) (by rw [hlength]; decide) hbias
  rwa [hlength] at hsum

theorem within_bounded {a : α} (h : Within 24 a) : Within 24 (bounded a) := by
  have hmost : Within 24 (maxLogit : α) := LawfulScalar.within_natCast (by omega) (by omega)
  unfold bounded
  split
  next => exact LawfulScalar.within_neg (by omega) hmost
  next =>
    split
    next => exact hmost
    next => exact h

theorem fraction_score (hexp : Scalar.ExpNonneg α) {evidence : Evidence α}
    (h : evidence.Numeric) : Fraction (score evidence).score := by
  unfold score
  split
  next =>
    have hlogit := LawfulScalar.within_neg (by omega) (within_bounded (within_logit h))
    exact LawfulScalar.fraction_inverse (hexp _ hlogit.isNumber)
  next => exact Scalar.fraction_zero

end Logistic

theorem Algorithm.fraction_score {algorithm : Algorithm}
    (hexp : algorithm = logistic → Scalar.ExpNonneg α) {evidence : Evidence α}
    (h : evidence.Numeric) : Fraction (algorithm.score evidence).score := by
  cases algorithm with
  | nameBased => exact NameBased.fraction_score h
  | nameQualified => exact NameQualified.fraction_score h
  | logistic => exact Logistic.fraction_score (hexp rfl) h

end Screening
