import Mathlib.Tactic.Ring
import Screening.Proofs.Feature.Afresh
import Screening.Proofs.Name.Sameness
import Screening.Score.NameBased

namespace Screening

namespace NameForms

def lettered (part : Text) : Bool := part.any Byte.isAlpha

section Exact

variable {K : Type} [ExactScalar K] {q q' : NameForms}

theorem one_le_literal_iff : (1 : K) ≤ q.literal q' ↔ q.cleaned = q'.cleaned := by
  unfold literal
  split
  next h => simp [h]
  next h => simp [h]

theorem closestParts_of_reordered (h : q'.tokens.Perm q.tokens) :
    (q.closestParts q' : K) = if q.parts = [] then 0 else 1 := by
  rw [closestParts_of_perm (.refl _) h]
  split
  next hnil => simp [closestParts, hnil]
  next hsome => exact closestParts_of_same rfl hsome

theorem soundex_of_reordered (h : q'.tokens.Perm q.tokens) : (q.soundex q' : K) =
    if q.parts = [] then 0 else Scalar.share (q.parts.countP lettered) q.parts.length := by
  rw [soundex_of_perm (.refl _) h]
  exact soundex_of_same rfl

/-- What the parts of a name are worth against the same ones in another order. -/
def partsWorth (K : Type) [ExactScalar K] (parts : List Text) : K :=
  if parts = [] then 0 else (1 + Scalar.share (parts.countP lettered) parts.length) / 2

theorem fraction_partsWorth (parts : List Text) : Scalar.Fraction (partsWorth K parts) := by
  have hshare : Scalar.Fraction (Scalar.share (parts.countP lettered) parts.length : K) :=
    ExactScalar.fraction_share List.countP_le_length
  unfold partsWorth
  split
  next => exact Scalar.fraction_zero
  next => constructor <;> linarith [hshare.1, hshare.2]

theorem partsWorth_eq_one_iff {parts : List Text} :
    partsWorth K parts = 1 ↔ parts ≠ [] ∧ ∀ part ∈ parts, lettered part = true := by
  unfold partsWorth
  split
  next hnil => simp [hnil]
  next hsome =>
    have hlength : parts.length ≠ 0 := mt List.length_eq_zero_iff.mp hsome
    have hhalf (s : K) : (1 + s) / 2 = 1 ↔ s = 1 := by
      constructor <;> intro h <;> linarith
    rw [hhalf, Scalar.share, div_eq_one_iff_eq (Nat.cast_ne_zero.mpr hlength), Nat.cast_inj,
      List.countP_eq_length]
    exact (and_iff_right hsome).symm

theorem mean_of_reordered (h : q'.tokens.Perm q.tokens) :
    ((q.closestParts q' + q.soundex q') / 2 : K) = partsWorth K q.parts := by
  rw [closestParts_of_reordered h, soundex_of_reordered h, partsWorth]
  split
  next => simp
  next => rfl

end Exact

end NameForms

namespace NameBased

variable {fold : Text → Text} {n n' : Text}

section Exact

variable {K : Type} [ExactScalar K]

theorem weights_apply (r : NameResemblance K) : (weights : NameWeights K).apply r =
    if 1 ≤ r.literal then 1 else Scalar.clamp ((r.closestParts + r.soundex) / 2) := by
  have hhalf : (0.5 : K) = 1 / 2 := by norm_num
  have hsum : (0.5 : K) * r.closestParts + 0.5 * r.soundex = (r.closestParts + r.soundex) / 2 := by
    rw [hhalf]
    ring
  simp only [NameWeights.apply, weights, NameWeights.zero, Bool.true_and, decide_eq_true_eq,
    zero_mul, zero_add, add_zero, hsum]

theorem compare_of_some {d : FeatureDecl K} (hd : d ∈ (features : List (FeatureDecl K)))
    (folding : Folding) {q c : NameForms} (hq : .ofFold fold n = q) (hc : .ofFold fold n' = c)
    (hsome : q.cleaned ≠ []) (hsome' : c.cleaned ≠ []) :
    Comparison.compare (.ofFold folding fold) d.rules d.type n n' = .ok (some
      (if q.cleaned = c.cleaned then 1
      else Scalar.clamp ((q.closestParts c + q.soundex c) / 2))) := by
  obtain rfl := List.mem_singleton.mp hd
  calc Comparison.compare (.ofFold folding fold) (.ofWeights weights) .name n n'
      = .ok ((NameResemblance.compare q c).map (weights : NameWeights K).apply) := by
        rw [Comparison.compare_ofFold, Comparison.similarity_name, hq, hc, ComparisonRules.ofWeights]
    _ = _ := by
        rw [NameResemblance.compare_eq_some hsome hsome', Option.map_some, weights_apply]
        simp only [NameForms.one_le_literal_iff]

end Exact

/-- Against its own tokens in another order a name is worth 1 exactly if it has parts and each of them
holds a letter. Otherwise half the share of the parts without one is missing, and all where there are
no parts. -/
theorem weigh_reordered (K : Type) [ExactScalar K] (folding : Folding)
    (hsome : (NameForms.ofFold fold n).cleaned ≠ [])
    (hperm : (NameForms.ofFold fold n').tokens.Perm (NameForms.ofFold fold n).tokens) :
    let q := NameForms.ofFold fold n
    let c := NameForms.ofFold fold n'
    ∀ d ∈ (features : List (FeatureDecl K)),
      let weigh (candidate : Text) :=
        Comparison.compare (.ofFold folding fold) d.rules d.type n candidate
      weigh n = .ok (some 1) ∧
        weigh n' = .ok (some (if q.cleaned = c.cleaned then 1 else NameForms.partsWorth K q.parts)) ∧
        (weigh n' = .ok (some 1) ↔ q.cleaned = c.cleaned ∨
          q.parts ≠ [] ∧ ∀ part ∈ q.parts, NameForms.lettered part = true) := by
  intro q c d hd weigh
  have hsome' : c.cleaned ≠ [] := by
    have hempty := NameForms.isEmpty_of_perm hperm
    rw [Bool.eq_iff_iff, NameForms.isEmpty_iff, NameForms.isEmpty_iff] at hempty
    exact mt hempty.mp hsome
  have hself : weigh n = .ok (some 1) := by
    rw [show weigh n = _ from compare_of_some hd folding rfl rfl hsome hsome, if_pos rfl]
  have hworth := NameForms.fraction_partsWorth (K := K) q.parts
  have hother :
      weigh n' = .ok (some (if q.cleaned = c.cleaned then 1 else NameForms.partsWorth K q.parts)) := by
    rw [show weigh n' = _ from compare_of_some hd folding rfl rfl hsome hsome',
      NameForms.mean_of_reordered hperm, Scalar.clamp_of_mem hworth.1 hworth.2]
  refine ⟨hself, hother, ?_⟩
  rw [hother, Except.ok.injEq, Option.some.injEq]
  split
  next h => exact iff_of_true rfl (.inl h)
  next h => rw [NameForms.partsWorth_eq_one_iff, or_iff_right h]

theorem weigh_reordered_of_number :
    let n := Text.of "Studio 54 b"
    let n' := Text.of "54, B. STUDIO"
    ((NameForms.ofFold Text.lower n).cleaned ≠ [] ∧
        (NameForms.ofFold Text.lower n').tokens.Perm (NameForms.ofFold Text.lower n).tokens) ∧
      ∀ d ∈ (features : List (FeatureDecl ℚ)),
        Comparison.compare .basic d.rules d.type n n = .ok (some 1) ∧
          Comparison.compare .basic d.rules d.type n n' = .ok (some (3 / 4)) := by
  intro n n'
  have hsome : (NameForms.ofFold Text.lower n).cleaned ≠ [] := by decide +kernel
  have hperm : (NameForms.ofFold Text.lower n').tokens.Perm (NameForms.ofFold Text.lower n).tokens := by
    decide +kernel
  have hworth : (if (NameForms.ofFold Text.lower n).cleaned = (NameForms.ofFold Text.lower n').cleaned
      then 1 else NameForms.partsWorth ℚ (NameForms.ofFold Text.lower n).parts) = 3 / 4 := by decide +kernel
  refine ⟨⟨hsome, hperm⟩, fun d hd => ?_⟩
  obtain ⟨hself, hother, _⟩ := weigh_reordered ℚ .basic hsome hperm d hd
  rw [hworth] at hother
  exact ⟨hself, hother⟩

/-- No part of a name in another script has a code. -/
theorem cyrillic_reordered_halved :
    let n := Text.of "Владимир Путин"
    let n' := Text.of "Путин, Владимир"
    ((NameForms.ofFold id n).cleaned ≠ [] ∧
        (NameForms.ofFold id n').tokens.Perm (NameForms.ofFold id n).tokens) ∧
      ∀ d ∈ (features : List (FeatureDecl Float)),
        Comparison.compare .verbatim d.rules d.type n n = .ok (some 1) ∧
          Comparison.compare .verbatim d.rules d.type n n' = .ok (some 0.5) := by
  intro n n'
  have hself : (NameResemblance.compare (.ofFold id n) (.ofFold id n)).map
      (weights : NameWeights Float).apply = some 1 := by decide +kernel
  have hother : (NameResemblance.compare (.ofFold id n) (.ofFold id n')).map
      (weights : NameWeights Float).apply = some 0.5 := by decide +kernel
  refine ⟨⟨by decide +kernel, by decide +kernel⟩, fun d hd => ?_⟩
  obtain rfl := List.mem_singleton.mp hd
  exact ⟨(Comparison.compare_ofFold ..).trans (congrArg Except.ok hself),
    (Comparison.compare_ofFold ..).trans (congrArg Except.ok hother)⟩

end NameBased

end Screening
