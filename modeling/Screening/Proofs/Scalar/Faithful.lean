import Screening.Proofs.Scalar.Arithmetic
import Screening.Proofs.Scalar.Exact

namespace Screening

open Scalar in
/-- Numbers whose arithmetic is faithful at 0 and 1 and keeps signs. -/
class FaithfulScalar (α : Type) [Scalar α] : Prop extends LawfulScalar α, AntisymmScalar α where
  one_sub_one : Ties (1 - 1 : α) 0
  one_add {a : α} : Ties a 0 → Ties (1 + a) 1
  zero_mul {a b : α} {k : Nat} : k ≤ 60 → Ties a 0 → Within k b → Ties (a * b) 0
  mul_zero {a b : α} {k : Nat} : k ≤ 60 → Within k a → Ties b 0 → Ties (a * b) 0
  mul_nonneg {a b : α} {j k : Nat} : j + k ≤ 60 → Within j a → Within k b → 0 ≤ a → 0 ≤ b →
    0 ≤ a * b
  decimal_pos {m e : Nat} : 0 < m → m ≤ 100 → e ≤ 2 → 0 < (OfScientific.ofScientific m true e : α)
  share_zero {n : Nat} : n ≠ 0 → Ties (share 0 n : α) 0

theorem Scalar.half_ne_zero {α : Type} [Scalar α] [FaithfulScalar α] : (0.5 : α) ≠ 0 :=
  Scalar.ne_zero_of_pos (FaithfulScalar.decimal_pos (by decide) (by decide) (by decide))

namespace ExactScalar

variable {K : Type} [ExactScalar K]

theorem ties_iff {a b : K} : Scalar.Ties a b ↔ a = b := le_antisymm_iff.symm

instance : FaithfulScalar K where
  one_sub_one := ties_iff.mpr (sub_self 1)
  one_add h := by rw [ties_iff.mp h, ties_iff, add_zero]
  zero_mul _ h _ := by rw [ties_iff.mp h, ties_iff, zero_mul]
  mul_zero _ _ h := by rw [ties_iff.mp h, ties_iff, mul_zero]
  mul_nonneg _ _ _ h k := mul_nonneg h k
  decimal_pos {m e} hm _ _ := by
    rw [decimal_eq]
    have hpos : (0 : K) < m := Nat.cast_pos.mpr hm
    positivity
  share_zero _ := by
    unfold Scalar.share
    rw [ties_iff, Nat.cast_zero, zero_div]

end ExactScalar

namespace Machine

variable {a b : Float}

theorem ties_iff (ha : IsFinite a) (hb : IsFinite b) : Scalar.Ties a b ↔ real a = real b := by
  unfold Scalar.Ties
  rw [le_iff_real ha hb, le_iff_real hb ha]
  exact le_antisymm_iff.symm

theorem ties_zero_iff : Scalar.Ties a Zero.zero ↔ IsFinite a ∧ real a = 0 := by
  obtain ⟨hzero, hzero_real⟩ := real_zero
  constructor
  · intro h
    have ha := isFinite_of_le_of_le hzero hzero h.2 h.1
    exact ⟨ha, ((ties_iff ha hzero).mp h).trans hzero_real⟩
  · rintro ⟨ha, hreal⟩
    exact (ties_iff ha hzero).mpr (hreal.trans hzero_real.symm)

theorem nonneg_iff (ha : IsFinite a) : Zero.zero ≤ a ↔ 0 ≤ real a := by
  obtain ⟨hzero, hzero_real⟩ := real_zero
  rw [le_iff_real hzero ha, hzero_real]

theorem Rounded.ties_zero (h : Rounded 0 a) : Scalar.Ties a Zero.zero :=
  ties_zero_iff.mpr ⟨h.regular, le_antisymm (h.nonpos (le_refl 0)) (h.nonneg (le_refl 0))⟩

theorem Rounded.ties_one (h : Rounded 1 a) : Scalar.Ties a One.one := by
  obtain ⟨hone, hone_real⟩ := real_one
  have habs : |(1 : ℚ)| = 2 ^ 0 := by norm_num
  have hle := h.le_pow 0 (by rw [habs]; norm_num)
  have hge := h.pow_le 0 (le_of_eq habs.symm)
  have hnonneg : 0 ≤ real a := h.nonneg zero_le_one
  change |real a| ≤ 2 ^ 0 at hle
  change 2 ^ 0 ≤ |real a| at hge
  rw [abs_of_nonneg hnonneg] at hle hge
  rw [ties_iff h.regular hone, hone_real]
  linarith

theorem ties_mul_zero (ha : IsFinite a) (hb : IsFinite b) (h : real a * real b = 0) :
    Scalar.Ties (a * b) Zero.zero := by
  have hround := rounded_mul ha hb (Nat.zero_le 1000) (by rw [h]; norm_num)
  rw [h] at hround
  exact hround.ties_zero

theorem decimal_pos : ∀ m < 101, 0 < m → ∀ e < 3,
    (Zero.zero : Float) < OfScientific.ofScientific m true e := by
  decide +kernel

instance : FaithfulScalar Float where
  one_sub_one := by decide +kernel
  one_add {a} h := by
    obtain ⟨hone, hone_real⟩ := real_one
    obtain ⟨ha, hreal⟩ := ties_zero_iff.mp h
    have hsum : real One.one + real a = 1 := by rw [hone_real, hreal, add_zero]
    have hround := rounded_add hone ha (Nat.zero_le 1000) (by rw [hsum]; norm_num)
    rw [hsum] at hround
    exact hround.ties_one
  zero_mul {a b k} hk h hb := by
    obtain ⟨ha, hreal⟩ := ties_zero_iff.mp h
    obtain ⟨hb, _⟩ := (within_iff hk).mp hb
    exact ties_mul_zero ha hb (by rw [hreal, zero_mul])
  mul_zero {a b k} hk ha h := by
    obtain ⟨hb, hreal⟩ := ties_zero_iff.mp h
    obtain ⟨ha, _⟩ := (within_iff hk).mp ha
    exact ties_mul_zero ha hb (by rw [hreal, mul_zero])
  mul_nonneg {a b j k} hjk ha hb h h' := by
    obtain ⟨ha, hsize⟩ := (within_iff (by omega)).mp ha
    obtain ⟨hb, hsize'⟩ := (within_iff (by omega)).mp hb
    have hproduct : |real a * real b| ≤ 2 ^ (j + k) := by
      rw [abs_mul, pow_add]
      exact mul_le_mul hsize hsize' (abs_nonneg _) (by positivity)
    have hround := rounded_mul ha hb (by omega) hproduct
    exact (nonneg_iff hround.regular).mpr
      (hround.nonneg (mul_nonneg ((nonneg_iff ha).mp h) ((nonneg_iff hb).mp h')))
  decimal_pos {m e} hpos hm he := decimal_pos m (by omega) hpos e (by omega)
  share_zero {n} hn := by
    obtain ⟨hcount, hlow, _⟩ := real_count hn
    obtain ⟨hzero, hzero_real⟩ := real_zero
    rw [← natCast_zero] at hzero hzero_real
    have hquotient : real ((0 : Nat) : Float) / real (n : Float) = 0 := by
      rw [hzero_real, zero_div]
    have hround := rounded_div hzero hcount (by linarith) (Nat.zero_le 1000)
      (by rw [hquotient]; norm_num)
    rw [hquotient] at hround
    exact hround.ties_zero

end Machine

end Screening
