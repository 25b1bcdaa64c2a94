import Mathlib.Algebra.Field.Rat
import Mathlib.Algebra.Order.BigOperators.Group.List
import Mathlib.Algebra.Order.Field.Basic
import Mathlib.Data.Rat.Cast.Lemmas
import Mathlib.Order.Monotone.Defs
import Mathlib.Tactic.Linarith
import Mathlib.Tactic.NormNum
import Screening.Proofs.Scalar.Lawful

namespace Screening

/-- An ordered field with a function in the place of the exponential one. -/
class ExactScalar (K : Type) extends Field K, LinearOrder K, IsStrictOrderedRing K where
  exp : K → K
  exp_pos (a : K) : 0 < exp a
  exp_strictMono : StrictMono exp

namespace ExactScalar

variable {K : Type} [ExactScalar K]

instance : Scalar K where
  toOfScientific := inferInstance
  decLt := inferInstance
  decLe := inferInstance
  exp := ExactScalar.exp
  pow a n := a ^ n

theorem isNumber (a : K) : Scalar.IsNumber a := le_refl a

instance : OrderedScalar K where
  le_trans := le_trans
  left_number _ := le_refl _
  right_number _ := le_refl _
  le_total _ _ := le_total _ _
  lt_iff := lt_iff_le_not_ge
  zero_lt_one := zero_lt_one

instance : AntisymmScalar K where
  eq_of_ties _ h := le_antisymm h.1 h.2

theorem within_iff {k : Nat} {a : K} : Scalar.Within k a ↔ |a| ≤ 2 ^ k := by
  unfold Scalar.Within
  rw [Nat.cast_pow, Nat.cast_ofNat, abs_le]

theorem decimal_eq (m e : Nat) : (OfScientific.ofScientific m true e : K) = m / 10 ^ e := by
  rw [NNRatCast.ofScientific_eq_ite, if_pos rfl, NNRat.cast_divNat]
  push_cast
  rfl

theorem min_eq (a b : K) : Scalar.min a b = min a b := by
  unfold Scalar.min
  split
  next h => exact (min_eq_right (le_of_lt h)).symm
  next h => exact (min_eq_left (not_lt.mp h)).symm

theorem max_eq (a b : K) : Scalar.max a b = max a b := by
  unfold Scalar.max
  split
  next h => exact (max_eq_right (le_of_lt h)).symm
  next h => exact (max_eq_left (not_lt.mp h)).symm

theorem fraction_share {part whole : Nat} (h : part ≤ whole) :
    Scalar.Fraction (Scalar.share part whole : K) :=
  ⟨div_nonneg (Nat.cast_nonneg part) (Nat.cast_nonneg whole),
    div_le_one_of_le₀ (Nat.cast_le.mpr h) (Nat.cast_nonneg whole)⟩

theorem share_self {n : Nat} (h : n ≠ 0) : (Scalar.share n n : K) = 1 :=
  div_self (Nat.cast_ne_zero.mpr h)

theorem foldl_add (as : List K) (sum : K) : as.foldl (fun sum a => sum + a) sum = sum + as.sum := by
  induction as generalizing sum with
  | nil => simp
  | cons a as ih => rw [List.foldl_cons, ih, List.sum_cons, add_assoc]

theorem fraction_mean {as : List K} (h : ∀ a ∈ as, Scalar.Fraction a) :
    Scalar.Fraction (as.sum / (as.length : K)) := by
  have hsum : 0 ≤ as.sum := List.sum_nonneg fun a ha => (h a ha).1
  have hlength : as.sum ≤ (as.length : K) := by
    have := List.sum_le_card_nsmul as 1 fun a ha => (h a ha).2
    simpa using this
  exact ⟨div_nonneg hsum (Nat.cast_nonneg _), div_le_one_of_le₀ hlength (Nat.cast_nonneg _)⟩

instance : LawfulScalar K where
  fraction_complement h := ⟨sub_nonneg.mpr h.2, sub_le_self _ h.1⟩
  fraction_mul h k := ⟨mul_nonneg h.1 k.1, mul_le_one₀ h.2 k.1 k.2⟩
  share_number _ _ _ := isNumber _
  within_natCast h _ := by
    rw [within_iff, abs_of_nonneg (Nat.cast_nonneg _)]
    exact_mod_cast h
  within_fraction h := by
    rw [within_iff, pow_zero, abs_of_nonneg h.1]
    exact h.2
  within_mono hjk _ h :=
    within_iff.mpr (le_trans (within_iff.mp h) (pow_le_pow_right₀ one_le_two hjk))
  within_add _ h k := by
    rw [within_iff] at *
    rw [pow_succ, mul_two]
    exact le_trans (abs_add_le _ _) (add_le_add h k)
  within_sub _ h k := by
    rw [within_iff] at *
    rw [pow_succ, mul_two]
    exact le_trans (abs_sub _ _) (add_le_add h k)
  within_mul _ h k := by
    rw [within_iff] at *
    rw [abs_mul, pow_add]
    exact mul_le_mul h k (abs_nonneg _) (by positivity)
  within_neg _ h := by rwa [within_iff, abs_neg, ← within_iff]
  within_decimal {m e k} _ _ _ h := by
    rw [within_iff, decimal_eq, abs_of_nonneg (by positivity), div_le_iff₀ (by positivity)]
    exact_mod_cast h
  within_mean {as} _ h := by
    rw [within_iff, foldl_add, zero_add, abs_of_nonneg (fraction_mean h).1]
    exact le_trans (fraction_mean h).2 (one_le_pow₀ one_le_two)
  fraction_inverse {a} h := by
    have hone : 1 ≤ 1 + a := le_add_of_nonneg_right h
    have hnonneg : 0 ≤ 1 + a := le_trans zero_le_one hone
    exact ⟨div_nonneg zero_le_one hnonneg, div_le_one_of_le₀ hone hnonneg⟩

theorem expNonneg : Scalar.ExpNonneg K := fun a _ => le_of_lt (exp_pos a)

/-- A positive function that rises everywhere, where the exponential one is not at hand. -/
def slope (a : ℚ) : ℚ := if a < 0 then 1 / (1 - a) else 1 + a

theorem slope_pos (a : ℚ) : 0 < slope a := by
  unfold slope
  split
  next h => exact one_div_pos.mpr (by linarith)
  next h => linarith

theorem slope_strictMono : StrictMono slope := by
  intro a b hab
  unfold slope
  split
  next ha =>
    split
    next hb => exact one_div_lt_one_div_of_lt (by linarith) (by linarith)
    next hb =>
      have hone : 1 / (1 - a) < 1 := (div_lt_one (by linarith)).mpr (by linarith)
      linarith
  next ha =>
    split
    next hb => linarith
    next hb => linarith

instance : ExactScalar ℚ where
  exp := slope
  exp_pos := slope_pos
  exp_strictMono := slope_strictMono

end ExactScalar

end Screening
