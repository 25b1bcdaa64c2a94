import Mathlib.Data.Nat.Cast.Order.Field
import Screening.Proofs.Scalar.Rounding

namespace Screening.Machine

open Float.Model Float.Model.UnpackedFloat

def signed : Sign → ℚ → ℚ
  | .negative, x => -x
  | .positive, x => x

theorem abs_signed (s : Sign) (x : ℚ) : |signed s x| = |x| := by
  cases s with
  | negative => exact abs_neg x
  | positive => rfl

theorem signed_neg (s : Sign) (x : ℚ) : signed (-s) x = -signed s x := by
  cases s with
  | negative => exact (neg_neg x).symm
  | positive => rfl

theorem signed_mul (s t : Sign) (x y : ℚ) : signed (s * t) (x * y) = signed s x * signed t y := by
  cases s with
  | negative =>
    cases t with
    | negative => exact (neg_mul_neg x y).symm
    | positive => exact (neg_mul x y).symm
  | positive =>
    cases t with
    | negative => exact (mul_neg x y).symm
    | positive => rfl

theorem signed_div (s t : Sign) (x y : ℚ) : signed (s / t) (x / y) = signed s x / signed t y := by
  cases s with
  | negative =>
    cases t with
    | negative => exact (neg_div_neg_eq x y).symm
    | positive => exact (neg_div y x).symm
  | positive =>
    cases t with
    | negative => exact (div_neg x).symm
    | positive => rfl

/-- The number that a finite float stands for. -/
def value : UnpackedFloat → ℚ
  | .finite s m e _ => signed s (m * 2 ^ e)
  | _ => 0

theorem value_zero (s : Sign) : value (.zero s) = 0 := rfl

theorem value_finite (s : Sign) {m : Nat} (e : Int) (h : 0 < m) :
    value (.finite s m e h) = signed s (m * 2 ^ e) := rfl

/-- Finite floats in their canonical form. -/
def Regular : UnpackedFloat → Prop
  | .zero _ => True
  | .finite _ m e _ => Canonical m e
  | .infinity _ => False
  | .notANumber => False

theorem abs_value (s : Sign) {m : Nat} (e : Int) (h : 0 < m) :
    |value (.finite s m e h)| = m * 2 ^ e := by
  rw [value_finite, abs_signed, abs_of_nonneg (by positivity)]

theorem ofParts_of_pos (s : Sign) {m : Nat} (e : Int) (h : 0 < m) :
    ofParts s m e = .finite s m e h := dif_neg (Nat.ne_of_gt h)

theorem value_ofParts (s : Sign) (m : Nat) (e : Int) :
    value (ofParts s m e) = signed s (m * 2 ^ e) := by
  rcases Nat.eq_zero_or_pos m with rfl | hm
  · rw [Nat.cast_zero, zero_mul]
    cases s with
    | negative => exact neg_zero.symm
    | positive => rfl
  · rw [ofParts_of_pos s e hm]
    rfl

theorem regular_ofParts (s : Sign) {m : Nat} {e : Int} (h : Canonical m e) :
    Regular (ofParts s m e) := by
  rcases Nat.eq_zero_or_pos m with rfl | hm
  · trivial
  · rw [ofParts_of_pos s e hm]
    exact h

/-- A float to which a number may be rounded. -/
structure Nearest (x : ℚ) (u : UnpackedFloat) : Prop where
  regular : Regular u
  nonneg : 0 ≤ x → 0 ≤ value u
  nonpos : x ≤ 0 → value u ≤ 0
  le_pow (k : Nat) : |x| < 2 ^ k + 2 ^ k / 2 ^ 53 → |value u| ≤ 2 ^ k
  pow_le (k : Nat) : 2 ^ k ≤ |x| → 2 ^ k ≤ |value u|

variable {u v : UnpackedFloat} {x : ℚ}

theorem RoundsTo.nearest {m : Nat} {e : Int} (s : Sign) (hx : 0 < x) (h : RoundsTo x m e) :
    Nearest (signed s x) (ofParts s m e) := by
  have hmagnitude : (0 : ℚ) ≤ m * 2 ^ e := by positivity
  have hvalue := value_ofParts s m e
  constructor
  · exact regular_ofParts s h.canonical
  · intro hs
    rw [hvalue]
    cases s with
    | negative => exact absurd hx (not_lt.mpr (neg_nonneg.mp hs))
    | positive => exact hmagnitude
  · intro hs
    rw [hvalue]
    cases s with
    | negative => exact neg_nonpos.mpr hmagnitude
    | positive => exact absurd hx (not_lt.mpr hs)
  · intro k hk
    rw [abs_signed, abs_of_pos hx] at hk
    rw [hvalue, abs_signed, abs_of_nonneg hmagnitude]
    exact h.le_pow k hk
  · intro k hk
    rw [abs_signed, abs_of_pos hx] at hk
    rw [hvalue, abs_signed, abs_of_nonneg hmagnitude]
    exact h.pow_le k hk

/-- The result of rounding a mantissa with residual bits. -/
theorem nearest_roundWithAccuracy {m : Nat} {e : Int} {a : Accuracy} (s : Sign) (hx : 0 < x)
    (h : Extends (.ofMantissaAndAccuracy m a) x) (he : e ≤ target m e) :
    Nearest (signed s (x * 2 ^ e)) (roundWithAccuracy .binary64 s m e a) := by
  obtain ⟨n, f, hrounds, heq⟩ := roundWithAccuracy_eq s h he
  rw [heq]
  exact hrounds.nearest s (by positivity)

theorem nearest_zero (s : Sign) : Nearest 0 (.zero s) where
  regular := trivial
  nonneg _ := le_refl _
  nonpos _ := le_refl _
  le_pow k _ := by
    change |(0 : ℚ)| ≤ _
    rw [abs_zero]
    positivity
  pow_le k h := h

theorem nearest_self (h : Regular u) : Nearest (value u) u := by
  cases u with
  | zero s => exact nearest_zero s
  | finite s m e hm =>
    have hexact : Extends ⟨m, false, false⟩ m := Extends.exact m
    have hpos : (0 : ℚ) < m := by exact_mod_cast hm
    rw [← ofParts_of_pos, value_ofParts]
    apply RoundsTo.nearest s (by positivity)
    refine ⟨h, fun k hk => ?_, fun k hk => hk⟩
    exact rounded_le_pow hexact h.mantissa_lt h.full hk
  | infinity s => exact h.elim
  | notANumber => exact h.elim

theorem log2_shiftLeft {m : Nat} (hm : m ≠ 0) (d : Nat) : (m <<< d).log2 = m.log2 + d := by
  rw [Nat.shiftLeft_eq, Nat.log2_eq_iff (by positivity), Nat.pow_add,
    Nat.add_right_comm m.log2 d 1, Nat.pow_add _ (m.log2 + 1)]
  constructor
  · exact Nat.mul_le_mul_right _ (Nat.log2_self_le hm)
  · exact Nat.mul_lt_mul_of_pos_right Nat.lt_log2_self (by positivity)

theorem shiftLeft_mul_pow (m : Nat) (e : Int) (d : Nat) :
    ((m <<< d : Nat) : ℚ) * 2 ^ (e - d) = m * 2 ^ e := by
  rw [Nat.shiftLeft_eq, zpow_sub₀ two_ne_zero, zpow_natCast]
  push_cast
  field_simp

theorem nearest_round (s : Sign) {m : Nat} (e : Int) (hm : 0 < m) :
    Nearest (signed s (m * 2 ^ e)) (UnpackedFloat.round .binary64 s m e) := by
  let d := (e - target m e).toNat
  have hshifted : 0 < m <<< d := by
    rw [Nat.shiftLeft_eq]
    positivity
  have htarget : e - d ≤ target (m <<< d) (e - d) := by
    have h := target_eq m e
    rw [target_eq, log2_shiftLeft (Nat.ne_of_gt hm)]
    omega
  have hpos : (0 : ℚ) < (m <<< d : Nat) := by exact_mod_cast hshifted
  have hnearest := nearest_roundWithAccuracy s hpos (Extends.exact (m <<< d)) htarget
  rw [shiftLeft_mul_pow] at hnearest
  exact hnearest

theorem nearest_normalize (n : Int) (e : Int) (zeroSign : Sign) :
    Nearest (n * 2 ^ e) (UnpackedFloat.normalize .binary64 n e zeroSign) := by
  unfold UnpackedFloat.normalize
  split
  next h =>
    have hneg : n < 0 := Int.compare_eq_lt.mp h
    have hn : (n : ℚ) * 2 ^ e = signed .negative (((-n).toNat : Nat) * 2 ^ e) := by
      have hcast : (((-n).toNat : Int) : ℚ) = -n := by
        rw [Int.toNat_of_nonneg (by omega), Int.cast_neg]
      rw [signed, ← Int.cast_natCast, hcast]
      ring
    rw [hn]
    exact nearest_round .negative e (by omega)
  next h =>
    obtain rfl : n = 0 := Int.compare_eq_eq.mp h
    rw [Int.cast_zero, zero_mul]
    exact nearest_zero zeroSign
  next h =>
    have hpos : 0 < n := Int.compare_eq_gt.mp h
    have hn : (n : ℚ) * 2 ^ e = signed .positive ((n.toNat : Nat) * 2 ^ e) := by
      have hcast : ((n.toNat : Int) : ℚ) = n := by rw [Int.toNat_of_nonneg (by omega)]
      rw [signed, ← Int.cast_natCast, hcast]
    rw [hn]
    exact nearest_round .positive e (by omega)

theorem regular_neg (h : Regular u) : Regular u.neg := by
  cases u with
  | zero s => trivial
  | finite s m e hm => exact h
  | infinity s => exact h
  | notANumber => exact h

theorem value_neg (u : UnpackedFloat) : value u.neg = -value u := by
  cases u with
  | finite s m e hm => exact signed_neg s _
  | zero s => exact neg_zero.symm
  | infinity s => exact neg_zero.symm
  | notANumber => exact neg_zero.symm

theorem apply_shiftLeft (s : Sign) (m : Nat) {e t : Int} (h : t ≤ e) :
    ((s.apply (m <<< (e - t).toNat : Nat) : Int) : ℚ) * 2 ^ t = signed s (m * 2 ^ e) := by
  have hvalue := shiftLeft_mul_pow m e (e - t).toNat
  have ht : e - (e - t).toNat = t := by omega
  rw [ht] at hvalue
  cases s with
  | negative => rw [Sign.apply, signed, ← hvalue, Int.cast_neg, Int.cast_natCast, neg_mul]
  | positive => rw [Sign.apply, signed, ← hvalue, Int.cast_natCast]

theorem nearest_add (hu : Regular u) (hv : Regular v) :
    Nearest (value u + value v) (u.add .binary64 v) := by
  cases u with
  | infinity s => exact hu.elim
  | notANumber => exact hu.elim
  | zero s =>
    rw [value_zero, zero_add]
    cases v with
    | infinity t => exact hv.elim
    | notANumber => exact hv.elim
    | zero t =>
      change Nearest 0 (if s == t then .zero s else .zero .positive)
      split
      next => exact nearest_zero s
      next => exact nearest_zero .positive
    | finite t n f hn => exact nearest_self hv
  | finite s m e hm =>
    cases v with
    | infinity t => exact hv.elim
    | notANumber => exact hv.elim
    | zero t =>
      rw [value_zero, add_zero]
      exact nearest_self hu
    | finite t n f hn =>
      have h := nearest_normalize (s.apply (m <<< (e - min e f).toNat : Nat) +
        t.apply (n <<< (f - min e f).toNat : Nat)) (min e f) .positive
      rw [Int.cast_add, add_mul, apply_shiftLeft s m (min_le_left e f),
        apply_shiftLeft t n (min_le_right e f)] at h
      exact h

theorem unpacked_add_comm (u v : UnpackedFloat) : u.add .binary64 v = v.add .binary64 u := by
  cases u with
  | notANumber => cases v <;> rfl
  | infinity s =>
    cases v with
    | infinity t => cases s <;> cases t <;> rfl
    | _ => rfl
  | zero s =>
    cases v with
    | zero t => cases s <;> cases t <;> rfl
    | _ => rfl
  | finite s m e hm =>
    cases v with
    | finite t n f hn =>
      dsimp only [UnpackedFloat.add]
      rw [min_comm f e, Int.add_comm]
    | _ => rfl

theorem add_infinity (s : Sign) (hu : Regular u) :
    u.add .binary64 (.infinity s) = .infinity s := by
  cases u with
  | infinity t => exact hu.elim
  | notANumber => exact hu.elim
  | zero t => rfl
  | finite t m e hm => rfl

theorem nearest_sub (hu : Regular u) (hv : Regular v) :
    Nearest (value u - value v) (u.sub .binary64 v) := by
  cases u with
  | infinity s => exact hu.elim
  | notANumber => exact hu.elim
  | zero s =>
    rw [value_zero, zero_sub]
    cases v with
    | infinity t => exact hv.elim
    | notANumber => exact hv.elim
    | zero t =>
      rw [value_zero, neg_zero]
      change Nearest 0 (if s == -t then .zero s else .zero .positive)
      split
      next => exact nearest_zero s
      next => exact nearest_zero .positive
    | finite t n f hn =>
      rw [← value_neg]
      exact nearest_self (regular_neg hv)
  | finite s m e hm =>
    cases v with
    | infinity t => exact hv.elim
    | notANumber => exact hv.elim
    | zero t =>
      rw [value_zero, sub_zero]
      exact nearest_self hu
    | finite t n f hn =>
      have h := nearest_normalize (s.apply (m <<< (e - min e f).toNat : Nat) -
        t.apply (n <<< (f - min e f).toNat : Nat)) (min e f) .positive
      rw [Int.cast_sub, sub_mul, apply_shiftLeft s m (min_le_left e f),
        apply_shiftLeft t n (min_le_right e f)] at h
      exact h

theorem target_mul {m n : Nat} {e f : Int} (hm : 0 < m) (hn : 0 < n) (h : Canonical m e)
    (k : Canonical n f) : e + f ≤ target (m * n) (e + f) := by
  have htarget := target_eq (m * n) (e + f)
  have hpos : m * n ≠ 0 := by positivity
  rcases h.full with hfull | hleast
  · have hlog : 52 ≤ (m * n).log2 :=
      (Nat.le_log2 hpos).mpr (le_trans hfull (Nat.le_mul_of_pos_right m hn))
    omega
  · rcases k.full with kfull | kleast
    · have hlog : 52 ≤ (m * n).log2 :=
        (Nat.le_log2 hpos).mpr (le_trans kfull (Nat.le_mul_of_pos_left n hm))
      omega
    · omega

theorem nearest_mul (hu : Regular u) (hv : Regular v) :
    Nearest (value u * value v) (u.mul .binary64 v) := by
  cases u with
  | infinity s => exact hu.elim
  | notANumber => exact hu.elim
  | zero s =>
    rw [value_zero, zero_mul]
    cases v with
    | infinity t => exact hv.elim
    | notANumber => exact hv.elim
    | zero t => exact nearest_zero (s * t)
    | finite t n f hn => exact nearest_zero (s * t)
  | finite s m e hm =>
    cases v with
    | infinity t => exact hv.elim
    | notANumber => exact hv.elim
    | zero t =>
      rw [value_zero, mul_zero]
      exact nearest_zero (s * t)
    | finite t n f hn =>
      have hpos : (0 : ℚ) < (m * n : Nat) := by exact_mod_cast Nat.mul_pos hm hn
      have h := nearest_roundWithAccuracy (s * t) hpos (Extends.exact (m * n))
        (target_mul hm hn hu hv)
      have hvalue : ((m * n : Nat) : ℚ) * 2 ^ (e + f) = m * 2 ^ e * (n * 2 ^ f) := by
        rw [zpow_add₀ two_ne_zero]
        push_cast
        ring
      rw [hvalue, signed_mul] at h
      exact h

theorem extends_quotient (m : Nat) {n : Nat} (hn : 0 < n) :
    Extends (.ofMantissaAndAccuracy (m / n) (accuracyOfFraction (m % n) n)) (m / n) := by
  have hpos : (0 : ℚ) < n := by exact_mod_cast hn
  have hrest : m % n < n := Nat.mod_lt m hn
  have hparts : (m : ℚ) = n * (m / n : Nat) + (m % n : Nat) := by
    exact_mod_cast (Nat.div_add_mod m n).symm
  constructor
  · rw [mantissa_ofMantissaAndAccuracy]
    exact Nat.cast_div_le
  · rw [mantissa_ofMantissaAndAccuracy, div_lt_iff₀ hpos, hparts]
    have hcast : ((m % n : Nat) : ℚ) < n := by exact_mod_cast hrest
    linarith
  · rw [mantissa_ofMantissaAndAccuracy]
    intro hup
    have hhalf : n ≤ 2 * (m % n) := by
      unfold accuracyOfFraction at hup
      split at hup
      next => exact nomatch hup
      next =>
        rcases hside : compare (2 * (m % n)) n with _ | _ | _
        · rw [hside] at hup
          exact nomatch hup
        · exact Nat.le_of_eq (Nat.compare_eq_eq.mp hside).symm
        · exact Nat.le_of_lt (Nat.compare_eq_gt.mp hside)
    have hcast : (n : ℚ) ≤ 2 * (m % n : Nat) := by exact_mod_cast hhalf
    rw [le_div_iff₀ hpos, hparts]
    linarith

/-- The exponent from which a quotient is rounded. -/
def quotientExponent (m : Nat) (e : Int) (n : Nat) (f : Int) : Int :=
  min (e - f) (Format.binary64.targetExponent (totalExponent m e - totalExponent n f))

theorem target_quotient {m n : Nat} (e f : Int) (hm : 0 < m) (hn : 0 < n) :
    quotientExponent m e n f ≤ target (m <<< (e - f - quotientExponent m e n f).toNat / n)
      (quotientExponent m e n f) := by
  let t := quotientExponent m e n f
  let d := (e - f - t).toNat
  have hexponent : t = min (e - f) (max (m.log2 + e - (n.log2 + f) - 53) (-1074)) := by
    simp only [t, quotientExponent, targetExponent_eq, totalExponent]
    omega
  have htarget := target_eq (m <<< d / n) t
  change t ≤ target (m <<< d / n) t
  by_cases hleast : t ≤ -1074
  · omega
  have hbits : n.log2 + 1 + 52 ≤ m.log2 + d := by omega
  have hquotient : 2 ^ 52 ≤ m <<< d / n := by
    rw [Nat.le_div_iff_mul_le hn]
    calc 2 ^ 52 * n ≤ 2 ^ 52 * 2 ^ (n.log2 + 1) :=
          Nat.mul_le_mul_left _ (Nat.le_of_lt Nat.lt_log2_self)
      _ = 2 ^ (n.log2 + 1 + 52) := by rw [← Nat.pow_add, Nat.add_comm]
      _ ≤ 2 ^ (m <<< d).log2 := by
        rw [log2_shiftLeft (Nat.ne_of_gt hm)]
        exact Nat.pow_le_pow_right Nat.two_pos hbits
      _ ≤ m <<< d := by
        apply Nat.log2_self_le
        rw [Nat.shiftLeft_eq]
        positivity
  have hlog : 52 ≤ (m <<< d / n).log2 := (Nat.le_log2 (by omega)).mpr hquotient
  omega

theorem shiftLeft_div_mul_pow (m n : Nat) (e f : Int) (d : Nat) :
    ((m <<< d : Nat) : ℚ) / n * 2 ^ (e - f - d) = m * 2 ^ e / (n * 2 ^ f) := by
  rw [div_mul_eq_mul_div, shiftLeft_mul_pow, zpow_sub₀ two_ne_zero]
  field_simp

theorem nearest_div (hu : Regular u) (hv : Regular v) (hne : value v ≠ 0) :
    Nearest (value u / value v) (u.div .binary64 v) := by
  cases v with
  | infinity t => exact hv.elim
  | notANumber => exact hv.elim
  | zero t => exact absurd rfl hne
  | finite t n f hn =>
    cases u with
    | infinity s => exact hu.elim
    | notANumber => exact hu.elim
    | zero s =>
      rw [value_zero, zero_div]
      exact nearest_zero (s / t)
    | finite s m e hm =>
      let r := quotientExponent m e n f
      let d := (e - f - r).toNat
      have hd : e - f - d = r := by
        have : r ≤ e - f := min_le_left _ _
        omega
      have hshifted : 0 < m <<< d := by
        rw [Nat.shiftLeft_eq]
        positivity
      have hpos : (0 : ℚ) < (m <<< d : Nat) / n :=
        div_pos (by exact_mod_cast hshifted) (by exact_mod_cast hn)
      have h := nearest_roundWithAccuracy (s / t) hpos (extends_quotient _ hn)
        (target_quotient e f hm hn)
      have hvalue := shiftLeft_div_mul_pow m n e f d
      rw [hd] at hvalue
      change Nearest (signed (s / t) (((m <<< d : Nat) : ℚ) / n * 2 ^ r)) _ at h
      rw [hvalue, signed_div] at h
      exact h

theorem nearest_div_infinity (s : Sign) (hu : Regular u) :
    Nearest 0 (u.div .binary64 (.infinity s)) := by
  cases u with
  | infinity t => exact hu.elim
  | notANumber => exact hu.elim
  | zero t => exact nearest_zero (t / s)
  | finite t m e hm => exact nearest_zero (t / s)

end Screening.Machine
