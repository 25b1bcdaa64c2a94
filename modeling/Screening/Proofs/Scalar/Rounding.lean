import Mathlib.Algebra.Field.Rat
import Mathlib.Algebra.Order.Field.Power
import Mathlib.Algebra.Order.Ring.Rat
import Mathlib.Tactic.FieldSimp
import Mathlib.Tactic.Linarith
import Mathlib.Tactic.NormNum
import Mathlib.Tactic.Positivity
import Mathlib.Tactic.Ring

namespace Screening.Machine

open Float.Model Float.Model.UnpackedFloat

/-- A mantissa with residual bits of the number `x`, as far as rounding up depends on them. -/
structure Extends (em : ExtendedMantissa) (x : ℚ) : Prop where
  le : em.mantissa ≤ x
  lt : x < em.mantissa + 1
  half_le : em.roundBit = true → em.mantissa + 1 / 2 ≤ x

namespace Extends

variable {em : ExtendedMantissa} {x : ℚ}

theorem exact (m : Nat) : Extends (.ofMantissaAndAccuracy m .exact) m where
  le := le_refl _
  lt := lt_add_one _
  half_le h := nomatch h

theorem shiftRightOne (h : Extends em x) : Extends em.shiftRightOne (x / 2) := by
  have hle := h.le
  have hlt := h.lt
  have hparts : (em.mantissa : ℚ) = 2 * (em.mantissa / 2 : Nat) + (em.mantissa % 2 : Nat) := by
    exact_mod_cast (Nat.div_add_mod em.mantissa 2).symm
  have hrest : ((em.mantissa % 2 : Nat) : ℚ) ≤ 1 := by
    exact_mod_cast Nat.le_of_lt_succ (Nat.mod_lt em.mantissa Nat.two_pos)
  have hzero : (0 : ℚ) ≤ (em.mantissa % 2 : Nat) := Nat.cast_nonneg _
  constructor
  · simp only [ExtendedMantissa.shiftRightOne]
    linarith
  · simp only [ExtendedMantissa.shiftRightOne]
    linarith
  · intro hodd
    simp only [ExtendedMantissa.shiftRightOne, bne_iff_ne, ne_eq, Nat.mod_two_not_eq_zero] at *
    rw [hodd, Nat.cast_one] at hparts
    linarith

theorem shiftRight (h : Extends em x) (n : Nat) : Extends (em >>> n) (x / 2 ^ n) := by
  change Extends (n.repeat ExtendedMantissa.shiftRightOne em) _
  induction n with
  | zero => simpa [Nat.repeat] using h
  | succ n ih =>
    rw [pow_succ, ← div_div]
    exact ih.shiftRightOne

/-- A number is rounded up only from the middle on. -/
theorem roundedMantissa (h : Extends em x) : em.roundedMantissa = em.mantissa ∨
    em.roundedMantissa = em.mantissa + 1 ∧ em.mantissa + 1 / 2 ≤ x := by
  obtain ⟨m, up, sticky⟩ := em
  cases up with
  | false => cases sticky <;> exact .inl rfl
  | true =>
    have hhalf := h.half_le rfl
    cases sticky with
    | true => exact .inr ⟨rfl, hhalf⟩
    | false =>
      change m + m % 2 = m ∨ m + m % 2 = m + 1 ∧ _
      rcases Nat.mod_two_eq_zero_or_one m with hm | hm
      · exact .inl (by omega)
      · exact .inr ⟨by omega, hhalf⟩

end Extends

/-- A mantissa and an exponent of a format with 53 bits: unless the exponent is the least one, all
bits of the mantissa are used. -/
structure Canonical (m : Nat) (e : Int) : Prop where
  mantissa_lt : m < 2 ^ 53
  least_le : -1074 ≤ e
  full : 2 ^ 52 ≤ m ∨ e = -1074

def target (m : Nat) (e : Int) : Int := Format.binary64.targetExponent (totalExponent m e)

theorem targetExponent_eq (k : Int) : Format.binary64.targetExponent k = max (k - 53) (-1074) :=
  rfl

theorem target_eq (m : Nat) (e : Int) : target m e = max (m.log2 + e - 52) (-1074) := by
  rw [target, targetExponent_eq, totalExponent]
  omega

theorem Canonical.target_eq {m : Nat} {e : Int} (h : Canonical m e) : target m e = e := by
  obtain ⟨hlt, hleast, hfull⟩ := h
  rw [Machine.target_eq]
  by_cases hm : m = 0
  · subst hm
    simp only [Nat.log2_zero]
    omega
  have hlog : m.log2 < 53 := (Nat.log2_lt hm).mpr hlt
  rcases hfull with hfull | hfull
  · have := (Nat.le_log2 hm).mpr hfull
    omega
  · omega

theorem shiftToTarget_eq {m : Nat} {e : Int} (a : Accuracy) :
    shiftToTargetExponent .binary64 m e a =
      (ExtendedMantissa.ofMantissaAndAccuracy m a >>> (target m e - e).toNat,
        e + (target m e - e).toNat) := rfl

theorem shiftToTarget_of_canonical {m : Nat} {e : Int} (h : Canonical m e) :
    shiftToTargetExponent .binary64 m e .exact = (⟨m, false, false⟩, e) := by
  rw [shiftToTarget_eq, h.target_eq, Int.sub_self]
  simp only [Int.toNat_zero, Nat.cast_zero, add_zero]
  rfl

theorem shiftToTarget_of_carry {e : Int} (h : -1074 ≤ e) :
    shiftToTargetExponent .binary64 (2 ^ 53) e .exact = (⟨2 ^ 52, false, false⟩, e + 1) := by
  have htarget : target (2 ^ 53) e - e = 1 := by
    rw [target_eq, Nat.log2_two_pow]
    omega
  rw [shiftToTarget_eq, htarget]
  rfl

/-- A mantissa and an exponent to which a positive number may be rounded. -/
structure RoundsTo (x : ℚ) (m : Nat) (e : Int) : Prop where
  canonical : Canonical m e
  le_pow (k : Nat) : x < 2 ^ k + 2 ^ k / 2 ^ 53 → m * 2 ^ e ≤ (2 : ℚ) ^ k
  pow_le (k : Nat) : 2 ^ k ≤ x → (2 : ℚ) ^ k ≤ m * 2 ^ e

section Mantissa

variable {y : ℚ} {em : ExtendedMantissa} {t : Int}

/-- Where the mantissa has been shifted to its place, rounding it goes no further than to the next
power of two. -/
theorem rounded_le_pow (h : Extends em y) (hlt : em.mantissa < 2 ^ 53)
    (hfull : 2 ^ 52 ≤ em.mantissa ∨ t = -1074) {k : Nat}
    (hy : y * 2 ^ t < 2 ^ k + 2 ^ k / 2 ^ 53) : em.roundedMantissa * 2 ^ t ≤ (2 : ℚ) ^ k := by
  have hpos : (0 : ℚ) < 2 ^ t := by positivity
  have htk : t ≤ k := by
    rcases hfull with hfull | hfull
    · have hbits : (2 : ℚ) ^ 52 ≤ em.mantissa := by exact_mod_cast hfull
      have hsize : (2 : ℚ) ^ t < 2 ^ (k : Int) := by
        rw [zpow_natCast]
        have := mul_le_mul_of_nonneg_right (le_trans hbits h.le) (le_of_lt hpos)
        have hk : (0 : ℚ) < 2 ^ k := by positivity
        linarith
      exact le_of_lt ((zpow_lt_zpow_iff_right₀ one_lt_two).mp hsize)
    · omega
  obtain ⟨j, hj⟩ := Int.le.dest htk
  have hsplit : (2 : ℚ) ^ k = 2 ^ j * 2 ^ t := by
    rw [← zpow_natCast, ← hj, zpow_add₀ two_ne_zero, zpow_natCast, mul_comm]
  rw [hsplit] at hy ⊢
  have hy : y < 2 ^ j + 2 ^ j / 2 ^ 53 := by
    apply lt_of_mul_lt_mul_right _ (le_of_lt hpos)
    calc y * 2 ^ t < 2 ^ j * 2 ^ t + 2 ^ j * 2 ^ t / 2 ^ 53 := hy
      _ = (2 ^ j + 2 ^ j / 2 ^ 53) * 2 ^ t := by ring
  apply mul_le_mul_of_nonneg_right _ (le_of_lt hpos)
  have hle := h.le
  suffices hrounded : em.roundedMantissa ≤ 2 ^ j by exact_mod_cast hrounded
  by_cases hj : em.mantissa < 2 ^ j
  · rcases h.roundedMantissa with hr | ⟨hr, _⟩
    · omega
    · omega
  · have hj52 : j ≤ 52 := by
      have : 2 ^ j < 2 ^ 53 := by omega
      exact Nat.le_of_lt_succ ((Nat.pow_lt_pow_iff_right Nat.one_lt_two).mp this)
    have hsmall : (2 : ℚ) ^ j ≤ 2 ^ 52 := pow_le_pow_right₀ one_le_two hj52
    have hmantissa : (em.mantissa : ℚ) < (2 ^ j + 1 : Nat) := by
      push_cast
      linarith
    have hmantissa : em.mantissa < 2 ^ j + 1 := by exact_mod_cast hmantissa
    have heq : (em.mantissa : ℚ) = 2 ^ j := by
      have : em.mantissa = 2 ^ j := by omega
      exact_mod_cast this
    rcases h.roundedMantissa with hr | ⟨_, hhalf⟩
    · omega
    · linarith

theorem pow_le_rounded (h : Extends em y) (hfull : 2 ^ 52 ≤ em.mantissa ∨ t = -1074) {k : Nat}
    (hy : 2 ^ k ≤ y * 2 ^ t) : (2 : ℚ) ^ k ≤ em.roundedMantissa * 2 ^ t := by
  have hpos : (0 : ℚ) < 2 ^ t := by positivity
  have hrounded : em.mantissa ≤ em.roundedMantissa := by
    rcases h.roundedMantissa with hr | ⟨hr, _⟩
    · omega
    · omega
  by_cases htk : t ≤ k
  · obtain ⟨j, hj⟩ := Int.le.dest htk
    have hsplit : (2 : ℚ) ^ k = 2 ^ j * 2 ^ t := by
      rw [← zpow_natCast, ← hj, zpow_add₀ two_ne_zero, zpow_natCast, mul_comm]
    rw [hsplit] at hy ⊢
    have hy : (2 : ℚ) ^ j ≤ y := le_of_mul_le_mul_right hy hpos
    have hmantissa : ((2 ^ j : Nat) : ℚ) < (em.mantissa + 1 : Nat) := by
      push_cast
      exact lt_of_le_of_lt hy h.lt
    have hmantissa : 2 ^ j < em.mantissa + 1 := by exact_mod_cast hmantissa
    apply mul_le_mul_of_nonneg_right _ (le_of_lt hpos)
    exact_mod_cast (by omega : 2 ^ j ≤ em.roundedMantissa)
  · have hone : (1 : ℚ) ≤ em.roundedMantissa := by
      exact_mod_cast (by omega : 1 ≤ em.roundedMantissa)
    calc (2 : ℚ) ^ k = 2 ^ (k : Int) := (zpow_natCast 2 k).symm
      _ ≤ 2 ^ t := zpow_le_zpow_right₀ one_le_two (by omega)
      _ ≤ em.roundedMantissa * 2 ^ t := le_mul_of_one_le_left (le_of_lt hpos) hone

end Mantissa

def ofParts (s : Sign) (m : Nat) (e : Int) : UnpackedFloat :=
  if h : m = 0 then .zero s else .finite s m e (Nat.pos_of_ne_zero h)

theorem mantissa_ofMantissaAndAccuracy (m : Nat) (a : Accuracy) :
    (ExtendedMantissa.ofMantissaAndAccuracy m a).mantissa = m := by
  cases a with
  | exact => rfl
  | inexact side => cases side <;> rfl

theorem shifted_mantissa {m : Nat} {e : Int} {a : Accuracy} {x : ℚ}
    (h : Extends (.ofMantissaAndAccuracy m a) x) (he : e ≤ target m e) :
    ∃ em, shiftToTargetExponent .binary64 m e a = (em, target m e) ∧
      Extends em (x / 2 ^ (target m e - e).toNat) ∧ em.mantissa < 2 ^ 53 ∧
      (2 ^ 52 ≤ em.mantissa ∨ target m e = -1074) := by
  let d := (target m e - e).toNat
  let em := ExtendedMantissa.ofMantissaAndAccuracy m a >>> d
  have hd : e + d = target m e := by omega
  have htarget := target_eq m e
  have hm := h.le
  have hx := h.lt
  rw [mantissa_ofMantissaAndAccuracy] at hm hx
  have hshift : Extends em (x / 2 ^ d) := h.shiftRight d
  refine ⟨em, ?_, hshift, ?_, ?_⟩
  · rw [shiftToTarget_eq, hd]
  · have hbits : (m : ℚ) + 1 ≤ 2 ^ (d + 53) := by
      have hlog : m < 2 ^ (m.log2 + 1) := Nat.lt_log2_self
      have hpow : 2 ^ (m.log2 + 1) ≤ 2 ^ (d + 53) := Nat.pow_le_pow_right Nat.two_pos (by omega)
      exact_mod_cast (by omega : m + 1 ≤ 2 ^ (d + 53))
    have hquotient : x / 2 ^ d < 2 ^ 53 := by
      rw [div_lt_iff₀ (by positivity), ← pow_add, Nat.add_comm]
      exact lt_of_lt_of_le hx hbits
    exact_mod_cast lt_of_le_of_lt hshift.le hquotient
  · by_cases hleast : target m e = -1074
    · exact .inr hleast
    left
    have hlog : m.log2 = d + 52 := by omega
    have hne : m ≠ 0 := by
      rintro rfl
      simp at hlog
    have hbits : (2 : ℚ) ^ (52 + d) ≤ m := by
      rw [Nat.add_comm, ← hlog]
      exact_mod_cast Nat.log2_self_le hne
    have hquotient : (2 : ℚ) ^ 52 ≤ x / 2 ^ d := by
      rw [le_div_iff₀ (by positivity), ← pow_add]
      exact le_trans hbits hm
    have hmantissa : ((2 ^ 52 : Nat) : ℚ) < (em.mantissa + 1 : Nat) := by
      push_cast
      exact lt_of_le_of_lt hquotient hshift.lt
    exact Nat.le_of_lt_succ (by exact_mod_cast hmantissa)

/-- What the number is rounded to, with the sign put aside. -/
theorem roundWithAccuracy_eq {m : Nat} {e : Int} {a : Accuracy} {x : ℚ} (s : Sign)
    (h : Extends (.ofMantissaAndAccuracy m a) x) (he : e ≤ target m e) :
    ∃ n f, RoundsTo (x * 2 ^ e) n f ∧ roundWithAccuracy .binary64 s m e a = ofParts s n f := by
  obtain ⟨em, hfirst, hem, hlt, hfull⟩ := shifted_mantissa h he
  let t := target m e
  have ht : -1074 ≤ t := by
    have := target_eq m e
    omega
  have hscale : x * 2 ^ e = x / 2 ^ (t - e).toNat * 2 ^ t := by
    have hpow : (2 : ℚ) ^ t = 2 ^ e * 2 ^ (t - e).toNat := by
      rw [← zpow_natCast, ← zpow_add₀ two_ne_zero]
      congr 1
      omega
    rw [hpow]
    field_simp
  have hbound : em.mantissa ≤ em.roundedMantissa ∧ em.roundedMantissa ≤ 2 ^ 53 := by
    rcases hem.roundedMantissa with hr | ⟨hr, _⟩
    · omega
    · omega
  have hsecond : ∃ n f, Canonical n f ∧ (n * 2 ^ f : ℚ) = em.roundedMantissa * 2 ^ t ∧
      shiftToTargetExponent .binary64 em.roundedMantissa t .exact = (⟨n, false, false⟩, f) := by
    by_cases hcarry : em.roundedMantissa = 2 ^ 53
    · refine ⟨2 ^ 52, t + 1, ⟨by omega, by omega, .inl (Nat.le_refl _)⟩, ?_, ?_⟩
      · rw [hcarry, zpow_add_one₀ two_ne_zero]
        push_cast
        ring
      · rw [hcarry]
        exact shiftToTarget_of_carry ht
    · have hcanonical : Canonical em.roundedMantissa t := ⟨by omega, ht, by omega⟩
      exact ⟨_, t, hcanonical, rfl, shiftToTarget_of_canonical hcanonical⟩
  obtain ⟨n, f, hcanonical, hvalue, hsecond⟩ := hsecond
  refine ⟨n, f, ⟨hcanonical, ?_, ?_⟩, ?_⟩
  · intro k hk
    rw [hscale] at hk
    rw [hvalue]
    exact rounded_le_pow hem hlt hfull hk
  · intro k hk
    rw [hscale] at hk
    rw [hvalue]
    exact pow_le_rounded hem hfull hk
  · unfold roundWithAccuracy
    rw [hfirst]
    dsimp only
    rw [hsecond]
    rfl

end Screening.Machine
