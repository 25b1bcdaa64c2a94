import Screening.Proofs.Scalar.Lawful
import Screening.Proofs.Scalar.Packed

namespace Screening.Machine

open Float.Model Float.Model.UnpackedFloat

def IsFinite (a : Float) : Prop := Regular a.toModel.unpack

/-- The number that a machine float stands for. -/
def real (a : Float) : ℚ := value a.toModel.unpack

/-- A machine float to which a number may be rounded. -/
def Rounded (x : ℚ) (a : Float) : Prop := Nearest x a.toModel.unpack

theorem float_cases (a : Float) : a.toModel.unpack = .notANumber ∨
    (∃ s, a.toModel.unpack = .infinity s) ∨ IsFinite a := unpack_cases _

theorem le_iff_real {a b : Float} (ha : IsFinite a) (hb : IsFinite b) : a ≤ b ↔ real a ≤ real b :=
  le_iff.trans (le_iff_value ha hb)

theorem place_of_regular {u : UnpackedFloat} (h : Regular u) :
    ∃ x, place u = some x ∧ -2 < x.kind ∧ x.kind < 2 := by
  cases u with
  | infinity s => exact h.elim
  | notANumber => exact h.elim
  | zero s => exact ⟨_, rfl, by decide, by decide⟩
  | finite s m e hm => cases s <;> exact ⟨_, rfl, by simp, by simp⟩

theorem IsFinite.isNumber {a : Float} (h : IsFinite a) : Scalar.IsNumber a :=
  (le_iff_real h h).mpr (le_refl _)

theorem isFinite_of_le_of_le {a b c : Float} (ha : IsFinite a) (hc : IsFinite c) (hab : a ≤ b)
    (hbc : b ≤ c) : IsFinite b := by
  obtain ⟨x, hx, hlow, _⟩ := place_of_regular ha
  obtain ⟨z, hz, _, hhigh⟩ := place_of_regular hc
  obtain ⟨x', y, hx', hy, hxy⟩ := (le_iff_place _ _).mp (le_iff.mp hab)
  obtain ⟨y', z', hy', hz', hyz⟩ := (le_iff_place _ _).mp (le_iff.mp hbc)
  obtain rfl := Option.some.inj (hx.symm.trans hx')
  obtain rfl := Option.some.inj (hy.symm.trans hy')
  obtain rfl := Option.some.inj (hz.symm.trans hz')
  unfold Place.UpTo at hxy hyz
  rcases float_cases b with h | ⟨s, h⟩ | h
  · have hplace : place b.toModel.unpack = none := congrArg place h
    exact nomatch hy.symm.trans hplace
  · have hplace : place b.toModel.unpack = place (.infinity s) := congrArg place h
    cases s with
    | negative =>
      have hkind : y.kind = -2 := congrArg Place.kind (Option.some.inj (hy.symm.trans hplace))
      omega
    | positive =>
      have hkind : y.kind = 2 := congrArg Place.kind (Option.some.inj (hy.symm.trans hplace))
      omega
  · exact h

theorem unpack_pack_of_le {u : UnpackedFloat} (h : Regular u) {k : Nat} (hk : k ≤ 1000)
    (hle : |value u| ≤ 2 ^ k) : (Float.Model.pack u).unpack = u := by
  have hparts : ∃ s m e, u = ofParts s m e ∧ Canonical m e ∧ e ≤ 971 := by
    cases u with
    | infinity s => exact h.elim
    | notANumber => exact h.elim
    | zero s => exact ⟨s, 0, -1074, rfl, ⟨by omega, by omega, .inr rfl⟩, by omega⟩
    | finite s m e hm =>
      refine ⟨s, m, e, (ofParts_of_pos s e hm).symm, h, ?_⟩
      rcases h.full with hfull | hleast
      · by_contra hgreat
        have hbits : (2 : ℚ) ^ 52 ≤ m := by exact_mod_cast hfull
        have hpow : (2 : ℚ) ^ k < |value (.finite s m e hm)| := by
          calc (2 : ℚ) ^ k = 2 ^ (k : Int) := (zpow_natCast 2 k).symm
            _ < 2 ^ (52 + e) := zpow_lt_zpow_right₀ one_lt_two (by omega)
            _ = 2 ^ 52 * 2 ^ e := by rw [zpow_add₀ two_ne_zero, zpow_ofNat]
            _ ≤ m * 2 ^ e := mul_le_mul_of_nonneg_right hbits (by positivity)
            _ = |value (.finite s m e hm)| := (abs_value s e hm).symm
        exact not_le.mpr hpow hle
      · omega
  obtain ⟨s, m, e, rfl, hcanonical, he⟩ := hparts
  change UnpackedFloat.unpack .binary64 (UnpackedFloat.pack .binary64 _) = _
  rw [pack_ofParts s hcanonical, if_pos he]

theorem rounded_of_pack {u : UnpackedFloat} {x : ℚ} {a : Float} {k : Nat} (hk : k ≤ 1000)
    (hx : |x| ≤ 2 ^ k) (h : Nearest x u) (ha : a.toModel = .pack u) : Rounded x a := by
  have hpos : (0 : ℚ) < 2 ^ k / 2 ^ 53 := by positivity
  unfold Rounded
  rw [ha, unpack_pack_of_le h.regular hk (h.le_pow k (by linarith))]
  exact h

section Operations

variable {a b : Float} {k : Nat}

theorem rounded_add (ha : IsFinite a) (hb : IsFinite b) (hk : k ≤ 1000)
    (h : |real a + real b| ≤ 2 ^ k) : Rounded (real a + real b) (a + b) :=
  rounded_of_pack hk h (nearest_add ha hb) rfl

theorem float_add_comm (a b : Float) : a + b = b + a := by
  change (⟨.pack (a.toModel.unpack.add .binary64 b.toModel.unpack)⟩ : Float) =
    ⟨.pack (b.toModel.unpack.add .binary64 a.toModel.unpack)⟩
  rw [unpacked_add_comm]

theorem rounded_sub (ha : IsFinite a) (hb : IsFinite b) (hk : k ≤ 1000)
    (h : |real a - real b| ≤ 2 ^ k) : Rounded (real a - real b) (a - b) :=
  rounded_of_pack hk h (nearest_sub ha hb) rfl

theorem rounded_mul (ha : IsFinite a) (hb : IsFinite b) (hk : k ≤ 1000)
    (h : |real a * real b| ≤ 2 ^ k) : Rounded (real a * real b) (a * b) :=
  rounded_of_pack hk h (nearest_mul ha hb) rfl

theorem rounded_div (ha : IsFinite a) (hb : IsFinite b) (hne : real b ≠ 0) (hk : k ≤ 1000)
    (h : |real a / real b| ≤ 2 ^ k) : Rounded (real a / real b) (a / b) :=
  rounded_of_pack hk h (nearest_div ha hb hne) rfl

theorem rounded_neg (ha : IsFinite a) (hk : k ≤ 1000) (h : |real a| ≤ 2 ^ k) :
    IsFinite (-a) ∧ real (-a) = -real a := by
  have hneg : (-a).toModel.unpack = a.toModel.unpack.neg := by
    apply unpack_pack_of_le (regular_neg ha) hk
    rw [value_neg, abs_neg]
    exact h
  unfold IsFinite real
  rw [hneg]
  exact ⟨regular_neg ha, value_neg _⟩

end Operations

section Constants

/-- A count is converted as the machine word nearest to it. -/
def word (n : Nat) : Nat := (UInt64.ofNatClamp n).toNat

theorem word_eq {n : Nat} (h : n < 2 ^ 64) : word n = n := UInt64.toNat_ofNatClamp_of_lt h

theorem word_ne_zero {n : Nat} (h : n ≠ 0) : word n ≠ 0 := by
  by_cases hn : n < UInt64.size
  · rwa [word_eq hn]
  · rw [word, UInt64.toNat_ofNatClamp_of_le (Nat.not_lt.mp hn)]
    decide

theorem rounded_natCast (n : Nat) : Rounded (word n) (n : Float) := by
  have h := nearest_normalize (word n) 0 .positive
  rw [zpow_zero, mul_one, Int.cast_natCast] at h
  have hword : (word n : ℚ) ≤ 2 ^ 64 := by
    exact_mod_cast Nat.le_of_lt (UInt64.ofNatClamp n).toNat_lt
  have hsize : |(word n : ℚ)| ≤ 2 ^ 64 := by rwa [abs_of_nonneg (Nat.cast_nonneg _)]
  exact rounded_of_pack (by omega) hsize h rfl

theorem real_natCast_pow {k : Nat} (hk : k ≤ 60) :
    IsFinite ((2 ^ k : Nat) : Float) ∧ real ((2 ^ k : Nat) : Float) = 2 ^ k := by
  have hsmall : 2 ^ k < 2 ^ 64 := Nat.pow_lt_pow_right Nat.one_lt_two (by omega)
  have h := rounded_natCast (2 ^ k)
  rw [word_eq hsmall, Nat.cast_pow, Nat.cast_ofNat] at h
  have hpos : (0 : ℚ) < 2 ^ k := by positivity
  have hgap : (0 : ℚ) < 2 ^ k / 2 ^ 53 := by positivity
  have hle := h.le_pow k (by rw [abs_of_pos hpos]; linarith)
  have hge := h.pow_le k (by rw [abs_of_pos hpos])
  have hnonneg := h.nonneg (le_of_lt hpos)
  rw [abs_of_nonneg hnonneg] at hle hge
  exact ⟨h.regular, le_antisymm hle hge⟩

theorem natCast_zero : ((0 : Nat) : Float) = Zero.zero := by decide +kernel

theorem natCast_one : ((2 ^ 0 : Nat) : Float) = One.one := by decide +kernel

theorem real_zero : IsFinite (Zero.zero : Float) ∧ real Zero.zero = 0 := by
  have h := rounded_natCast 0
  rw [natCast_zero, word_eq (by omega), Nat.cast_zero] at h
  exact ⟨h.regular, le_antisymm (h.nonpos (le_refl 0)) (h.nonneg (le_refl 0))⟩

theorem real_one : IsFinite (One.one : Float) ∧ real One.one = 1 := by
  have h := real_natCast_pow (Nat.zero_le 60)
  rwa [natCast_one, pow_zero] at h

end Constants

section Bounds

variable {a b : Float} {k : Nat} {x : ℚ}

theorem within_iff (hk : k ≤ 60) : Scalar.Within k a ↔ IsFinite a ∧ |real a| ≤ 2 ^ k := by
  obtain ⟨hmost, hmost_real⟩ := real_natCast_pow hk
  have hsize : |real ((2 ^ k : Nat) : Float)| ≤ 2 ^ k := by
    rw [hmost_real, abs_of_pos (by positivity)]
  obtain ⟨hleast, hleast_real⟩ := rounded_neg hmost (by omega) hsize
  rw [hmost_real] at hleast_real
  unfold Scalar.Within
  rw [abs_le]
  constructor
  · rintro ⟨hlow, hhigh⟩
    have ha := isFinite_of_le_of_le hleast hmost hlow hhigh
    rw [le_iff_real hleast ha, hleast_real] at hlow
    rw [le_iff_real ha hmost, hmost_real] at hhigh
    exact ⟨ha, hlow, hhigh⟩
  · rintro ⟨ha, hlow, hhigh⟩
    rw [le_iff_real hleast ha, hleast_real, le_iff_real ha hmost, hmost_real]
    exact ⟨hlow, hhigh⟩

theorem fraction_iff : Scalar.Fraction a ↔ IsFinite a ∧ 0 ≤ real a ∧ real a ≤ 1 := by
  obtain ⟨hzero, hzero_real⟩ := real_zero
  obtain ⟨hone, hone_real⟩ := real_one
  constructor
  · rintro ⟨hlow, hhigh⟩
    have ha := isFinite_of_le_of_le hzero hone hlow hhigh
    have hlow := (le_iff_real hzero ha).mp hlow
    have hhigh := (le_iff_real ha hone).mp hhigh
    rw [hzero_real] at hlow
    rw [hone_real] at hhigh
    exact ⟨ha, hlow, hhigh⟩
  · rintro ⟨ha, hlow, hhigh⟩
    rw [← hzero_real] at hlow
    rw [← hone_real] at hhigh
    exact ⟨(le_iff_real hzero ha).mpr hlow, (le_iff_real ha hone).mpr hhigh⟩

theorem Rounded.within (h : Rounded x a) (hk : k ≤ 60) (hx : |x| ≤ 2 ^ k) : Scalar.Within k a := by
  have hgap : (0 : ℚ) < 2 ^ k / 2 ^ 53 := by positivity
  exact (within_iff hk).mpr ⟨h.regular, h.le_pow k (by linarith)⟩

theorem Rounded.fraction (h : Rounded x a) (hx : 0 ≤ x) (hone : x ≤ 1) : Scalar.Fraction a := by
  have hle := h.le_pow 0 (by rw [abs_of_nonneg hx, pow_zero]; linarith)
  rw [pow_zero] at hle
  exact fraction_iff.mpr ⟨h.regular, h.nonneg hx, le_trans (le_abs_self _) hle⟩

end Bounds

section Inverse

variable {a : Float}

/-- Floats that are at least 1; infinity is one of them. -/
def AtLeastOne (a : Float) : Prop :=
  a.toModel.unpack = .infinity .positive ∨ IsFinite a ∧ 1 ≤ real a

theorem unpack_pack_of_pos {u : UnpackedFloat} (h : Regular u) (hpos : 0 < value u) :
    (Float.Model.pack u).unpack = u ∨ (Float.Model.pack u).unpack = .infinity .positive := by
  cases u with
  | infinity s => exact h.elim
  | notANumber => exact h.elim
  | zero s => exact absurd hpos (lt_irrefl 0)
  | finite s m e hm =>
    have hpack := pack_ofParts s h
    rw [ofParts_of_pos s e hm] at hpack
    have hmagnitude : (0 : ℚ) < m * 2 ^ e := by positivity
    cases s with
    | negative =>
      change 0 < -(m * 2 ^ e : ℚ) at hpos
      linarith
    | positive =>
      by_cases he : e ≤ 971
      · exact .inl (hpack.trans (if_pos he))
      · exact .inr (hpack.trans (if_neg he))

theorem infinite_or_nonneg (h : Zero.zero ≤ a) :
    a.toModel.unpack = .infinity .positive ∨ IsFinite a ∧ 0 ≤ real a := by
  obtain ⟨hzero, hzero_real⟩ := real_zero
  obtain ⟨_, y, hx, hy, hxy⟩ := (le_iff_place _ _).mp (le_iff.mp h)
  rcases float_cases a with hnan | ⟨s, hinfinite⟩ | ha
  · exact nomatch hy.symm.trans (congrArg place hnan)
  · cases s with
    | positive => exact .inl hinfinite
    | negative =>
      obtain ⟨x, hx', hkind, _⟩ := place_of_regular hzero
      obtain rfl := Option.some.inj (hx'.symm.trans hx)
      have hlow := Option.some.inj (hy.symm.trans (congrArg place hinfinite))
      have hlow : y.kind = -2 := congrArg Place.kind hlow
      unfold Place.UpTo at hxy
      omega
  · have hreal := (le_iff_real hzero ha).mp h
    rw [hzero_real] at hreal
    exact .inr ⟨ha, hreal⟩

theorem atLeastOne_one_add (h : Zero.zero ≤ a) : AtLeastOne (One.one + a) := by
  obtain ⟨hone, hone_real⟩ := real_one
  rcases infinite_or_nonneg h with hinfinite | ⟨ha, hreal⟩
  · left
    change (Float.Model.pack (UnpackedFloat.add .binary64 _ _)).unpack = _
    rw [hinfinite, add_infinity .positive hone]
    exact unpack_pack_infinity .positive
  · have hsum : Nearest (real One.one + real a)
        (UnpackedFloat.add .binary64 (One.one : Float).toModel.unpack a.toModel.unpack) :=
      nearest_add hone ha
    rw [hone_real] at hsum
    have hpow := hsum.pow_le 0 (by rw [pow_zero, abs_of_nonneg (by linarith)]; linarith)
    rw [pow_zero, abs_of_nonneg (hsum.nonneg (by linarith))] at hpow
    rcases unpack_pack_of_pos hsum.regular (by linarith) with hpack | hpack
    · right
      unfold IsFinite real
      change Regular (Float.Model.pack _).unpack ∧ 1 ≤ value (Float.Model.pack _).unpack
      rw [hpack]
      exact ⟨hsum.regular, hpow⟩
    · exact .inl hpack

theorem fraction_one_div (h : AtLeastOne a) : Scalar.Fraction (One.one / a) := by
  obtain ⟨hone, hone_real⟩ := real_one
  rcases h with hinfinite | ⟨ha, hreal⟩
  · have hquotient := nearest_div_infinity .positive hone
    rw [← hinfinite] at hquotient
    have hzero : |(0 : ℚ)| ≤ 2 ^ 0 := by rw [abs_zero, pow_zero]; exact zero_le_one
    exact (rounded_of_pack (Nat.zero_le 1000) hzero hquotient rfl).fraction (le_refl 0) zero_le_one
  · have hle : real One.one / real a ≤ 1 := by
      rw [hone_real]
      exact (div_le_one (by linarith)).mpr hreal
    have hnonneg : 0 ≤ real One.one / real a := by
      rw [hone_real]
      exact one_div_nonneg.mpr (by linarith)
    apply (rounded_div hone ha (by linarith) (Nat.zero_le 1000) _).fraction hnonneg hle
    rwa [pow_zero, abs_of_nonneg hnonneg]

end Inverse

section Counts

/-- A count that is not 0 is converted to something from 1 to `2 ^ 64`. -/
theorem real_count {n : Nat} (h : n ≠ 0) :
    IsFinite (n : Float) ∧ 1 ≤ real (n : Float) ∧ real (n : Float) ≤ 2 ^ 64 := by
  have hround := rounded_natCast n
  have hpos : (1 : ℚ) ≤ word n := by exact_mod_cast Nat.pos_of_ne_zero (word_ne_zero h)
  have hword : (word n : ℚ) ≤ 2 ^ 64 := by
    exact_mod_cast Nat.le_of_lt (UInt64.ofNatClamp n).toNat_lt
  have habs : |(word n : ℚ)| = word n := abs_of_nonneg (by linarith)
  have hlow := hround.pow_le 0 (by rwa [habs, pow_zero])
  have hhigh := hround.le_pow 64 (by rw [habs]; linarith)
  have hnonneg := hround.nonneg (by linarith)
  rw [abs_of_nonneg hnonneg] at hlow hhigh
  rw [pow_zero] at hlow
  exact ⟨hround.regular, hlow, hhigh⟩

theorem abs_div_le {x y z : ℚ} (hx : |x| ≤ z) (hy : 1 ≤ y) : |x / y| ≤ z := by
  rw [abs_div, abs_of_nonneg (by linarith : 0 ≤ y)]
  exact le_trans (div_le_self (abs_nonneg x) hy) hx

/-- From `2 ^ 54` on, adding a fraction changes nothing. -/
theorem real_sum {as : List Float} (h : ∀ a ∈ as, Scalar.Fraction a) {sum : Float}
    (hsum : IsFinite sum) (hlow : 0 ≤ real sum) (hhigh : real sum ≤ 2 ^ 54) :
    IsFinite (as.foldl (fun sum a => sum + a) sum) ∧
      |real (as.foldl (fun sum a => sum + a) sum)| ≤ 2 ^ 54 := by
  induction as generalizing sum with
  | nil => exact ⟨hsum, by rwa [List.foldl_nil, abs_of_nonneg hlow]⟩
  | cons a as ih =>
    obtain ⟨hhead, htail⟩ := List.forall_mem_cons.mp h
    obtain ⟨ha, ha0, ha1⟩ := fraction_iff.mp hhead
    have hnonneg : 0 ≤ real sum + real a := add_nonneg hlow ha0
    have hsize : |real sum + real a| < 2 ^ 54 + 2 ^ 54 / 2 ^ 53 := by
      rw [abs_of_nonneg hnonneg]
      norm_num at hhigh ⊢
      linarith
    have hbound : |real sum + real a| ≤ 2 ^ 55 := by
      norm_num at hsize ⊢
      linarith
    have hround := rounded_add hsum ha (by omega) hbound
    have hle := hround.le_pow 54 hsize
    rw [abs_of_nonneg (hround.nonneg hnonneg)] at hle
    exact ih htail hround.regular (hround.nonneg hnonneg) hle

/-- Short decimals are no greater than the least power of two that is not below them. -/
theorem within_decimal : ∀ m < 101, ∀ e < 3, ∃ j < 8,
    Scalar.Within j (OfScientific.ofScientific m true e : Float) ∧
      (j = 0 ∨ 2 ^ (j - 1) * 10 ^ e < m) := by
  unfold Scalar.Within
  decide +kernel

end Counts

instance : LawfulScalar Float where
  fraction_complement {a} h := by
    obtain ⟨hone, hone_real⟩ := real_one
    obtain ⟨ha, hlow, hhigh⟩ := fraction_iff.mp h
    have hsub : real One.one - real a = 1 - real a := by rw [hone_real]
    have hsize : |real One.one - real a| ≤ 2 ^ 0 := by
      rw [hsub, pow_zero, abs_le]
      constructor <;> linarith
    exact (rounded_sub hone ha (Nat.zero_le 1000) hsize).fraction (by linarith) (by linarith)
  fraction_mul {a b} h k := by
    obtain ⟨ha, ha0, ha1⟩ := fraction_iff.mp h
    obtain ⟨hb, hb0, hb1⟩ := fraction_iff.mp k
    have hlow : 0 ≤ real a * real b := mul_nonneg ha0 hb0
    have hhigh : real a * real b ≤ 1 := mul_le_one₀ ha1 hb0 hb1
    have hsize : |real a * real b| ≤ 2 ^ 0 := by rwa [pow_zero, abs_of_nonneg hlow]
    exact (rounded_mul ha hb (Nat.zero_le 1000) hsize).fraction hlow hhigh
  share_number part {whole} hne := by
    obtain ⟨hwhole, hlow, _⟩ := real_count hne
    have hpart := rounded_natCast part
    have hword : (word part : ℚ) ≤ 2 ^ 64 := by
      exact_mod_cast Nat.le_of_lt (UInt64.ofNatClamp part).toNat_lt
    have hsize := hpart.le_pow 64 (by rw [abs_of_nonneg (Nat.cast_nonneg _)]; linarith)
    have hshare := rounded_div hpart.regular hwhole (by linarith) (by omega)
      (abs_div_le hsize hlow)
    exact IsFinite.isNumber hshare.regular
  within_natCast {n k} h hk := by
    have hsmall : 2 ^ k < 2 ^ 64 := Nat.pow_lt_pow_right Nat.one_lt_two (by omega)
    have hround := rounded_natCast n
    rw [word_eq (by omega)] at hround
    apply hround.within hk
    rw [abs_of_nonneg (Nat.cast_nonneg _)]
    exact_mod_cast h
  within_fraction {a} h := by
    obtain ⟨ha, hlow, hhigh⟩ := fraction_iff.mp h
    refine (within_iff (Nat.zero_le 60)).mpr ⟨ha, ?_⟩
    rwa [pow_zero, abs_of_nonneg hlow]
  within_mono {j k a} hjk hk h := by
    obtain ⟨ha, hsize⟩ := (within_iff (by omega)).mp h
    exact (within_iff hk).mpr ⟨ha, le_trans hsize (pow_le_pow_right₀ one_le_two hjk)⟩
  within_add {k a b} hk h h' := by
    obtain ⟨ha, hsize⟩ := (within_iff (by omega)).mp h
    obtain ⟨hb, hsize'⟩ := (within_iff (by omega)).mp h'
    have hsum : |real a + real b| ≤ 2 ^ (k + 1) := by
      rw [pow_succ, mul_two]
      exact le_trans (abs_add_le _ _) (add_le_add hsize hsize')
    exact (rounded_add ha hb (by omega) hsum).within hk hsum
  within_sub {k a b} hk h h' := by
    obtain ⟨ha, hsize⟩ := (within_iff (by omega)).mp h
    obtain ⟨hb, hsize'⟩ := (within_iff (by omega)).mp h'
    have hdiff : |real a - real b| ≤ 2 ^ (k + 1) := by
      rw [pow_succ, mul_two]
      exact le_trans (abs_sub _ _) (add_le_add hsize hsize')
    exact (rounded_sub ha hb (by omega) hdiff).within hk hdiff
  within_mul {j k a b} hk h h' := by
    obtain ⟨ha, hsize⟩ := (within_iff (by omega)).mp h
    obtain ⟨hb, hsize'⟩ := (within_iff (by omega)).mp h'
    have hproduct : |real a * real b| ≤ 2 ^ (j + k) := by
      rw [abs_mul, pow_add]
      exact mul_le_mul hsize hsize' (abs_nonneg _) (by positivity)
    exact (rounded_mul ha hb (by omega) hproduct).within hk hproduct
  within_neg {k a} hk h := by
    obtain ⟨ha, hsize⟩ := (within_iff hk).mp h
    obtain ⟨hneg, hreal⟩ := rounded_neg ha (by omega) hsize
    refine (within_iff hk).mpr ⟨hneg, ?_⟩
    rwa [hreal, abs_neg]
  within_decimal {m e k} hm he hk h := by
    obtain ⟨j, hj, hwithin, hleast⟩ := within_decimal m (by omega) e (by omega)
    have hjk : j ≤ k := by
      rcases hleast with hzero | hleast
      · omega
      · have hpow : 2 ^ (j - 1) < 2 ^ k :=
          lt_of_mul_lt_mul_right (lt_of_lt_of_le hleast h) (Nat.zero_le _)
        have := (Nat.pow_lt_pow_iff_right Nat.one_lt_two).mp hpow
        omega
    obtain ⟨ha, hsize⟩ := (within_iff (by omega)).mp hwithin
    exact (within_iff hk).mpr ⟨ha, le_trans hsize (pow_le_pow_right₀ one_le_two hjk)⟩
  within_mean {as} hne h := by
    obtain ⟨hlength, hlow, _⟩ := real_count (mt List.eq_nil_of_length_eq_zero hne)
    obtain ⟨hzero, hzero_real⟩ := real_zero
    have hzero_le : real Zero.zero ≤ 2 ^ 54 := by
      rw [hzero_real]
      positivity
    obtain ⟨hsum, hsize⟩ := real_sum h hzero (le_of_eq hzero_real.symm) hzero_le
    have hmean := abs_div_le hsize hlow
    exact (rounded_div hsum hlength (by linarith) (by omega) hmean).within (by omega) hmean
  fraction_inverse h := fraction_one_div (atLeastOne_one_add h)

end Screening.Machine
