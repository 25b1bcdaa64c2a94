import Screening.Proofs.Scalar.Machine
import Screening.Proofs.Scalar.Unpacked

namespace Screening.Machine

open Float.Model Float.Model.UnpackedFloat

/-- The float whose sign, exponent and mantissa are stored as these bits. -/
def ofFields (s : Sign) (exponent : BitVec 11) (mantissa : BitVec 52) : UnpackedFloat :=
  if exponent = -1#11 then
    if mantissa = 0#52 then .infinity s else .notANumber
  else if exponent = 0#11 then
    ofParts s mantissa.toNat (-1074)
  else
    ofParts s (2 ^ 52 + mantissa.toNat) (exponent.toNat - 1075)

theorem toNat_implicit (mantissa : BitVec 52) :
    (1#1 ++ mantissa).toNat = 2 ^ 52 + mantissa.toNat := by
  rw [BitVec.toNat_append, ← Nat.shiftLeft_add_eq_or_of_lt mantissa.isLt]
  rfl

theorem exponentBias_eq : ((Format.binary64.exponentBias : Nat) : Int) + (52 : Nat) = 1075 := rfl

theorem unpack_eq (b : BitVec Format.binary64.numBits) : unpack .binary64 b =
    ofFields (Sign.ofBitVec (unpackSign b)) (unpackExponent b) (unpackMantissa b) := by
  unfold UnpackedFloat.unpack ofFields
  dsimp only
  by_cases hlast : unpackExponent b = -1#11
  · rw [if_pos hlast, if_pos hlast]
  rw [if_neg hlast, if_neg hlast]
  by_cases hfirst : unpackExponent b = 0#11
  · rw [if_pos hfirst, if_pos hfirst, hfirst]
    unfold ofParts
    by_cases hzero : unpackMantissa b = 0#52
    · have hm : (unpackMantissa b).toNat = 0 := congrArg BitVec.toNat hzero
      rw [dif_pos hzero, dif_pos hm]
    · have hm : (unpackMantissa b).toNat ≠ 0 := fun h => hzero (BitVec.eq_of_toNat_eq h)
      rw [dif_neg hzero, dif_neg hm]
      rfl
  · rw [if_neg hfirst, if_neg hfirst]
    rw [← ofParts_of_pos, toNat_implicit, exponentBias_eq]

@[simp]
theorem unpackSign_packComponents (s : Sign) (exponent : BitVec 11) (mantissa : BitVec 52) :
    unpackSign (packComponents .binary64 s exponent mantissa) = s.toBitVec := by
  ext i hi
  obtain rfl : i = 0 := by omega
  change BitVec.getLsbD (((s.toBitVec ++ exponent ++ mantissa).extractLsb 63 63).cast rfl) 0 = _
  rw [BitVec.getLsbD_cast, BitVec.getLsbD_extractLsb, BitVec.getLsbD_append, BitVec.getLsbD_append]
  rfl

theorem unpack_packComponents (s : Sign) (exponent : BitVec 11) (mantissa : BitVec 52) :
    unpack .binary64 (packComponents .binary64 s exponent mantissa) =
      ofFields s exponent mantissa := by
  have hsign : Sign.ofBitVec s.toBitVec = s := by cases s <;> rfl
  rw [unpack_eq, unpackSign_packComponents, hsign, unpackExponent_packComponents,
    unpackMantissa_packComponents]

/-- What is stored is canonical, and has an exponent that is not too great. -/
theorem ofFields_cases (s : Sign) (exponent : BitVec 11) (mantissa : BitVec 52) :
    ofFields s exponent mantissa = .notANumber ∨ ofFields s exponent mantissa = .infinity s ∨
    ∃ m e, Canonical m e ∧ e ≤ 971 ∧ ofFields s exponent mantissa = ofParts s m e := by
  have hmantissa := mantissa.isLt
  have hexponent := exponent.isLt
  unfold ofFields
  split
  next =>
    split
    next => exact .inr (.inl rfl)
    next => exact .inl rfl
  next hlast =>
    right
    right
    split
    next => exact ⟨_, _, ⟨by omega, by omega, .inr rfl⟩, by omega, rfl⟩
    next hfirst =>
      have hlast : exponent.toNat ≠ 2047 := fun h => hlast (BitVec.eq_of_toNat_eq h)
      have hfirst : exponent.toNat ≠ 0 := fun h => hfirst (BitVec.eq_of_toNat_eq h)
      exact ⟨_, _, ⟨by omega, by omega, .inl (by omega)⟩, by omega, rfl⟩

theorem unpack_cases (b : BitVec Format.binary64.numBits) : unpack .binary64 b = .notANumber ∨
    (∃ s, unpack .binary64 b = .infinity s) ∨ Regular (unpack .binary64 b) := by
  rw [unpack_eq]
  rcases ofFields_cases (Sign.ofBitVec (unpackSign b)) (unpackExponent b) (unpackMantissa b)
    with h | h | ⟨m, e, hcanonical, _, h⟩
  · exact .inl h
  · exact .inr (.inl ⟨_, h⟩)
  · right
    right
    rw [h]
    exact regular_ofParts _ hcanonical

theorem unpack_pack_infinity (s : Sign) :
    unpack .binary64 (pack .binary64 (.infinity s)) = .infinity s :=
  unpack_packComponents s (-1#11) 0

theorem ofFields_normal (s : Sign) {m : Nat} {e : Int} (hm : 2 ^ 52 ≤ m) (hlt : m < 2 ^ 53)
    (hleast : -1074 ≤ e) (hmost : e ≤ 971) :
    ofFields s (BitVec.ofNat 11 (e + 1075).toNat) (BitVec.ofNat 52 m) = ofParts s m e := by
  have hexponent : (BitVec.ofNat 11 (e + 1075).toNat).toNat = (e + 1075).toNat := by
    rw [BitVec.toNat_ofNat]
    omega
  have hmantissa : 2 ^ 52 + (BitVec.ofNat 52 m).toNat = m := by
    rw [BitVec.toNat_ofNat]
    omega
  have hlast : BitVec.ofNat 11 (e + 1075).toNat ≠ -1#11 := by
    intro h
    have : (e + 1075).toNat = 2047 := hexponent.symm.trans (congrArg BitVec.toNat h)
    omega
  have hfirst : BitVec.ofNat 11 (e + 1075).toNat ≠ 0#11 := by
    intro h
    have : (e + 1075).toNat = 0 := hexponent.symm.trans (congrArg BitVec.toNat h)
    omega
  unfold ofFields
  rw [if_neg hlast, if_neg hfirst, hexponent, hmantissa]
  congr 1
  omega

theorem ofFields_subnormal (s : Sign) {m : Nat} (hm : m < 2 ^ 52) :
    ofFields s 0#11 (BitVec.ofNat 52 m) = ofParts s m (-1074) := by
  have hmantissa : (BitVec.ofNat 52 m).toNat = m := by
    rw [BitVec.toNat_ofNat]
    omega
  unfold ofFields
  rw [if_neg (by decide), if_pos rfl, hmantissa]

theorem pack_finite (s : Sign) {m : Nat} (e : Int) (hm : 0 < m) :
    pack .binary64 (.finite s m e hm) =
      let exponent := (e + (Format.binary64.exponentBias : Nat) + (52 : Nat)).toNat
      if 2 ^ 11 ≤ exponent + 1 then packComponents .binary64 s (-1#11) 0
      else if m.log2 + 1 = 53 then
        packComponents .binary64 s (BitVec.ofNat 11 exponent) (BitVec.ofNat 52 m)
      else packComponents .binary64 s 0#11 (BitVec.ofNat 52 m) :=
  rfl

theorem pack_ofParts (s : Sign) {m : Nat} {e : Int} (h : Canonical m e) :
    unpack .binary64 (pack .binary64 (ofParts s m e)) =
      if e ≤ 971 then ofParts s m e else .infinity s := by
  obtain ⟨hlt, hleast, hfull⟩ := h
  rcases Nat.eq_zero_or_pos m with rfl | hm
  · rw [if_pos (by omega : e ≤ 971)]
    exact unpack_packComponents s 0 0
  · have hne := Nat.ne_of_gt hm
    have hbias : e + (Format.binary64.exponentBias : Nat) + (52 : Nat) = e + 1075 := by
      have := exponentBias_eq
      omega
    rw [ofParts_of_pos s e hm, pack_finite, hbias, ← ofParts_of_pos s e hm]
    dsimp only
    split
    next hgreat =>
      rw [if_neg (by omega : ¬ e ≤ 971)]
      exact unpack_packComponents s (-1#11) 0
    next hgreat =>
      rw [if_pos (by omega : e ≤ 971)]
      split
      next hbits =>
        have hm52 : 2 ^ 52 ≤ m := (Nat.le_log2 hne).mp (by omega)
        rw [unpack_packComponents, ofFields_normal s hm52 hlt hleast (by omega)]
      next hbits =>
        have hm52 : m < 2 ^ 52 := by
          have hlog : m.log2 < 53 := (Nat.log2_lt hne).mpr hlt
          exact (Nat.log2_lt hne).mp (by omega)
        obtain rfl : e = -1074 := by omega
        rw [unpack_packComponents, ofFields_subnormal s hm52]

theorem Canonical.lt_of_exponent_lt {m n : Nat} {e f : Int} (h : Canonical m e) (k : Canonical n f)
    (hlt : e < f) : (m * 2 ^ e : ℚ) < n * 2 ^ f := by
  have hm : (m : ℚ) < 2 ^ 53 := by exact_mod_cast h.mantissa_lt
  have hn : (2 : ℚ) ^ 52 ≤ n := by
    have hleast := h.least_le
    exact_mod_cast k.full.resolve_right (by omega)
  have he : (0 : ℚ) < 2 ^ e := by positivity
  have hf : (2 : ℚ) ^ (e + 1) ≤ 2 ^ f := zpow_le_zpow_right₀ one_le_two (by omega)
  rw [zpow_add_one₀ two_ne_zero] at hf
  calc (m * 2 ^ e : ℚ) < 2 ^ 53 * 2 ^ e := mul_lt_mul_of_pos_right hm he
    _ = 2 ^ 52 * (2 ^ e * 2) := by ring
    _ ≤ n * 2 ^ f := mul_le_mul hn hf (by positivity) (by positivity)

theorem Canonical.le_iff {m n : Nat} {e f : Int} (h : Canonical m e) (k : Canonical n f) :
    (m * 2 ^ e : ℚ) ≤ n * 2 ^ f ↔ e < f ∨ e = f ∧ m ≤ n := by
  have he : (0 : ℚ) < 2 ^ e := by positivity
  constructor
  · intro hle
    rcases lt_trichotomy e f with hlt | rfl | hgt
    · exact .inl hlt
    · exact .inr ⟨rfl, by exact_mod_cast le_of_mul_le_mul_right hle he⟩
    · exact absurd hle (not_le.mpr (k.lt_of_exponent_lt h hgt))
  · rintro (hlt | ⟨rfl, hle⟩)
    · exact le_of_lt (h.lt_of_exponent_lt k hlt)
    · exact mul_le_mul_of_nonneg_right (by exact_mod_cast hle) (le_of_lt he)

theorem le_iff_value {u v : UnpackedFloat} (hu : Regular u) (hv : Regular v) :
    u.le v = true ↔ value u ≤ value v := by
  have hpos {m : Nat} (e : Int) (hm : 0 < m) : (0 : ℚ) < m * 2 ^ e := by positivity
  rw [le_iff_place]
  cases u with
  | infinity s => exact hu.elim
  | notANumber => exact hu.elim
  | zero s =>
    cases v with
    | infinity t => exact hv.elim
    | notANumber => exact hv.elim
    | zero t => exact ⟨fun _ => le_refl _, fun _ => ⟨_, _, rfl, rfl, Place.UpTo.refl _⟩⟩
    | finite t n f hn =>
      have hn := hpos f hn
      cases t <;> dsimp only [place, value_zero, value_finite, signed]
      case negative => simp [Place.UpTo, hn]
      case positive => simp [Place.UpTo, le_of_lt hn]
  | finite s m e hm =>
    have hm := hpos e hm
    cases v with
    | infinity t => exact hv.elim
    | notANumber => exact hv.elim
    | zero t =>
      cases s <;> dsimp only [place, value_zero, value_finite, signed]
      case negative => simp [Place.UpTo, le_of_lt hm]
      case positive => simp [Place.UpTo, hm]
    | finite t n f hn =>
      have hn := hpos f hn
      cases s <;> cases t <;> dsimp only [place, value_finite, signed]
      case negative.negative =>
        have hle := Canonical.le_iff hv hu
        simp only [Place.UpTo, neg_le_neg_iff, hle]
        simp [eq_comm]
      case negative.positive =>
        have hle : -(m * 2 ^ e : ℚ) ≤ n * 2 ^ f := by linarith
        simp [Place.UpTo, hle]
      case positive.negative =>
        have hle : ¬ (m * 2 ^ e : ℚ) ≤ -(n * 2 ^ f) := by linarith
        simp [Place.UpTo, hle]
      case positive.positive =>
        have hle := Canonical.le_iff hu hv
        simp [Place.UpTo, hle]

theorem packComponents_unpack (b : BitVec Format.binary64.numBits) :
    packComponents .binary64 (Sign.ofBitVec (unpackSign b)) (unpackExponent b)
      (unpackMantissa b) = b := by
  have hsign (s : BitVec 1) : (Sign.ofBitVec s).toBitVec = s := by
    revert s
    decide
  have hfirst : unpackSign b = (BitVec.extractLsb 63 63 b).cast rfl := rfl
  simp only [packComponents, hsign, hfirst, unpackExponent, unpackMantissa, BitVec.extractLsb]
  ext i hi
  grind

def fields : UnpackedFloat → Sign × Nat × Nat
  | .zero s => (s, 0, 0)
  | .finite s m e _ => if m < 2 ^ 52 then (s, 0, m) else (s, (e + 1075).toNat, m - 2 ^ 52)
  | .infinity s => (s, 2047, 0)
  | .notANumber => (.positive, 2047, 1)

theorem fields_ofFields {s : Sign} {exponent : BitVec 11} {mantissa : BitVec 52}
    (h : ofFields s exponent mantissa ≠ .notANumber) :
    fields (ofFields s exponent mantissa) = (s, exponent.toNat, mantissa.toNat) := by
  have hmantissa := mantissa.isLt
  unfold ofFields at h ⊢
  by_cases hlast : exponent = -1#11
  · rw [if_pos hlast] at h ⊢
    by_cases hzero : mantissa = 0#52
    · rw [if_pos hzero, hlast, hzero]
      rfl
    · exact absurd (if_neg hzero) h
  rw [if_neg hlast]
  by_cases hfirst : exponent = 0#11
  · rw [if_pos hfirst, hfirst]
    rcases Nat.eq_zero_or_pos mantissa.toNat with hzero | hpos
    · rw [hzero]
      rfl
    · rw [ofParts_of_pos s _ hpos]
      exact if_pos hmantissa
  · rw [if_neg hfirst, ofParts_of_pos s _ (by omega)]
    dsimp only [fields]
    simp

theorem eq_of_unpack {a b : Float} (h : a.toModel.unpack = b.toModel.unpack)
    (number : a.toModel.unpack ≠ .notANumber) : a = b := by
  obtain ⟨⟨bits, _⟩⟩ := a
  obtain ⟨⟨bits', _⟩⟩ := b
  change unpack .binary64 bits.toBitVec = unpack .binary64 bits'.toBitVec at h
  change unpack .binary64 bits.toBitVec ≠ _ at number
  have hfields := congrArg fields h
  have hother := h ▸ number
  rw [unpack_eq] at number hother
  rw [unpack_eq, unpack_eq, fields_ofFields number, fields_ofFields hother, Prod.mk.injEq,
    Prod.mk.injEq] at hfields
  have hbits : bits.toBitVec = bits'.toBitVec := by
    rw [← packComponents_unpack bits.toBitVec, ← packComponents_unpack bits'.toBitVec,
      hfields.1, BitVec.eq_of_toNat_eq hfields.2.1, BitVec.eq_of_toNat_eq hfields.2.2]
  cases UInt64.eq_of_toBitVec_eq hbits
  rfl

/-- Only positive floats stand behind the zeros. -/
theorem positive_of_place {u : UnpackedFloat} {x : Place} (hu : place u = some x)
    (hx : ¬ x.UpTo ⟨0, 0, 0⟩) :
    (∃ m e h, u = .finite .positive m e h ∧ x = ⟨1, e, m⟩) ∨
      u = .infinity .positive ∧ x = ⟨2, 0, 0⟩ := by
  cases u with
  | notANumber => exact nomatch hu
  | zero s =>
    obtain rfl := Option.some.inj hu
    exact absurd (Place.UpTo.refl _) hx
  | infinity s =>
    cases s with
    | negative =>
      obtain rfl := Option.some.inj hu
      exact absurd (.inl (by decide)) hx
    | positive => exact .inr ⟨rfl, (Option.some.inj hu).symm⟩
  | finite s m e h =>
    cases s with
    | negative =>
      obtain rfl := Option.some.inj hu
      exact absurd (.inl neg_one_lt_zero) hx
    | positive => exact .inl ⟨m, e, h, rfl, (Option.some.inj hu).symm⟩

theorem eq_of_place {u v : UnpackedFloat} {x : Place} (hu : place u = some x)
    (hv : place v = some x) (hx : ¬ x.UpTo ⟨0, 0, 0⟩) : u = v := by
  rcases positive_of_place hu hx with ⟨m, e, _, rfl, rfl⟩ | ⟨rfl, rfl⟩
  · rcases positive_of_place hv hx with ⟨n, f, _, rfl, hsame⟩ | ⟨rfl, hsame⟩
    · obtain ⟨_, rfl, hm⟩ := Place.mk.inj hsame
      obtain rfl := Int.natCast_inj.mp hm
      rfl
    · simp at hsame
  · rcases positive_of_place hv hx with ⟨n, f, _, rfl, hsame⟩ | ⟨rfl, hsame⟩
    · simp at hsame
    · rfl

instance : AntisymmScalar Float where
  eq_of_ties {a b} ha h := by
    obtain ⟨x, y, hx, hy, hxy⟩ := (le_iff_place _ _).mp (le_iff.mp h.1)
    obtain ⟨y', x', hy', hx', hyx⟩ := (le_iff_place _ _).mp (le_iff.mp h.2)
    obtain rfl := Option.some.inj (hx.symm.trans hx')
    obtain rfl := Option.some.inj (hy.symm.trans hy')
    obtain rfl := hxy.antisymm hyx
    have hpositive : ¬ x.UpTo ⟨0, 0, 0⟩ := fun hle => by
      have hzero : place (0 : Float).toModel.unpack = some ⟨0, 0, 0⟩ := by
        have hmodel : (0 : Float).toModel.unpack = .zero .positive := by rfl
        rw [hmodel]
        rfl
      exact Scalar.not_le_of_lt ha (le_iff.mpr ((le_iff_place _ _).mpr ⟨_, _, hx, hzero, hle⟩))
    refine eq_of_unpack (eq_of_place hx hy hpositive) fun hnan => ?_
    rw [hnan] at hx
    exact nomatch hx

end Screening.Machine
