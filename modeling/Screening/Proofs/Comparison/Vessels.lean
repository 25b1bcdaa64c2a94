import Screening.Comparison
import Screening.Proofs.Text.Case

namespace Screening

namespace Identifier

variable {b : UInt8} {code number t : Text}

/-- A text spells a code with its letters in either case, and with anything but letters and digits in
between. -/
inductive Spells : Text → Text → Prop
  | nil : Spells [] []
  | between {b : UInt8} {t code : Text} : Byte.isAlphanum b = false → Spells t code → Spells (b :: t) code
  | sign {b : UInt8} {t code : Text} : Byte.isAlphanum b = true → Spells t code →
      Spells (b :: t) (Byte.toUpper b :: code)

/-- Seven digits, of which the last is the last digit of the weighted sum of the others. -/
structure IsVesselNumber (number : Text) : Prop where
  length : number.length = 7
  digits : ∀ b ∈ number, Byte.isDigit b = true
  check : hasDigitAt number 6 (weightedSum [7, 6, 5, 4, 3, 2] number % 10) = true

theorem IsVesselNumber.nonempty (h : IsVesselNumber number) : number ≠ [] :=
  List.ne_nil_of_length_pos (by rw [h.length]; decide)

def vesselMarks : List Text := [[], Text.of "IMO"]

theorem clean_cons_of_isAlphanum (h : Byte.isAlphanum b = true) :
    clean (b :: t) = Byte.toUpper b :: clean t := by
  rw [clean, List.filter_cons_of_pos h, List.map_cons]
  rfl

theorem clean_cons_of_not (h : Byte.isAlphanum b = false) : clean (b :: t) = clean t := by
  rw [clean, List.filter_cons_of_neg (by simp [h])]
  rfl

theorem spells_clean (t : Text) : Spells t (clean t) := by
  induction t with
  | nil => exact .nil
  | cons b t ih =>
    cases h : Byte.isAlphanum b with
    | true =>
      rw [clean_cons_of_isAlphanum h]
      exact .sign h ih
    | false =>
      rw [clean_cons_of_not h]
      exact .between h ih

theorem Spells.clean_eq (h : Spells t code) : clean t = code := by
  induction h with
  | nil => rfl
  | between hb _ ih => rw [clean_cons_of_not hb, ih]
  | sign hb _ ih => rw [clean_cons_of_isAlphanum hb, ih]

theorem spells_iff : Spells t code ↔ clean t = code :=
  ⟨Spells.clean_eq, fun h => h ▸ spells_clean t⟩

theorem toUpper_of_mem_clean (h : b ∈ clean t) : Byte.toUpper b = b := by
  obtain ⟨c, _, rfl⟩ := List.mem_map.mp h
  exact Byte.toUpper_toUpper c

theorem isImo_iff_digits : isImo t = true ↔ IsVesselNumber (vesselDigits t) := by
  rw [isImo, isNumeral, Bool.and_eq_true, Bool.and_eq_true, Bool.and_eq_true, beq_iff_eq, List.all_eq_true]
  constructor
  · rintro ⟨⟨hlength, _, hdigits⟩, hcheck⟩
    exact ⟨hlength, hdigits, hcheck⟩
  · intro h
    refine ⟨⟨h.length, ?_, h.digits⟩, h.check⟩
    rw [Bool.not_eq_true', List.isEmpty_eq_false_iff]
    exact h.nonempty

theorem vesselDigits_of_digits (h : ∀ b ∈ number, Byte.isDigit b = true) : vesselDigits number = number := by
  refine if_neg fun hmark => ?_
  have hstart : ∀ b ∈ number.take 3, Byte.isDigit b = true := fun b hb => h b (List.mem_of_mem_take hb)
  rcases Bool.or_eq_true_iff.mp (Bool.and_eq_true_iff.mp hmark).2 with himo | himo <;>
    rw [eq_of_beq himo] at hstart <;> exact absurd hstart (by decide)

theorem vesselDigits_of_mark (h : number ≠ []) : vesselDigits (Text.of "IMO" ++ number) = number := by
  have hlength : (Text.of "IMO").length = 3 := rfl
  have hpos := List.length_pos_of_ne_nil h
  rw [vesselDigits, List.take_left' hlength, List.drop_left' hlength, BEq.rfl, Bool.true_or, Bool.and_true,
    List.length_append, hlength, if_pos (by simpa using hpos)]

theorem vesselDigits_append {mark : Text} (hmark : mark ∈ vesselMarks) (h : IsVesselNumber number) :
    vesselDigits (mark ++ number) = number := by
  simp only [vesselMarks, List.mem_cons, List.not_mem_nil, or_false] at hmark
  rcases hmark with rfl | rfl
  · exact vesselDigits_of_digits h.digits
  · exact vesselDigits_of_mark h.nonempty

theorem exists_mark (t : Text) : ∃ mark ∈ vesselMarks, clean t = mark ++ vesselDigits (clean t) := by
  unfold vesselDigits
  split
  next hmark =>
    rcases Bool.or_eq_true_iff.mp (Bool.and_eq_true_iff.mp hmark).2 with himo | himo
    · refine ⟨Text.of "IMO", by decide, ?_⟩
      rw [← eq_of_beq himo, List.take_append_drop]
    · have hsmall : 105 ∈ (clean t).take 3 := by
        rw [eq_of_beq himo]
        decide
      exact absurd (toUpper_of_mem_clean (List.mem_of_mem_take hsmall)) (by decide)
  next => exact ⟨[], by decide, rfl⟩

theorem isImo_clean_iff : isImo (clean t) = true ↔
    ∃ mark ∈ vesselMarks, ∃ number, IsVesselNumber number ∧ Spells t (mark ++ number) := by
  rw [isImo_iff_digits]
  constructor
  · intro h
    obtain ⟨mark, hmark, hclean⟩ := exists_mark t
    exact ⟨mark, hmark, _, h, spells_iff.mpr hclean⟩
  · rintro ⟨mark, hmark, number, hnumber, hspells⟩
    rw [hspells.clean_eq, vesselDigits_append hmark hnumber]
    exact hnumber

end Identifier

namespace Comparison

open Identifier

variable {α : Type} [Scalar α] {scheme : IdentifierScheme} {q c t : Text}

theorem identifiers_of_accepted (hq : clean q ≠ []) (hc : clean c ≠ [])
    (hacceptq : scheme.accepts (clean q) = true) (hacceptc : scheme.accepts (clean c) = true) :
    (identifiers scheme 1 q c : Option α) = some (if clean q = clean c then 1 else 0) := by
  refine if_pos ?_
  simp [hq, hc, hacceptq, hacceptc, Nat.one_le_iff_ne_zero]

theorem accepts_of_isImo (hscheme : scheme = .imo ∨ scheme = .vessel) (h : isImo t = true) :
    scheme.accepts t = true := by
  rcases hscheme with rfl | rfl
  · exact h
  · exact Bool.or_eq_true_iff.mpr (.inl h)

/-- A text is taken for a vessel if it spells the number of one, with or without IMO in front. Two such
texts agree if they spell the same number and both have IMO in front of it, or both have not. -/
theorem identifiers_of_vessels (α : Type) [Scalar α] :
    (∀ t, isImo (clean t) = true ↔
        ∃ mark ∈ vesselMarks, ∃ number, IsVesselNumber number ∧ Spells t (mark ++ number)) ∧
      ∀ scheme, scheme = .imo ∨ scheme = .vessel → ∀ mark ∈ vesselMarks, ∀ mark' ∈ vesselMarks,
        ∀ number number' q c, IsVesselNumber number → IsVesselNumber number' →
          Spells q (mark ++ number) → Spells c (mark' ++ number') →
            (identifiers scheme 1 q c : Option α) =
              some (if number = number' ∧ mark = mark' then 1 else 0) := by
  refine ⟨fun t => isImo_clean_iff, ?_⟩
  intro scheme hscheme mark hmark mark' hmark' number number' q c hnumber hnumber' hq hc
  have hacceptq := accepts_of_isImo hscheme (isImo_clean_iff.mpr ⟨mark, hmark, number, hnumber, hq⟩)
  have hacceptc := accepts_of_isImo hscheme (isImo_clean_iff.mpr ⟨mark', hmark', number', hnumber', hc⟩)
  have hsome : clean q ≠ [] := by simp [hq.clean_eq, hnumber.nonempty]
  have hsome' : clean c ≠ [] := by simp [hc.clean_eq, hnumber'.nonempty]
  have hsame : mark ++ number = mark' ++ number' ↔ number = number' ∧ mark = mark' := by
    constructor
    · intro heq
      exact (List.append_inj' heq (hnumber.length.trans hnumber'.length.symm)).symm
    · rintro ⟨rfl, rfl⟩
      rfl
  rw [identifiers_of_accepted hsome hsome' hacceptq hacceptc, hq.clean_eq, hc.clean_eq]
  simp only [hsame]

theorem identifiers_of_vessels_of_separators :
    let number := Text.of "9074729"
    let q := Text.of "imo 907-4729"
    let c := Text.of "IMO.9074729"
    (IsVesselNumber number ∧ Text.of "IMO" ∈ vesselMarks ∧ Spells q (Text.of "IMO" ++ number) ∧
        Spells c (Text.of "IMO" ++ number)) ∧
      identifiers .vessel 1 q c = some (1 : Float) ∧ isImo (clean q) = true := by
  intro number q c
  have hnumber : IsVesselNumber number := ⟨by decide +kernel, by decide +kernel, by decide +kernel⟩
  have hmark : Text.of "IMO" ∈ vesselMarks := by decide
  have hq : Spells q (Text.of "IMO" ++ number) := spells_iff.mpr (by decide +kernel)
  have hc : Spells c (Text.of "IMO" ++ number) := spells_iff.mpr (by decide +kernel)
  obtain ⟨haccepted, hagree⟩ := identifiers_of_vessels Float
  have hvalue := hagree .vessel (.inr rfl) _ hmark _ hmark number number q c hnumber hnumber hq hc
  rw [if_pos ⟨rfl, rfl⟩] at hvalue
  exact ⟨⟨hnumber, hmark, hq, hc⟩, hvalue, (haccepted q).mpr ⟨_, hmark, number, hnumber, hq⟩⟩

/-- A vessel does not agree with itself if IMO stands in front of one of its numbers only. -/
theorem vessel_apart_from_itself :
    let number := Text.of "9074729"
    let q := Text.of "IMO 9074729"
    let c := Text.of "9074729"
    (IsVesselNumber number ∧ Spells q (Text.of "IMO" ++ number) ∧ Spells c number) ∧
      (isImo (clean q) = true ∧ isImo (clean c) = true) ∧
        identifiers .imo 1 q c = some (0 : Float) ∧ identifiers .vessel 1 q c = some (0 : Float) ∧
          (0 : Float) ≠ 1 := by
  intro number q c
  have hnumber : IsVesselNumber number := ⟨by decide +kernel, by decide +kernel, by decide +kernel⟩
  exact ⟨⟨hnumber, spells_iff.mpr (by decide +kernel), spells_iff.mpr (by decide +kernel)⟩,
    ⟨by decide +kernel, by decide +kernel⟩, by decide +kernel, by decide +kernel, by decide +kernel⟩

end Comparison

end Screening
