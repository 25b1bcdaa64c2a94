import Mathlib.Data.List.Induction
import Mathlib.Data.Nat.ModEq
import Screening.Proofs.Identifier.WrittenOut

namespace Screening

namespace Identifier

variable {b c : UInt8} {before after s t xs ys : Text}

/-- Twenty letters or digits, the last two of them digits. -/
structure HasLeiForm (t : Text) : Prop where
  length : t.length = 20
  signs : ∀ b ∈ t, Byte.isAlphanum b = true
  check : ∀ b ∈ t.drop 18, Byte.isDigit b = true

theorem restModulo97_append (h : Byte.isAlphanum b = true) : restModulo97 (t ++ [b]) =
    (restModulo97 t * 10 ^ (numeralOf b).length + value b) % 97 := by
  rw [length_numeralOf h, restModulo97, List.foldl_append, List.foldl_cons, List.foldl_nil]
  dsimp only
  split
  next => rfl
  next => rfl

theorem restModulo97_eq (h : ∀ b ∈ t, Byte.isAlphanum b = true) :
    restModulo97 t = Text.digitsValue (writtenOut t) % 97 := by
  induction t using List.reverseRecOn with
  | nil => rfl
  | append_singleton t b ih =>
    have hb : Byte.isAlphanum b = true := h b (by simp)
    rw [restModulo97_append hb, ih fun c hc => h c (by simp [hc]), writtenOut_append,
      Text.digitsValue_append, writtenOut_singleton, digitsValue_numeralOf hb, Nat.add_mod,
      Nat.mod_mul_mod, ← Nat.add_mod]

theorem restModulo97_lt (t : Text) : restModulo97 t < 97 := by
  induction t using List.reverseRecOn with
  | nil => decide
  | append_singleton t b ih =>
    rw [restModulo97, List.foldl_append, List.foldl_cons, List.foldl_nil]
    dsimp only
    split <;> exact Nat.mod_lt _ (by decide)

theorem unreduced_lt (t : Text) (h : Byte.isAlphanum b = true) :
    restModulo97 t * 10 ^ (numeralOf b).length + value b < 2 ^ 31 := by
  have hrest := restModulo97_lt t
  have hvalue := value_lt h
  have hshift : 10 ^ (numeralOf b).length ≤ 100 := by
    rw [length_numeralOf h]
    split <;> decide
  have hproduct := Nat.mul_le_mul (Nat.le_of_lt hrest) hshift
  omega

theorem restModulo97_map_toUpper (t : Text) : restModulo97 (t.map Byte.toUpper) = restModulo97 t := by
  simp only [restModulo97, List.foldl_map, value_toUpper]

theorem isLei_map_toUpper (t : Text) : isLei (t.map Byte.toUpper) = isLei t := by
  have hdigits : Byte.isDigit ∘ Byte.toUpper = Byte.isDigit := funext Byte.isDigit_toUpper
  have hsigns : Byte.isAlphanum ∘ Byte.toUpper = Byte.isAlphanum := funext Byte.isAlphanum_toUpper
  simp only [isLei, isNumeral, List.length_map, ← List.map_drop, List.isEmpty_map, List.all_map, hdigits,
    hsigns, restModulo97_map_toUpper]

theorem isLei_eq_true_iff :
    isLei t = true ↔ HasLeiForm t ∧ Text.digitsValue (writtenOut t) % 97 = 1 := by
  simp only [isLei, isNumeral, Bool.and_eq_true, beq_iff_eq, List.all_eq_true, Bool.not_eq_true',
    List.isEmpty_eq_false_iff]
  constructor
  · rintro ⟨⟨⟨hlength, hsigns⟩, _, hcheck⟩, hrest⟩
    exact ⟨⟨hlength, hsigns, hcheck⟩, restModulo97_eq hsigns ▸ hrest⟩
  · rintro ⟨hform, hrest⟩
    have hsome : t.drop 18 ≠ [] :=
      List.ne_nil_of_length_pos (by rw [List.length_drop, hform.length]; decide)
    exact ⟨⟨⟨hform.length, hform.signs⟩, hsome, hform.check⟩, (restModulo97_eq hform.signs).trans hrest⟩

/-- Parts of one length with different rests make codes with different rests: a power of ten is prime
to 97. -/
theorem rest_ne_of_replaced (before after : Text)
    (hlength : (writtenOut xs).length = (writtenOut ys).length)
    (hne : Text.digitsValue (writtenOut xs) % 97 ≠ Text.digitsValue (writtenOut ys) % 97) :
    Text.digitsValue (writtenOut (before ++ (xs ++ after))) % 97 ≠
      Text.digitsValue (writtenOut (before ++ (ys ++ after))) % 97 := by
  intro heq
  simp only [writtenOut_append, Text.digitsValue_append, List.length_append, hlength] at heq
  have hparts := Nat.ModEq.add_right_cancel' _ (Nat.ModEq.add_left_cancel' _ heq)
  exact hne (hparts.cancel_right_of_coprime (Nat.Coprime.pow_right _ (by decide)))

theorem not_isLei_of_replaced (xs ys : Text) (h : isLei (before ++ (xs ++ after)) = true)
    (hlength : (writtenOut xs).length = (writtenOut ys).length)
    (hne : Text.digitsValue (writtenOut xs) % 97 ≠ Text.digitsValue (writtenOut ys) % 97) :
    isLei (before ++ (ys ++ after)) = false := by
  refine Bool.eq_false_iff.mpr fun h' => rest_ne_of_replaced before after hlength hne ?_
  exact (isLei_eq_true_iff.mp h).2.trans (isLei_eq_true_iff.mp h').2.symm

theorem digitsValue_pair (hb : Byte.isAlphanum b = true) (hc : Byte.isAlphanum c = true) :
    Text.digitsValue (writtenOut [b, c]) = value b * 10 ^ (numeralOf c).length + value c := by
  have hpair : writtenOut [b, c] = numeralOf b ++ numeralOf c := by
    rw [← writtenOut_singleton, ← writtenOut_singleton, ← writtenOut_append]
    rfl
  rw [hpair, Text.digitsValue_append, digitsValue_numeralOf hb, digitsValue_numeralOf hc]

/-- A sign instead of another of its kind changes the rest: the values differ by less than 97. -/
theorem rest_of_other_sign (h : OfOneKind b c) (hne : Byte.toUpper b ≠ Byte.toUpper c) :
    Text.digitsValue (writtenOut [b]) % 97 ≠ Text.digitsValue (writtenOut [c]) % 97 := by
  have hvalues := value_ne h hne
  have hb := value_lt h.isAlphanum.1
  have hc := value_lt h.isAlphanum.2
  rw [writtenOut_singleton, writtenOut_singleton, digitsValue_numeralOf h.isAlphanum.1,
    digitsValue_numeralOf h.isAlphanum.2]
  omega

/-- To exchange digits changes the number by a multiple of 9, and to exchange letters by one of 99. -/
theorem rest_of_exchanged (h : OfOneKind b c) (hne : Byte.toUpper b ≠ Byte.toUpper c) :
    Text.digitsValue (writtenOut [b, c]) % 97 ≠ Text.digitsValue (writtenOut [c, b]) % 97 := by
  have hvalues := value_ne h hne
  have hltb := value_lt h.isAlphanum.1
  have hltc := value_lt h.isAlphanum.2
  rw [digitsValue_pair h.isAlphanum.1 h.isAlphanum.2, digitsValue_pair h.isAlphanum.2 h.isAlphanum.1,
    h.length_numeralOf, length_numeralOf h.isAlphanum.1]
  rcases h with ⟨hb, hc⟩ | ⟨hb, hc⟩
  · have hb := value_lt_of_isDigit hb
    have hc := value_lt_of_isDigit hc
    rw [if_pos hb]
    omega
  · rw [if_neg (Nat.not_lt.mpr (le_value_of_isAlpha hb))]
    omega

/-- A code of a legal entity is accepted if the number that it is written out as has rest 1 modulo 97.
No letter case makes a difference, and the running rest is reduced before it grows. A code that is
accepted is no more so with one sign mistaken for another of its kind, or two neighbours of one kind
exchanged. -/
theorem isLei_detects_slips (t : Text) :
    (isLei t = true ↔ HasLeiForm t ∧ Text.digitsValue (writtenOut t) % 97 = 1) ∧
      (∀ t' : Text, t'.map Byte.toUpper = t.map Byte.toUpper → isLei t' = isLei t) ∧
      (HasLeiForm t → ∀ before b after, t = before ++ b :: after →
        restModulo97 (before ++ [b]) =
            (restModulo97 before * 10 ^ (numeralOf b).length + value b) % 97 ∧
          restModulo97 before * 10 ^ (numeralOf b).length + value b < 2 ^ 31) ∧
      (isLei t = true → ∀ before after b c, OfOneKind b c → Byte.toUpper b ≠ Byte.toUpper c →
        (t = before ++ b :: after → isLei (before ++ c :: after) = false) ∧
          (t = before ++ b :: c :: after → isLei (before ++ c :: b :: after) = false)) := by
  refine ⟨isLei_eq_true_iff, fun t' h => ?_, fun hform before b after h => ?_,
    fun hlei before after b c hkind hne => ⟨?_, ?_⟩⟩
  · rw [← isLei_map_toUpper, h, isLei_map_toUpper]
  · have hb : Byte.isAlphanum b = true := hform.signs b (by simp [h])
    exact ⟨restModulo97_append hb, unreduced_lt before hb⟩
  · rintro rfl
    have hlength : (writtenOut [b]).length = (writtenOut [c]).length := by
      rw [writtenOut_singleton, writtenOut_singleton, hkind.length_numeralOf]
    exact not_isLei_of_replaced [b] [c] hlei hlength (rest_of_other_sign hkind hne)
  · rintro rfl
    have hlength : (writtenOut [b, c]).length = (writtenOut [c, b]).length := by
      simp [writtenOut, Nat.add_comm]
    exact not_isLei_of_replaced [b, c] [c, b] hlei hlength (rest_of_exchanged hkind hne)

/-- R and S are exchanged, and the last digit is mistaken. -/
theorem isLei_detects_slips_of_bank :
    let t := Text.of "529900T8BM49AURSDO55"
    let small := Text.of "529900t8bm49aursdo55"
    (HasLeiForm t ∧ small.map Byte.toUpper = t.map Byte.toUpper ∧ isLei t = true ∧ OfOneKind 82 83 ∧
        OfOneKind 53 54) ∧
      Text.digitsValue (writtenOut t) % 97 = 1 ∧ isLei small = true ∧
        restModulo97 (Text.of "529900") * 10 ^ (numeralOf 84).length + value 84 < 2 ^ 31 ∧
          isLei (Text.of "529900T8BM49AUSRDO55") = false ∧
            isLei (Text.of "529900T8BM49AURSDO56") = false := by
  intro t small
  have hform : HasLeiForm t := ⟨by decide +kernel, by decide +kernel, by decide +kernel⟩
  have hsmall : small.map Byte.toUpper = t.map Byte.toUpper := by decide +kernel
  have hlei : isLei t = true := by decide +kernel
  have hletters : OfOneKind 82 83 := .inr ⟨by decide, by decide⟩
  have hdigits : OfOneKind 53 54 := .inl ⟨by decide, by decide⟩
  obtain ⟨haccept, hcase, hrun, hslips⟩ := isLei_detects_slips t
  have hexchanged := (hslips hlei (Text.of "529900T8BM49AU") (Text.of "DO55") 82 83 hletters (by decide)).2
    (by decide +kernel)
  have hmistaken := (hslips hlei (Text.of "529900T8BM49AURSDO5") [] 53 54 hdigits (by decide)).1
    (by decide +kernel)
  have hsmallrun := (hrun hform (Text.of "529900") 84 (Text.of "8BM49AURSDO55") (by decide +kernel)).2
  exact ⟨⟨hform, hsmall, hlei, hletters, hdigits⟩, (haccept.mp hlei).2, (hcase small hsmall).trans hlei,
    hsmallrun, hexchanged, hmistaken⟩

end Identifier

end Screening
