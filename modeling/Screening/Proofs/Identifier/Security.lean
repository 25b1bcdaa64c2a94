import Mathlib.Data.Nat.Digits.Defs
import Screening.Proofs.Identifier.WrittenOut

namespace Screening

namespace Identifier

variable {b : UInt8} {t : Text} {digits xs ys : List Nat} {d e : Nat}

/-- Two letters for the country, nine letters or digits, and a digit. -/
structure HasIsinForm (t : Text) : Prop where
  length : t.length = 12
  country : ∀ b ∈ t.take 2, Byte.isAlpha b = true
  number : ∀ b ∈ (t.drop 2).take 9, Byte.isAlphanum b = true
  check : ∀ b ∈ t.drop 11, Byte.isDigit b = true

/-- What a digit adds to a Luhn sum: a double of two digits counts as the sum of both. -/
def counted (doubling : Bool) (d : Nat) : Nat := (Nat.digits 10 (if doubling then 2 * d else d)).sum

/-- The Luhn sum of digits, of which every second one from the right is doubled. -/
def luhnTotal (digits : List Nat) : Nat :=
  (digits.reverse.mapIdx fun i d => counted (i % 2 == 1) d).sum

theorem counted_eq (doubling : Bool) (h : d < 10) :
    counted doubling d = if doubling then doubled d else d := by
  have table : ∀ doubling, ∀ d < 10, counted doubling d = if doubling then doubled d else d := by decide
  exact table doubling d h

theorem counted_lt (doubling : Bool) (h : d < 10) : counted doubling d < 10 := by
  have table : ∀ doubling, ∀ d < 10, counted doubling d < 10 := by decide
  exact table doubling d h

theorem eq_of_counted_eq (doubling : Bool) (hd : d < 10) (he : e < 10)
    (h : counted doubling d = counted doubling e) : d = e := by
  have table : ∀ doubling, ∀ d < 10, ∀ e < 10, counted doubling d = counted doubling e → d = e := by decide
  exact table doubling d hd e he h

theorem luhnSum_eq (doubling : Bool) (h : ∀ d ∈ digits, d < 10) : luhnSum doubling digits =
    (digits.mapIdx fun i d => counted (doubling ^^ (i % 2 == 1)) d).sum := by
  induction digits generalizing doubling with
  | nil => rfl
  | cons d digits ih =>
    have hturn : ∀ i, (!doubling ^^ (i % 2 == 1)) = (doubling ^^ ((i + 1) % 2 == 1)) := by
      intro i
      rcases Nat.mod_two_eq_zero_or_one i with hi | hi <;> cases doubling <;> simp [Nat.add_mod, hi]
    rw [luhnSum, List.mapIdx_cons, List.sum_cons, ih (!doubling) fun e he => h e (by simp [he])]
    simp only [hturn]
    rw [← counted_eq doubling (h d (by simp))]
    simp

theorem isLuhn_iff (h : ∀ d ∈ digits, d < 10) :
    isLuhn digits = true ↔ luhnTotal digits % 10 = 0 := by
  have hreversed : ∀ d ∈ digits.reverse, d < 10 := fun d hd => h d (List.mem_reverse.mp hd)
  rw [isLuhn, beq_iff_eq, luhnSum_eq false hreversed, luhnTotal]
  simp only [Bool.false_xor]

/-- From the right, the digits count as 3, 2, 7, 7, 9, 6, 7, 4, 9, 9 and 7. -/
example : luhnTotal [7, 9, 9, 2, 7, 3, 9, 8, 7, 1, 3] = 70 := by decide

theorem luhnSum_middle (doubling : Bool) (xs ys : List Nat) : ∃ rest place, ∀ d, d < 10 →
    luhnSum doubling (xs ++ d :: ys) = rest + counted place d := by
  induction xs generalizing doubling with
  | nil =>
    refine ⟨luhnSum (!doubling) ys, doubling, fun d hd => ?_⟩
    rw [List.nil_append, luhnSum, counted_eq doubling hd, Nat.add_comm]
  | cons x xs ih =>
    obtain ⟨rest, place, hsum⟩ := ih (!doubling)
    refine ⟨(if doubling then doubled x else x) + rest, place, fun d hd => ?_⟩
    rw [List.cons_append, luhnSum, hsum d hd, Nat.add_assoc]

theorem eq_of_isLuhn (hd : d < 10) (he : e < 10) (h : isLuhn (xs ++ d :: ys) = true)
    (h' : isLuhn (xs ++ e :: ys) = true) : d = e := by
  obtain ⟨rest, place, hsum⟩ := luhnSum_middle false ys.reverse xs.reverse
  have hreversed : ∀ x, (xs ++ x :: ys).reverse = ys.reverse ++ x :: xs.reverse := by simp
  rw [isLuhn, beq_iff_eq, hreversed, hsum d hd] at h
  rw [isLuhn, beq_iff_eq, hreversed, hsum e he] at h'
  have hltd := counted_lt place hd
  have hlte := counted_lt place he
  exact eq_of_counted_eq place hd he (by omega)

theorem expand_toUpper (b : UInt8) : expand (Byte.toUpper b) = expand b := by
  rw [expand, expand, value_toUpper]

theorem digit_of_isDigit (h : Byte.isDigit b = true) : Byte.digit b < 10 := by
  simpa [expand_of_isDigit h] using expand_lt (Byte.isAlphanum_of_isDigit h)

theorem HasIsinForm.signs (h : HasIsinForm t) : ∀ b ∈ t, Byte.isAlphanum b = true := by
  have hparts : t = t.take 2 ++ ((t.drop 2).take 9 ++ t.drop 11) := by
    rw [← List.drop_drop (i := 9) (j := 2), List.take_append_drop, List.take_append_drop]
  intro b hb
  rw [hparts] at hb
  rcases List.mem_append.mp hb with hb | hb
  · exact Byte.isAlphanum_of_isAlpha (h.country b hb)
  · rcases List.mem_append.mp hb with hb | hb
    · exact h.number b hb
    · exact Byte.isAlphanum_of_isDigit (h.check b hb)

theorem isIsin_map_toUpper (t : Text) : isIsin (t.map Byte.toUpper) = isIsin t := by
  have hletters : Byte.isAlpha ∘ Byte.toUpper = Byte.isAlpha := funext Byte.isAlpha_toUpper
  have hdigits : Byte.isDigit ∘ Byte.toUpper = Byte.isDigit := funext Byte.isDigit_toUpper
  have hsigns : Byte.isAlphanum ∘ Byte.toUpper = Byte.isAlphanum := funext Byte.isAlphanum_toUpper
  simp only [isIsin, List.length_map, ← List.map_take, ← List.map_drop, List.all_map, hletters, hdigits,
    hsigns, List.flatMap_map, expand_toUpper]

theorem isIsin_eq_true_iff : isIsin t = true ↔
    HasIsinForm t ∧ luhnTotal ((writtenOut t).map Byte.digit) % 10 = 0 := by
  have hluhn (hsigns : ∀ b ∈ t, Byte.isAlphanum b = true) : isLuhn (t.flatMap expand) = true ↔
      luhnTotal ((writtenOut t).map Byte.digit) % 10 = 0 := by
    rw [map_digit_writtenOut hsigns]
    refine isLuhn_iff fun d hd => ?_
    obtain ⟨b, hb, hdigit⟩ := List.mem_flatMap.mp hd
    exact expand_lt (hsigns b hb) d hdigit
  simp only [isIsin, Bool.and_eq_true, beq_iff_eq, List.all_eq_true]
  constructor
  · rintro ⟨⟨⟨⟨hlength, hcountry⟩, hnumber⟩, hcheck⟩, hsum⟩
    have hform : HasIsinForm t := ⟨hlength, hcountry, hnumber, hcheck⟩
    exact ⟨hform, (hluhn hform.signs).mp hsum⟩
  · rintro ⟨hform, hsum⟩
    exact ⟨⟨⟨⟨hform.length, hform.country⟩, hform.number⟩, hform.check⟩, (hluhn hform.signs).mpr hsum⟩

theorem digit_injective {b c : UInt8} (hb : Byte.isDigit b = true) (hc : Byte.isDigit c = true)
    (h : Byte.digit b = Byte.digit c) : b = c := by
  by_contra hne
  have hother : Byte.toUpper b ≠ Byte.toUpper c := by
    rwa [Byte.toUpper_of_isDigit hb, Byte.toUpper_of_isDigit hc]
  refine value_ne (.inl ⟨hb, hc⟩) hother ?_
  rw [value, value, if_pos hb, if_pos hc, h]

theorem not_isIsin_of_mistaken {before after : Text} {b c : UInt8} (hb : Byte.isDigit b = true)
    (hc : Byte.isDigit c = true) (hne : c ≠ b) (h : isIsin (before ++ b :: after) = true) :
    isIsin (before ++ c :: after) = false := by
  have hexpand : ∀ b, Byte.isDigit b = true → (before ++ b :: after).flatMap expand =
      before.flatMap expand ++ Byte.digit b :: after.flatMap expand := by
    intro b hb
    rw [List.flatMap_append, List.flatMap_cons, expand_of_isDigit hb]
    rfl
  have hluhn : ∀ t, isIsin t = true → isLuhn (t.flatMap expand) = true := fun t ht =>
    (Bool.and_eq_true_iff.mp ht).2
  refine Bool.eq_false_iff.mpr fun h' => hne (digit_injective hc hb ?_)
  have hsum := hluhn _ h
  have hsum' := hluhn _ h'
  rw [hexpand b hb] at hsum
  rw [hexpand c hc] at hsum'
  exact eq_of_isLuhn (digit_of_isDigit hc) (digit_of_isDigit hb) hsum' hsum

/-- The number of a security is accepted if the digits that it is written out as pass the Luhn check. No
letter case makes a difference, and a number that is accepted is no more so with one digit mistaken. -/
theorem isIsin_detects_mistakes (t : Text) :
    (isIsin t = true ↔ HasIsinForm t ∧ luhnTotal ((writtenOut t).map Byte.digit) % 10 = 0) ∧
      (∀ t' : Text, t'.map Byte.toUpper = t.map Byte.toUpper → isIsin t' = isIsin t) ∧
      (isIsin t = true → ∀ before b after c, t = before ++ b :: after → Byte.isDigit b = true →
        Byte.isDigit c = true → c ≠ b → isIsin (before ++ c :: after) = false) := by
  refine ⟨isIsin_eq_true_iff, fun t' h => ?_, ?_⟩
  · rw [← isIsin_map_toUpper, h, isIsin_map_toUpper]
  · rintro h before b after c rfl hb hc hne
    exact not_isIsin_of_mistaken hb hc hne h

/-- The check digit is mistaken, and a digit behind a letter. -/
theorem isIsin_detects_mistakes_of_share :
    let t := Text.of "US02079K3059"
    let small := Text.of "us02079k3059"
    (isIsin t = true ∧ small.map Byte.toUpper = t.map Byte.toUpper) ∧
      luhnTotal ((writtenOut t).map Byte.digit) % 10 = 0 ∧ isIsin small = true ∧
        isIsin (Text.of "US02079K3054") = false ∧ isIsin (Text.of "US02079K8059") = false := by
  intro t small
  have hisin : isIsin t = true := by decide +kernel
  have hsmall : small.map Byte.toUpper = t.map Byte.toUpper := by decide +kernel
  obtain ⟨haccept, hcase, hmistakes⟩ := isIsin_detects_mistakes t
  have hcheck := hmistakes hisin (Text.of "US02079K305") 57 [] 52 (by decide +kernel) (by decide)
    (by decide) (by decide)
  have hinner := hmistakes hisin (Text.of "US02079K") 51 (Text.of "059") 56 (by decide +kernel) (by decide)
    (by decide) (by decide)
  exact ⟨⟨hisin, hsmall⟩, (haccept.mp hisin).2, (hcase small hsmall).trans hisin, hcheck, hinner⟩

end Identifier

end Screening
