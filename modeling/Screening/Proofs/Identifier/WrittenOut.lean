import Mathlib.Data.Nat.Init
import Mathlib.Tactic.Ring
import Screening.Identifier
import Screening.Proofs.Text.Case

namespace Screening

namespace Text

theorem foldl_digits (n : Nat) (t : Text) :
    t.foldl (fun n b => 10 * n + Byte.digit b) n = n * 10 ^ t.length + digitsValue t := by
  induction t generalizing n with
  | nil => simp [digitsValue]
  | cons b t ih =>
    have hfirst : digitsValue (b :: t) = (10 * 0 + Byte.digit b) * 10 ^ t.length + digitsValue t :=
      ih (10 * 0 + Byte.digit b)
    rw [List.foldl_cons, ih, hfirst, List.length_cons, pow_succ]
    ring

theorem digitsValue_append (s t : Text) :
    digitsValue (s ++ t) = digitsValue s * 10 ^ t.length + digitsValue t := by
  rw [digitsValue, List.foldl_append]
  exact foldl_digits _ t

end Text

namespace Identifier

variable {b c : UInt8} {s t : Text}

/-- Digits and capital letters in the order of their values. -/
def signs : Text := Text.of "0123456789ABCDEFGHIJKLMNOPQRSTUVWXYZ"

/-- A sign as the decimal number of its value, a letter in either case. -/
def numeralOf (b : UInt8) : Text := Text.of (toString (signs.idxOf (Byte.toUpper b)))

/-- A code as a decimal number, digit for digit and with each letter as its value. -/
def writtenOut (t : Text) : Text := t.flatMap numeralOf

def OfOneKind (b c : UInt8) : Prop :=
  (Byte.isDigit b = true ∧ Byte.isDigit c = true) ∨ (Byte.isAlpha b = true ∧ Byte.isAlpha c = true)

theorem writtenOut_append (s t : Text) : writtenOut (s ++ t) = writtenOut s ++ writtenOut t :=
  List.flatMap_append

theorem writtenOut_singleton (b : UInt8) : writtenOut [b] = numeralOf b := List.flatMap_singleton ..

theorem OfOneKind.isAlphanum (h : OfOneKind b c) :
    Byte.isAlphanum b = true ∧ Byte.isAlphanum c = true := by
  rcases h with ⟨hb, hc⟩ | ⟨hb, hc⟩
  · exact ⟨Byte.isAlphanum_of_isDigit hb, Byte.isAlphanum_of_isDigit hc⟩
  · exact ⟨Byte.isAlphanum_of_isAlpha hb, Byte.isAlphanum_of_isAlpha hc⟩

/-- What the value of a sign has to do with its numeral, checked on each byte. -/
theorem sign_table : ∀ i : Fin 256, let b := UInt8.ofFin i
    value (Byte.toUpper b) = value b ∧
      (Byte.isDigit b = true → value b < 10 ∧ expand b = [Byte.digit b]) ∧
        (Byte.isAlpha b = true → 10 ≤ value b) ∧
          (Byte.isAlphanum b = true → value b < 36 ∧ signs[value b]? = some (Byte.toUpper b) ∧
            Text.digitsValue (numeralOf b) = value b ∧ (numeralOf b).map Byte.digit = expand b ∧
              (numeralOf b).length = (if value b < 10 then 1 else 2) ∧ ∀ d ∈ expand b, d < 10) := by
  decide +kernel

@[simp] theorem value_toUpper (b : UInt8) : value (Byte.toUpper b) = value b := (sign_table b.toFin).1

theorem value_lt_of_isDigit (h : Byte.isDigit b = true) : value b < 10 :=
  ((sign_table b.toFin).2.1 h).1

theorem expand_of_isDigit (h : Byte.isDigit b = true) : expand b = [Byte.digit b] :=
  ((sign_table b.toFin).2.1 h).2

theorem le_value_of_isAlpha (h : Byte.isAlpha b = true) : 10 ≤ value b := (sign_table b.toFin).2.2.1 h

theorem value_lt (h : Byte.isAlphanum b = true) : value b < 36 := ((sign_table b.toFin).2.2.2 h).1

/-- The value of a sign is its place among the signs, so that it tells the sign up to case. -/
theorem signs_value (h : Byte.isAlphanum b = true) : signs[value b]? = some (Byte.toUpper b) :=
  ((sign_table b.toFin).2.2.2 h).2.1

theorem digitsValue_numeralOf (h : Byte.isAlphanum b = true) :
    Text.digitsValue (numeralOf b) = value b :=
  ((sign_table b.toFin).2.2.2 h).2.2.1

theorem map_digit_numeralOf (h : Byte.isAlphanum b = true) : (numeralOf b).map Byte.digit = expand b :=
  ((sign_table b.toFin).2.2.2 h).2.2.2.1

theorem length_numeralOf (h : Byte.isAlphanum b = true) :
    (numeralOf b).length = if value b < 10 then 1 else 2 :=
  ((sign_table b.toFin).2.2.2 h).2.2.2.2.1

theorem expand_lt (h : Byte.isAlphanum b = true) : ∀ d ∈ expand b, d < 10 :=
  ((sign_table b.toFin).2.2.2 h).2.2.2.2.2

theorem value_ne (h : OfOneKind b c) (hne : Byte.toUpper b ≠ Byte.toUpper c) : value b ≠ value c := by
  intro heq
  have hb := signs_value h.isAlphanum.1
  rw [heq, signs_value h.isAlphanum.2] at hb
  exact hne (Option.some.inj hb).symm

theorem OfOneKind.length_numeralOf (h : OfOneKind b c) :
    (numeralOf c).length = (numeralOf b).length := by
  rw [Identifier.length_numeralOf h.isAlphanum.1, Identifier.length_numeralOf h.isAlphanum.2]
  rcases h with ⟨hb, hc⟩ | ⟨hb, hc⟩
  · rw [if_pos (value_lt_of_isDigit hb), if_pos (value_lt_of_isDigit hc)]
  · rw [if_neg (Nat.not_lt.mpr (le_value_of_isAlpha hb)), if_neg (Nat.not_lt.mpr (le_value_of_isAlpha hc))]

theorem map_digit_writtenOut (h : ∀ b ∈ t, Byte.isAlphanum b = true) :
    (writtenOut t).map Byte.digit = t.flatMap expand := by
  rw [writtenOut, List.map_flatMap]
  exact List.flatMap_congr fun b hb => map_digit_numeralOf (h b hb)

end Identifier

end Screening
