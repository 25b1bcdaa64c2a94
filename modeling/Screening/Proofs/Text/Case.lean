import Screening.Proofs.Text.Trim
import Screening.Proofs.Text.Words

namespace Screening

namespace Byte

/-- What the classes of bytes and the case maps have to do with each other, checked on each byte. -/
theorem case_table : ∀ i : Fin 256, let b := UInt8.ofFin i
    isDigit (toUpper b) = isDigit b ∧ isAlpha (toUpper b) = isAlpha b ∧ toUpper (toUpper b) = toUpper b ∧
      isAlpha (toLower b) = isAlpha b ∧ isDigit (toLower b) = isDigit b ∧
        isWhitespace (toLower b) = isWhitespace b ∧ (isDigit b = true → toUpper b = b) := by
  decide +kernel

@[simp] theorem isDigit_toUpper (b : UInt8) : isDigit (toUpper b) = isDigit b := (case_table b.toFin).1

@[simp] theorem isAlpha_toUpper (b : UInt8) : isAlpha (toUpper b) = isAlpha b := (case_table b.toFin).2.1

@[simp] theorem isAlphanum_toUpper (b : UInt8) : isAlphanum (toUpper b) = isAlphanum b := by
  rw [isAlphanum, isAlphanum, isAlpha_toUpper, isDigit_toUpper]

@[simp] theorem toUpper_toUpper (b : UInt8) : toUpper (toUpper b) = toUpper b :=
  (case_table b.toFin).2.2.1

@[simp] theorem isAlpha_toLower (b : UInt8) : isAlpha (toLower b) = isAlpha b :=
  (case_table b.toFin).2.2.2.1

@[simp] theorem isDigit_toLower (b : UInt8) : isDigit (toLower b) = isDigit b :=
  (case_table b.toFin).2.2.2.2.1

@[simp] theorem isAlphanum_toLower (b : UInt8) : isAlphanum (toLower b) = isAlphanum b := by
  rw [isAlphanum, isAlphanum, isAlpha_toLower, isDigit_toLower]

@[simp] theorem isWhitespace_toLower (b : UInt8) : isWhitespace (toLower b) = isWhitespace b :=
  (case_table b.toFin).2.2.2.2.2.1

theorem toUpper_of_isDigit {b : UInt8} (h : isDigit b = true) : toUpper b = b :=
  (case_table b.toFin).2.2.2.2.2.2 h

theorem isAlphanum_of_isDigit {b : UInt8} (h : isDigit b = true) : isAlphanum b = true := by
  rw [isAlphanum, h, Bool.or_true]

theorem isAlphanum_of_isAlpha {b : UInt8} (h : isAlpha b = true) : isAlphanum b = true := by
  rw [isAlphanum, h, Bool.true_or]

theorem isWhitespace_of_isAlphanum {b : UInt8} (h : isAlphanum b = true) : isWhitespace b = false :=
  Text.not_isWhitespace_of_isWord (by rw [isWord, h, Bool.or_true])

theorem isWhitespace_of_isAlpha {b : UInt8} (h : isAlpha b = true) : isWhitespace b = false :=
  isWhitespace_of_isAlphanum (isAlphanum_of_isAlpha h)

end Byte

namespace Text

variable {t code : Text}

theorem lower_append (s t : Text) : lower (s ++ t) = lower s ++ lower t := List.map_append

@[simp] theorem length_lower (t : Text) : (lower t).length = t.length := List.length_map ..

theorem forall_lower {p : UInt8 → Bool} (hp : ∀ b, p (Byte.toLower b) = p b) :
    (∀ b ∈ lower t, p b = true) ↔ ∀ b ∈ t, p b = true := by
  simp only [lower, List.forall_mem_map, hp]

/-- A text is a code in any letter case, with any whitespace around it. -/
def Writes (t code : Text) : Prop :=
  ∃ before inner after, t = before ++ (inner ++ after) ∧
    (∀ b ∈ before, Byte.isWhitespace b = true) ∧ (∀ b ∈ after, Byte.isWhitespace b = true) ∧
      lower inner = lower code

theorem writes_self (t : Text) : Writes t t :=
  ⟨[], t, [], by rw [List.append_nil, List.nil_append], List.forall_mem_nil _, List.forall_mem_nil _, rfl⟩

theorem Writes.lower_trim (h : Writes t code)
    (hcode : ∀ b ∈ code, Byte.isWhitespace b = false) : lower (trim t) = lower code := by
  obtain ⟨before, inner, after, rfl, hbefore, hafter, hsame⟩ := h
  have hinner : ∀ b ∈ inner, Byte.isWhitespace b = false := by
    have hlower : ∀ b ∈ lower inner, Byte.isWhitespace b = false := by
      rw [hsame]
      simpa [lower] using hcode
    simpa [lower] using hlower
  rw [trim_word hbefore hinner hafter, hsame]

end Text

end Screening
