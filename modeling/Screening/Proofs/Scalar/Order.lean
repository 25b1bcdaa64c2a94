import Screening.Scalar

namespace Screening

namespace Scalar

variable {α : Type} [Scalar α]

/-- Whether something is a number, and so is in order with all numbers. -/
def IsNumber (a : α) : Prop := a ≤ a

/-- Whether two numbers are the same to the order; they need not be equal. -/
def Ties (a b : α) : Prop := a ≤ b ∧ b ≤ a

/-- The unit interval. -/
def Fraction (a : α) : Prop := 0 ≤ a ∧ a ≤ 1

instance (a b : α) : Decidable (Ties a b) := inferInstanceAs (Decidable (a ≤ b ∧ b ≤ a))

instance (a : α) : Decidable (Fraction a) := inferInstanceAs (Decidable (0 ≤ a ∧ a ≤ 1))

end Scalar

/-- Order laws that exact numbers and machine floats have in common. -/
class OrderedScalar (α : Type) [Scalar α] : Prop where
  le_trans {a b c : α} : a ≤ b → b ≤ c → a ≤ c
  left_number {a b : α} : a ≤ b → Scalar.IsNumber a
  right_number {a b : α} : a ≤ b → Scalar.IsNumber b
  le_total {a b : α} : Scalar.IsNumber a → Scalar.IsNumber b → a ≤ b ∨ b ≤ a
  lt_iff {a b : α} : a < b ↔ a ≤ b ∧ ¬ b ≤ a
  zero_lt_one : (0 : α) < 1

/-- Above zero, numbers that are the same to the order are equal. Below, the two zeros of machine
floats are not. -/
class AntisymmScalar (α : Type) [Scalar α] : Prop extends OrderedScalar α where
  eq_of_ties {a b : α} : 0 < a → Scalar.Ties a b → a = b

namespace Scalar

variable {α : Type} [Scalar α] [OrderedScalar α] {a b c : α}

theorem le_trans (h : a ≤ b) (k : b ≤ c) : a ≤ c := OrderedScalar.le_trans h k

theorem le_of_lt (h : a < b) : a ≤ b := (OrderedScalar.lt_iff.mp h).1

theorem not_le_of_lt (h : a < b) : ¬ b ≤ a := (OrderedScalar.lt_iff.mp h).2

theorem lt_of_not_le (ha : IsNumber a) (hb : IsNumber b) (h : ¬ b ≤ a) : a < b :=
  OrderedScalar.lt_iff.mpr ⟨(OrderedScalar.le_total ha hb).resolve_right h, h⟩

theorem le_of_not_lt (ha : IsNumber a) (hb : IsNumber b) (h : ¬ a < b) : b ≤ a :=
  Decidable.byContradiction fun hba => h (lt_of_not_le ha hb hba)

theorem lt_of_le_of_lt (h : a ≤ b) (k : b < c) : a < c :=
  OrderedScalar.lt_iff.mpr ⟨le_trans h (le_of_lt k), fun hca => not_le_of_lt k (le_trans hca h)⟩

theorem lt_of_lt_of_le (h : a < b) (k : b ≤ c) : a < c :=
  OrderedScalar.lt_iff.mpr ⟨le_trans (le_of_lt h) k, fun hca => not_le_of_lt h (le_trans k hca)⟩

theorem lt_trans (h : a < b) (k : b < c) : a < c := lt_of_lt_of_le h (le_of_lt k)

theorem not_lt_self (a : α) : ¬ a < a := fun h => not_le_of_lt h (le_of_lt h)

theorem ne_zero_of_pos (h : 0 < a) : a ≠ 0 := fun hzero => not_lt_self 0 (hzero ▸ h)

theorem lt_or_ties_or_gt (ha : IsNumber a) (hb : IsNumber b) : a < b ∨ Ties a b ∨ b < a := by
  by_cases hab : a ≤ b
  · by_cases hba : b ≤ a
    · exact .inr (.inl ⟨hab, hba⟩)
    · exact .inl (lt_of_not_le ha hb hba)
  · exact .inr (.inr (lt_of_not_le hb ha hab))

omit [OrderedScalar α] in
theorem Ties.symm (h : Ties a b) : Ties b a := ⟨h.2, h.1⟩

theorem Ties.trans (h : Ties a b) (k : Ties b c) : Ties a c := ⟨le_trans h.1 k.1, le_trans k.2 h.2⟩

theorem Ties.not_lt (h : Ties a b) : ¬ a < b := fun hlt => not_le_of_lt hlt h.2

theorem zero_lt_one : (0 : α) < 1 := OrderedScalar.zero_lt_one

theorem number_zero : IsNumber (0 : α) :=
  OrderedScalar.left_number (le_of_lt zero_lt_one)

theorem number_one : IsNumber (1 : α) :=
  OrderedScalar.right_number (le_of_lt zero_lt_one)

theorem zero_le_one : (0 : α) ≤ 1 := le_of_lt zero_lt_one

theorem descending_pairwise {β : Type} {key : β → α} {items : List β} {given : β → β → Prop}
    (numbers : ∀ p ∈ items, IsNumber (key p)) (h : items.Pairwise given) :
    (descending key items).Pairwise fun p r => key r < key p ∨ Ties (key p) (key r) ∧ given p r := by
  have sorted : (descending key items).Pairwise fun p r =>
      !decide (key p < key r) ∧ (!decide (key r < key p) → given p r) := by
    apply Sorting.pairwise_sort ?_ ?_ h
    · intro p hp r hr t ht hpr hrt
      simp only [Bool.not_eq_true', decide_eq_false_iff_not] at *
      have hrp := le_of_not_lt (numbers p hp) (numbers r hr) hpr
      exact fun hpt => hrt (lt_of_le_of_lt hrp hpt)
    · intro p _ r _
      simp only [Bool.not_eq_true', decide_eq_false_iff_not]
      by_cases hpr : key p < key r
      · exact .inr fun hrp => not_lt_self _ (lt_trans hpr hrp)
      · exact .inl hpr
  apply sorted.imp_of_mem
  intro p r hp hr h
  have hp := numbers p ((Sorting.mem_sort _).mp hp)
  have hr := numbers r ((Sorting.mem_sort _).mp hr)
  simp only [Bool.not_eq_true', decide_eq_false_iff_not] at h
  rcases lt_or_ties_or_gt hp hr with hlt | hties | hgt
  · exact absurd hlt h.1
  · exact .inr ⟨hties, h.2 hties.symm.not_lt⟩
  · exact .inl hgt

theorem Fraction.isNumber (h : Fraction a) : IsNumber a := OrderedScalar.left_number h.2

theorem fraction_zero : Fraction (0 : α) := ⟨number_zero, zero_le_one⟩

theorem fraction_one : Fraction (1 : α) := ⟨zero_le_one, number_one⟩

omit [OrderedScalar α] in
theorem fraction_max (ha : Fraction a) (hb : Fraction b) : Fraction (max a b) := by
  unfold max
  split
  next => exact hb
  next => exact ha

theorem fraction_clamp (ha : IsNumber a) : Fraction (clamp a) := by
  unfold clamp
  split
  next => exact ⟨number_zero, zero_le_one⟩
  next hneg =>
    split
    next => exact ⟨zero_le_one, number_one⟩
    next hbig => exact ⟨le_of_not_lt ha number_zero hneg, le_of_not_lt number_one ha hbig⟩

theorem clamp_of_mem (h : 0 ≤ a) (k : a ≤ 1) : clamp a = a := by
  unfold clamp
  rw [if_neg fun hneg => not_le_of_lt hneg h, if_neg fun hbig => not_le_of_lt hbig k]

theorem clamp_mono (h : a ≤ b) : clamp a ≤ clamp b := by
  have ha := OrderedScalar.left_number h
  have hb := OrderedScalar.right_number h
  by_cases hneg : a < 0
  · have hzero : clamp a = 0 := if_pos hneg
    rw [hzero]
    exact (fraction_clamp hb).1
  · by_cases hbig : 1 < b
    · have hone : clamp b = 1 := by
        unfold clamp
        rw [if_neg fun hb => not_lt_self _ (lt_trans zero_lt_one (lt_trans hbig hb)), if_pos hbig]
      rw [hone]
      exact (fraction_clamp ha).2
    · have hzero := le_of_not_lt ha number_zero hneg
      have hone := le_of_not_lt number_one hb hbig
      rw [clamp_of_mem hzero (le_trans h hone), clamp_of_mem (le_trans hzero h) hone]
      exact h

theorem clamp_zero : clamp (0 : α) = 0 := clamp_of_mem number_zero zero_le_one

theorem clamp_one : clamp (1 : α) = 1 := clamp_of_mem zero_le_one number_one

theorem Ties.clamp (h : Ties a b) : Ties (clamp a) (clamp b) := ⟨clamp_mono h.1, clamp_mono h.2⟩

theorem clamp_le_one_of_pos (h : 0 < clamp a) : clamp a ≤ 1 := by
  have hnumber := OrderedScalar.right_number (le_of_lt h)
  revert h hnumber
  unfold clamp
  split
  next => exact fun h => absurd h (not_lt_self 0)
  next =>
    split
    next => exact fun _ _ => number_one
    next hbig => exact fun _ ha => le_of_not_lt number_one ha hbig

end Scalar

end Screening
