import Mathlib.Algebra.Group.Nat.Defs
import Screening.Proofs.Scalar.Order

namespace Screening

namespace Scalar

variable {α : Type} [Scalar α]

/-- The numbers that are at most `2 ^ k` away from zero. -/
def Within (k : Nat) (a : α) : Prop := -((2 ^ k : Nat) : α) ≤ a ∧ a ≤ ((2 ^ k : Nat) : α)

/-- All that scores need to know of the exponential function. -/
def ExpNonneg (α : Type) [Scalar α] : Prop := ∀ a : α, IsNumber a → 0 ≤ exp a

end Scalar

open Scalar in
/-- What exact numbers and machine floats have in common beside their order. -/
class LawfulScalar (α : Type) [Scalar α] : Prop extends OrderedScalar α where
  fraction_complement {a : α} : Fraction a → Fraction (1 - a)
  fraction_mul {a b : α} : Fraction a → Fraction b → Fraction (a * b)
  share_number (part : Nat) {whole : Nat} : whole ≠ 0 → IsNumber (share part whole : α)
  within_natCast {n k : Nat} : n ≤ 2 ^ k → k ≤ 60 → Within k (n : α)
  within_fraction {a : α} : Fraction a → Within 0 a
  within_mono {j k : Nat} {a : α} : j ≤ k → k ≤ 60 → Within j a → Within k a
  within_add {k : Nat} {a b : α} : k < 60 → Within k a → Within k b → Within (k + 1) (a + b)
  within_sub {k : Nat} {a b : α} : k < 60 → Within k a → Within k b → Within (k + 1) (a - b)
  within_mul {j k : Nat} {a b : α} : j + k ≤ 60 → Within j a → Within k b → Within (j + k) (a * b)
  within_neg {k : Nat} {a : α} : k ≤ 60 → Within k a → Within k (-a)
  within_decimal {m e k : Nat} : m ≤ 100 → e ≤ 2 → k ≤ 60 → m ≤ 2 ^ k * 10 ^ e →
    Within k (OfScientific.ofScientific m true e : α)
  within_mean {as : List α} : as ≠ [] → (∀ a ∈ as, Fraction a) →
    Within 54 (as.foldl (fun sum a => sum + a) 0 / (as.length : α))
  fraction_inverse {a : α} : 0 ≤ a → Fraction (1 / (1 + a))

namespace Scalar

variable {α : Type} [Scalar α] [LawfulScalar α] {a b : α} {k : Nat}

theorem Within.isNumber (h : Within k a) : IsNumber a := OrderedScalar.left_number h.2

theorem within_literal {m e : Nat} (h : (m ≤ 100 && e ≤ 2 && k ≤ 60 && m ≤ 2 ^ k * 10 ^ e) = true) :
    Within k (OfScientific.ofScientific m true e : α) := by
  simp only [Bool.and_eq_true, decide_eq_true_eq] at h
  exact LawfulScalar.within_decimal h.1.1.1 h.1.1.2 h.1.2 h.2

theorem within_one : Within 0 (1 : α) := LawfulScalar.within_fraction fraction_one

theorem Fraction.within (h : Fraction a) (hk : k ≤ 60) : Within k a :=
  LawfulScalar.within_mono (Nat.zero_le k) hk (LawfulScalar.within_fraction h)

end Scalar

end Screening
