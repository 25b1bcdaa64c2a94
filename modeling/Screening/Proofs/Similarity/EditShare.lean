import Mathlib.Algebra.Order.Floor.Semiring
import Mathlib.Data.Rat.Floor
import Screening.Proofs.Scalar.Exact
import Screening.Proofs.Similarity.EditDistance

namespace Screening.Similarity

section Length

variable {n : Nat} {s t : Text}

theorem Edit.length_le (h : Edit s t) : t.length ≤ s.length + 1 := by
  cases h <;> simp <;> omega

theorem Edits.length_le (h : Edits n s t) : t.length ≤ s.length + n := by
  induction h with
  | none s => exact Nat.le_refl _
  | more edit _ ih =>
    have := edit.length_le
    omega

theorem edits_levenshtein (s t : Text) : Edits (levenshtein s t) s t := by
  rw [levenshtein_eq_distance]
  exact edits_distance s t

theorem levenshtein_le (h : Edits n s t) : levenshtein s t ≤ n := by
  rw [levenshtein_eq_distance]
  exact distance_le_of_edits h

theorem levenshtein_comm (s t : Text) : levenshtein t s = levenshtein s t :=
  Nat.le_antisymm (levenshtein_le (edits_levenshtein s t).symm)
    (levenshtein_le (edits_levenshtein t s).symm)

theorem eq_of_levenshtein (h : levenshtein s t = 0) : s = t := by
  have hedits := edits_levenshtein s t
  rw [h] at hedits
  exact hedits.eq_of_zero

theorem length_gap_le (s t : Text) : max s.length t.length - min s.length t.length ≤ levenshtein s t := by
  have hs := (edits_levenshtein s t).length_le
  have ht := (edits_levenshtein s t).symm.length_le
  omega

theorem editBudget_comm (s t : Text) : editBudget t s = editBudget s t := by
  rw [editBudget, editBudget, Nat.min_comm]

theorem editBudget_eq_ceil (s t : Text) :
    editBudget s t = ⌈((min s.length t.length : Nat) : ℚ) / 5⌉₊ := by
  refine eq_of_forall_ge_iff fun k => ?_
  rw [Nat.ceil_le, div_le_iff₀ (by norm_num)]
  norm_cast
  rw [editBudget]
  omega

end Length

section Share

variable {α : Type} [Scalar α] {s t : Text} {k : Nat}

theorem editSimilarity_eq (s t : Text) (k : Nat) : (editSimilarity s t k : α) =
    if s = [] ∨ t = [] then 0
    else if s = t then 1
    else if levenshtein s t ≤ min k (editBudget s t) then
      1 - Scalar.share (levenshtein s t) (max s.length t.length)
    else 0 := by
  have hgap := length_gap_le s t
  unfold editSimilarity
  simp only [Bool.or_eq_true, List.isEmpty_iff]
  split
  next => rfl
  next =>
    split
    next => rfl
    next =>
      by_cases hle : levenshtein s t ≤ min k (editBudget s t)
      · rw [if_pos hle, if_neg (Nat.not_lt.mpr (Nat.le_trans hgap hle)), if_neg (Nat.not_lt.mpr hle)]
      · rw [if_neg hle, if_pos (Nat.lt_of_not_le hle), ite_self]

theorem editSimilarity_comm (s t : Text) (k : Nat) :
    (editSimilarity t s k : α) = editSimilarity s t k := by
  rw [editSimilarity_eq, editSimilarity_eq, levenshtein_comm, editBudget_comm, Nat.max_comm]
  simp only [or_comm (a := t = []), eq_comm (a := t) (b := s)]

theorem editSimilarity_self (h : s ≠ []) (k : Nat) : (editSimilarity s s k : α) = 1 := by
  simp [editSimilarity_eq, h]

end Share

section Exact

variable {K : Type} [ExactScalar K] {s t : Text} {k : Nat}

/-- Edits within the budget are at most half of the longer text, unless they are all of it. -/
theorem edits_half {a b d : Nat} (hab : a ≤ b) (hd : d ≤ (a + 4) / 5) : d = b ∨ 2 * d ≤ b := by
  omega

/-- What different texts are worth: nothing, or one half at least, but never 1. -/
theorem editSimilarity_of_ne (h : s ≠ t) (k : Nat) : (editSimilarity s t k : K) = 0 ∨
    1 / 2 ≤ (editSimilarity s t k : K) ∧ (editSimilarity s t k : K) < 1 := by
  rw [editSimilarity_eq, if_neg h]
  split
  next => exact .inl rfl
  next hempty =>
    split
    next hle =>
      have hs : 0 < s.length := List.length_pos_iff.mpr fun hs => hempty (.inl hs)
      have ht : 0 < t.length := List.length_pos_iff.mpr fun ht => hempty (.inr ht)
      have hpos : 0 < levenshtein s t := Nat.pos_of_ne_zero fun hzero => h (eq_of_levenshtein hzero)
      have hlonger : (0 : K) < (max s.length t.length : Nat) := Nat.cast_pos.mpr (by omega)
      have hedits : (0 : K) < levenshtein s t := Nat.cast_pos.mpr hpos
      have hhalf := edits_half (min_le_max (a := s.length) (b := t.length))
        (Nat.le_trans hle (Nat.min_le_right _ _))
      rw [Scalar.share]
      rcases hhalf with hall | hhalf
      · rw [hall, div_self hlonger.ne', sub_self]
        exact .inl rfl
      · have htwice : 2 * (levenshtein s t : K) ≤ (max s.length t.length : Nat) := by
          exact_mod_cast hhalf
        have hle : (levenshtein s t : K) / (max s.length t.length : Nat) ≤ 1 / 2 := by
          rw [div_le_iff₀ hlonger]
          linarith
        have hlt : 0 < (levenshtein s t : K) / (max s.length t.length : Nat) :=
          div_pos hedits hlonger
        exact .inr ⟨by linarith, by linarith⟩
    next => exact .inl rfl

theorem fraction_editSimilarity (s t : Text) (k : Nat) :
    Scalar.Fraction (editSimilarity s t k : K) := by
  by_cases h : s = t
  · subst h
    by_cases hs : s = []
    · simp [editSimilarity_eq, hs, Scalar.fraction_zero]
    · rw [editSimilarity_self hs]
      exact Scalar.fraction_one
  · rcases editSimilarity_of_ne (K := K) h k with hzero | ⟨hhalf, hone⟩
    · rw [hzero]
      exact Scalar.fraction_zero
    · exact ⟨le_trans (by norm_num) hhalf, hone.le⟩

theorem editSimilarity_eq_one_iff : (editSimilarity s t k : K) = 1 ↔ s = t ∧ s ≠ [] := by
  constructor
  · intro hone
    have heq : s = t := by
      by_contra h
      rcases editSimilarity_of_ne (K := K) h k with hzero | ⟨_, hlt⟩
      · exact zero_ne_one (hzero.symm.trans hone)
      · exact hlt.ne hone
    refine ⟨heq, fun hs => ?_⟩
    rw [editSimilarity_eq, if_pos (.inl hs)] at hone
    exact zero_ne_one hone
  · rintro ⟨rfl, hs⟩
    exact editSimilarity_self hs k

theorem editSimilarity_mono (s t : Text) : Monotone fun k => (editSimilarity s t k : K) := by
  intro k l hkl
  dsimp only
  by_cases hwithin : levenshtein s t ≤ min k (editBudget s t)
  · have hlater : levenshtein s t ≤ min l (editBudget s t) := by omega
    rw [editSimilarity_eq s t k, editSimilarity_eq s t l, if_pos hwithin, if_pos hlater]
  · rw [editSimilarity_eq s t k, if_neg hwithin]
    split
    next hempty => rw [editSimilarity_eq, if_pos hempty]
    next hempty =>
      split
      next heq => rw [editSimilarity_eq, if_neg hempty, if_pos heq]
      next => exact (fraction_editSimilarity s t l).1

end Exact

/-- The edit similarity of two texts by their least number of edits: nothing for an empty text or
beyond the edits granted, whose number is one for each five bytes of the shorter text, rounded up. It
is the same in both directions, grows with the edits allowed, is 1 for equal texts alone, and for
others nothing or one half at least. -/
theorem editSimilarity_by_distance (K : Type) [ExactScalar K] (s t : Text) :
    (∃ d, IsLeast {n | Edits n s t} d ∧ ∀ k, (editSimilarity s t k : K) =
      if s = [] ∨ t = [] then 0
      else if s = t then 1
      else if d ≤ min k ⌈((min s.length t.length : Nat) : ℚ) / 5⌉₊ then
        1 - (d : K) / (max s.length t.length : Nat)
      else 0) ∧
      (∀ k, (editSimilarity t s k : K) = editSimilarity s t k) ∧
      (Monotone fun k => (editSimilarity s t k : K)) ∧
      (∀ k, (editSimilarity s t k : K) = 1 ↔ s = t ∧ s ≠ []) ∧
      ∀ k, s = t ∨ (editSimilarity s t k : K) = 0 ∨
        1 / 2 ≤ (editSimilarity s t k : K) ∧ (editSimilarity s t k : K) < 1 := by
  refine ⟨⟨levenshtein s t, ⟨edits_levenshtein s t, fun n hn => levenshtein_le hn⟩, fun k => ?_⟩,
    editSimilarity_comm s t, editSimilarity_mono s t, fun k => editSimilarity_eq_one_iff,
    fun k => or_iff_not_imp_left.mpr fun h => editSimilarity_of_ne h k⟩
  rw [← editBudget_eq_ceil]
  exact editSimilarity_eq s t k

/-- One half is reached, and a lone byte is not like another one at all. -/
example : (editSimilarity (Text.of "ab") (Text.of "ac") usualEdits : ℚ) = 1 / 2 ∧
    (editSimilarity (Text.of "a") (Text.of "b") usualEdits : ℚ) = 0 := by decide +kernel

end Screening.Similarity
