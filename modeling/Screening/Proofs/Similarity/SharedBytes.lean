import Screening.Proofs.Scalar.Exact
import Screening.Proofs.Similarity.Jaro

namespace Screening.Similarity

def sharedMarks (s t : Text) : List Bool × List Bool :=
  claims (window s t) t 0 s (List.replicate t.length false)

/-- The first marked position from `k` on, unless the marks end before one is reached. -/
def nextMark (marks : List Bool) (k : Nat) : Option Nat :=
  if h : k < marks.length then
    if marks[k] then some k else nextMark marks (k + 1)
  else none
termination_by marks.length - k

/-- Holds each marked byte of a text against the next marked byte of `t` from position `k` on, and
counts those that differ. There is no count if `t` or its marks end too early. -/
def scan (t : Text) (marks : List Bool) : (k : Nat) → Text → List Bool → Option Nat
  | k, a :: s, mark :: rest =>
    if mark then do
      let j ← nextMark marks k
      let b ← t[j]?
      let n ← scan t marks (j + 1) s rest
      return n + if a = b then 0 else 1
    else scan t marks k s rest
  | _, _, _ => some 0

section Scan

variable {t : Text} {marks : List Bool} {k : Nat}

@[simp] theorem marked_cons (b : UInt8) (t : Text) (mark : Bool) (marks : List Bool) :
    marked (b :: t) (mark :: marks) = if mark then b :: marked t marks else marked t marks := by
  cases mark <;> rfl

theorem marked_sublist (t : Text) (marks : List Bool) : (marked t marks).Sublist t := by
  induction t generalizing marks with
  | nil => simp [marked]
  | cons b t ih =>
    cases marks with
    | nil => simp [marked]
    | cons mark marks =>
      rw [marked_cons]
      split
      · exact (ih marks).cons_cons b
      · exact (ih marks).cons b

theorem commonLength_le (s t : Text) : commonLength s t ≤ s.length := by
  induction s generalizing t with
  | nil => simp [commonLength]
  | cons a s ih =>
    cases t with
    | nil => simp [commonLength]
    | cons b t =>
      rw [commonLength]
      split
      · exact Nat.succ_le_succ (ih t)
      · exact Nat.zero_le _

theorem transpositions_le (m n : Text) : transpositions m n ≤ m.length := by
  have h := List.countP_le_length (p := fun p : UInt8 × UInt8 => p.1 != p.2) (l := m.zip n)
  rw [List.length_zip] at h
  exact Nat.le_trans h (Nat.min_le_left _ _)

theorem transpositions_cons (a b : UInt8) (m n : Text) :
    transpositions (a :: m) (b :: n) = transpositions m n + if a = b then 0 else 1 := by
  by_cases h : a = b <;> simp [transpositions, h]

theorem eq_of_transpositions {m n : Text} (hlength : m.length = n.length)
    (h : transpositions m n = 0) : m = n := by
  induction m generalizing n with
  | nil => exact (List.length_eq_zero_iff.mp hlength.symm).symm
  | cons a m ih =>
    obtain ⟨b, n, rfl⟩ := List.exists_cons_of_length_eq_add_one hlength.symm
    rw [transpositions_cons] at h
    have hab : a = b := by
      by_contra hne
      rw [if_neg hne] at h
      omega
    rw [hab, ih (Nat.succ.inj hlength) (by omega)]

theorem nextMark_of_marked {b : UInt8} {others : Text} (hlength : marks.length = t.length)
    (h : marked (t.drop k) (marks.drop k) = b :: others) :
    ∃ j, nextMark marks k = some j ∧ t[j]? = some b ∧
      marked (t.drop (j + 1)) (marks.drop (j + 1)) = others := by
  fun_induction nextMark marks k with
  | case1 k hk hmark =>
    have ht : k < t.length := hlength ▸ hk
    rw [List.drop_eq_getElem_cons hk, List.drop_eq_getElem_cons ht, marked_cons, if_pos hmark] at h
    obtain ⟨hb, hothers⟩ := List.cons.inj h
    exact ⟨k, rfl, by rw [List.getElem?_eq_getElem ht, hb], hothers⟩
  | case2 k hk hmark ih =>
    have ht : k < t.length := hlength ▸ hk
    rw [List.drop_eq_getElem_cons hk, List.drop_eq_getElem_cons ht, marked_cons, if_neg hmark] at h
    exact ih h
  | case3 k hk =>
    rw [List.drop_of_length_le (Nat.not_lt.mp hk)] at h
    simp [marked] at h

/-- The scan finds a partner for each marked byte as long as there are as many of them ahead in the
other text. -/
theorem scan_eq (hlength : marks.length = t.length) (s : Text) (rest : List Bool)
    (h : (marked s rest).length ≤ (marked (t.drop k) (marks.drop k)).length) :
    scan t marks k s rest =
      some (transpositions (marked s rest) (marked (t.drop k) (marks.drop k))) := by
  induction s generalizing k rest with
  | nil => rfl
  | cons a s ih =>
    cases rest with
    | nil => rfl
    | cons mark rest =>
      rw [scan]
      cases mark with
      | false => exact ih rest h
      | true =>
        rw [marked_cons, if_pos rfl] at h ⊢
        obtain ⟨b, others, hahead⟩ := List.exists_cons_of_length_pos (Nat.lt_of_lt_of_le
          (Nat.succ_pos _) h)
        obtain ⟨j, hj, hb, rfl⟩ := nextMark_of_marked hlength hahead
        rw [hahead] at h ⊢
        have hrest := ih rest (Nat.le_of_succ_le_succ h)
        simp [hj, hb, hrest, transpositions_cons]

end Scan

section Shares

variable (s t : Text)

theorem sharedBytes_eq :
    sharedBytes s t = (marked s (sharedMarks s t).1, marked t (sharedMarks s t).2) := rfl

theorem length_sharedMarks :
    (sharedMarks s t).1.length = s.length ∧ (sharedMarks s t).2.length = t.length := by
  obtain ⟨hs, ht⟩ := claims_marks s rfl (Nat.zero_le _) (markedBefore_start (window s t) s t)
  exact ⟨hs.length.trans (Nat.sub_zero _), ht.length⟩

theorem count_sharedMarks : (sharedMarks s t).1.count true = (sharedBytes s t).1.length ∧
    (sharedMarks s t).2.count true = (sharedBytes s t).1.length := by
  obtain ⟨hs, ht⟩ := length_sharedMarks s t
  refine ⟨(length_marked hs).symm, ?_⟩
  rw [← length_sharedBytes, sharedBytes_eq, length_marked ht]

variable {s t} {K : Type} [ExactScalar K]

theorem eq_of_natCast_div {m n : Nat} (h : (m : K) / (n : K) = 1) : m = n := by
  have hn : (n : K) ≠ 0 := by
    intro hzero
    rw [hzero, div_zero] at h
    exact zero_ne_one h
  exact Nat.cast_injective ((div_eq_one_iff_eq hn).mp h)

/-- The share of bytes in order, where `n` of `m` differ, is complete if none does. -/
theorem inOrder_share {m n : Nat} (hm : 0 < m) (h : n ≤ m) :
    0 ≤ ((m : K) - Scalar.share n 2) / (m : K) ∧ ((m : K) - Scalar.share n 2) / (m : K) ≤ 1 ∧
      (((m : K) - Scalar.share n 2) / (m : K) = 1 → n = 0) := by
  have hpos : (0 : K) < m := Nat.cast_pos.mpr hm
  have hle : (n : K) ≤ m := Nat.cast_le.mpr h
  have hn : (0 : K) ≤ n := Nat.cast_nonneg n
  have hshare : (Scalar.share n 2 : K) = n / 2 := by simp [Scalar.share]
  rw [hshare]
  refine ⟨div_nonneg (by linarith) hpos.le, (div_le_one hpos).mpr (by linarith), fun hone => ?_⟩
  rw [div_eq_one_iff_eq hpos.ne'] at hone
  exact Nat.cast_eq_zero.mp (show (n : K) = 0 by linarith)

theorem mean_lt_one {a b c : K} (ha : 0 ≤ a ∧ a ≤ 1) (hb : 0 ≤ b ∧ b ≤ 1) (hc : 0 ≤ c ∧ c ≤ 1)
    (h : ¬ (a = 1 ∧ b = 1 ∧ c = 1)) :
    0 ≤ (a + b + c) / (3 : Nat) ∧ (a + b + c) / (3 : Nat) < 1 := by
  obtain ⟨ha₀, ha₁⟩ := ha
  obtain ⟨hb₀, hb₁⟩ := hb
  obtain ⟨hc₀, hc₁⟩ := hc
  have hthree : (0 : K) < (3 : Nat) := Nat.cast_pos.mpr (by decide)
  refine ⟨div_nonneg (by linarith) hthree.le, (div_lt_one hthree).mpr ?_⟩
  push_cast
  by_contra hge
  rw [not_lt] at hge
  exact h ⟨by linarith, by linarith, by linarith⟩

theorem jaro_of_ne (h : s ≠ t) : 0 ≤ (jaro s t : K) ∧ (jaro s t : K) < 1 := by
  unfold jaro
  simp only [if_neg h]
  split
  next hempty =>
    simp only [Bool.and_eq_true, List.isEmpty_iff] at hempty
    exact absurd (hempty.1.trans hempty.2.symm) h
  next =>
    split
    next => exact ⟨le_refl 0, zero_lt_one⟩
    next =>
      split
      next => exact ⟨le_refl 0, zero_lt_one⟩
      next hshared =>
        have hpos : 0 < (sharedBytes s t).1.length :=
          List.length_pos_iff.mpr fun hnil => hshared (List.isEmpty_iff.mpr hnil)
        have hs : (sharedBytes s t).1.Sublist s := marked_sublist _ _
        have ht : (sharedBytes s t).2.Sublist t := marked_sublist _ _
        have hlength := length_sharedBytes s t
        obtain ⟨horder₀, horder₁, horder⟩ := inOrder_share (K := K) hpos
          (transpositions_le (sharedBytes s t).1 (sharedBytes s t).2)
        refine mean_lt_one (ExactScalar.fraction_share hs.length_le)
          (ExactScalar.fraction_share (hlength ▸ ht.length_le)) ⟨horder₀, horder₁⟩ fun hall => h ?_
        calc s = (sharedBytes s t).1 := (hs.eq_of_length (eq_of_natCast_div hall.1)).symm
          _ = (sharedBytes s t).2 := eq_of_transpositions hlength.symm (horder hall.2.2)
          _ = t := ht.eq_of_length (hlength.trans (eq_of_natCast_div hall.2.1))

theorem jaro_self (s : Text) : (jaro s s : K) = 1 := by
  by_cases h : s = [] <;> simp [jaro, h]

theorem fraction_jaro (s t : Text) : Scalar.Fraction (jaro s t : K) := by
  by_cases h : s = t
  · rw [h, jaro_self]
    exact Scalar.fraction_one
  · exact ⟨(jaro_of_ne h).1, (jaro_of_ne h).2.le⟩

theorem jaro_gap (s t : Text) : 0 ≤ 1 - (jaro s t : K) := sub_nonneg.mpr (fraction_jaro s t).2

theorem jaro_eq_one_iff : (jaro s t : K) = 1 ↔ s = t := by
  constructor
  · intro hone
    by_contra h
    exact absurd hone (jaro_of_ne h).2.ne
  · rintro rfl
    exact jaro_self s

/-- A common beginning closes a part of the gap to 1. -/
theorem jaroWinkler_eq (s t : Text) :
    ∃ gain : K, 0 ≤ gain ∧ gain < 1 ∧ jaroWinkler s t = jaro s t + gain * (1 - jaro s t) := by
  unfold jaroWinkler
  dsimp only
  split
  next => exact ⟨0, le_refl 0, zero_lt_one, by rw [zero_mul, add_zero]⟩
  next =>
    have hcommon : commonLength (s.take 4) (t.take 4) ≤ 4 :=
      Nat.le_trans (commonLength_le _ _) (List.length_take_le 4 s)
    have htenths : (commonLength (s.take 4) (t.take 4) : K) ≤ 4 := by exact_mod_cast hcommon
    have htenth : (0.1 : K) = 1 / 10 := by norm_num
    have hnonneg : (0 : K) ≤ 0.1 * (commonLength (s.take 4) (t.take 4) : K) := by
      rw [htenth]
      exact mul_nonneg (by norm_num) (Nat.cast_nonneg _)
    have hlt : 0.1 * (commonLength (s.take 4) (t.take 4) : K) < 1 := by
      rw [htenth]
      linarith
    refine ⟨_, hnonneg, hlt, ?_⟩
    rw [ExactScalar.min_eq]
    have hless := mul_le_mul_of_nonneg_right hlt.le (jaro_gap (K := K) s t)
    exact min_eq_right (by linarith)

theorem jaro_le_jaroWinkler (s t : Text) : (jaro s t : K) ≤ jaroWinkler s t := by
  obtain ⟨gain, hgain, _, heq⟩ := jaroWinkler_eq (K := K) s t
  rw [heq]
  exact le_add_of_nonneg_right (mul_nonneg hgain (jaro_gap s t))

theorem fraction_jaroWinkler (s t : Text) : Scalar.Fraction (jaroWinkler s t : K) := by
  obtain ⟨gain, _, hgain, heq⟩ := jaroWinkler_eq (K := K) s t
  refine ⟨le_trans (fraction_jaro s t).1 (jaro_le_jaroWinkler s t), ?_⟩
  have hless := mul_le_mul_of_nonneg_right hgain.le (jaro_gap (K := K) s t)
  rw [heq]
  linarith

theorem jaroWinkler_eq_one_iff : (jaroWinkler s t : K) = 1 ↔ s = t := by
  obtain ⟨gain, _, hgain, heq⟩ := jaroWinkler_eq (K := K) s t
  rw [heq, ← jaro_eq_one_iff (K := K)]
  constructor
  · intro hone
    have hproduct : (1 - gain) * (1 - (jaro s t : K)) = 0 := by linarith
    rcases mul_eq_zero.mp hproduct with hzero | hzero
    · exact absurd hgain (by linarith)
    · exact (sub_eq_zero.mp hzero).symm
  · intro hone
    rw [hone, sub_self, mul_zero, add_zero]

end Shares

/-- Both texts have the same number of shared bytes, at least as many as are out of place, so that a
scan over both finds a partner for each. In exact numbers Jaro similarity and its Winkler form lie in
the unit interval, the latter not below the former, and are 1 between equal texts only. -/
theorem sharedBytes_pair_up (K : Type) [ExactScalar K] (s t : Text) :
    scan t (sharedMarks s t).2 0 s (sharedMarks s t).1 =
        some (transpositions (sharedBytes s t).1 (sharedBytes s t).2) ∧
      (sharedMarks s t).1.count true = (sharedMarks s t).2.count true ∧
      transpositions (sharedBytes s t).1 (sharedBytes s t).2 ≤ (sharedMarks s t).1.count true ∧
      (0 ≤ (jaro s t : K) ∧ (jaro s t : K) ≤ 1) ∧
      (0 ≤ (jaroWinkler s t : K) ∧ (jaroWinkler s t : K) ≤ 1) ∧
      ((jaro s t : K) = 1 ↔ s = t) ∧ ((jaroWinkler s t : K) = 1 ↔ s = t) ∧
      (jaro s t : K) ≤ jaroWinkler s t := by
  obtain ⟨hs, ht⟩ := count_sharedMarks s t
  refine ⟨?_, hs.trans ht.symm, ?_, fraction_jaro s t, fraction_jaroWinkler s t, jaro_eq_one_iff,
    jaroWinkler_eq_one_iff, jaro_le_jaroWinkler s t⟩
  · apply scan_eq (length_sharedMarks s t).2
    exact Nat.le_of_eq (length_sharedBytes s t).symm
  · rw [hs]
    exact transpositions_le _ _

/-- All bytes are shared, two of them in each other's place. -/
example : (jaro (Text.of "MARTHA") (Text.of "MARHTA") : ℚ) = 17 / 18 := by decide +kernel

end Screening.Similarity
