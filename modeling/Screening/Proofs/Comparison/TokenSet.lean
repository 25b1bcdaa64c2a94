import Screening.Proofs.Similarity.EditShare
import Screening.Proofs.Text.Distinct
import Screening.Proofs.Text.Words
import Screening.Comparison

namespace Screening

namespace TokenSet

def leftOver (q c : List Text) : List Text := q.filter fun t => !c.contains t

/-- How far the words that are left over on both sides are alike when they are put together. -/
def leftLikeness {α : Type} [Scalar α] (q c : List Text) : α :=
  let s := Text.join [32] (leftOver q c)
  let t := Text.join [32] (leftOver c q)
  Similarity.editSimilarity s t (max s.length t.length)

section Common

variable {α : Type} [Scalar α] {q c : List Text}

theorem mem_leftOver {t : Text} : t ∈ leftOver q c ↔ t ∈ q ∧ t ∉ c := by simp [leftOver]

theorem leftOver_ne_nil (h : ¬ q ⊆ c) : leftOver q c ≠ [] := by
  intro hnil
  refine h fun t ht => ?_
  by_contra hc
  have hmem := mem_leftOver.mpr ⟨ht, hc⟩
  rw [hnil] at hmem
  exact nomatch hmem

theorem length_common_eq : (q.filter c.contains).length = q.length ↔ q ⊆ c := by
  rw [List.length_filter_eq_length_iff, List.subset_def]
  simp

theorem common_perm (hq : q.Nodup) (hc : c.Nodup) :
    (c.filter q.contains).Perm (q.filter c.contains) := by
  rw [List.perm_ext_iff_of_nodup (hc.filter _) (hq.filter _)]
  intro t
  simp [and_comm]

theorem agreement_comm (hq : q.Nodup) (hc : c.Nodup) :
    (agreement c q : Option α) = agreement q c := by
  simp only [agreement, (common_perm hq hc).length_eq, Bool.or_comm c.isEmpty,
    Bool.or_comm (decide ((q.filter c.contains).length = c.length)),
    Similarity.editSimilarity_comm (α := α) (Text.join [32] (q.filter fun t => !c.contains t)),
    Nat.max_comm (c.filter fun t => !q.contains t).length,
    Nat.max_comm (Text.join [32] (c.filter fun t => !q.contains t)).length]

theorem agreement_eq_none : (agreement q c : Option α) = none ↔ q = [] ∨ c = [] := by
  simp only [agreement, Bool.or_eq_true, List.isEmpty_iff]
  split
  next h => simpa using h
  next h => split <;> simpa using h

theorem common_full (hq : q.Nodup) (hc : c.Nodup) : ((q.filter c.contains).length = q.length ∨
    (q.filter c.contains).length = c.length) ↔ q ⊆ c ∨ c ⊆ q := by
  rw [length_common_eq, ← (common_perm hq hc).length_eq, length_common_eq]

theorem agreement_of_contained (hq : q.Nodup) (hc : c.Nodup) (hsome : ¬ (q = [] ∨ c = []))
    (h : q ⊆ c ∨ c ⊆ q) : (agreement q c : Option α) = some 1 := by
  have hfull := (common_full hq hc).mpr h
  simp only [agreement, Bool.or_eq_true, List.isEmpty_iff, decide_eq_true_eq, if_neg hsome,
    if_pos hfull]

/-- Of other sets the common words count in full and those left over as far as they are alike. -/
theorem agreement_of_leftOver (hq : q.Nodup) (hc : c.Nodup) (hsome : ¬ (q = [] ∨ c = []))
    (h : ¬ (q ⊆ c ∨ c ⊆ q)) : ∃ shared remainder : Nat, 0 < remainder ∧
      (agreement q c : Option α) = some (((shared : α) + (remainder : α) * leftLikeness q c) /
        ((remainder : α) + (shared : α))) := by
  have hfull := mt (common_full hq hc).mp h
  have hremainder : 0 < (leftOver q c).length :=
    List.length_pos_iff.mpr (leftOver_ne_nil fun hqc => h (.inl hqc))
  refine ⟨(q.filter c.contains).length, max (leftOver q c).length (leftOver c q).length,
    Nat.lt_of_lt_of_le hremainder (Nat.le_max_left _ _), ?_⟩
  simp only [agreement, Bool.or_eq_true, List.isEmpty_iff, decide_eq_true_eq, if_neg hsome,
    if_neg hfull]
  rfl

end Common

section Exact

variable {K : Type} [ExactScalar K] {q c : List Text}

theorem share_leftOver {shared remainder : Nat} (h : 0 < remainder) {likeness : K}
    (hlikeness : Scalar.Fraction likeness) :
    Scalar.Fraction (((shared : K) + (remainder : K) * likeness) / ((remainder : K) + (shared : K))) ∧
      (((shared : K) + (remainder : K) * likeness) / ((remainder : K) + (shared : K)) = 1 →
        likeness = 1) := by
  have hremainder : (0 : K) < remainder := Nat.cast_pos.mpr h
  have hshared : (0 : K) ≤ shared := Nat.cast_nonneg shared
  have hpos : (0 : K) < (remainder : K) + shared := add_pos_of_pos_of_nonneg hremainder hshared
  have hnonneg : 0 ≤ (remainder : K) * likeness := mul_nonneg hremainder.le hlikeness.1
  have hle : (remainder : K) * likeness ≤ remainder := mul_le_of_le_one_right hremainder.le hlikeness.2
  refine ⟨⟨div_nonneg (by linarith) hpos.le, (div_le_one hpos).mpr (by linarith)⟩, fun hone => ?_⟩
  rw [div_eq_one_iff_eq hpos.ne'] at hone
  have hall : (remainder : K) * likeness = remainder * 1 := by linarith
  exact mul_left_cancel₀ hremainder.ne' hall

theorem fraction_leftLikeness (q c : List Text) : Scalar.Fraction (leftLikeness q c : K) :=
  Similarity.fraction_editSimilarity _ _ _

/-- The texts that are made of the words left over on both sides are never the same. -/
theorem leftLikeness_ne_one (plain : ∀ t ∈ q, 32 ∉ t) (plain' : ∀ t ∈ c, 32 ∉ t)
    (h : ¬ (q ⊆ c ∨ c ⊆ q)) :
    (leftLikeness q c : K) ≠ 1 := by
  intro hone
  have hjoin := (Similarity.editSimilarity_eq_one_iff.mp hone).1
  have hne : leftOver q c ≠ [] := leftOver_ne_nil fun hqc => h (.inl hqc)
  have heq : leftOver q c = leftOver c q := by
    refine Text.join_injective hne (leftOver_ne_nil fun hcq => h (.inr hcq)) ?_ ?_ hjoin
    · exact fun t ht => plain t (mem_leftOver.mp ht).1
    · exact fun t ht => plain' t (mem_leftOver.mp ht).1
  obtain ⟨t, ht⟩ := List.exists_mem_of_ne_nil _ hne
  exact (mem_leftOver.mp ht).2 (mem_leftOver.mp (heq ▸ ht)).1

theorem fraction_agreement (hq : q.Nodup) (hc : c.Nodup) {a : K} (h : agreement q c = some a) :
    Scalar.Fraction a := by
  have hsome : ¬ (q = [] ∨ c = []) := by
    intro hnone
    rw [agreement_eq_none.mpr hnone] at h
    exact nomatch h
  by_cases hcontained : q ⊆ c ∨ c ⊆ q
  · rw [agreement_of_contained hq hc hsome hcontained] at h
    exact Option.some.inj h ▸ Scalar.fraction_one
  · obtain ⟨shared, remainder, hpos, heq⟩ := agreement_of_leftOver (α := K) hq hc hsome hcontained
    rw [heq] at h
    rw [← Option.some.inj h]
    exact (share_leftOver hpos (fraction_leftLikeness q c)).1

theorem agreement_eq_one_iff (hq : q.Nodup) (hc : c.Nodup) (plain : ∀ t ∈ q, 32 ∉ t)
    (plain' : ∀ t ∈ c, 32 ∉ t) :
    agreement q c = some (1 : K) ↔ ¬ (q = [] ∨ c = []) ∧ (q ⊆ c ∨ c ⊆ q) := by
  constructor
  · intro h
    have hsome : ¬ (q = [] ∨ c = []) := by
      intro hnone
      rw [agreement_eq_none.mpr hnone] at h
      exact nomatch h
    refine ⟨hsome, ?_⟩
    by_contra hcontained
    obtain ⟨shared, remainder, hpos, heq⟩ := agreement_of_leftOver (α := K) hq hc hsome hcontained
    rw [heq] at h
    exact leftLikeness_ne_one plain plain' hcontained
      ((share_leftOver hpos (fraction_leftLikeness q c)).2 (Option.some.inj h))
  · rintro ⟨hsome, hcontained⟩
    exact agreement_of_contained hq hc hsome hcontained

end Exact

end TokenSet

namespace Comparison

/-- A comparison that goes by the sets of words of two values and answers in full exactly if one
contains the other. It tells nothing exactly of a value without words. -/
structure ByWords {K : Type} [ExactScalar K] (words : Text → List Text)
    (compare : Text → Text → Except Interruption (Option K)) : Prop where
  answers (q c : Text) : ∃ answer, compare q c = .ok answer
  comm (q c : Text) : compare c q = compare q c
  congr {q q' c c' : Text} : (∀ w, w ∈ words q ↔ w ∈ words q') →
    (∀ w, w ∈ words c ↔ w ∈ words c') → compare q c = compare q' c'
  ignored_iff (q c : Text) : compare q c = .ok none ↔ words q = [] ∨ words c = []
  fraction {q c : Text} {a : K} : compare q c = .ok (some a) → 0 ≤ a ∧ a ≤ 1
  eq_one_iff (q c : Text) : compare q c = .ok (some 1) ↔
    (words q ≠ [] ∧ words c ≠ []) ∧ (words q ⊆ words c ∨ words c ⊆ words q)

variable {K : Type} [ExactScalar K]

theorem byWords_agreement {words : Text → List Text} (plain : ∀ v, ∀ w ∈ words v, 32 ∉ w) :
    ByWords (K := K) words fun q c =>
      .ok (TokenSet.agreement (Text.ascending (words q)) (Text.ascending (words c))) where
  answers q c := ⟨_, rfl⟩
  comm q c := by
    rw [TokenSet.agreement_comm (Text.nodup_ascending _) (Text.nodup_ascending _)]
  congr hq hc := by rw [Text.ascending_congr hq, Text.ascending_congr hc]
  ignored_iff q c := by
    rw [Except.ok.injEq, TokenSet.agreement_eq_none, Text.ascending_eq_nil, Text.ascending_eq_nil]
  fraction h :=
    TokenSet.fraction_agreement (Text.nodup_ascending _) (Text.nodup_ascending _) (Except.ok.inj h)
  eq_one_iff q c := by
    rw [Except.ok.injEq, TokenSet.agreement_eq_one_iff (Text.nodup_ascending _)
      (Text.nodup_ascending _) (fun w hw => plain q w (Text.mem_ascending.mp hw))
      (fun w hw => plain c w (Text.mem_ascending.mp hw)), Text.ascending_eq_nil,
      Text.ascending_eq_nil, Text.ascending_subset, Text.ascending_subset, not_or]

/-- Free texts are compared by their words once they are folded and their punctuation is replaced by
spaces, and addresses by what is left of those once their parts and ordinals are abbreviated. -/
theorem texts_and_addresses_byWords (K : Type) [ExactScalar K] (folding : Folding)
    (fold : Text → Text) :
    ByWords (K := K) (fun v => (fold v).spacePunctuation.words) (texts (.ofFold folding fold)) ∧
      ByWords (K := K)
        (fun v => (Replacer.ordinals.apply
          (Replacer.streetTerms.apply (fold v).spacePunctuation)).words)
        (addresses (.ofFold folding fold)) :=
  ⟨byWords_agreement fun _ _ hw => (Text.mem_words hw).2,
    byWords_agreement fun _ _ hw => (Text.mem_words hw).2⟩

end Comparison

end Screening
