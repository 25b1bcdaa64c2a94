import Mathlib.Algebra.Order.Field.Basic
import Screening.Proofs.Alignment.Greedy
import Screening.Proofs.Name.Prepared
import Screening.Proofs.Similarity.EditShare
import Screening.Proofs.Text.Distinct

namespace Screening

namespace NameForms

section Pairs

variable {α : Type} [Scalar α] {qs cs : List Text} {p : ValuePair α}

def tokenPairs (qs cs : List Text) : List (ValuePair α) :=
  qs.zipIdx.flatMap fun s => cs.zipIdx.map fun t =>
    ⟨s.2, t.2, Similarity.editSimilarity s.1 t.1 Similarity.usualEdits⟩

theorem mem_tokenPairs : p ∈ tokenPairs qs cs ↔ ∃ s t, qs[p.query]? = some s ∧
    cs[p.candidate]? = some t ∧ p.similarity = Similarity.editSimilarity s t Similarity.usualEdits := by
  obtain ⟨i, j, similarity⟩ := p
  simp only [tokenPairs, List.mem_flatMap, List.mem_map, ValuePair.mk.injEq, Prod.exists,
    List.mem_zipIdx_iff_getElem?]
  constructor
  · rintro ⟨s, _, hs, t, _, ht, rfl, rfl, rfl⟩
    exact ⟨s, t, hs, ht, rfl⟩
  · rintro ⟨s, t, hs, ht, rfl⟩
    exact ⟨s, i, hs, t, j, ht, rfl, rfl, rfl⟩

theorem inside_of_mem_tokenPairs (h : p ∈ tokenPairs qs cs) :
    p.query < qs.length ∧ p.candidate < cs.length := by
  obtain ⟨s, t, hs, ht, _⟩ := mem_tokenPairs.mp h
  exact ⟨(List.getElem?_eq_some_iff.mp hs).1, (List.getElem?_eq_some_iff.mp ht).1⟩

theorem pairwise_zipIdx (ts : List Text) : ts.zipIdx.Pairwise fun s t => s.2 < t.2 := by
  rw [← List.pairwise_map (f := Prod.snd), List.zipIdx_map_snd]
  exact List.pairwise_lt_range'

theorem tokenPairs_above (qs cs : List Text) :
    (tokenPairs qs cs : List (ValuePair α)).Pairwise ValuePair.Above := by
  refine List.pairwise_flatMap.mpr ⟨fun s _ => ?_, ?_⟩
  · exact List.pairwise_map.mpr ((pairwise_zipIdx cs).imp fun h => .inr ⟨rfl, h⟩)
  · refine (pairwise_zipIdx qs).imp fun hlt p hp r hr => ?_
    obtain ⟨_, _, rfl⟩ := List.mem_map.mp hp
    obtain ⟨_, _, rfl⟩ := List.mem_map.mp hr
    exact .inl hlt

end Pairs

section Contained

variable {K : Type} [ExactScalar K] {qs cs : List Text} {p : ValuePair K}

theorem index_unique {ts : List Text} (nodup : ts.Nodup) {i j : Nat} {t : Text}
    (hi : ts[i]? = some t) (hj : ts[j]? = some t) : i = j :=
  (List.getElem?_inj (List.getElem?_eq_some_iff.mp hi).1 nodup).mp (hi.trans hj.symm)

theorem similarity_le_one (h : p ∈ tokenPairs qs cs) : p.similarity ≤ 1 := by
  obtain ⟨s, t, _, _, hsimilarity⟩ := mem_tokenPairs.mp h
  rw [hsimilarity]
  exact (Similarity.fraction_editSimilarity s t _).2

theorem equal_of_similarity (h : p ∈ tokenPairs qs cs) (hone : p.similarity = 1) :
    ∃ t, qs[p.query]? = some t ∧ cs[p.candidate]? = some t := by
  obtain ⟨s, t, hs, ht, hsimilarity⟩ := mem_tokenPairs.mp h
  obtain ⟨rfl, _⟩ := Similarity.editSimilarity_eq_one_iff.mp (hsimilarity.symm.trans hone)
  exact ⟨s, hs, ht⟩

theorem pairedTokens_settles (qs cs : List Text) :
    ValuePair.Settles (· ∈ (tokenPairs qs cs : List (ValuePair K))) (pairedTokens qs cs) :=
  (ValuePair.greedy_takes (tokenPairs_above qs cs) (fun p _ => ExactScalar.isNumber p.similarity)
    fun _ hp => inside_of_mem_tokenPairs hp).settles

/-- Nothing is better than a pair of equal tokens, and what is as good needs neither of them. -/
theorem mem_pairedTokens (hq : qs.Nodup) (hc : cs.Nodup) {i j : Nat} {t : Text} (ht : t ≠ [])
    (hi : qs[i]? = some t) (hj : cs[j]? = some t) : (⟨i, j, 1⟩ : ValuePair K) ∈ pairedTokens qs cs := by
  have settles := pairedTokens_settles (K := K) qs cs
  have hp : (⟨i, j, 1⟩ : ValuePair K) ∈ tokenPairs qs cs :=
    mem_tokenPairs.mpr ⟨t, t, hi, hj, (Similarity.editSimilarity_self ht _).symm⟩
  rcases settles.beaten _ hp with hin | ⟨r, hr, hclash, hlt | ⟨hties, habove⟩⟩
  · exact hin
  · exact absurd (similarity_le_one (settles.fits r hr)) hlt.not_ge
  · have hone : r.similarity = 1 := le_antisymm hties.1 hties.2
    obtain ⟨u, hu, hu'⟩ := equal_of_similarity (settles.fits r hr) hone
    have hsame : r.query = i ∧ r.candidate = j := by
      rcases hclash with rfl | rfl
      · obtain rfl := Option.some.inj (hi.symm.trans hu)
        exact ⟨rfl, index_unique hc hu' hj⟩
      · obtain rfl := Option.some.inj (hj.symm.trans hu')
        exact ⟨index_unique hq hu hi, rfl⟩
    obtain ⟨rfl, rfl⟩ := hsame
    exact absurd habove (ValuePair.Above.irrefl r)

/-- Where the candidate has all tokens of the query, each of these is paired, with its equal. -/
theorem pairedTokens_of_contained (hq : qs.Nodup) (hc : cs.Nodup) (hsome : ∀ t ∈ qs, t ≠ [])
    (h : qs ⊆ cs) : qs.length ≤ (pairedTokens (α := K) qs cs).length ∧
      ∀ p ∈ (pairedTokens qs cs : List (ValuePair K)), qs.getD p.query [] = cs.getD p.candidate [] := by
  have settles := pairedTokens_settles (K := K) qs cs
  have hequal {i : Nat} (hi : i < qs.length) : ∃ j, cs[j]? = qs[i]? ∧
      (⟨i, j, 1⟩ : ValuePair K) ∈ pairedTokens qs cs := by
    have hmem : qs[i] ∈ qs := List.getElem_mem hi
    obtain ⟨j, hj⟩ := List.mem_iff_getElem?.mp (h hmem)
    have hi : qs[i]? = some qs[i] := List.getElem?_eq_getElem hi
    exact ⟨j, hj.trans hi.symm, mem_pairedTokens hq hc (hsome _ hmem) hi hj⟩
  constructor
  · have hrange : List.range qs.length ⊆ (pairedTokens qs cs : List (ValuePair K)).map ValuePair.query := by
      intro i hi
      obtain ⟨j, _, hpair⟩ := hequal (List.mem_range.mp hi)
      exact List.mem_map_of_mem hpair
    simpa using (List.nodup_range.subperm hrange).length_le
  · intro p hp
    obtain ⟨j, hj, hpair⟩ := hequal (inside_of_mem_tokenPairs (settles.fits p hp)).1
    have heq := ValuePair.eq_of_clashes settles.apart hpair hp (.inl rfl)
    have hcandidate : j = p.candidate := congrArg ValuePair.candidate heq
    rw [List.getD_eq_getElem?_getD, List.getD_eq_getElem?_getD, ← hcandidate, hj]

theorem pairedFingerprints_of_contained (hq : qs.Nodup) (hc : cs.Nodup) (hsome : ∀ t ∈ qs, t ≠ [])
    (hquery : qs ≠ []) (h : qs ⊆ cs) : pairedFingerprints qs cs = some (1 : K) := by
  obtain ⟨hlength, hequal⟩ := pairedTokens_of_contained (K := K) hq hc hsome h
  have hcandidate : cs ≠ [] := by
    rintro rfl
    exact hquery (List.subset_nil.mp h)
  have hread : ((pairedTokens qs cs : List (ValuePair K)).flatMap fun p => qs.getD p.query []) =
      (pairedTokens qs cs : List (ValuePair K)).flatMap fun p => cs.getD p.candidate [] :=
    List.flatMap_congr hequal
  have hne : ((pairedTokens qs cs : List (ValuePair K)).flatMap fun p => qs.getD p.query []) ≠ [] := by
    intro hnil
    have hpos : 0 < (pairedTokens (α := K) qs cs).length :=
      Nat.lt_of_lt_of_le (List.length_pos_iff.mpr hquery) hlength
    obtain ⟨p, hp⟩ := List.exists_mem_of_length_pos hpos
    have hlt := (inside_of_mem_tokenPairs ((pairedTokens_settles qs cs).fits p hp)).1
    have htoken := List.flatMap_eq_nil_iff.mp hnil p hp
    rw [List.getD_eq_getElem?_getD, List.getElem?_eq_getElem hlt, Option.getD_some] at htoken
    exact hsome _ (List.getElem_mem hlt) htoken
  have hall : (qs.isEmpty || cs.isEmpty ||
      decide ((pairedTokens (α := K) qs cs).length < qs.length)) = false := by
    simp [hquery, hcandidate, hlength]
  rw [pairedFingerprints]
  simp only [hall, Bool.false_eq_true, if_false]
  rw [← hread, Similarity.editSimilarity_self hne]

theorem fraction_pairedFingerprints {a : K} (h : pairedFingerprints qs cs = some a) :
    Scalar.Fraction a := by
  rw [pairedFingerprints] at h
  split at h
  next => exact nomatch h
  next => exact Option.some.inj h ▸ Similarity.fraction_editSimilarity _ _ _

end Contained

section Levenshtein

/-- The similarity of two names as they are spelled, and of their fingerprints without spaces. -/
def spelled {α : Type} [Scalar α] (q c : NameForms) : α :=
  let whole : α := Similarity.editSimilarity q.cleaned c.cleaned Similarity.usualEdits
  let s := q.fingerprint.withoutSpaces
  let t := c.fingerprint.withoutSpaces
  if s.isEmpty || t.isEmpty then whole
  else Scalar.max whole (Similarity.editSimilarity s t Similarity.usualEdits)

theorem levenshtein_eq {α : Type} [Scalar α] (q c : NameForms) : (q.levenshtein c : α) =
    if q.cleaned.length < 2 || c.cleaned.length < 2 then 0
    else match pairedFingerprints (Text.distinct q.fingerprint.words)
        (Text.distinct c.fingerprint.words) with
      | none => spelled q c
      | some paired => Scalar.max (spelled q c) paired := rfl

variable {K : Type} [ExactScalar K] {q c : NameForms}

theorem fraction_spelled (q c : NameForms) : Scalar.Fraction (spelled q c : K) := by
  unfold spelled
  dsimp only
  split
  next => exact Similarity.fraction_editSimilarity _ _ _
  next =>
    exact Scalar.fraction_max (Similarity.fraction_editSimilarity _ _ _)
      (Similarity.fraction_editSimilarity _ _ _)

theorem fraction_levenshtein (q c : NameForms) : Scalar.Fraction (q.levenshtein c : K) := by
  rw [levenshtein_eq]
  split
  next => exact Scalar.fraction_zero
  next =>
    split
    next => exact fraction_spelled q c
    next paired hpaired =>
      exact Scalar.fraction_max (fraction_spelled q c) (fraction_pairedFingerprints hpaired)

theorem levenshtein_eq_one (hq : 2 ≤ q.cleaned.length) (hc : 2 ≤ c.cleaned.length)
    (h : (spelled q c : K) = 1 ∨ pairedFingerprints (Text.distinct q.fingerprint.words)
      (Text.distinct c.fingerprint.words) = some (1 : K)) : (q.levenshtein c : K) = 1 := by
  have hlong : ¬ (decide (q.cleaned.length < 2) || decide (c.cleaned.length < 2)) = true := by
    simp only [Bool.or_eq_true, decide_eq_true_eq]
    omega
  rw [levenshtein_eq, if_neg hlong]
  rcases h with hspelled | hpaired
  · rw [hspelled]
    split
    next => rfl
    next paired hpaired =>
      rw [ExactScalar.max_eq]
      exact max_eq_left (fraction_pairedFingerprints hpaired).2
  · rw [hpaired]
    dsimp only
    rw [ExactScalar.max_eq]
    exact max_eq_right (fraction_spelled q c).2

end Levenshtein

end NameForms

/-- Names of at least two bytes are the same to the last byte once spelled by their fingerprints, if
the query's fingerprint has tokens and the candidate's has all of them, in whatever order and among
whatever others. -/
theorem NameResemblance.levenshtein_of_contained (K : Type) [ExactScalar K] {q c : NameForms}
    (hq : 2 ≤ q.cleaned.length) (hc : 2 ≤ c.cleaned.length) (hsome : q.fingerprint.words ≠ [])
    (h : q.fingerprint.words ⊆ c.fingerprint.words) :
    (compare q c).map NameResemblance.levenshtein = some (1 : K) := by
  have hquery : q.cleaned ≠ [] := List.ne_nil_of_length_pos (by omega)
  have hcandidate : c.cleaned ≠ [] := List.ne_nil_of_length_pos (by omega)
  have hpaired : NameForms.pairedFingerprints (Text.distinct q.fingerprint.words)
      (Text.distinct c.fingerprint.words) = some (1 : K) := by
    refine NameForms.pairedFingerprints_of_contained (Text.nodup_distinct _) (Text.nodup_distinct _)
      (fun t ht => ?_) (mt Text.distinct_eq_nil.mp hsome) fun t ht => ?_
    · exact (Text.mem_words (Text.mem_distinct.mp ht)).1
    · exact Text.mem_distinct.mpr (h (Text.mem_distinct.mp ht))
  rw [compare_eq_some hquery hcandidate]
  exact congrArg some (NameForms.levenshtein_eq_one hq hc (.inr hpaired))

theorem NameResemblance.levenshtein_of_contained_of_legalForm :
    let q := NameForms.ofFold Text.lower (Text.of "ACME, LLC")
    let c := NameForms.ofFold Text.lower (Text.of "Limited Liability Company Acme of Acme")
    (2 ≤ q.cleaned.length ∧ 2 ≤ c.cleaned.length ∧ q.fingerprint.words ≠ [] ∧
        q.fingerprint.words ⊆ c.fingerprint.words) ∧
      (compare q c).map NameResemblance.levenshtein = some (1 : ℚ) := by
  intro q c
  have hq : 2 ≤ q.cleaned.length := by decide +kernel
  have hc : 2 ≤ c.cleaned.length := by decide +kernel
  have hsome : q.fingerprint.words ≠ [] := by decide +kernel
  have hsub : q.fingerprint.words ⊆ c.fingerprint.words := by decide +kernel
  exact ⟨⟨hq, hc, hsome, hsub⟩, levenshtein_of_contained ℚ hq hc hsome hsub⟩

end Screening
