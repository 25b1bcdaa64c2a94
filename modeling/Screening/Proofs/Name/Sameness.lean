import Mathlib.Algebra.Order.Field.Basic
import Screening.Proofs.Name.Fingerprint
import Screening.Proofs.Name.Reordered
import Screening.Proofs.Name.Sounding
import Screening.Proofs.Similarity.NameParts

namespace Screening

namespace NameForms

section Shares

variable {K : Type} [ExactScalar K]

theorem fraction_sharedTokens (q c : NameForms) : Scalar.Fraction (q.sharedTokens c : K) := by
  unfold sharedTokens
  dsimp only
  split
  next => exact Scalar.fraction_zero
  next => exact ExactScalar.fraction_share List.countP_le_length

theorem fraction_soundex (q c : NameForms) : Scalar.Fraction (q.soundex c : K) := by
  unfold soundex
  split
  next => exact Scalar.fraction_zero
  next =>
    refine ExactScalar.fraction_share (Nat.le_trans List.countP_le_length ?_)
    rw [soundexes, List.length_map]

theorem soundMatches_le (q c : List Text) : soundMatches q c ≤ q.length := by
  induction q generalizing c with
  | nil => exact Nat.le_refl _
  | cons part q ih =>
    rw [soundMatches]
    split
    next => exact Nat.succ_le_succ (ih _)
    next => exact Nat.le_succ_of_le (ih c)

theorem fraction_phonetic (q c : NameForms) : Scalar.Fraction (q.phonetic c : K) := by
  unfold phonetic
  split
  next => exact Scalar.fraction_zero
  next => exact ExactScalar.fraction_share (soundMatches_le _ _)

theorem fraction_joinedWinkler (q c : NameForms) : Scalar.Fraction (q.joinedWinkler c : K) := by
  unfold joinedWinkler
  dsimp only
  split
  next =>
    have h := Similarity.fraction_jaroWinkler (K := K) q.tokens.flatten c.tokens.flatten
    exact ⟨pow_nonneg h.1 _, pow_le_one₀ h.1 h.2⟩
  next => exact Scalar.fraction_zero

theorem fraction_jaroWinkler (q c : NameForms) : Scalar.Fraction (q.jaroWinkler c : K) :=
  Scalar.fraction_max (fraction_joinedWinkler q c) (Similarity.fraction_partsCloseness _ _)

theorem fraction_literal (q c : NameForms) : Scalar.Fraction (q.literal c : K) := by
  unfold literal
  split
  next => exact Scalar.fraction_one
  next => exact Scalar.fraction_zero

theorem fraction_closest {part : Text} {best : K} (h : Scalar.Fraction best) (parts : List Text) :
    Scalar.Fraction (parts.foldl (closer part) best) := by
  induction parts generalizing best with
  | nil => exact h
  | cons other parts ih =>
    refine ih ?_
    unfold closer
    split
    next =>
      rw [← ExactScalar.max_eq]
      exact Scalar.fraction_max h (Similarity.fraction_jaroWinkler part other)
    next => exact h

theorem fraction_closestParts (q c : NameForms) : Scalar.Fraction (q.closestParts c : K) := by
  rw [closestParts_eq]
  split
  next => exact Scalar.fraction_zero
  next =>
    refine ExactScalar.fraction_mean fun a ha => ?_
    obtain ⟨part, _, rfl⟩ := List.mem_map.mp ha
    rw [closestPart_eq]
    exact fraction_closest Scalar.fraction_zero c.parts

end Shares

section Same

variable {K : Type} [ExactScalar K] {q c : NameForms}

theorem tokens_congr (h : q.cleaned = c.cleaned) : q.tokens = c.tokens := by rw [tokens, h, tokens]

theorem parts_congr (h : q.cleaned = c.cleaned) : q.parts = c.parts := by
  rw [parts, tokens_congr h, parts]

theorem sharedTokens_of_same (h : q.cleaned = c.cleaned) (hsome : q.tokens ≠ []) :
    (q.sharedTokens c : K) = 1 := by
  have hall : (Text.distinct q.tokens).countP c.tokens.contains = (Text.distinct q.tokens).length := by
    refine List.countP_eq_length.mpr fun t ht => ?_
    rw [List.contains_iff_mem, ← tokens_congr h]
    exact Text.mem_distinct.mp ht
  have hne : Text.distinct q.tokens ≠ [] := mt Text.distinct_eq_nil.mp hsome
  unfold sharedTokens
  dsimp only
  rw [hall, if_neg (mt List.isEmpty_iff.mp hne)]
  exact ExactScalar.share_self (mt List.length_eq_zero_iff.mp hne)

theorem jaroWinkler_of_same (h : q.cleaned = c.cleaned) (hsome : q.tokens ≠ []) :
    (q.jaroWinkler c : K) = 1 := by
  have hparts : (Similarity.partsCloseness q.tokens c.tokens : K) = 1 :=
    Similarity.partsCloseness_of_subperm hsome (tokens_congr h ▸ List.Subperm.refl _)
  rw [jaroWinkler, hparts, ExactScalar.max_eq]
  exact max_eq_right (fraction_joinedWinkler q c).2

theorem spelled_of_same (h : q.cleaned = c.cleaned) (hsome : q.cleaned ≠ []) :
    (spelled q c : K) = 1 := by
  have hwhole : (Similarity.editSimilarity q.cleaned c.cleaned Similarity.usualEdits : K) = 1 :=
    Similarity.editSimilarity_eq_one_iff.mpr ⟨h, hsome⟩
  unfold spelled
  dsimp only
  rw [hwhole]
  split
  next => rfl
  next =>
    rw [ExactScalar.max_eq]
    exact max_eq_left (Similarity.fraction_editSimilarity _ _ _).2

theorem closestPart_of_mem {part : Text} {parts : List Text} (h : part ∈ parts) :
    (closestPart part parts : K) = 1 := by
  have hself : (Similarity.jaroWinkler part part : K) = 1 := Similarity.jaroWinkler_eq_one_iff.mpr rfl
  have hfirst : closer part (0 : K) part = 1 := by
    unfold closer
    rw [hself, if_pos (by norm_num), max_eq_right zero_le_one]
  rw [closestPart_of_perm (List.perm_cons_erase h), closestPart_eq, List.foldl_cons, hfirst,
    foldl_closer_of_le le_rfl]

theorem closestParts_of_same (h : q.cleaned = c.cleaned) (hsome : q.parts ≠ []) :
    (q.closestParts c : K) = 1 := by
  have hones : (q.parts.map fun part => (closestPart part c.parts : K)) = q.parts.map fun _ => 1 :=
    List.map_congr_left fun part hpart => closestPart_of_mem (parts_congr h ▸ hpart)
  have hlength : (q.parts.length : K) ≠ 0 :=
    Nat.cast_ne_zero.mpr (mt List.length_eq_zero_iff.mp hsome)
  rw [closestParts_eq, hones, ← parts_congr h]
  simp [hsome, hlength]

theorem soundAlike_self (part : Text) : soundAlike part part = true := by
  simp [soundAlike, Similarity.withinEdits_self]

/-- Each part finds its equal first of all that are left. -/
theorem soundMatches_self (parts : List Text) : soundMatches parts parts = parts.length := by
  have halike : ∀ p ∈ parts.map fun part => (part, part), soundAlike p.1 p.2 = true := by
    intro p hp
    obtain ⟨part, _, rfl⟩ := List.mem_map.mp hp
    exact soundAlike_self part
  have h : soundMatches _ _ = _ + soundMatches [] [] := soundMatches_pairs halike
  simpa [Function.comp_def, soundMatches] using h

theorem phonetic_of_same (h : q.cleaned = c.cleaned) (hsome : q.parts ≠ []) :
    (q.phonetic c : K) = 1 := by
  unfold phonetic
  rw [← parts_congr h, soundMatches_self, Bool.or_self, if_neg (mt List.isEmpty_iff.mp hsome)]
  exact ExactScalar.share_self (mt List.length_eq_zero_iff.mp hsome)

theorem isEmpty_soundex (word : Text) : (Phonetic.soundex word).isEmpty = !word.any Byte.isAlpha := by
  have hletters : Phonetic.letters word = [] ↔ word.any Byte.isAlpha = false := by
    simp [Phonetic.letters]
  unfold Phonetic.soundex
  cases h : Phonetic.letters word with
  | nil => simp [hletters.mp h]
  | cons first rest =>
    have hany : word.any Byte.isAlpha = true := by
      by_contra hnone
      simp [hletters.mpr (Bool.eq_false_iff.mpr hnone)] at h
    simp [hany]

theorem soundex_of_same (h : q.cleaned = c.cleaned) : (q.soundex c : K) =
    if q.parts = [] then 0
    else Scalar.share (q.parts.countP fun part => part.any Byte.isAlpha) q.parts.length := by
  have hcodes : (q.soundexes.countP fun code => !code.isEmpty && c.soundexes.contains code) =
      q.parts.countP fun part => part.any Byte.isAlpha := by
    rw [show q.soundexes = q.parts.map Phonetic.soundex from rfl, List.countP_map]
    refine List.countP_congr fun part hpart => ?_
    have hmem : Phonetic.soundex part ∈ c.soundexes := List.mem_map_of_mem (parts_congr h ▸ hpart)
    simp [isEmpty_soundex, hmem]
  unfold soundex
  rw [hcodes]
  simp only [List.isEmpty_iff]

end Same

end NameForms

namespace NameResemblance

variable {K : Type} [ExactScalar K]

structure Bounded (r : NameResemblance K) : Prop where
  literal : Scalar.Fraction r.literal
  sharedTokens : Scalar.Fraction r.sharedTokens
  jaroWinkler : Scalar.Fraction r.jaroWinkler
  closestParts : Scalar.Fraction r.closestParts
  levenshtein : Scalar.Fraction r.levenshtein
  phonetic : Scalar.Fraction r.phonetic
  soundex : Scalar.Fraction r.soundex

/-- The resemblance of two names with the same cleaned form. Two bytes are the least for the edit
similarity, and a token that is longer than one byte for the ways that go by parts; of those the
letterless ones have no code. -/
structure Complete (cleaned : Text) (r : NameResemblance K) : Prop where
  literal : r.literal = 1
  sharedTokens : r.sharedTokens = 1
  jaroWinkler : r.jaroWinkler = 1
  levenshtein : 2 ≤ cleaned.length → r.levenshtein = 1
  closestParts : (∃ t ∈ cleaned.words, 1 < t.length) → r.closestParts = 1
  phonetic : (∃ t ∈ cleaned.words, 1 < t.length) → r.phonetic = 1
  soundex :
    let long := cleaned.words.filter fun t => 1 < t.length
    r.soundex = if long = [] then 0 else (long.countP fun t => t.any Byte.isAlpha : K) / (long.length : K)

theorem bounded_of_compare {q c : NameForms} {r : NameResemblance K} (h : compare q c = some r) :
    r.Bounded := by
  obtain ⟨hquery, hcandidate⟩ := cleaned_of_compare h
  rw [compare_eq_some hquery hcandidate] at h
  obtain rfl := Option.some.inj h
  exact
    { literal := NameForms.fraction_literal q c
      sharedTokens := NameForms.fraction_sharedTokens q c
      jaroWinkler := NameForms.fraction_jaroWinkler q c
      closestParts := NameForms.fraction_closestParts q c
      levenshtein := NameForms.fraction_levenshtein q c
      phonetic := NameForms.fraction_phonetic q c
      soundex := NameForms.fraction_soundex q c }

theorem complete_of_compare {q c : NameForms} {r : NameResemblance K} (h : q.cleaned = c.cleaned)
    (htokens : q.tokens ≠ []) (hr : compare q c = some r) : r.Complete q.cleaned := by
  obtain ⟨hsome, hcandidate⟩ := cleaned_of_compare hr
  have hparts (h : ∃ t ∈ q.cleaned.words, 1 < t.length) : q.parts ≠ [] := by
    obtain ⟨t, ht, hlong⟩ := h
    exact List.ne_nil_of_mem (List.mem_filter.mpr ⟨ht, by simpa using hlong⟩)
  rw [compare_eq_some hsome hcandidate] at hr
  obtain rfl := Option.some.inj hr
  exact
    { literal := if_pos h
      sharedTokens := NameForms.sharedTokens_of_same h htokens
      jaroWinkler := NameForms.jaroWinkler_of_same h htokens
      levenshtein := fun hlong =>
        NameForms.levenshtein_eq_one hlong (h ▸ hlong) (.inl (NameForms.spelled_of_same h hsome))
      closestParts := fun hlong => NameForms.closestParts_of_same h (hparts hlong)
      phonetic := fun hlong => NameForms.phonetic_of_same h (hparts hlong)
      soundex := NameForms.soundex_of_same h }

end NameResemblance

/-- In exact numbers two values are alike in each way by a number between 0 and 1, unless nothing is
left of one of them once it is cleaned, and in full if the same is left of both. -/
theorem Comparison.names_saturate (K : Type) [ExactScalar K] (folding : Folding) (fold : Text → Text)
    (q c : Text) :
    let s := (fold q).dropPunctuation
    let t := (fold c).dropPunctuation
    ∃ answer : Option (NameResemblance K), names (.ofFold folding fold) q c = .ok answer ∧
      (answer = none ↔ s = [] ∨ t = []) ∧ ∀ r ∈ answer, r.Bounded ∧ (s = t → r.Complete s) := by
  intro s t
  refine ⟨_, names_ofFold folding fold q c, NameResemblance.compare_eq_none, fun r hr =>
    ⟨NameResemblance.bounded_of_compare hr, fun h => ?_⟩⟩
  have htokens : (NameForms.ofFold fold q).tokens ≠ [] :=
    mt NameForms.tokens_eq_nil.mp (NameResemblance.cleaned_of_compare hr).1
  exact NameResemblance.complete_of_compare (c := .ofFold fold c) h htokens hr

theorem Comparison.names_saturate_of_number :
    let q := Text.of "Route 66 b"
    let c := Text.of "ROUTE 66, (B.)"
    (Text.lower q).dropPunctuation = (Text.lower c).dropPunctuation ∧
      ∃ r : NameResemblance ℚ, names .basic q c = .ok (some r) ∧ r.levenshtein = 1 ∧
        r.closestParts = 1 ∧ r.phonetic = 1 ∧ r.soundex = 1 / 2 := by
  intro q c
  have hsame : (Text.lower q).dropPunctuation = (Text.lower c).dropPunctuation := by decide +kernel
  have hlong : ∃ t ∈ (Text.lower q).dropPunctuation.words, 1 < t.length := by decide +kernel
  obtain ⟨answer, hanswer, hnone, hall⟩ := names_saturate ℚ .basic Unicode.ascii.fold q c
  refine ⟨hsame, ?_⟩
  cases answer with
  | none => exact absurd (hnone.mp rfl) (by decide +kernel)
  | some r =>
    have hcomplete := (hall r rfl).2 hsame
    refine ⟨r, hanswer, hcomplete.levenshtein (by decide +kernel), hcomplete.closestParts hlong,
      hcomplete.phonetic hlong, ?_⟩
    rw [hcomplete.soundex]
    decide +kernel

end Screening
