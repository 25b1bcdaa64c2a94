import Mathlib.Data.Multiset.Basic
import Screening.Proofs.Similarity.SharedBytes
import Screening.Proofs.Text.Distinct
import Screening.Similarity.NameParts

namespace Screening.Similarity

def without (left : Text → Nat) (part : Text) (uses : Nat) : Text → Nat :=
  fun t => if t = part then left t - uses else left t

section Spend

variable {α : Type} {left right : Text → Nat} {ps : List (PartPair α)} {p : PartPair α}

theorem without_self (left : Text → Nat) (part : Text) (uses : Nat) :
    without left part uses part = left part - uses := if_pos rfl

theorem without_of_ne {part t : Text} (h : t ≠ part) (left : Text → Nat) (uses : Nat) :
    without left part uses t = left t := if_neg h

theorem spend_cons (p : PartPair α) (ps : List (PartPair α)) (left right : Text → Nat) :
    spend left right (p :: ps) =
      List.replicate (min (left p.query) (right p.candidate)) p ++
        spend (without left p.query (min (left p.query) (right p.candidate)))
          (without right p.candidate (min (left p.query) (right p.candidate))) ps := rfl

theorem mem_spend (h : p ∈ spend left right ps) : p ∈ ps := by
  induction ps generalizing left right with
  | nil => exact h
  | cons r ps ih =>
    rcases List.mem_append.mp h with hhead | hrest
    · rw [List.eq_of_mem_replicate hhead]
      exact List.mem_cons_self
    · exact List.mem_cons_of_mem r (ih hrest)

theorem spend_of_none (ps : List (PartPair α)) (h : ∀ t, left t = 0) : spend left right ps = [] := by
  induction ps generalizing left right with
  | nil => rfl
  | cons r ps ih =>
    have hrest : ∀ t, without left r.query 0 t = 0 := fun t => by simp [without, h]
    rw [spend_cons, h, Nat.zero_min, ih hrest]
    rfl

theorem count_spend_cons (part : PartPair α → Text) (p : PartPair α) (ps : List (PartPair α))
    (left right : Text → Nat) (t : Text) :
    ((spend left right (p :: ps)).map part).count t =
      (if t = part p then min (left p.query) (right p.candidate) else 0) +
        ((spend (without left p.query (min (left p.query) (right p.candidate)))
          (without right p.candidate (min (left p.query) (right p.candidate))) ps).map part).count t := by
  simp only [spend_cons, List.map_append, List.map_replicate, List.count_append,
    List.count_replicate, beq_iff_eq, eq_comm (a := t)]

theorem count_spend_le (ps : List (PartPair α)) (left right : Text → Nat) (t : Text) :
    ((spend left right ps).map PartPair.query).count t ≤ left t ∧
      ((spend left right ps).map PartPair.candidate).count t ≤ right t := by
  induction ps generalizing left right with
  | nil => simp [spend]
  | cons r ps ih =>
    rw [count_spend_cons, count_spend_cons]
    generalize huses : min (left r.query) (right r.candidate) = uses
    obtain ⟨hqueries, hcandidates⟩ := ih (without left r.query uses) (without right r.candidate uses)
    constructor
    · by_cases h : t = r.query
      · rw [h, without_self] at hqueries
        rw [h, if_pos rfl]
        omega
      · rw [without_of_ne h] at hqueries
        rwa [if_neg h, Nat.zero_add]
    · by_cases h : t = r.candidate
      · rw [h, without_self] at hcandidates
        rw [h, if_pos rfl]
        omega
      · rw [without_of_ne h] at hcandidates
        rwa [if_neg h, Nat.zero_add]

theorem spend_subperm (query candidate : List Text) (ps : List (PartPair α)) :
    ((spend query.count candidate.count ps).map PartPair.query).Subperm query ∧
      ((spend query.count candidate.count ps).map PartPair.candidate).Subperm candidate :=
  ⟨List.subperm_ext_iff.mpr fun t _ => (count_spend_le ps _ _ t).1,
    List.subperm_ext_iff.mpr fun t _ => (count_spend_le ps _ _ t).2⟩

end Spend

section Pairs

variable {α : Type} [Scalar α] {query candidate : List Text} {p : PartPair α}

theorem mem_partPairs : p ∈ partPairs query candidate ↔ p.query ∈ query ∧ p.candidate ∈ candidate ∧
    p.closeness = jaroWinkler p.query p.candidate ∧ 0 < p.closeness ∧
      withinEdits p.query p.candidate = true := by
  obtain ⟨q, c, closeness⟩ := p
  simp only [partPairs, List.mem_flatMap, List.mem_filterMap, Text.mem_ascending]
  constructor
  · rintro ⟨q', hq, c', hc, h⟩
    split at h
    next halike =>
      obtain ⟨rfl, rfl, rfl⟩ := PartPair.mk.inj (Option.some.inj h)
      simp only [Bool.and_eq_true, decide_eq_true_eq] at halike
      exact ⟨hq, hc, rfl, halike⟩
    next => exact nomatch h
  · rintro ⟨hq, hc, rfl, hpos, hwithin⟩
    exact ⟨q, hq, c, hc, by simp [hpos, hwithin]⟩

theorem mem_pairedParts (h : p ∈ pairedParts query candidate) : p ∈ partPairs query candidate :=
  (Sorting.mem_sort _).mp (mem_spend h)

theorem partPairs_congr {query' candidate' : List Text} (hq : ∀ t, t ∈ query ↔ t ∈ query')
    (hc : ∀ t, t ∈ candidate ↔ t ∈ candidate') :
    (partPairs query candidate : List (PartPair α)) = partPairs query' candidate' := by
  rw [partPairs, Text.ascending_congr hq, Text.ascending_congr hc, partPairs]

theorem pairedParts_perm {query' candidate' : List Text} (hq : query.Perm query')
    (hc : candidate.Perm candidate') :
    (pairedParts query candidate : List (PartPair α)) = pairedParts query' candidate' := by
  have hqueries : query.count = query'.count := funext hq.count_eq
  have hcandidates : candidate.count = candidate'.count := funext hc.count_eq
  rw [pairedParts, hqueries, hcandidates, partPairs_congr (fun _ => hq.mem_iff) fun _ => hc.mem_iff,
    pairedParts]

theorem partsCloseness_perm {query' candidate' : List Text} (hq : query.Perm query')
    (hc : candidate.Perm candidate') :
    (partsCloseness query candidate : α) = partsCloseness query' candidate' := by
  simp only [partsCloseness, pairedParts_perm hq hc, hq.length_eq, hq.isEmpty_eq, hc.isEmpty_eq]

theorem partsCloseness_of_longer (h : candidate.length < query.length) :
    (partsCloseness query candidate : α) = 0 := by
  have hused : (pairedParts (α := α) query candidate).length ≤ candidate.length := by
    have := (spend_subperm query candidate
      (Scalar.descending PartPair.closeness (partPairs (α := α) query candidate))).2.length_le
    rwa [List.length_map] at this
  simp only [partsCloseness, if_pos (Nat.lt_of_le_of_lt hused h), ite_self]

/-- The closeness in full: all parts of the query are paired, and the names put together are within
the edits granted. -/
theorem partsCloseness_cases (query candidate : List Text) :
    (partsCloseness query candidate : α) = 0 ∨
      query ≠ [] ∧ query.length ≤ (pairedParts (α := α) query candidate).length ∧
        (partsCloseness query candidate : α) =
          (pairedParts query candidate).foldl (fun product p => product * p.closeness) 1 := by
  simp only [partsCloseness, Bool.or_eq_true, List.isEmpty_iff]
  split
  next => exact .inl rfl
  next hempty =>
    split
    next => exact .inl rfl
    next hpaired =>
      split
      next => exact .inr ⟨fun hq => hempty (.inl hq), Nat.not_lt.mp hpaired, rfl⟩
      next => exact .inl rfl

theorem withinEdits_self (s : Text) : withinEdits s s = true := by simp [withinEdits]

end Pairs

section Exact

variable {K : Type} [ExactScalar K] {query candidate : List Text} {ps : List (PartPair K)}

theorem descending_closeness (ps : List (PartPair K)) :
    (Scalar.descending PartPair.closeness ps).Pairwise fun p r => r.closeness ≤ p.closeness := by
  have given : ps.Pairwise fun _ _ => True := List.pairwise_of_forall fun _ _ => trivial
  have hsorted := Scalar.descending_pairwise
    (fun p _ => ExactScalar.isNumber (PartPair.closeness p)) given
  exact hsorted.imp fun h => h.elim le_of_lt fun h => h.1.2

theorem fraction_prod {as : List K} (h : ∀ a ∈ as, Scalar.Fraction a) :
    Scalar.Fraction as.prod ∧ (as.prod = 1 → ∀ a ∈ as, a = 1) := by
  induction as with
  | nil => exact ⟨Scalar.fraction_one, fun _ a ha => nomatch ha⟩
  | cons a as ih =>
    have ha : Scalar.Fraction a := h a List.mem_cons_self
    obtain ⟨hrest, hones⟩ := ih fun b hb => h b (List.mem_cons_of_mem a hb)
    have hle_left : a * as.prod ≤ a := mul_le_of_le_one_right ha.1 hrest.2
    have hle_right : a * as.prod ≤ as.prod := mul_le_of_le_one_left hrest.1 ha.2
    rw [List.prod_cons]
    refine ⟨LawfulScalar.fraction_mul ha hrest, fun hone b hb => ?_⟩
    rw [hone] at hle_left hle_right
    rcases List.mem_cons.mp hb with rfl | hb
    · exact le_antisymm ha.2 hle_left
    · exact hones (le_antisymm hrest.2 hle_right) b hb

theorem foldl_closeness (ps : List (PartPair K)) (product : K) :
    ps.foldl (fun product p => product * p.closeness) product =
      product * (ps.map PartPair.closeness).prod := by
  induction ps generalizing product with
  | nil => simp
  | cons p ps ih => rw [List.foldl_cons, ih, List.map_cons, List.prod_cons, mul_assoc]

/-- Whether the closeness of some pairs is that of their parts. -/
def Measured (ps : List (PartPair K)) : Prop :=
  ∀ p ∈ ps, p.closeness = jaroWinkler p.query p.candidate

theorem Measured.eq_one_iff {p : PartPair K} (h : Measured ps) (hp : p ∈ ps) :
    p.closeness = 1 ↔ p.query = p.candidate := by
  rw [h p hp, jaroWinkler_eq_one_iff]

theorem Measured.fraction {p : PartPair K} (h : Measured ps) (hp : p ∈ ps) :
    Scalar.Fraction p.closeness := by
  rw [h p hp]
  exact fraction_jaroWinkler p.query p.candidate

theorem measured_pairedParts (query candidate : List Text) :
    Measured (pairedParts query candidate : List (PartPair K)) :=
  fun _ hp => (mem_partPairs.mp (mem_pairedParts hp)).2.2.1

/-- Pairs, closest first, that leave nothing on the left: each part there is in a pair of equal ones
and not more often than on the right. -/
structure Exhausting (ps : List (PartPair K)) (left right : Text → Nat) : Prop where
  measured : Measured ps
  sorted : ps.Pairwise fun p r => r.closeness ≤ p.closeness
  equal : ∀ t, 0 < left t → ∃ p ∈ ps, p.query = t ∧ p.candidate = t
  enough : ∀ t, left t ≤ right t

section Exhausting

variable {left right : Text → Nat} {r : PartPair K}

theorem Exhausting.of_nil (h : Exhausting (K := K) [] left right) (t : Text) : left t = 0 := by
  by_contra hne
  obtain ⟨p, hp, _⟩ := h.equal t (Nat.pos_of_ne_zero hne)
  exact nomatch hp

/-- A pair of equal parts takes all that is there of them. -/
theorem Exhausting.of_equal (h : Exhausting (r :: ps) left right) (hr : r.query = r.candidate) :
    min (left r.query) (right r.candidate) = left r.query ∧
      Exhausting ps (without left r.query (left r.query))
        (without right r.candidate (left r.query)) := by
  refine ⟨Nat.min_eq_left (hr ▸ h.enough r.query), fun p hp => h.measured p (.tail r hp),
    (List.pairwise_cons.mp h.sorted).2, fun t ht => ?_, fun t => ?_⟩
  · have hne : t ≠ r.query := by
      rintro rfl
      rw [without_self, Nat.sub_self] at ht
      exact Nat.lt_irrefl 0 ht
    rw [without_of_ne hne] at ht
    obtain ⟨p, hp, hquery, hcandidate⟩ := h.equal t ht
    rcases List.mem_cons.mp hp with rfl | hp
    · exact absurd hquery.symm hne
    · exact ⟨p, hp, hquery, hcandidate⟩
  · by_cases ht : t = r.query
    · rw [ht, without_self, Nat.sub_self]
      exact Nat.zero_le _
    · rw [without_of_ne ht, without_of_ne (hr ▸ ht)]
      exact h.enough t

theorem Exhausting.of_different (h : Exhausting (r :: ps) left right) (hr : r.query ≠ r.candidate)
    (t : Text) : left t = 0 := by
  by_contra ht
  have hless : r.closeness ≠ 1 :=
    fun hone => hr ((h.measured.eq_one_iff List.mem_cons_self).mp hone)
  obtain ⟨p, hp, hquery, hcandidate⟩ := h.equal t (Nat.pos_of_ne_zero ht)
  have hone : p.closeness = 1 := (h.measured.eq_one_iff hp).mpr (hquery.trans hcandidate.symm)
  rcases List.mem_cons.mp hp with rfl | hp
  · exact hless hone
  · have hle := (List.pairwise_cons.mp h.sorted).1 p hp
    rw [hone] at hle
    exact hless (le_antisymm (h.measured.fraction List.mem_cons_self).2 hle)

/-- Only pairs of equal parts are used, and all that is on the left. -/
theorem spend_exhausting (h : Exhausting ps left right) :
    (∀ p ∈ spend left right ps, p.query = p.candidate) ∧
      ∀ t, ((spend left right ps).map PartPair.query).count t = left t := by
  induction ps generalizing left right with
  | nil => exact ⟨fun p hp => (nomatch hp), fun t => (h.of_nil t).symm⟩
  | cons r ps ih =>
    by_cases hr : r.query = r.candidate
    · obtain ⟨huses, hrest⟩ := h.of_equal hr
      obtain ⟨hpairs, hcount⟩ := ih hrest
      refine ⟨fun p hp => ?_, fun t => ?_⟩
      · rw [spend_cons, huses] at hp
        rcases List.mem_append.mp hp with hp | hp
        · rwa [List.eq_of_mem_replicate hp]
        · exact hpairs p hp
      · rw [count_spend_cons, huses, hcount]
        by_cases ht : t = r.query
        · rw [if_pos ht, ht, without_self]
          omega
        · rw [if_neg ht, without_of_ne ht, Nat.zero_add]
    · have hnone := h.of_different hr
      rw [spend_of_none _ hnone]
      exact ⟨fun p hp => (nomatch hp), fun t => (hnone t).symm⟩

end Exhausting

theorem exhausting_of_subperm (h : query.Subperm candidate) :
    Exhausting (Scalar.descending PartPair.closeness (partPairs query candidate : List (PartPair K)))
      query.count candidate.count where
  measured p hp := (mem_partPairs.mp ((Sorting.mem_sort _).mp hp)).2.2.1
  sorted := descending_closeness _
  equal t ht := by
    have hquery : t ∈ query := List.count_pos_iff.mp ht
    have hpair : (⟨t, t, jaroWinkler t t⟩ : PartPair K) ∈ partPairs query candidate := by
      rw [mem_partPairs]
      refine ⟨hquery, h.subset hquery, rfl, ?_, withinEdits_self t⟩
      rw [jaroWinkler_eq_one_iff.mpr rfl]
      exact zero_lt_one
    exact ⟨_, (Sorting.mem_sort _).mpr hpair, rfl, rfl⟩
  enough t := h.count_le t

theorem pairedParts_of_subperm (h : query.Subperm candidate) :
    (∀ p ∈ (pairedParts query candidate : List (PartPair K)), p.query = p.candidate) ∧
      ((pairedParts query candidate : List (PartPair K)).map PartPair.query).Perm query := by
  obtain ⟨hequal, hcount⟩ := spend_exhausting (exhausting_of_subperm (K := K) h)
  exact ⟨hequal, List.perm_iff_count.mpr hcount⟩

theorem partsCloseness_of_subperm (hquery : query ≠ []) (h : query.Subperm candidate) :
    (partsCloseness query candidate : K) = 1 := by
  obtain ⟨hequal, hperm⟩ := pairedParts_of_subperm (K := K) h
  have hcandidate : candidate ≠ [] := by
    rintro rfl
    exact hquery (List.subperm_nil.mp h)
  have hlength := hperm.length_eq
  rw [List.length_map] at hlength
  have hnames : (pairedParts query candidate : List (PartPair K)).reverse.map PartPair.query =
      (pairedParts query candidate : List (PartPair K)).reverse.map PartPair.candidate :=
    List.map_congr_left fun p hp => hequal p (List.mem_reverse.mp hp)
  have hproduct : ((pairedParts query candidate : List (PartPair K)).map PartPair.closeness).prod = 1 := by
    refine List.prod_eq_one fun a ha => ?_
    obtain ⟨p, hp, rfl⟩ := List.mem_map.mp ha
    exact ((measured_pairedParts query candidate).eq_one_iff hp).mpr (hequal p hp)
  simp [partsCloseness, hquery, hcandidate, hlength, hnames, withinEdits_self, foldl_closeness,
    hproduct]

/-- The closeness of all pairs lies in the unit interval and is 1 only if all pairs are of equal
parts. -/
theorem product_pairedParts (query candidate : List Text) :
    let pairs : List (PartPair K) := pairedParts query candidate
    Scalar.Fraction (pairs.foldl (fun product p => product * p.closeness) 1) ∧
      (pairs.foldl (fun product p => product * p.closeness) 1 = 1 →
        ∀ p ∈ pairs, p.query = p.candidate) := by
  intro pairs
  have measured : Measured pairs := measured_pairedParts query candidate
  have hfractions : ∀ a ∈ pairs.map PartPair.closeness, Scalar.Fraction a := by
    intro a ha
    obtain ⟨p, hp, rfl⟩ := List.mem_map.mp ha
    exact measured.fraction hp
  obtain ⟨hfraction, hones⟩ := fraction_prod hfractions
  rw [foldl_closeness, one_mul]
  exact ⟨hfraction, fun hone p hp =>
    (measured.eq_one_iff hp).mp (hones hone _ (List.mem_map_of_mem hp))⟩

theorem fraction_partsCloseness (query candidate : List Text) :
    Scalar.Fraction (partsCloseness query candidate : K) := by
  rcases partsCloseness_cases (α := K) query candidate with hzero | ⟨_, _, hproduct⟩
  · rw [hzero]
    exact Scalar.fraction_zero
  · rw [hproduct]
    exact (product_pairedParts query candidate).1

theorem subperm_of_partsCloseness (h : (partsCloseness query candidate : K) = 1) :
    query ≠ [] ∧ query.Subperm candidate := by
  rcases partsCloseness_cases (α := K) query candidate with hzero | ⟨hquery, hpaired, hproduct⟩
  · exact absurd (hzero.symm.trans h) zero_ne_one
  · have hequal := (product_pairedParts query candidate).2 (hproduct.symm.trans h)
    obtain ⟨hqueries, hcandidates⟩ := spend_subperm query candidate
      (Scalar.descending PartPair.closeness (partPairs query candidate : List (PartPair K)))
    have hperm := hqueries.perm_of_length_le (by rwa [List.length_map])
    have hnames : (pairedParts query candidate : List (PartPair K)).map PartPair.query =
        (pairedParts query candidate).map PartPair.candidate := List.map_congr_left hequal
    exact ⟨hquery, hperm.symm.subperm.trans (hnames ▸ hcandidates)⟩

end Exact

/-- In exact numbers the closeness of two names lies in the unit interval, hangs only on how often
each part is there, is 0 for a query without parts or with more of them than the candidate, and is 1
exactly if the parts of the query are among those of the candidate, each as often as it is there. -/
theorem partsCloseness_complete (K : Type) [ExactScalar K] (query candidate : List Text) :
    (0 ≤ (partsCloseness query candidate : K) ∧ (partsCloseness query candidate : K) ≤ 1) ∧
      (∀ query' candidate', query.Perm query' → candidate.Perm candidate' →
        (partsCloseness query' candidate' : K) = partsCloseness query candidate) ∧
      (query = [] ∨ candidate.length < query.length → (partsCloseness query candidate : K) = 0) ∧
      ((partsCloseness query candidate : K) = 1 ↔
        query ≠ [] ∧ (query : Multiset Text) ≤ (candidate : Multiset Text)) := by
  refine ⟨fraction_partsCloseness query candidate,
    fun _ _ hq hc => (partsCloseness_perm hq hc).symm, ?_, ?_⟩
  · rintro (rfl | h)
    · simp [partsCloseness]
    · exact partsCloseness_of_longer h
  · rw [Multiset.coe_le]
    exact ⟨subperm_of_partsCloseness, fun h => partsCloseness_of_subperm h.1 h.2⟩

/-- The parts of a name in another order, and a name that lacks one of them. -/
theorem complete_of_reversed :
    let given := Text.of "vladimir"
    let family := Text.of "putin"
    ([given, family].Perm [family, given] ∧
        (partsCloseness [family, given] [family] : ℚ) = partsCloseness [given, family] [family]) ∧
      ([family].length < [given, family].length ∧
        (partsCloseness [given, family] [family] : ℚ) = 0) ∧
      (partsCloseness [given, family] [family, given] : ℚ) = 1 := by
  intro given family
  obtain ⟨_, hperm, hlonger, _⟩ := partsCloseness_complete ℚ [given, family] [family]
  obtain ⟨_, _, _, hcomplete⟩ := partsCloseness_complete ℚ [given, family] [family, given]
  have hswap : [given, family].Perm [family, given] := .swap family given []
  refine ⟨⟨hswap, hperm _ _ hswap (.refl _)⟩, ⟨by decide, hlonger (.inr (by decide))⟩,
    hcomplete.mpr ⟨by simp, Multiset.coe_le.mpr hswap.subperm⟩⟩

end Screening.Similarity
