import Screening.Proofs.Alignment.Aggregate
import Screening.Proofs.Alignment.Align
import Screening.Proofs.Scalar.Faithful

namespace Screening.Aligner

variable {α : Type} [Scalar α] {aligner : Aligner α} {rows columns : Nat}
  {similarity : Nat → Nat → α}

theorem aggregate_align (aligner : Aligner α) (rows columns : Nat) (similarity : Nat → Nat → α) :
    (aligner.align rows columns similarity).aggregate = aligner.aggregate
      ((aligner.align rows columns similarity).pairs.map ValuePair.similarity) := rfl

theorem exists_best (h : (aligner.align rows columns similarity).pairs ≠ []) :
    ∃ p ∈ (aligner.align rows columns similarity).pairs,
      p.similarity = (aligner.align rows columns similarity).best := by
  unfold Alignment.best
  split
  next hnil => exact absurd hnil h
  next first rest hpairs => exact ⟨first, hpairs ▸ List.mem_cons_self, rfl⟩

section Order

variable [OrderedScalar α]

theorem le_best_of_mem {p : ValuePair α}
    (h : p ∈ (aligner.align rows columns similarity).pairs) :
    p.similarity ≤ (aligner.align rows columns similarity).best := by
  have hgreedy := aligner.align_isGreedy rows columns similarity
  unfold Alignment.best
  split
  next hnil =>
    rw [hnil] at h
    exact nomatch h
  next first rest hpairs =>
    have hordered := hgreedy.descending
    rw [hpairs] at h hordered
    rcases List.mem_cons.mp h with rfl | hrest
    · exact OrderedScalar.right_number
        (Scalar.le_of_lt ((aligner.align_settles rows columns similarity).fits p
          (hpairs ▸ List.mem_cons_self)).positive)
    · exact (List.pairwise_cons.mp hordered).1 p hrest

/-- A pair that may be chosen is chosen, or gives way to one that is not less similar. -/
theorem le_best_of_eligible {p : ValuePair α} (h : aligner.Eligible rows columns similarity p) :
    p.similarity ≤ (aligner.align rows columns similarity).best := by
  rcases (aligner.align_settles rows columns similarity).beaten p h with hin | ⟨r, hr, _, hbeats⟩
  · exact le_best_of_mem hin
  · exact Scalar.le_trans (hbeats.elim Scalar.le_of_lt fun h => h.1.2) (le_best_of_mem hr)

theorem pairs_eq_nil_iff : (aligner.align rows columns similarity).pairs = [] ↔
    ¬ ∃ p, aligner.Eligible rows columns similarity p := by
  have hsettles := aligner.align_settles rows columns similarity
  constructor
  · rintro hnil ⟨p, hp⟩
    rcases hsettles.beaten p hp with hin | ⟨r, hr, _⟩
    · exact nomatch hnil ▸ hin
    · exact nomatch hnil ▸ hr
  · exact fun hnone =>
      List.eq_nil_iff_forall_not_mem.mpr fun p hp => hnone ⟨p, hsettles.fits p hp⟩

end Order

/-- Only a pair that is worth 1 itself rules out another one. -/
theorem one_mem_pairs [AntisymmScalar α] (hfloor : aligner.floor ≤ 1) {i j : Nat} (hi : i < rows)
    (hj : j < columns) (h : similarity i j = 1) :
    1 ∈ (aligner.align rows columns similarity).pairs.map ValuePair.similarity := by
  have heligible : aligner.Eligible rows columns similarity ⟨i, j, 1⟩ :=
    ⟨hi, hj, by rw [h, Scalar.clamp_one], Scalar.zero_lt_one, hfloor⟩
  rcases (aligner.align_settles rows columns similarity).beaten _ heligible with
    hin | ⟨r, hr, _, hbeats⟩
  · exact List.mem_map_of_mem hin
  · have hmem := List.mem_map_of_mem (f := ValuePair.similarity) hr
    have hle : 1 ≤ r.similarity := hbeats.elim Scalar.le_of_lt fun h => h.1.2
    have hmost := (aligner.fraction_pairs rows columns similarity _ hmem).2
    rwa [← AntisymmScalar.eq_of_ties Scalar.zero_lt_one ⟨hle, hmost⟩] at hmem

theorem best_eq_one [AntisymmScalar α] (hfloor : aligner.floor ≤ 1) {i j : Nat} (hi : i < rows)
    (hj : j < columns) (h : similarity i j = 1) :
    (aligner.align rows columns similarity).best = 1 := by
  obtain ⟨p, hp, hone⟩ := List.mem_map.mp (one_mem_pairs hfloor hi hj h)
  have hle := le_best_of_mem hp
  rw [hone] at hle
  have hmost := (aligner.fraction_best rows columns similarity).2
  exact (AntisymmScalar.eq_of_ties Scalar.zero_lt_one ⟨hle, hmost⟩).symm

section Faithful

variable [FaithfulScalar α]

theorem aggregate_eq_one (ht : Scalar.Fraction aligner.support) {as : List α}
    (hfractions : ∀ a ∈ as, Scalar.Fraction a) (h : (1 : α) ∈ as) : aligner.aggregate as = 1 := by
  obtain ⟨greatest, hget, hmax⟩ :=
    strongest_spec (List.ne_nil_of_mem h) fun a ha => (hfractions a ha).isNumber
  have hgreatest := hfractions greatest (List.mem_of_getElem? hget)
  obtain rfl : 1 = greatest :=
    AntisymmScalar.eq_of_ties Scalar.zero_lt_one ⟨hmax 1 h, hgreatest.2⟩
  have hothers : ∀ a ∈ as.eraseIdx (strongest as), Scalar.Fraction a := fun a ha =>
    hfractions a (List.mem_of_mem_eraseIdx ha)
  unfold aggregate
  simp only [hget, Scalar.clamp_one, foldl_clamp hothers]
  split
  next => rfl
  next hne =>
    have hrest : as.eraseIdx (strongest as) ≠ [] :=
      List.isEmpty_eq_false_iff.mp (Bool.eq_false_iff.mpr hne)
    have hmean := LawfulScalar.within_mean hrest hothers
    have hroom : Scalar.Ties ((1 - 1) * aligner.support) 0 :=
      FaithfulScalar.zero_mul (Nat.zero_le 60) FaithfulScalar.one_sub_one (ht.within (by omega))
    have hlift := FaithfulScalar.one_add (FaithfulScalar.zero_mul (by omega) hroom hmean)
    rw [← AntisymmScalar.eq_of_ties Scalar.zero_lt_one hlift.symm, Scalar.clamp_one]

theorem aggregate_align_eq_one (hfloor : aligner.floor ≤ 1) (ht : Scalar.Fraction aligner.support)
    {i j : Nat} (hi : i < rows) (hj : j < columns) (h : similarity i j = 1) :
    (aligner.align rows columns similarity).aggregate = 1 :=
  aggregate_eq_one ht (aligner.fraction_pairs rows columns similarity)
    (one_mem_pairs hfloor hi hj h)

end Faithful

variable {K : Type} [ExactScalar K] {aligner : Aligner K} {similarity : Nat → Nat → K}

theorem aggregate_pos (ht : Scalar.Fraction aligner.support) {as : List K} (hne : as ≠ [])
    (hfractions : ∀ a ∈ as, Scalar.Fraction a) (hpos : ∀ a ∈ as, 0 < a) :
    0 < aligner.aggregate as := by
  obtain ⟨a, ha⟩ := List.exists_mem_of_ne_nil as hne
  exact lt_of_lt_of_le (hpos a ha) (le_aggregate hfractions ht a ha)

theorem aggregate_align_pos_iff (ht : Scalar.Fraction aligner.support) :
    0 < (aligner.align rows columns similarity).aggregate ↔
      ∃ p, aligner.Eligible rows columns similarity p := by
  have hsettles := aligner.align_settles rows columns similarity
  constructor
  · intro hpos
    by_contra hnone
    rw [aggregate_align, pairs_eq_nil_iff.mpr hnone] at hpos
    exact lt_irrefl 0 hpos
  · rintro ⟨p, hp⟩
    have hsome : (aligner.align rows columns similarity).pairs ≠ [] :=
      fun hnil => pairs_eq_nil_iff.mp hnil ⟨p, hp⟩
    rw [aggregate_align]
    refine aggregate_pos ht (mt List.map_eq_nil_iff.mp hsome)
      (aligner.fraction_pairs rows columns similarity) fun a ha => ?_
    obtain ⟨t, ht, rfl⟩ := List.mem_map.mp ha
    exact (hsettles.fits t ht).positive

theorem best_le_aggregate (ht : Scalar.Fraction aligner.support) :
    (aligner.align rows columns similarity).best ≤
      (aligner.align rows columns similarity).aggregate := by
  by_cases hnil : (aligner.align rows columns similarity).pairs = []
  · rw [Alignment.best, aggregate_align, hnil]
    exact le_refl 0
  · obtain ⟨p, hp, hbest⟩ := exists_best hnil
    rw [← hbest, aggregate_align]
    exact le_aggregate (aligner.fraction_pairs rows columns similarity) ht _
      (List.mem_map_of_mem hp)

def worths (rows columns : Nat) (similarity : Nat → Nat → K) : Set K :=
  {s | ∃ q < rows, ∃ c < columns, Scalar.clamp (similarity q c) = s}

theorem Eligible.mem_worths {p : ValuePair K} (h : aligner.Eligible rows columns similarity p) :
    p.similarity ∈ worths rows columns similarity :=
  ⟨p.query, h.row, p.candidate, h.column, h.clamped.symm⟩

section Greatest

variable {m : K} (h : IsGreatest (worths rows columns similarity) m)

include h

/-- Whether any values are paired is told by the most similar ones. -/
theorem pairs_eq_nil_of_greatest (aligner : Aligner K) :
    (aligner.align rows columns similarity).pairs = [] ↔ ¬ (0 < m ∧ aligner.floor ≤ m) := by
  rw [pairs_eq_nil_iff, not_iff_not]
  constructor
  · rintro ⟨p, hp⟩
    have hle : p.similarity ≤ m := h.2 hp.mem_worths
    exact ⟨lt_of_lt_of_le hp.positive hle, le_trans hp.floor hle⟩
  · rintro ⟨hpos, hfloor⟩
    obtain ⟨q, hq, c, hc, rfl⟩ := h.1
    exact ⟨⟨q, c, _⟩, hq, hc, rfl, hpos, hfloor⟩

/-- The best pair is as similar as any two values are, unless that is below the floor. -/
theorem best_of_greatest (aligner : Aligner K) :
    (aligner.align rows columns similarity).best = if 0 < m ∧ aligner.floor ≤ m then m else 0 := by
  have hnil := pairs_eq_nil_of_greatest h aligner
  split
  next hm =>
    obtain ⟨q, hq, c, hc, heq⟩ := h.1
    have hreached : m ≤ (aligner.align rows columns similarity).best :=
      le_best_of_eligible (p := ⟨q, c, m⟩) ⟨hq, hc, heq.symm, hm.1, hm.2⟩
    obtain ⟨p, hp, hbest⟩ := exists_best fun hnone => hnil.mp hnone hm
    have hmost : p.similarity ≤ m :=
      h.2 ((aligner.align_settles rows columns similarity).fits p hp).mem_worths
    exact le_antisymm (hbest ▸ hmost) hreached
  next hm => rw [Alignment.best, hnil.mpr hm]

theorem aggregate_of_greatest (ht : Scalar.Fraction aligner.support) :
    if 0 < m ∧ aligner.floor ≤ m then m ≤ (aligner.align rows columns similarity).aggregate
    else (aligner.align rows columns similarity).aggregate = 0 := by
  split
  next hm =>
    have hbest := best_of_greatest h aligner
    rw [if_pos hm] at hbest
    exact hbest ▸ best_le_aggregate ht
  next hm =>
    rw [aggregate_align, (pairs_eq_nil_of_greatest h aligner).mpr hm]
    rfl

end Greatest

end Screening.Aligner
