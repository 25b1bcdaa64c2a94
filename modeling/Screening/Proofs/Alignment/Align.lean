import Screening.Proofs.Alignment.Greedy
import Screening.Proofs.Scalar.Machine

namespace Screening

variable {α : Type} [Scalar α]

structure Aligner.Eligible (aligner : Aligner α) (rows columns : Nat) (similarity : Nat → Nat → α)
    (p : ValuePair α) : Prop where
  row : p.query < rows
  column : p.candidate < columns
  clamped : p.similarity = Scalar.clamp (similarity p.query p.candidate)
  positive : 0 < p.similarity
  floor : aligner.floor ≤ p.similarity

/-- The pairs of an alignment are what greedy steps take, and with the indices that stay without
partner they list each index of both sides once. -/
structure Alignment.IsGreedy (alignment : Alignment α) (rows columns : Nat)
    (similarity : Nat → Nat → α) (eligible : ValuePair α → Prop) : Prop where
  steps : ∀ pairs, ValuePair.Takes eligible [] pairs ↔ pairs = alignment.pairs
  queryOnce : (alignment.pairs.map ValuePair.query).Nodup
  candidateOnce : (alignment.pairs.map ValuePair.candidate).Nodup
  descending : alignment.pairs.Pairwise fun p r => r.similarity ≤ p.similarity
  own : ∀ p ∈ alignment.pairs, p.similarity = Scalar.clamp (similarity p.query p.candidate)
  queries : (alignment.pairs.map ValuePair.query ++ alignment.loneQuery).Perm (List.range rows)
  queriesAscend : alignment.loneQuery.Pairwise (· < ·)
  candidates :
    (alignment.pairs.map ValuePair.candidate ++ alignment.loneCandidate).Perm (List.range columns)
  candidatesAscend : alignment.loneCandidate.Pairwise (· < ·)
  noneLeft : ∀ p, eligible p →
    ¬ (p.query ∈ alignment.loneQuery ∧ p.candidate ∈ alignment.loneCandidate)

omit [Scalar α] in
theorem ValuePair.used_append_left_perm {n : Nat} {pairs : List (ValuePair α)}
    {key : ValuePair α → Nat} (nodup : (pairs.map key).Nodup) (small : ∀ p ∈ pairs, key p < n) :
    (pairs.map key ++ (List.range n).filter fun i => pairs.all fun p => key p != i).Perm
      (List.range n) := by
  have hleft (i : Nat) : (pairs.all fun p => key p != i) = true ↔ i ∉ pairs.map key := by
    simp [List.all_eq_true]
  refine (List.perm_ext_iff_of_nodup ?_ List.nodup_range).mpr fun i => ?_
  · refine List.nodup_append.mpr ⟨nodup, List.nodup_range.filter _, ?_⟩
    rintro i hused _ hi rfl
    exact (hleft i).mp (List.mem_filter.mp hi).2 hused
  · rw [List.mem_append, List.mem_filter, hleft]
    constructor
    · rintro (hused | hi)
      · obtain ⟨p, hp, rfl⟩ := List.mem_map.mp hused
        exact List.mem_range.mpr (small p hp)
      · exact hi.1
    · intro hi
      by_cases hused : i ∈ pairs.map key
      · exact .inl hused
      · exact .inr ⟨hi, hused⟩

namespace Aligner

variable {aligner : Aligner α} {rows columns : Nat} {similarity : Nat → Nat → α}

theorem mem_cells {p : ValuePair α} : p ∈ aligner.cells rows columns similarity ↔
    aligner.Eligible rows columns similarity p := by
  unfold cells
  simp only [List.mem_flatMap, List.mem_filterMap, List.mem_range, Bool.and_eq_true,
    decide_eq_true_eq, Option.ite_none_right_eq_some, Option.some.injEq]
  constructor
  · rintro ⟨q, hq, c, hc, hs, rfl⟩
    exact ⟨hq, hc, rfl, hs.1, hs.2⟩
  · rintro ⟨hq, hc, hclamp, hpos, hfloor⟩
    refine ⟨p.query, hq, p.candidate, hc, ?_, ?_⟩
    · rw [← hclamp]
      exact ⟨hpos, hfloor⟩
    · rw [← hclamp]

theorem cells_above (aligner : Aligner α) (rows columns : Nat) (similarity : Nat → Nat → α) :
    (aligner.cells rows columns similarity).Pairwise ValuePair.Above := by
  unfold cells
  refine List.pairwise_flatMap.mpr ⟨fun q _ => ?_, ?_⟩
  · refine List.pairwise_filterMap.mpr (List.pairwise_lt_range.imp ?_)
    intro c d hcd p hp r hr
    simp only [Option.ite_none_right_eq_some, Option.some.injEq] at hp hr
    obtain ⟨_, rfl⟩ := hp
    obtain ⟨_, rfl⟩ := hr
    exact .inr ⟨rfl, hcd⟩
  · refine List.pairwise_lt_range.imp ?_
    intro q q' hlt p hp r hr
    simp only [List.mem_filterMap, Option.ite_none_right_eq_some, Option.some.injEq] at hp hr
    obtain ⟨_, _, _, rfl⟩ := hp
    obtain ⟨_, _, _, rfl⟩ := hr
    exact .inl hlt

theorem Eligible.inside {p : ValuePair α} (h : aligner.Eligible rows columns similarity p) :
    p.query < rows ∧ p.candidate < columns := ⟨h.row, h.column⟩

theorem eligible_eq : aligner.Eligible rows columns similarity =
    (· ∈ aligner.cells rows columns similarity) := by
  funext p
  exact propext mem_cells.symm

variable [OrderedScalar α]

theorem align_takes (aligner : Aligner α) (rows columns : Nat) (similarity : Nat → Nat → α) :
    ValuePair.Takes (aligner.Eligible rows columns similarity) []
      (aligner.align rows columns similarity).pairs := by
  rw [eligible_eq]
  refine ValuePair.greedy_takes (cells_above ..) (fun p hp => ?_) fun p hp => ?_
  · exact OrderedScalar.right_number (Scalar.le_of_lt (mem_cells.mp hp).positive)
  · exact (mem_cells.mp hp).inside

theorem align_settles (aligner : Aligner α) (rows columns : Nat) (similarity : Nat → Nat → α) :
    ValuePair.Settles (aligner.Eligible rows columns similarity)
      (aligner.align rows columns similarity).pairs :=
  (align_takes aligner rows columns similarity).settles

theorem align_matching (aligner : Aligner α) (rows columns : Nat) (similarity : Nat → Nat → α) :
    ValuePair.Matching rows columns (aligner.align rows columns similarity).pairs where
  row p hp := ((align_settles aligner rows columns similarity).fits p hp).row
  column p hp := ((align_settles aligner rows columns similarity).fits p hp).column
  apart := (align_settles aligner rows columns similarity).apart

theorem fraction_pairs (aligner : Aligner α) (rows columns : Nat)
    (similarity : Nat → Nat → α) :
    ∀ a ∈ (aligner.align rows columns similarity).pairs.map ValuePair.similarity,
      Scalar.Fraction a := by
  intro a ha
  obtain ⟨p, hp, rfl⟩ := List.mem_map.mp ha
  have hfits := (align_settles aligner rows columns similarity).fits p hp
  refine ⟨Scalar.le_of_lt hfits.positive, ?_⟩
  rw [hfits.clamped]
  exact Scalar.clamp_le_one_of_pos (hfits.clamped ▸ hfits.positive)

theorem fraction_best (aligner : Aligner α) (rows columns : Nat)
    (similarity : Nat → Nat → α) : Scalar.Fraction (aligner.align rows columns similarity).best := by
  have hpairs := fraction_pairs aligner rows columns similarity
  unfold Alignment.best
  split
  next => exact Scalar.fraction_zero
  next p _ hsplit =>
    rw [hsplit] at hpairs
    exact hpairs p.similarity List.mem_cons_self

/-- Sorting the pairs once and passing over them once is the greedy procedure. -/
theorem align_isGreedy (aligner : Aligner α) (rows columns : Nat) (similarity : Nat → Nat → α) :
    (aligner.align rows columns similarity).IsGreedy rows columns similarity
      (aligner.Eligible rows columns similarity) := by
  have htakes := align_takes aligner rows columns similarity
  have hsettles := align_settles aligner rows columns similarity
  have hmatching := align_matching aligner rows columns similarity
  refine
    { steps := fun pairs => ⟨fun h => h.unique htakes, fun h => h ▸ htakes⟩
      queryOnce := hmatching.queries_nodup
      candidateOnce := hmatching.candidates_nodup
      descending := htakes.ordered.imp fun hbeats => hbeats.elim Scalar.le_of_lt fun h => h.1.2
      own := fun p hp => (hsettles.fits p hp).clamped
      queries := ValuePair.used_append_left_perm hmatching.queries_nodup hmatching.row
      queriesAscend := List.pairwise_lt_range.filter _
      candidates := ValuePair.used_append_left_perm hmatching.candidates_nodup hmatching.column
      candidatesAscend := List.pairwise_lt_range.filter _
      noneLeft := ?_ }
  rintro p hp ⟨hquery, hcandidate⟩
  have hq := List.all_eq_true.mp (List.mem_filter.mp hquery).2
  have hc := List.all_eq_true.mp (List.mem_filter.mp hcandidate).2
  have hclash : ∃ r ∈ (aligner.align rows columns similarity).pairs, r.Clashes p := by
    rcases hsettles.beaten p hp with hin | ⟨r, hr, hclash, _⟩
    · exact ⟨p, hin, ValuePair.Clashes.refl p⟩
    · exact ⟨r, hr, hclash⟩
  obtain ⟨r, hr, heq | heq⟩ := hclash
  · exact absurd heq (by simpa using hq r hr)
  · exact absurd heq (by simpa using hc r hr)

theorem align_isGreedy_of_ties :
    let alignment := (clamped (0.05 : Float) 0.5).align 2 3 fun q c => if q = c then 0.9 else 0.8
    alignment.IsGreedy 2 3 (fun q c => if q = c then 0.9 else 0.8)
        ((clamped (0.05 : Float) 0.5).Eligible 2 3 fun q c => if q = c then 0.9 else 0.8) ∧
      alignment.pairs.map (fun p => (p.query, p.candidate)) = [(0, 0), (1, 1)] ∧
      alignment.loneCandidate = [2] :=
  ⟨align_isGreedy .., by decide +kernel, by decide +kernel⟩

end Aligner

end Screening
