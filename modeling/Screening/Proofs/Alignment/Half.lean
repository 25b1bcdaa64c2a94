import Screening.Proofs.Scalar.Exact
import Screening.Proofs.Alignment.Align

namespace Screening

namespace ValuePair

theorem length_le_two {α : Type} {r : ValuePair α} {pairs : List (ValuePair α)}
    (apart : pairs.Pairwise fun p t => ¬ p.Clashes t) (clash : ∀ p ∈ pairs, r.Clashes p) :
    pairs.length ≤ 2 := by
  rcases pairs with _ | ⟨p, _ | ⟨t, _ | ⟨u, rest⟩⟩⟩
  · simp
  · simp
  · simp
  · simp only [List.pairwise_cons, List.forall_mem_cons, Clashes, not_or] at apart clash
    omega

variable {K : Type} [ExactScalar K] {r : ValuePair K} {pairs chosen : List (ValuePair K)}

def total (pairs : List (ValuePair K)) : K := (pairs.map similarity).sum

/-- Whether a pair that is chosen is reason enough to leave another one out. -/
def RulesOut (r p : ValuePair K) : Prop := r.Clashes p ∧ p.similarity ≤ r.similarity

theorem total_cons (p : ValuePair K) (pairs : List (ValuePair K)) :
    total (p :: pairs) = p.similarity + total pairs := List.sum_cons

theorem total_perm {others : List (ValuePair K)} (h : pairs.Perm others) :
    total pairs = total others := (h.map similarity).sum_eq

theorem total_append (pairs others : List (ValuePair K)) :
    total (pairs ++ others) = total pairs + total others := by
  rw [total, List.map_append, List.sum_append, total, total]

theorem total_le_of_ruledOut_by (hr : 0 ≤ r.similarity)
    (apart : pairs.Pairwise fun p t => ¬ p.Clashes t) (h : ∀ p ∈ pairs, r.RulesOut p) :
    total pairs ≤ 2 * r.similarity := by
  have hlength : pairs.length ≤ 2 := length_le_two apart fun p hp => (h p hp).1
  have hbound : ∀ a ∈ pairs.map similarity, a ≤ r.similarity :=
    List.forall_mem_map.mpr fun p hp => (h p hp).2
  calc total pairs
      ≤ (pairs.map similarity).length • r.similarity := List.sum_le_card_nsmul _ _ hbound
    _ ≤ 2 • r.similarity := by
        rw [List.length_map]
        exact nsmul_le_nsmul_left hr hlength
    _ = 2 * r.similarity := nsmul_eq_mul 2 _

/-- Each pair is charged to one of those that rule it out, and none of these is charged for more than
two. -/
theorem total_le_of_ruledOut (hchosen : ∀ r ∈ chosen, 0 ≤ r.similarity)
    (apart : pairs.Pairwise fun p t => ¬ p.Clashes t)
    (h : ∀ p ∈ pairs, ∃ r ∈ chosen, r.RulesOut p) : total pairs ≤ 2 * total chosen := by
  classical
  induction chosen generalizing pairs with
  | nil =>
    have hnone : pairs = [] := List.eq_nil_iff_forall_not_mem.mpr fun p hp => by simpa using h p hp
    rw [hnone, total, List.map_nil, List.sum_nil, mul_zero]
  | cons r chosen ih =>
    obtain ⟨hr, hrest⟩ := List.forall_mem_cons.mp hchosen
    let own := pairs.filter fun p => r.RulesOut p
    let others := pairs.filter fun p => !decide (r.RulesOut p)
    have hsplit : (own ++ others).Perm pairs := List.filter_append_perm _ pairs
    have hown : total own ≤ 2 * r.similarity :=
      total_le_of_ruledOut_by hr (apart.filter _) fun p hp => by simpa using (List.mem_filter.mp hp).2
    have hothers : total others ≤ 2 * total chosen := by
      refine ih hrest (apart.filter _) fun p hp => ?_
      obtain ⟨hp, hfree⟩ := List.mem_filter.mp hp
      obtain ⟨t, ht, hout⟩ := h p hp
      rcases List.mem_cons.mp ht with rfl | ht
      · simp [hout] at hfree
      · exact ⟨t, ht, hout⟩
    rw [← total_perm hsplit, total_append, total_cons, mul_add]
    exact add_le_add hown hothers

end ValuePair

namespace Aligner

variable {K : Type} [ExactScalar K]

/-- No other pairing of values that may be paired is worth more than twice the chosen pairs. -/
theorem align_half_of_any (aligner : Aligner K) (rows columns : Nat) (similarity : Nat → Nat → K)
    {others : List (ValuePair K)}
    (fits : ∀ p ∈ others, aligner.Eligible rows columns similarity p)
    (apart : others.Pairwise fun p t => ¬ p.Clashes t) :
    ValuePair.total others / 2 ≤ ValuePair.total (aligner.align rows columns similarity).pairs := by
  have hsettles := aligner.align_settles rows columns similarity
  have hout : ∀ p ∈ others, ∃ r ∈ (aligner.align rows columns similarity).pairs, r.RulesOut p := by
    intro p hp
    rcases hsettles.beaten p (fits p hp) with hin | ⟨r, hr, hclash, hbeats⟩
    · exact ⟨p, hin, ValuePair.Clashes.refl p, le_refl _⟩
    · exact ⟨r, hr, hclash, hbeats.elim le_of_lt fun h => h.1.2⟩
  have htwice := ValuePair.total_le_of_ruledOut
    (fun r hr => (hsettles.fits r hr).positive.le) apart hout
  linarith

/-- The best pair rules out two others that are almost as good. -/
theorem align_half_of_any_of_crossing :
    let aligner : Aligner ℚ := clamped (1 / 20) (1 / 2)
    let similarity : Nat → Nat → ℚ := fun q c =>
      if q + c = 0 then 1 else if q + c = 1 then 9 / 10 else 0
    let others : List (ValuePair ℚ) := [⟨0, 1, 9 / 10⟩, ⟨1, 0, 9 / 10⟩]
    let chosen := (aligner.align 2 2 similarity).pairs
    ((∀ p ∈ others, aligner.Eligible 2 2 similarity p) ∧
        others.Pairwise fun p t => ¬ p.Clashes t) ∧
      chosen.map (fun p => (p.query, p.candidate)) = [(0, 0)] ∧
      ValuePair.total others = 9 / 5 ∧ ValuePair.total others / 2 ≤ ValuePair.total chosen := by
  intro aligner similarity others chosen
  have fits : ∀ p ∈ others, aligner.Eligible 2 2 similarity p := by
    refine List.forall_mem_cons.mpr ⟨?_, List.forall_mem_singleton.mpr ?_⟩
    · exact ⟨by decide, by decide, by decide +kernel, by decide +kernel, by decide +kernel⟩
    · exact ⟨by decide, by decide, by decide +kernel, by decide +kernel, by decide +kernel⟩
  have apart : others.Pairwise fun p t => ¬ p.Clashes t :=
    List.pairwise_pair.mpr (by simp [ValuePair.Clashes])
  exact ⟨⟨fits, apart⟩, by decide +kernel, by decide +kernel,
    align_half_of_any aligner 2 2 similarity fits apart⟩

end Aligner

end Screening
