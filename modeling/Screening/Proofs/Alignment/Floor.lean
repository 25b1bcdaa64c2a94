import Screening.Proofs.Alignment.Align

namespace Screening

/-- If only the worse pairs are kept back, the first steps stay as they are and no other ones follow. -/
theorem ValuePair.Takes.split_kept {α : Type} [Scalar α] {eligible keep : ValuePair α → Prop}
    {taken next : List (ValuePair α)} (h : Takes eligible taken next)
    (upward : ∀ p r, p.Beats r → keep r → keep p) :
    ∃ first rest, next = first ++ rest ∧ Takes (fun p => eligible p ∧ keep p) taken first ∧
      ∀ p ∈ rest, ¬ keep p := by
  induction h with
  | stop full => exact ⟨[], [], rfl, .stop fun p hp => full p hp.1, List.forall_mem_nil _⟩
  | @take taken next p fits free best rest ih =>
    by_cases hp : keep p
    · obtain ⟨first, last, rfl, htakes, hlast⟩ := ih
      exact ⟨p :: first, last, rfl, .take ⟨fits, hp⟩ free (fun r hr => best r hr.1) htakes, hlast⟩
    · have hordered := (Takes.take fits free best rest).ordered
      refine ⟨[], p :: next, rfl, .stop fun r hr => ?_, List.forall_mem_cons.mpr ⟨hp, ?_⟩⟩
      · by_contra hfree
        rcases best r hr.1 fun t ht hclash => hfree ⟨t, ht, hclash⟩ with rfl | hbeats
        · exact hp hr.2
        · exact hp (upward p r hbeats hr.2)
      · intro r hr hkeep
        exact hp (upward p r ((List.pairwise_cons.mp hordered).1 r hr) hkeep)

namespace Aligner

variable {α : Type} [Scalar α] [OrderedScalar α] {aligner : Aligner α} {rows columns : Nat}
  {similarity : Nat → Nat → α} {floor : α}

theorem eligible_floor (h : aligner.floor ≤ floor) (p : ValuePair α) :
    Eligible { aligner with floor } rows columns similarity p ↔
      aligner.Eligible rows columns similarity p ∧ floor ≤ p.similarity := by
  constructor
  · intro hp
    exact ⟨⟨hp.row, hp.column, hp.clamped, hp.positive, Scalar.le_trans h hp.floor⟩, hp.floor⟩
  · rintro ⟨hp, hfloor⟩
    exact ⟨hp.row, hp.column, hp.clamped, hp.positive, hfloor⟩

/-- Under a higher floor the first of the pairs are chosen, in the same order: those that reach it. -/
theorem align_higher_floor (rows columns : Nat) (similarity : Nat → Nat → α)
    (h : aligner.floor ≤ floor) :
    let low := aligner.align rows columns similarity
    let high := Aligner.align { aligner with floor } rows columns similarity
    ∃ weaker, low.pairs = high.pairs ++ weaker ∧ (∀ p ∈ high.pairs, floor ≤ p.similarity) ∧
      ∀ p ∈ weaker, p.similarity < floor := by
  intro low high
  have hupward (p r : ValuePair α) (hbeats : p.Beats r) (hr : floor ≤ r.similarity) :
      floor ≤ p.similarity :=
    Scalar.le_trans hr (hbeats.elim Scalar.le_of_lt fun hties => hties.1.2)
  have hlow := align_takes aligner rows columns similarity
  have hhigh := align_takes { aligner with floor } rows columns similarity
  obtain ⟨first, weaker, hsplit, hfirst, hweaker⟩ := hlow.split_kept hupward
  obtain rfl := hfirst.unique (hhigh.congr (eligible_floor h))
  refine ⟨weaker, hsplit, fun p hp => (hhigh.fits p hp).floor, fun p hp => ?_⟩
  have hfits := hlow.fits p (hsplit ▸ List.mem_append_right _ hp)
  have hnumber := OrderedScalar.right_number (Scalar.le_of_lt hfits.positive)
  exact Scalar.lt_of_not_le hnumber (OrderedScalar.right_number h) (hweaker p hp)

theorem align_higher_floor_of_ties :
    let aligner : Aligner Float := clamped 0.05 0.5
    let matrix := [[0.75, 0.5, 0.5], [0.5, 0.5, 0.125], [0.5, 0.125, 0.25]]
    let low := aligner.alignMatrix matrix
    let high := Aligner.alignMatrix { aligner with floor := 0.5 } matrix
    low.pairs.map (fun p => (p.query, p.candidate)) = [(0, 0), (1, 1), (2, 2)] ∧
      high.pairs.map (fun p => (p.query, p.candidate)) = [(0, 0), (1, 1)] ∧ aligner.floor ≤ 0.5 ∧
      ∃ weaker, low.pairs = high.pairs ++ weaker ∧ (∀ p ∈ high.pairs, 0.5 ≤ p.similarity) ∧
        ∀ p ∈ weaker, p.similarity < 0.5 := by
  refine ⟨by decide +kernel, by decide +kernel, by decide +kernel, ?_⟩
  exact align_higher_floor _ _ _ (by decide +kernel)

end Aligner

end Screening
