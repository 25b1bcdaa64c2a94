import Screening.Proofs.Alignment.Aggregate
import Screening.Proofs.Alignment.Align

namespace Screening

namespace ValuePair

variable {α : Type} {p r : ValuePair α} {s : α}

def index (p : ValuePair α) : Nat × Nat := (p.query, p.candidate)

/-- A pair with the similarity `s` if it is that of the indices of `p`, and as it is otherwise. -/
def raise (p : ValuePair α) (s : α) (r : ValuePair α) : ValuePair α :=
  if r.index = p.index then { r with similarity := s } else r

@[simp] theorem index_raise (p : ValuePair α) (s : α) (r : ValuePair α) :
    (p.raise s r).index = r.index := by
  unfold raise
  split <;> rfl

theorem clashes_iff_index :
    p.Clashes r ↔ p.index.1 = r.index.1 ∨ p.index.2 = r.index.2 := Iff.rfl

theorem clashes_of_index (h : p.index = r.index) : p.Clashes r := .inl (congrArg Prod.fst h)

theorem raise_clashes_iff {t : ValuePair α} :
    (p.raise s r).Clashes (p.raise s t) ↔ r.Clashes t := by
  rw [clashes_iff_index, clashes_iff_index, index_raise, index_raise]

theorem raise_of_ne (h : r.index ≠ p.index) : p.raise s r = r := if_neg h

theorem similarity_raise_of_eq (h : r.index = p.index) : (p.raise s r).similarity = s := by
  unfold raise
  rw [if_pos h]

theorem eq_of_index (h : p.index = r.index) (k : p.similarity = r.similarity) : p = r := by
  cases p
  cases r
  cases h
  cases k
  rfl

variable [Scalar α] [OrderedScalar α]

theorem Beats.of_raised {t : ValuePair α} (h : r.Beats t) (hindex : p.index = r.index)
    (hup : r.similarity ≤ p.similarity) : p.Beats t := by
  rcases h with h | ⟨h, above⟩
  · exact .inl (Scalar.lt_of_lt_of_le h hup)
  · have hle := Scalar.le_trans h.2 hup
    by_cases hback : p.similarity ≤ t.similarity
    · refine .inr ⟨⟨hback, hle⟩, ?_⟩
      cases p
      cases r
      cases hindex
      exact above
    · exact .inl (OrderedScalar.lt_iff.mpr ⟨hle, hback⟩)

end ValuePair

def setEntry {α : Type} (similarity : Nat → Nat → α) (q c : Nat) (v : α) : Nat → Nat → α :=
  fun i j => if (i, j) = (q, c) then v else similarity i j

namespace Aligner

variable {α : Type} [Scalar α] {aligner : Aligner α} {rows columns : Nat}
  {similarity : Nat → Nat → α} {p : ValuePair α} {v : α}

theorem eligible_setEntry_of_ne {r : ValuePair α} (h : r.index ≠ p.index) :
    aligner.Eligible rows columns (setEntry similarity p.query p.candidate v) r ↔
      aligner.Eligible rows columns similarity r := by
  have hentry : setEntry similarity p.query p.candidate v r.query r.candidate =
      similarity r.query r.candidate := if_neg h
  constructor
  · intro hr
    exact ⟨hr.row, hr.column, hentry ▸ hr.clamped, hr.positive, hr.floor⟩
  · intro hr
    exact ⟨hr.row, hr.column, hentry.symm ▸ hr.clamped, hr.positive, hr.floor⟩

theorem similarity_setEntry_of_eq {r : ValuePair α} (h : r.index = p.index)
    (hr : aligner.Eligible rows columns (setEntry similarity p.query p.candidate v) r) :
    r.similarity = Scalar.clamp v := by
  have hentry : setEntry similarity p.query p.candidate v r.query r.candidate = v := if_pos h
  rw [hr.clamped, hentry]

variable [OrderedScalar α]

theorem eligible_raise {r : ValuePair α} (hr : aligner.Eligible rows columns similarity r)
    (hup : similarity p.query p.candidate ≤ v) :
    aligner.Eligible rows columns (setEntry similarity p.query p.candidate v)
      (p.raise (Scalar.clamp v) r) := by
  by_cases h : r.index = p.index
  · have hentry : setEntry similarity p.query p.candidate v r.query r.candidate = v := if_pos h
    have hsame : similarity r.query r.candidate = similarity p.query p.candidate := by
      cases p
      cases r
      cases h
      rfl
    have hle : r.similarity ≤ Scalar.clamp v := by
      rw [hr.clamped, hsame]
      exact Scalar.clamp_mono hup
    unfold ValuePair.raise
    rw [if_pos h]
    exact ⟨hr.row, hr.column, by rw [hentry], Scalar.lt_of_lt_of_le hr.positive hle,
      Scalar.le_trans hr.floor hle⟩
  · rw [ValuePair.raise_of_ne h]
    exact (eligible_setEntry_of_ne h).mpr hr

/-- The chosen pairs settle the others as before when one of them is raised. -/
theorem settles_raise {pairs : List (ValuePair α)}
    (settled : ValuePair.Settles (aligner.Eligible rows columns similarity) pairs) (hp : p ∈ pairs)
    (hup : similarity p.query p.candidate ≤ v) :
    ValuePair.Settles (aligner.Eligible rows columns (setEntry similarity p.query p.candidate v))
      (pairs.map (p.raise (Scalar.clamp v))) where
  fits := by
    intro r hr
    obtain ⟨t, ht, rfl⟩ := List.mem_map.mp hr
    exact eligible_raise (settled.fits t ht) hup
  apart := List.pairwise_map.mpr
    (settled.apart.imp fun hapart hclash => hapart (ValuePair.raise_clashes_iff.mp hclash))
  beaten := by
    intro r hr
    by_cases h : r.index = p.index
    · left
      refine List.mem_map.mpr ⟨p, hp, ValuePair.eq_of_index ?_ ?_⟩
      · rw [ValuePair.index_raise, h]
      · rw [ValuePair.similarity_raise_of_eq rfl, similarity_setEntry_of_eq h hr]
    · have hr := (eligible_setEntry_of_ne h).mp hr
      rcases settled.beaten r hr with hin | ⟨t, ht, hclash, hbeats⟩
      · exact .inl (List.mem_map.mpr ⟨r, hin, ValuePair.raise_of_ne h⟩)
      · refine .inr ⟨p.raise (Scalar.clamp v) t, List.mem_map_of_mem ht, ?_, ?_⟩
        · rw [← ValuePair.raise_of_ne (s := Scalar.clamp v) h]
          exact ValuePair.raise_clashes_iff.mpr hclash
        · refine hbeats.of_raised (ValuePair.index_raise ..) ?_
          by_cases hindex : t.index = p.index
          · obtain rfl := ValuePair.eq_of_clashes settled.apart ht hp
              (ValuePair.clashes_of_index hindex)
            rw [ValuePair.similarity_raise_of_eq rfl, (settled.fits t ht).clamped]
            exact Scalar.clamp_mono hup
          · rw [ValuePair.raise_of_ne hindex]
            exact OrderedScalar.right_number (Scalar.le_of_lt (settled.fits t ht).positive)

theorem align_raise (hp : p ∈ (aligner.align rows columns similarity).pairs)
    (hup : similarity p.query p.candidate ≤ v) :
    (aligner.align rows columns (setEntry similarity p.query p.candidate v)).pairs.Perm
      ((aligner.align rows columns similarity).pairs.map (p.raise (Scalar.clamp v))) :=
  (align_takes ..).perm_settled (settles_raise (align_settles ..) hp hup)

theorem exists_rest (hp : p ∈ (aligner.align rows columns similarity).pairs) :
    ∃ rest, (aligner.align rows columns similarity).pairs.Perm (p :: rest) ∧
      ∀ s, rest.map (p.raise s) = rest := by
  obtain ⟨before, after, heq⟩ := List.append_of_mem hp
  have hperm : (aligner.align rows columns similarity).pairs.Perm (p :: (before ++ after)) := by
    rw [heq]
    exact List.perm_middle
  refine ⟨before ++ after, hperm, fun s => ?_⟩
  have hapart := (hperm.pairwise_iff fun hpr hrp => hpr hrp.symm).mp (align_matching ..).apart
  have hother (r : ValuePair α) (hr : r ∈ before ++ after) : p.raise s r = r := by
    refine ValuePair.raise_of_ne fun hindex => ?_
    exact (List.pairwise_cons.mp hapart).1 r hr (ValuePair.clashes_of_index hindex.symm)
  rw [List.map_congr_left hother, List.map_id']

end Aligner

namespace Aligner

variable {K : Type} [ExactScalar K] {aligner : Aligner K} {rows columns : Nat}
  {similarity : Nat → Nat → K}

/-- Where a chosen pair becomes more similar, the same indices are paired and the aggregate does not
fall. -/
theorem align_mono_of_chosen {q c : Nat} {v : K}
    (ht : 0 ≤ aligner.support ∧ aligner.support ≤ 1)
    (chosen : (q, c) ∈ (aligner.align rows columns similarity).pairs.map ValuePair.index)
    (hup : similarity q c ≤ v) :
    let old := aligner.align rows columns similarity
    let new := aligner.align rows columns (setEntry similarity q c v)
    (new.pairs.map ValuePair.index).Perm (old.pairs.map ValuePair.index) ∧
      old.aggregate ≤ new.aggregate := by
  obtain ⟨p, hp, hindex⟩ := List.mem_map.mp chosen
  obtain ⟨rfl, rfl⟩ := Prod.mk.inj hindex
  have hraise := align_raise hp hup
  obtain ⟨rest, hrest, hkeep⟩ := exists_rest hp
  have hnew := hraise.trans (hrest.map _)
  rw [List.map_cons, hkeep] at hnew
  constructor
  · have h := hraise.map ValuePair.index
    have hkept : ValuePair.index ∘ p.raise (Scalar.clamp v) = ValuePair.index :=
      funext (ValuePair.index_raise p _)
    rwa [List.map_map, hkept] at h
  · refine aggregate_mono (fraction_pairs _ _ _ _) (fraction_pairs _ _ _ _) ht
      (hrest.map ValuePair.similarity) (hnew.map ValuePair.similarity) ?_
    have hfits := (align_settles aligner rows columns similarity).fits p hp
    rw [ValuePair.similarity_raise_of_eq rfl, hfits.clamped]
    exact Scalar.clamp_mono hup

/-- The similarities of two values with two others, the second pair of equals just behind the first. -/
def twoByTwo (q c : Nat) : ℚ := if q = c then 1 / 2 - q / 10 else 1 / 5

theorem align_mono_of_overtaking :
    let aligner : Aligner ℚ := clamped (1 / 20) (1 / 2)
    let old := aligner.align 2 2 twoByTwo
    let new := aligner.align 2 2 (setEntry twoByTwo 1 1 (9 / 10))
    old.pairs.map ValuePair.index = [(0, 0), (1, 1)] ∧
      new.pairs.map ValuePair.index = [(1, 1), (0, 0)] ∧
      (new.pairs.map ValuePair.index).Perm (old.pairs.map ValuePair.index) ∧
      old.aggregate ≤ new.aggregate := by
  refine ⟨by decide +kernel, by decide +kernel, ?_⟩
  exact align_mono_of_chosen (by decide +kernel) (by decide +kernel) (by decide +kernel)

end Aligner

end Screening
