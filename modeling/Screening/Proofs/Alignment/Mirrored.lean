import Screening.Proofs.Alignment.Aggregate
import Screening.Proofs.Alignment.Align
import Screening.Proofs.Scalar.Packed

namespace Screening

namespace ValuePair

variable {α : Type} {p r : ValuePair α}

def swap (p : ValuePair α) : ValuePair α := ⟨p.candidate, p.query, p.similarity⟩

@[simp] theorem swap_swap (p : ValuePair α) : p.swap.swap = p := rfl

theorem swap_clashes_iff : p.swap.Clashes r.swap ↔ p.Clashes r := Or.comm

variable [Scalar α]

theorem Beats.swap (h : p.Beats r) (clash : p.Clashes r) : p.swap.Beats r.swap := by
  rcases h with h | ⟨ties, above⟩
  · exact .inl h
  · refine .inr ⟨ties, ?_⟩
    simp only [Above, Clashes, ValuePair.swap] at *
    omega

theorem Settles.swap {eligible mirrored : ValuePair α → Prop} {pairs : List (ValuePair α)}
    (h : Settles eligible pairs) (same : ∀ p, mirrored p ↔ eligible p.swap) :
    Settles mirrored (pairs.map ValuePair.swap) where
  fits := by
    intro p hp
    obtain ⟨r, hr, rfl⟩ := List.mem_map.mp hp
    exact (same r.swap).mpr (h.fits r hr)
  apart := List.pairwise_map.mpr
    (h.apart.imp fun hapart hclash => hapart (swap_clashes_iff.mp hclash))
  beaten := by
    intro p hp
    rcases h.beaten p.swap ((same p).mp hp) with hin | ⟨r, hr, hclash, hbeats⟩
    · exact .inl (List.mem_map.mpr ⟨p.swap, hin, swap_swap p⟩)
    · exact .inr ⟨r.swap, List.mem_map_of_mem hr, swap_clashes_iff.mpr hclash, hbeats.swap hclash⟩

end ValuePair

/-- Whether two alignments are the same but for the names of the sides and the order of the pairs. -/
structure Alignment.Mirrors {α : Type} [Scalar α] (a b : Alignment α) : Prop where
  pairs : a.pairs.Perm (b.pairs.map ValuePair.swap)
  loneQuery : a.loneQuery = b.loneCandidate
  loneCandidate : a.loneCandidate = b.loneQuery
  best : a.best = b.best
  aggregate : a.aggregate = b.aggregate

theorem Alignment.best_eq {α : Type} [Scalar α] (alignment : Alignment α) :
    alignment.best = (alignment.pairs.map ValuePair.similarity).headD 0 := by
  unfold best
  cases alignment.pairs with
  | nil => rfl
  | cons p pairs => rfl

namespace Aligner

variable {α : Type} [Scalar α] {aligner : Aligner α} {rows columns : Nat}
  {similarity : Nat → Nat → α}

theorem eligible_swap {p : ValuePair α} :
    aligner.Eligible columns rows (fun c q => similarity q c) p ↔
      aligner.Eligible rows columns similarity p.swap := by
  constructor
  · exact fun h => ⟨h.column, h.row, h.clamped, h.positive, h.floor⟩
  · exact fun h => ⟨h.column, h.row, h.clamped, h.positive, h.floor⟩

theorem align_swap_perm [OrderedScalar α] (aligner : Aligner α) (rows columns : Nat)
    (similarity : Nat → Nat → α) :
    (aligner.align columns rows fun c q => similarity q c).pairs.Perm
      ((aligner.align rows columns similarity).pairs.map ValuePair.swap) := by
  refine (align_takes ..).perm_settled ?_
  exact (align_settles aligner rows columns similarity).swap fun _ => eligible_swap

theorem align_descending [OrderedScalar α] (aligner : Aligner α) (rows columns : Nat)
    (similarity : Nat → Nat → α) :
    ((aligner.align rows columns similarity).pairs.map ValuePair.similarity).Pairwise
      fun a b => b ≤ a := by
  refine List.pairwise_map.mpr ((align_takes aligner rows columns similarity).ordered.imp ?_)
  exact fun hbeats => hbeats.elim Scalar.le_of_lt fun h => h.1.2

/-- Both alignments list the same similarities in the same order, although not of the same pairs. -/
theorem similarities_swap [AntisymmScalar α] (aligner : Aligner α) (rows columns : Nat)
    (similarity : Nat → Nat → α) :
    (aligner.align columns rows fun c q => similarity q c).pairs.map ValuePair.similarity =
      (aligner.align rows columns similarity).pairs.map ValuePair.similarity := by
  have hperm := (align_swap_perm aligner rows columns similarity).map ValuePair.similarity
  rw [List.map_map] at hperm
  refine List.Perm.eq_of_pairwise (fun a b _ hb hba hab => ?_) (align_descending ..)
    (align_descending ..) hperm
  obtain ⟨p, hp, rfl⟩ := List.mem_map.mp hb
  have hpositive := ((align_settles aligner rows columns similarity).fits p hp).positive
  exact (AntisymmScalar.eq_of_ties hpositive ⟨hba, hab⟩).symm

/-- Exchanging the sides exchanges the indices of each pair, and leaves the best pair and the
aggregate as they are. -/
theorem align_mirrors [AntisymmScalar α] (aligner : Aligner α) (rows columns : Nat)
    (similarity : Nat → Nat → α) :
    (aligner.align columns rows fun c q => similarity q c).Mirrors
      (aligner.align rows columns similarity) := by
  have hperm := align_swap_perm aligner rows columns similarity
  have hsame := similarities_swap aligner rows columns similarity
  refine
    { pairs := hperm
      loneQuery := ?_
      loneCandidate := ?_
      best := ?_
      aggregate := congrArg aligner.aggregate hsame }
  · exact List.filter_congr fun _ _ => hperm.all_eq.trans List.all_map
  · exact List.filter_congr fun _ _ => hperm.all_eq.trans List.all_map
  · rw [Alignment.best_eq, Alignment.best_eq, hsame]

/-- The two chosen pairs tie, and each run takes first the one that is first in its own order. -/
theorem align_mirrors_of_ties :
    let aligner : Aligner Float := clamped 0.05 0.5
    let similarity : Nat → Nat → Float := fun q c => if q = c then 0.25 else 0.75
    let one := aligner.align 2 2 similarity
    let other := aligner.align 2 2 fun c q => similarity q c
    one.pairs.map (fun p => (p.query, p.candidate)) = [(0, 1), (1, 0)] ∧
      other.pairs.map (fun p => (p.candidate, p.query)) = [(1, 0), (0, 1)] ∧ other.Mirrors one :=
  ⟨by decide +kernel, by decide +kernel, align_mirrors ..⟩

end Aligner

end Screening
