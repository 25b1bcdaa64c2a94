import Mathlib.Order.Monotone.Defs
import Screening.Proofs.Alignment.Mirrored

namespace Screening

namespace ValuePair

variable {α : Type} {f g : Nat → Nat} {p r : ValuePair α}

def place (f g : Nat → Nat) (p : ValuePair α) : ValuePair α :=
  ⟨f p.query, g p.candidate, p.similarity⟩

theorem place_clashes_iff (hf : StrictMono f) (hg : StrictMono g) :
    (p.place f g).Clashes (r.place f g) ↔ p.Clashes r :=
  or_congr hf.injective.eq_iff hg.injective.eq_iff

variable [Scalar α] {eligible keep : ValuePair α → Prop} {taken next : List (ValuePair α)}

theorem Beats.place (h : p.Beats r) (hf : StrictMono f) (hg : StrictMono g) :
    (p.place f g).Beats (r.place f g) := by
  refine h.imp id fun ⟨hties, habove⟩ => ⟨hties, habove.imp (fun hlt => hf hlt) ?_⟩
  exact fun ⟨heq, hlt⟩ => ⟨congrArg f heq, hg hlt⟩

/-- The steps do not hang on the indices, as long as these keep their order. -/
theorem Takes.place (h : Takes eligible taken next) (hf : StrictMono f) (hg : StrictMono g) :
    Takes (fun p => ∃ r, eligible r ∧ r.place f g = p) (taken.map (ValuePair.place f g))
      (next.map (ValuePair.place f g)) := by
  induction h with
  | stop full =>
    refine .stop ?_
    rintro _ ⟨r, hr, rfl⟩
    obtain ⟨t, ht, hclash⟩ := full r hr
    exact ⟨t.place f g, List.mem_map_of_mem ht, (place_clashes_iff hf hg).mpr hclash⟩
  | @take taken next p fits free best _ ih =>
    refine .take ⟨p, fits, rfl⟩ ?_ ?_ ih
    · intro _ hmem hclash
      obtain ⟨t, ht, rfl⟩ := List.mem_map.mp hmem
      exact free t ht ((place_clashes_iff hf hg).mp hclash)
    · rintro _ ⟨r, hr, rfl⟩ hfree
      have hunused (t : ValuePair α) (ht : t ∈ taken) : ¬ t.Clashes r := fun hclash =>
        hfree (t.place f g) (List.mem_map_of_mem ht) ((place_clashes_iff hf hg).mpr hclash)
      rcases best r hr hunused with rfl | hbeats
      · exact .inl rfl
      · exact .inr (hbeats.place hf hg)

theorem Takes.of_kept (h : Takes eligible taken next) (kept : ∀ p ∈ next, keep p) :
    Takes (fun p => eligible p ∧ keep p) taken next := by
  induction h with
  | stop full => exact .stop fun p hp => full p hp.1
  | take fits free best _ ih =>
    obtain ⟨hp, hnext⟩ := List.forall_mem_cons.mp kept
    exact .take ⟨fits, hp⟩ free (fun r hr => best r hr.1) (ih hnext)

end ValuePair

/-- Whether an alignment is another one with its pairs, in the same order, at the indices that `f` and
`g` give. -/
structure Alignment.Moved {α : Type} [Scalar α] (a : Alignment α) (f g : Nat → Nat)
    (b : Alignment α) : Prop where
  pairs : a.pairs = b.pairs.map (ValuePair.place f g)
  aggregate : a.aggregate = b.aggregate
  best : a.best = b.best

namespace Aligner

section Insertion

variable {β : Type} {k i n : Nat}

def insertAt (k : Nat) (b : β) (s : Nat → β) (i : Nat) : β :=
  if i < k then s i else if i = k then b else s (i - 1)

/-- Where an item stands after one has been put in at `k`. -/
def skip (k i : Nat) : Nat := if i < k then i else i + 1

theorem skip_strictMono (k : Nat) : StrictMono (skip k) := by
  intro i j hij
  unfold skip
  split <;> split <;> omega

theorem skip_lt_iff (hk : k ≤ n) : skip k i < n + 1 ↔ i < n := by
  unfold skip
  split <;> omega

theorem mem_range_skip : i ∈ Set.range (skip k) ↔ i ≠ k := by
  constructor
  · rintro ⟨j, rfl⟩
    unfold skip
    split <;> omega
  · intro hne
    rcases Nat.lt_or_gt_of_ne hne with hlt | hgt
    · exact ⟨i, if_pos hlt⟩
    · refine ⟨i - 1, ?_⟩
      rw [skip, if_neg (by omega)]
      omega

theorem insertAt_skip (b : β) (s : Nat → β) : insertAt k b s (skip k i) = s i := by
  unfold insertAt skip
  by_cases h : i < k
  · simp [h]
  · rw [if_neg h, if_neg (by omega), if_neg (by omega), Nat.add_sub_cancel]

end Insertion

variable {α : Type} [Scalar α] {aligner : Aligner α} {rows columns rows' columns' : Nat}
  {similarity wide : Nat → Nat → α} {f g : Nat → Nat}

theorem eligible_place (hrows : ∀ q, f q < rows' ↔ q < rows)
    (hcolumns : ∀ c, g c < columns' ↔ c < columns) (p : ValuePair α) :
    (∃ r, aligner.Eligible rows columns (fun q c => wide (f q) (g c)) r ∧ r.place f g = p) ↔
      aligner.Eligible rows' columns' wide p ∧ p.query ∈ Set.range f ∧ p.candidate ∈ Set.range g := by
  constructor
  · rintro ⟨r, hr, rfl⟩
    exact ⟨⟨(hrows _).mpr hr.row, (hcolumns _).mpr hr.column, hr.clamped, hr.positive, hr.floor⟩,
      ⟨_, rfl⟩, ⟨_, rfl⟩⟩
  · rintro ⟨hp, ⟨q, hq⟩, ⟨c, hc⟩⟩
    cases p
    cases hq
    cases hc
    exact ⟨⟨q, c, _⟩, ⟨(hrows q).mp hp.row, (hcolumns c).mp hp.column, hp.clamped, hp.positive,
      hp.floor⟩, rfl⟩

/-- Some of the values are aligned like all of them, if no others are in a chosen pair. -/
theorem align_moved [OrderedScalar α] (hf : StrictMono f) (hg : StrictMono g)
    (hrows : ∀ q, f q < rows' ↔ q < rows) (hcolumns : ∀ c, g c < columns' ↔ c < columns)
    (inside : ∀ p ∈ (aligner.align rows' columns' wide).pairs,
      p.query ∈ Set.range f ∧ p.candidate ∈ Set.range g) :
    (aligner.align rows' columns' wide).Moved f g
      (aligner.align rows columns fun q c => wide (f q) (g c)) := by
  have hwide := (align_takes aligner rows' columns' wide).of_kept inside
  have hpart := (align_takes aligner rows columns fun q c => wide (f q) (g c)).place hf hg
  have hpairs := hwide.unique (hpart.congr (eligible_place hrows hcolumns))
  have hsame := congrArg (List.map ValuePair.similarity) hpairs
  rw [List.map_map] at hsame
  refine ⟨hpairs, congrArg aligner.aggregate hsame, ?_⟩
  rw [Alignment.best_eq, Alignment.best_eq, hsame]
  rfl

section Lone

variable {k : Nat} {added : Nat → α}

theorem mem_loneQuery : k ∈ (aligner.align rows columns similarity).loneQuery ↔
    k < rows ∧ ∀ p ∈ (aligner.align rows columns similarity).pairs, p.query ≠ k :=
  List.mem_filter.trans (and_congr List.mem_range
    (List.all_eq_true.trans (forall₂_congr fun _ _ => bne_iff_ne)))

theorem mem_loneCandidate : k ∈ (aligner.align rows columns similarity).loneCandidate ↔
    k < columns ∧ ∀ p ∈ (aligner.align rows columns similarity).pairs, p.candidate ≠ k :=
  List.mem_filter.trans (and_congr List.mem_range
    (List.all_eq_true.trans (forall₂_congr fun _ _ => bne_iff_ne)))

theorem align_without_row [OrderedScalar α] (wide : Nat → Nat → α)
    (h : k ∈ (aligner.align (rows + 1) columns wide).loneQuery) :
    (aligner.align (rows + 1) columns wide).Moved (skip k) id
      (aligner.align rows columns fun q c => wide (skip k q) c) := by
  obtain ⟨hk, hlone⟩ := mem_loneQuery.mp h
  refine align_moved (skip_strictMono k) strictMono_id
    (fun _ => skip_lt_iff (Nat.le_of_lt_succ hk)) (fun _ => Iff.rfl) fun p hp => ?_
  exact ⟨mem_range_skip.mpr (hlone p hp), ⟨p.candidate, rfl⟩⟩

theorem align_without_column [OrderedScalar α] (wide : Nat → Nat → α)
    (h : k ∈ (aligner.align rows (columns + 1) wide).loneCandidate) :
    (aligner.align rows (columns + 1) wide).Moved id (skip k)
      (aligner.align rows columns fun q c => wide q (skip k c)) := by
  obtain ⟨hk, hlone⟩ := mem_loneCandidate.mp h
  refine align_moved strictMono_id (skip_strictMono k) (fun _ => Iff.rfl)
    (fun _ => skip_lt_iff (Nat.le_of_lt_succ hk)) fun p hp => ?_
  exact ⟨⟨p.query, rfl⟩, mem_range_skip.mpr (hlone p hp)⟩

/-- A row or a column that is added at `k`, with all behind it moved by one, changes nothing else if it
finds no partner. -/
theorem align_with_lone [OrderedScalar α] (aligner : Aligner α) (rows columns k : Nat)
    (similarity : Nat → Nat → α) (added : Nat → α) :
    let old := aligner.align rows columns similarity
    let taller := aligner.align (rows + 1) columns (insertAt k added similarity)
    let wider := aligner.align rows (columns + 1) fun q => insertAt k (added q) (similarity q)
    (k ∈ taller.loneQuery → taller.Moved (skip k) id old) ∧
      (k ∈ wider.loneCandidate → wider.Moved id (skip k) old) := by
  intro old taller wider
  constructor
  · intro h
    have hmoved := align_without_row (insertAt k added similarity) h
    simp only [insertAt_skip] at hmoved
    exact hmoved
  · intro h
    have hmoved := align_without_column (fun q => insertAt k (added q) (similarity q)) h
    simp only [insertAt_skip] at hmoved
    exact hmoved

theorem align_with_lone_of_ties :
    let aligner : Aligner Float := clamped 0.05 0.5
    let similarity : Nat → Nat → Float := fun q c =>
      if c = 0 then (if q = 0 then 0.9 else 0.8) else if q = 0 then 0.2 else 0.7
    let added : Nat → Float := fun i => if i = 0 then 0.9 else 0.6
    let old := aligner.align 2 2 similarity
    let taller := aligner.align 3 2 (insertAt 1 added similarity)
    let wider := aligner.align 2 3 fun q => insertAt 1 (added q) (similarity q)
    old.pairs.map (fun p => (p.query, p.candidate)) = [(0, 0), (1, 1)] ∧
      (1 ∈ taller.loneQuery ∧ taller.Moved (skip 1) id old) ∧
      1 ∈ wider.loneCandidate ∧ wider.Moved id (skip 1) old := by
  intro aligner similarity added old taller wider
  have hrow : 1 ∈ taller.loneQuery := by decide +kernel
  have hcolumn : 1 ∈ wider.loneCandidate := by decide +kernel
  obtain ⟨htaller, hwider⟩ := align_with_lone aligner 2 2 1 similarity added
  exact ⟨by decide +kernel, ⟨hrow, htaller hrow⟩, hcolumn, hwider hcolumn⟩

end Lone

end Aligner

end Screening
