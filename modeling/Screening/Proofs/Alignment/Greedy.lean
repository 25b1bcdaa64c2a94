import Mathlib.Data.List.Pairwise
import Mathlib.Data.List.Perm.Subperm
import Screening.Alignment
import Screening.Proofs.Scalar.Order

namespace Screening

variable {α : Type}

namespace ValuePair

def Clashes (p r : ValuePair α) : Prop := p.query = r.query ∨ p.candidate = r.candidate

/-- Row by row, and from left to right within a row. -/
def Above (p r : ValuePair α) : Prop :=
  p.query < r.query ∨ p.query = r.query ∧ p.candidate < r.candidate

structure Matching (rows columns : Nat) (pairs : List (ValuePair α)) : Prop where
  row : ∀ p ∈ pairs, p.query < rows
  column : ∀ p ∈ pairs, p.candidate < columns
  apart : pairs.Pairwise fun p r => ¬ p.Clashes r

theorem Clashes.refl (p : ValuePair α) : p.Clashes p := .inl rfl

theorem Clashes.symm {p r : ValuePair α} (h : p.Clashes r) : r.Clashes p :=
  h.imp Eq.symm Eq.symm

theorem Above.trans {p r t : ValuePair α} (h : p.Above r) (k : r.Above t) : p.Above t := by
  unfold Above at *
  omega

theorem Above.irrefl (p : ValuePair α) : ¬ p.Above p := by
  unfold Above
  omega

theorem mem_of_nodup_lt {n i : Nat} {used : List Nat} (nodup : used.Nodup)
    (small : ∀ j ∈ used, j < n) (all : n ≤ used.length) (hi : i < n) : i ∈ used := by
  have sub : used.Subperm (List.range n) :=
    nodup.subperm fun j hj => List.mem_range.mpr (small j hj)
  have perm := sub.perm_of_length_le (by simpa using all)
  exact perm.mem_iff.mpr (List.mem_range.mpr hi)

theorem eq_of_clashes {pairs : List (ValuePair α)} {p r : ValuePair α}
    (apart : pairs.Pairwise fun p r => ¬ p.Clashes r) (hp : p ∈ pairs) (hr : r ∈ pairs)
    (h : p.Clashes r) : p = r := by
  by_contra hne
  have : Std.Symm fun p r : ValuePair α => ¬ p.Clashes r := ⟨fun _ _ hapart h => hapart h.symm⟩
  exact apart.forall hp hr hne h

theorem nodup_of_apart {pairs : List (ValuePair α)}
    (apart : pairs.Pairwise fun p r => ¬ p.Clashes r) : pairs.Nodup :=
  apart.imp fun {p r} hclash (heq : p = r) => hclash (heq ▸ Clashes.refl p)

theorem Matching.queries_nodup {rows columns : Nat} {pairs : List (ValuePair α)}
    (h : Matching rows columns pairs) : (pairs.map query).Nodup :=
  List.pairwise_map.mpr (h.apart.imp fun hclash heq => hclash (.inl heq))

theorem Matching.candidates_nodup {rows columns : Nat} {pairs : List (ValuePair α)}
    (h : Matching rows columns pairs) : (pairs.map candidate).Nodup :=
  List.pairwise_map.mpr (h.apart.imp fun hclash heq => hclash (.inr heq))

/-- When a side is used up, each pair of the matrix clashes with a chosen one. -/
theorem Matching.full {rows columns : Nat} {pairs : List (ValuePair α)} {p : ValuePair α}
    (h : Matching rows columns pairs) (hlength : min rows columns ≤ pairs.length)
    (hrow : p.query < rows) (hcolumn : p.candidate < columns) : ∃ r ∈ pairs, r.Clashes p := by
  rcases Nat.le_total rows columns with hle | hle
  · have hmem : p.query ∈ pairs.map query := by
      refine mem_of_nodup_lt h.queries_nodup ?_ ?_ hrow
      · intro i hi
        obtain ⟨r, hr, rfl⟩ := List.mem_map.mp hi
        exact h.row r hr
      · rw [List.length_map]
        omega
    obtain ⟨r, hr, heq⟩ := List.mem_map.mp hmem
    exact ⟨r, hr, .inl heq⟩
  · have hmem : p.candidate ∈ pairs.map candidate := by
      refine mem_of_nodup_lt h.candidates_nodup ?_ ?_ hcolumn
      · intro i hi
        obtain ⟨r, hr, rfl⟩ := List.mem_map.mp hi
        exact h.column r hr
      · rw [List.length_map]
        omega
    obtain ⟨r, hr, heq⟩ := List.mem_map.mp hmem
    exact ⟨r, hr, .inr heq⟩

theorem Matching.cons {rows columns : Nat} {pairs : List (ValuePair α)} {p : ValuePair α}
    (h : Matching rows columns pairs) (hrow : p.query < rows) (hcolumn : p.candidate < columns)
    (free : ∀ r ∈ pairs, ¬ r.Clashes p) : Matching rows columns (p :: pairs) where
  row := List.forall_mem_cons.mpr ⟨hrow, h.row⟩
  column := List.forall_mem_cons.mpr ⟨hcolumn, h.column⟩
  apart := .cons (fun r hr hclash => free r hr hclash.symm) h.apart

theorem used_iff {pairs : List (ValuePair α)} {p : ValuePair α} :
    ((pairs.map query).contains p.query || (pairs.map candidate).contains p.candidate) = true ↔
      ∃ r ∈ pairs, r.Clashes p := by
  simp only [Bool.or_eq_true, List.contains_iff_mem, List.mem_map]
  constructor
  · rintro (⟨r, hr, heq⟩ | ⟨r, hr, heq⟩)
    · exact ⟨r, hr, .inl heq⟩
    · exact ⟨r, hr, .inr heq⟩
  · rintro ⟨r, hr, heq | heq⟩
    · exact .inl ⟨r, hr, heq⟩
    · exact .inr ⟨r, hr, heq⟩

theorem left_of_cons {taken more pairs : List (ValuePair α)} {p r : ValuePair α}
    (sub : ∀ t ∈ taken, t ∈ more) (lost : ∃ t ∈ more, t.Clashes p)
    (h : r ∈ p :: pairs ∨ ∃ t ∈ taken, t.Clashes r) : r ∈ pairs ∨ ∃ t ∈ more, t.Clashes r := by
  rcases h with hin | ⟨t, ht, hclash⟩
  · rcases List.mem_cons.mp hin with rfl | hin
    · exact .inr lost
    · exact .inl hin
  · exact .inr ⟨t, sub t ht, hclash⟩

variable [Scalar α]

/-- The more similar pair is the better one, and of equally similar ones the one above. -/
def Beats (p r : ValuePair α) : Prop :=
  r.similarity < p.similarity ∨ Scalar.Ties p.similarity r.similarity ∧ p.Above r

/-- Whether the pairs of `next` are, in this order, what is taken after those of `taken`. -/
inductive Takes (eligible : ValuePair α → Prop) : List (ValuePair α) → List (ValuePair α) → Prop
  | stop {taken : List (ValuePair α)} (full : ∀ p, eligible p → ∃ r ∈ taken, r.Clashes p) :
      Takes eligible taken []
  | take {taken next : List (ValuePair α)} {p : ValuePair α} (fits : eligible p)
      (free : ∀ r ∈ taken, ¬ r.Clashes p)
      (best : ∀ r, eligible r → (∀ t ∈ taken, ¬ t.Clashes r) → r = p ∨ p.Beats r)
      (rest : Takes eligible (p :: taken) next) : Takes eligible taken (p :: next)

/-- Pairs that do not clash, with a better one for each other eligible pair that rules it out. -/
structure Settles (eligible : ValuePair α → Prop) (pairs : List (ValuePair α)) : Prop where
  fits : ∀ p ∈ pairs, eligible p
  apart : pairs.Pairwise fun p r => ¬ p.Clashes r
  beaten : ∀ p, eligible p → p ∈ pairs ∨ ∃ r ∈ pairs, r.Clashes p ∧ r.Beats p

section Order

variable [OrderedScalar α] {p r t : ValuePair α}

theorem Beats.trans (h : p.Beats r) (k : r.Beats t) : p.Beats t := by
  rcases h with h | ⟨h, above⟩
  · rcases k with k | ⟨k, _⟩
    · exact .inl (Scalar.lt_trans k h)
    · exact .inl (Scalar.lt_of_le_of_lt k.2 h)
  · rcases k with k | ⟨k, above'⟩
    · exact .inl (Scalar.lt_of_lt_of_le k h.2)
    · exact .inr ⟨h.trans k, above.trans above'⟩

theorem Beats.irrefl (p : ValuePair α) : ¬ p.Beats p := by
  rintro (h | ⟨_, h⟩)
  · exact Scalar.not_lt_self _ h
  · exact Above.irrefl p h

theorem Beats.asymm (h : p.Beats r) : ¬ r.Beats p := fun k => Beats.irrefl p (h.trans k)

theorem Takes.unique {eligible : ValuePair α → Prop} {taken next other : List (ValuePair α)}
    (h : Takes eligible taken next) (k : Takes eligible taken other) : next = other := by
  induction h generalizing other with
  | stop full =>
    cases k with
    | stop => rfl
    | take fits free =>
      obtain ⟨r, hr, hclash⟩ := full _ fits
      exact absurd hclash (free r hr)
  | take fits free best _ ih =>
    cases k with
    | stop full =>
      obtain ⟨r, hr, hclash⟩ := full _ fits
      exact absurd hclash (free r hr)
    | take fits' free' best' rest' =>
      rcases best _ fits' free' with rfl | hbeats
      · rw [ih rest']
      · rcases best' _ fits free with rfl | hbeats'
        · rw [ih rest']
        · exact absurd hbeats' hbeats.asymm

end Order

section Run

variable {eligible : ValuePair α → Prop} {taken next : List (ValuePair α)}

theorem Takes.congr {eligible' : ValuePair α → Prop} (h : Takes eligible taken next)
    (same : ∀ p, eligible p ↔ eligible' p) : Takes eligible' taken next := by
  obtain rfl : eligible = eligible' := funext fun p => propext (same p)
  exact h

theorem Takes.fits (h : Takes eligible taken next) : ∀ p ∈ next, eligible p := by
  induction h with
  | stop => simp
  | take fits _ _ _ ih => simpa using ⟨fits, ih⟩

theorem Takes.free (h : Takes eligible taken next) : ∀ p ∈ next, ∀ r ∈ taken, ¬ r.Clashes p := by
  induction h with
  | stop => simp
  | take _ free _ _ ih =>
    intro r hr t ht
    rcases List.mem_cons.mp hr with rfl | hr
    · exact free t ht
    · exact ih r hr t (List.mem_cons_of_mem _ ht)

theorem Takes.apart (h : Takes eligible taken next) :
    next.Pairwise fun p r => ¬ p.Clashes r := by
  induction h with
  | stop => exact .nil
  | take _ _ _ rest ih =>
    exact .cons (fun r hr => rest.free r hr _ List.mem_cons_self) ih

theorem Takes.ordered (h : Takes eligible taken next) : next.Pairwise Beats := by
  induction h with
  | stop => exact .nil
  | @take _ _ p _ _ best rest ih =>
    refine .cons (fun r hr => ?_) ih
    have hfree := rest.free r hr
    rcases best r (rest.fits r hr) fun t ht => hfree t (List.mem_cons_of_mem _ ht) with rfl | hbeats
    · exact absurd (Clashes.refl r) (hfree r List.mem_cons_self)
    · exact hbeats

theorem Takes.beaten (h : Takes eligible taken next) : ∀ p, eligible p →
    (∃ r ∈ taken, r.Clashes p) ∨ p ∈ next ∨ ∃ r ∈ next, r.Clashes p ∧ r.Beats p := by
  induction h with
  | stop full => exact fun p hp => .inl (full p hp)
  | @take taken next p _ _ best _ ih =>
    intro r hr
    by_cases hfree : ∃ t ∈ taken, t.Clashes r
    · exact .inl hfree
    · refine .inr ?_
      rcases best r hr fun t ht hclash => hfree ⟨t, ht, hclash⟩ with rfl | hbeats
      · exact .inl List.mem_cons_self
      · rcases ih r hr with ⟨t, ht, hclash⟩ | hmem | ⟨t, ht, hlost⟩
        · rcases List.mem_cons.mp ht with rfl | ht
          · exact .inr ⟨t, List.mem_cons_self, hclash, hbeats⟩
          · exact absurd ⟨t, ht, hclash⟩ hfree
        · exact .inl (List.mem_cons_of_mem p hmem)
        · exact .inr ⟨t, List.mem_cons_of_mem p ht, hlost⟩

theorem Takes.settles (h : Takes eligible [] next) : Settles eligible next where
  fits := h.fits
  apart := h.apart
  beaten p hp := (h.beaten p hp).resolve_left (by simp)

/-- One pass over the pairs from best to worst takes what the steps take. -/
theorem choose_takes {rows columns room : Nat} {pairs : List (ValuePair α)}
    (inside : ∀ p, eligible p → p.query < rows ∧ p.candidate < columns)
    (chosen : Matching rows columns taken) (hroom : room + taken.length = min rows columns)
    (sorted : pairs.Pairwise Beats) (fits : ∀ p ∈ pairs, eligible p)
    (left : ∀ p, eligible p → p ∈ pairs ∨ ∃ r ∈ taken, r.Clashes p) :
    Takes eligible taken (choose room (taken.map query) (taken.map candidate) pairs) := by
  induction pairs generalizing taken room with
  | nil =>
    rw [choose]
    exact .stop fun p hp => (left p hp).resolve_left (by simp)
  | cons p pairs ih =>
    have hsorted := List.pairwise_cons.mp sorted
    have hfits := List.forall_mem_cons.mp fits
    have hinside := inside p hfits.1
    cases room with
    | zero =>
      exact .stop fun r hr => chosen.full (by omega) (inside r hr).1 (inside r hr).2
    | succ room =>
      rw [choose]
      by_cases hused : ∃ r ∈ taken, r.Clashes p
      · rw [if_pos (used_iff.mpr hused)]
        exact ih chosen hroom hsorted.2 hfits.2 fun r hr =>
          left_of_cons (fun t ht => ht) hused (left r hr)
      · rw [if_neg fun h => hused (used_iff.mp h)]
        have hfree : ∀ r ∈ taken, ¬ r.Clashes p := fun r hr hclash => hused ⟨r, hr, hclash⟩
        refine .take hfits.1 hfree (fun r hr hother => ?_) ?_
        · rcases left r hr with hin | ⟨t, ht, hclash⟩
          · exact (List.mem_cons.mp hin).imp id (hsorted.1 r)
          · exact absurd hclash (hother t ht)
        · have hlength : room + (p :: taken).length = min rows columns := by
            rw [List.length_cons]
            omega
          exact ih (chosen.cons hinside.1 hinside.2 hfree) hlength hsorted.2 hfits.2 fun r hr =>
            left_of_cons (fun t => List.mem_cons_of_mem p) ⟨p, List.mem_cons_self, Clashes.refl p⟩
              (left r hr)

end Run

section Refinement

variable [OrderedScalar α] {eligible : ValuePair α → Prop}

theorem Takes.mem_settled {taken next pairs : List (ValuePair α)} (h : Takes eligible taken next)
    (settled : Settles eligible pairs) (inside : ∀ r ∈ taken, r ∈ pairs) : ∀ p ∈ next, p ∈ pairs := by
  induction h with
  | stop => simp
  | @take taken next p fits free best rest ih =>
    have hp : p ∈ pairs := by
      rcases settled.beaten p fits with hin | ⟨r, hr, hclash, hbeats⟩
      · exact hin
      · have hfree : ∀ t ∈ taken, ¬ t.Clashes r := by
          intro t ht htr
          obtain rfl := eq_of_clashes settled.apart (inside t ht) hr htr
          exact free t ht hclash
        rcases best r (settled.fits r hr) hfree with rfl | hworse
        · exact hr
        · exact absurd hbeats hworse.asymm
    exact List.forall_mem_cons.mpr ⟨hp, ih (List.forall_mem_cons.mpr ⟨hp, inside⟩)⟩

/-- However pairs are found that settle all others, they are the ones that are taken. -/
theorem Takes.perm_settled {next pairs : List (ValuePair α)} (h : Takes eligible [] next)
    (settled : Settles eligible pairs) : next.Perm pairs := by
  have hsub := h.mem_settled settled (by simp)
  refine (List.perm_ext_iff_of_nodup (nodup_of_apart h.apart)
    (nodup_of_apart settled.apart)).mpr fun p => ⟨hsub p, fun hp => ?_⟩
  rcases h.settles.beaten p (settled.fits p hp) with hin | ⟨r, hr, hclash, _⟩
  · exact hin
  · exact eq_of_clashes settled.apart (hsub r hr) hp hclash ▸ hr

theorem greedy_takes {rows columns : Nat} {pairs : List (ValuePair α)} (above : pairs.Pairwise Above)
    (numbers : ∀ p ∈ pairs, Scalar.IsNumber p.similarity)
    (inside : ∀ p ∈ pairs, p.query < rows ∧ p.candidate < columns) :
    Takes (· ∈ pairs) [] (greedy rows columns pairs) := by
  have hmem (p : ValuePair α) : p ∈ Scalar.descending similarity pairs ↔ p ∈ pairs :=
    Sorting.mem_sort _
  have chosen : Matching rows columns ([] : List (ValuePair α)) := ⟨by simp, by simp, .nil⟩
  exact choose_takes inside chosen (by simp) (Scalar.descending_pairwise numbers above)
    (fun p hp => (hmem p).mp hp) fun p hp => .inl ((hmem p).mpr hp)

end Refinement

end ValuePair

end Screening
