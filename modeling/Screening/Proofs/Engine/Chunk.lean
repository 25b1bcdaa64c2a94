import Mathlib.Algebra.Group.Nat.Defs
import Mathlib.Data.List.Basic
import Screening.Engine.Run

namespace Screening.Chunk

variable {β : Type} {size chunk start : UInt64} {posted : List (UInt64 × UInt64)} {first stop p : Nat}

/-- What the loop over `size` candidates posts from `start` on until it ends. The start of an interval
is a word, and so is the sum that it is raised to. -/
inductive Cuts (size chunk : UInt64) : (start : UInt64) → List (UInt64 × UInt64) → Prop
  | done {start : UInt64} (hend : size ≤ start) : Cuts size chunk start []
  | cut {start : UInt64} {rest : List (UInt64 × UInt64)} (hinside : start < size)
      (hrest : Cuts size chunk (start + chunk) rest) :
      Cuts size chunk start ((start, min (start + chunk) size) :: rest)

/-- Intervals without a gap up to `stop`, none of them empty, each from where the one before it ends. -/
inductive Tiles (stop : Nat) : (first : Nat) → List (UInt64 × UInt64) → Prop
  | nil : Tiles stop stop []
  | cons {first : Nat} {i : UInt64 × UInt64} {rest : List (UInt64 × UInt64)}
      (hfirst : i.1.toNat = first) (hlt : first < i.2.toNat) (hrest : Tiles stop i.2.toNat rest) :
      Tiles stop first (i :: rest)

theorem toNat_min (a b : UInt64) : (min a b).toNat = min a.toNat b.toNat := by
  change (if a ≤ b then a else b).toNat = _
  split
  next h => exact (Nat.min_eq_left (UInt64.le_iff_toNat_le.mp h)).symm
  next h =>
    have hb : b.toNat ≤ a.toNat := by
      have := mt UInt64.le_iff_toNat_le.mpr h
      omega
    exact (Nat.min_eq_right hb).symm

theorem toNat_pos (positive : chunk ≠ 0) : 0 < chunk.toNat := by
  have := mt UInt64.toNat_inj.mp positive
  rw [UInt64.toNat_zero] at this
  omega

/-- A later interval begins a whole chunk into the items, so its end does not pass the greatest
word. -/
theorem toNat_next (small : size.toNat < 2 ^ 63)
    (aligned : start = 0 ∨ chunk.toNat ≤ start.toNat) (inside : start < size) :
    (start + chunk).toNat = start.toNat + chunk.toNat := by
  have hs := UInt64.lt_iff_toNat_lt.mp inside
  have hc := chunk.toNat_lt
  rw [UInt64.toNat_add]
  rcases aligned with rfl | aligned
  · simp only [UInt64.toNat_zero]
    omega
  · omega

theorem Cuts.unique {other : List (UInt64 × UInt64)} (h : Cuts size chunk start posted)
    (h' : Cuts size chunk start other) : posted = other := by
  induction h generalizing other with
  | done hend =>
    cases h' with
    | done => rfl
    | cut hinside => exact absurd hinside (UInt64.not_lt.mpr hend)
  | cut hinside _ ih =>
    cases h' with
    | done hend => exact absurd hinside (UInt64.not_lt.mpr hend)
    | cut _ hrest => rw [ih hrest]

/-- As many turns as there are items left are enough for the loop to end. -/
theorem cuts_intervalsFrom (positive : chunk ≠ 0) (small : size.toNat < 2 ^ 63) (most : Nat)
    (start : UInt64) (aligned : start = 0 ∨ chunk.toNat ≤ start.toNat)
    (enough : size.toNat ≤ start.toNat + most) :
    Cuts size chunk start (intervalsFrom size chunk most start) := by
  induction most generalizing start with
  | zero => exact .done (UInt64.le_iff_toNat_le.mpr enough)
  | succ most ih =>
    rw [intervalsFrom]
    split
    next inside =>
      have hnext := toNat_next small aligned inside
      have hc := toNat_pos positive
      exact .cut inside (ih (start + chunk) (.inr (by omega)) (by omega))
    next outside => exact .done (UInt64.not_lt.mp outside)

/-- No turn of the loop wraps around, so what it posts lies end to end. -/
theorem Cuts.tiles (h : Cuts size chunk start posted) (positive : chunk ≠ 0)
    (small : size.toNat < 2 ^ 63) (aligned : start = 0 ∨ chunk.toNat ≤ start.toNat) :
    Tiles size.toNat (min start.toNat size.toNat) posted := by
  induction h with
  | done hend =>
    rw [Nat.min_eq_right (UInt64.le_iff_toNat_le.mp hend)]
    exact .nil
  | @cut start rest hinside _ ih =>
    have hs := UInt64.lt_iff_toNat_lt.mp hinside
    have hc := toNat_pos positive
    have hnext := toNat_next small aligned hinside
    have hrest := ih (.inr (by omega))
    rw [← toNat_min] at hrest
    refine .cons (Nat.min_eq_left (Nat.le_of_lt hs)).symm ?_ hrest
    rw [toNat_min]
    omega

theorem Tiles.le (h : Tiles stop first posted) : first ≤ stop := by
  induction h with
  | nil => exact Nat.le_refl stop
  | cons _ hlt _ ih => omega

theorem Tiles.mem (h : Tiles stop first posted) :
    ∀ i ∈ posted, first ≤ i.1.toNat ∧ i.1.toNat < i.2.toNat := by
  induction h with
  | nil => exact List.forall_mem_nil _
  | cons hfirst hlt _ ih =>
    refine List.forall_mem_cons.mpr ⟨by omega, fun j hj => ?_⟩
    have := ih j hj
    omega

theorem Tiles.pairwise (h : Tiles stop first posted) :
    posted.Pairwise fun i j => i.2.toNat ≤ j.1.toNat := by
  induction h with
  | nil => exact .nil
  | cons _ _ hrest ih => exact .cons (fun j hj => (hrest.mem j hj).1) ih

theorem Tiles.covers (h : Tiles stop first posted) :
    (∃ i ∈ posted, i.1.toNat ≤ p ∧ p < i.2.toNat) ↔ first ≤ p ∧ p < stop := by
  induction h with
  | nil => simp
  | @cons first i rest hfirst hlt hrest ih =>
    have hle := hrest.le
    simp only [List.mem_cons, exists_eq_or_imp, ih]
    omega

theorem slice_append_drop (items : List β) {i j : Nat} (h : i ≤ j) :
    (items.drop i).take (j - i) ++ items.drop j = items.drop i := by
  have hj : items.drop j = (items.drop i).drop (j - i) := by
    rw [List.drop_drop, Nat.add_sub_cancel' h]
  rw [hj, List.take_append_drop]

theorem Tiles.flatten_slices {items : List β} (h : Tiles items.length first posted) :
    (posted.map (slice items)).flatten = items.drop first := by
  induction h with
  | nil => rw [List.drop_length]; rfl
  | cons hfirst hlt _ ih =>
    rw [List.map_cons, List.flatten_cons, ih, slice, hfirst]
    exact slice_append_drop items (Nat.le_of_lt hlt)

theorem toNat_size {n : Nat} (small : n < 2 ^ 63) : (UInt64.ofNat n).toNat = n :=
  UInt64.toNat_ofNat_of_lt' (show n < 2 ^ 64 by omega)

theorem cuts_intervals {n : Nat} (positive : chunk ≠ 0) (small : n < 2 ^ 63) :
    Cuts (UInt64.ofNat n) chunk 0 (intervals (UInt64.ofNat n) chunk) := by
  have hsize := toNat_size small
  exact cuts_intervalsFrom positive (by omega) _ 0 (.inl rfl) (by omega)

theorem tiles_intervals {n : Nat} (positive : chunk ≠ 0) (small : n < 2 ^ 63) :
    Tiles n 0 (intervals (UInt64.ofNat n) chunk) := by
  have hsize := toNat_size small
  have h := (cuts_intervals positive small).tiles positive (by omega) (.inl rfl)
  rwa [hsize, UInt64.toNat_zero, Nat.zero_min] at h

/-- No candidate is lost between two tasks, and none is in two of them. -/
theorem tasks_flatten (positive : chunk ≠ 0) {items : List β}
    (small : items.length < 2 ^ 63) : (tasks chunk items).flatten = items :=
  (tiles_intervals positive small).flatten_slices

/-- The loop ends with intervals that are not empty, follow each other in order and cover every
candidate, however long a chunk is. -/
theorem intervals_cover {n : Nat} (positive : chunk ≠ 0) (small : n < 2 ^ 63) :
    (∀ posted, Cuts (UInt64.ofNat n) chunk 0 posted ↔ posted = intervals (UInt64.ofNat n) chunk) ∧
      (∀ i ∈ intervals (UInt64.ofNat n) chunk, i.1 < i.2) ∧
      (intervals (UInt64.ofNat n) chunk).Pairwise (fun i j => i.2 ≤ j.1) ∧
      ∀ p, p < n ↔ ∃ i ∈ intervals (UInt64.ofNat n) chunk, i.1.toNat ≤ p ∧ p < i.2.toNat := by
  have hcuts := cuts_intervals positive small
  have htiles := tiles_intervals positive small
  refine ⟨fun posted => ⟨fun h => h.unique hcuts, fun h => h ▸ hcuts⟩, fun i hi => ?_, ?_, fun p => ?_⟩
  · exact UInt64.lt_iff_toNat_lt.mpr (htiles.mem i hi).2
  · exact htiles.pairwise.imp UInt64.le_iff_toNat_le.mpr
  · rw [htiles.covers]
    exact (and_iff_right (Nat.zero_le p)).symm

/-- With these the loop forms the greatest sum that it can. -/
theorem intervals_cover_of_vast_chunk :
    let n := 2 ^ 63 - 1
    let chunk : UInt64 := 9223372036854775806
    let cut : List (UInt64 × UInt64) :=
      [(0, 9223372036854775806), (9223372036854775806, 9223372036854775807)]
    (chunk ≠ 0 ∧ n < 2 ^ 63) ∧
      (∀ posted, Cuts (UInt64.ofNat n) chunk 0 posted ↔ posted = cut) ∧
      ∀ p, p < n ↔ ∃ i ∈ cut, i.1.toNat ≤ p ∧ p < i.2.toNat := by
  intro n chunk cut
  have positive : chunk ≠ 0 := by decide
  have small : n < 2 ^ 63 := by decide
  have hcut : intervals (UInt64.ofNat n) chunk = cut := by decide +kernel
  obtain ⟨hends, _, _, hcover⟩ := intervals_cover positive small
  exact ⟨⟨positive, small⟩, hcut ▸ hends, hcut ▸ hcover⟩

end Screening.Chunk
