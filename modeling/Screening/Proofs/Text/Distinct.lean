import Mathlib.Data.List.Perm.Basic
import Screening.Text

namespace Screening.Text

theorem nodup_distinct (ts : List Text) : (distinct ts).Nodup := by
  induction ts with
  | nil => exact List.nodup_nil
  | cons t ts ih =>
    rw [distinct, List.nodup_cons]
    exact ⟨by simp, ih.filter _⟩

theorem mem_distinct {t : Text} {ts : List Text} : t ∈ distinct ts ↔ t ∈ ts := by
  induction ts with
  | nil => rfl
  | cons s ts ih =>
    by_cases h : t = s <;> simp [distinct, ih, h]

theorem distinct_eq_nil {ts : List Text} : distinct ts = [] ↔ ts = [] := by
  simp only [List.eq_nil_iff_forall_not_mem, mem_distinct]

theorem mem_ascending {t : Text} {ts : List Text} : t ∈ ascending ts ↔ t ∈ ts := by
  rw [ascending, sort, Sorting.mem_sort, mem_distinct]

theorem ascending_eq_nil {ts : List Text} : ascending ts = [] ↔ ts = [] := by
  simp only [List.eq_nil_iff_forall_not_mem, mem_ascending]

theorem ascending_subset {ss ts : List Text} : ascending ss ⊆ ascending ts ↔ ss ⊆ ts := by
  simp only [List.subset_def, mem_ascending]

theorem nodup_ascending (ts : List Text) : (ascending ts).Nodup :=
  (Sorting.sort_perm _ _).nodup_iff.mpr (nodup_distinct ts)

theorem not_precedes {s t : Text} : (!precedes t s) = true ↔ s ≤ t := by
  rw [precedes, Bool.not_eq_true', decide_eq_false_iff_not]
  exact List.not_lt

theorem sort_pairwise {ts : List Text} (h : ts.Nodup) : (sort ts).Pairwise (· < ·) := by
  have hsorted : (sort ts).Pairwise fun s t => (!precedes t s) = true ∧
      ((!precedes s t) = true → s ≠ t) := by
    refine Sorting.pairwise_sort ?_ ?_ h <;> simp only [not_precedes]
    · exact fun _ _ _ _ _ _ hab hbc => List.le_trans hab hbc
    · exact fun s _ t _ => List.le_total s t
  simp only [not_precedes] at hsorted
  exact hsorted.imp fun hst => List.not_le.mp fun hts => hst.2 hts (List.le_antisymm hst.1 hts)

theorem distinct_perm {s t : List Text} (h : ∀ a, a ∈ s ↔ a ∈ t) : (distinct s).Perm (distinct t) := by
  rw [List.perm_ext_iff_of_nodup (nodup_distinct s) (nodup_distinct t)]
  intro a
  rw [mem_distinct, mem_distinct, h]

theorem ascending_congr {s t : List Text} (h : ∀ a, a ∈ s ↔ a ∈ t) : ascending s = ascending t := by
  refine Sorting.sort_eq_of_perm (distinct_perm h) ?_ ?_ ?_ <;> simp only [not_precedes]
  · exact fun _ _ _ _ _ _ hab hbc => List.le_trans hab hbc
  · exact fun a _ b _ => List.le_total a b
  · exact fun _ _ _ _ hab hba => List.le_antisymm hab hba

end Screening.Text
