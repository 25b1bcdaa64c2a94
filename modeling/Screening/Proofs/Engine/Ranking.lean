import Screening.Engine.Ranking

namespace Screening.Ranking

variable {α : Type} [Scalar α] (version : Text) (job : Job α) (scored : List (Verdict α))

@[simp] theorem name_ofVerdicts : (ofVerdicts version job scored).name = job.name := rfl

@[simp] theorem total_ofVerdicts :
    (ofVerdicts version job scored).total = job.candidates.length := rfl

@[simp] theorem scored_ofVerdicts : (ofVerdicts version job scored).scored = scored.length := rfl

@[simp] theorem errored_ofVerdicts :
    (ofVerdicts version job scored).errored = scored.countP Verdict.errored := rfl

theorem coverage_ofVerdicts : (ofVerdicts version job scored).coverage =
    if scored.length = job.candidates.length then .complete else .cutShort := rfl

theorem complete_iff : (ofVerdicts version job scored).coverage = .complete ↔
    scored.length = job.candidates.length := by
  rw [coverage_ofVerdicts]
  split
  next eq => simp [eq]
  next ne => simp [ne]

theorem cutShort_iff (h : scored.length ≤ job.candidates.length) :
    (ofVerdicts version job scored).coverage = .cutShort ↔
      scored.length < job.candidates.length := by
  rw [coverage_ofVerdicts]
  split
  next eq => simp [eq]
  next ne => simpa using Nat.lt_of_le_of_ne h ne

theorem mem_ofVerdicts {v : Verdict α} (hv : v ∈ (ofVerdicts version job scored).verdicts) :
    v ∈ scored :=
  (List.mem_filter.mp ((Sorting.mem_sort _).mp (List.mem_of_mem_take hv))).1

end Screening.Ranking
