import Screening.Engine.Run

namespace Screening

variable {α : Type} [Scalar α]

namespace Verdict

/-- A higher score comes first, and of two equal scores the lower candidate id. -/
def outranks (a b : Verdict α) : Bool :=
  if a.score ≤ b.score ∧ b.score ≤ a.score then a.candidate < b.candidate
  else decide (b.score < a.score)

/-- Whether a verdict is kept under a cutoff. Errored ones always are, and all are without a
positive cutoff. -/
def survives (cutoff : α) (r : Verdict α) : Bool :=
  r.errored || !(decide (0 < cutoff) && decide (r.score ≤ cutoff))

end Verdict

namespace Ranking

def ofVerdicts (version : Text) (job : Job α) (scored : List (Verdict α)) : Ranking α :=
  let kept := scored.filter (Verdict.survives job.cutoff)
  let sorted := Sorting.sort (fun a b => !Verdict.outranks b a) kept
  { name := job.name
    coverage := if scored.length = job.candidates.length then .complete else .cutShort
    algorithm := job.algorithm
    version
    verdicts := sorted.take job.most.toNat
    total := job.candidates.length
    scored := scored.length
    errored := scored.countP Verdict.errored }

def coversAll (ranking : Ranking α) : Bool := ranking.coverage == .complete

def count (counters : Counters) (ranking : Ranking α) : Counters :=
  let counters := { counters with queries := counters.queries + 1 }
  match ranking.coverage with
  | .complete => { counters with complete := counters.complete + 1 }
  | .cutShort => { counters with cutShort := counters.cutShort + 1 }

end Ranking

end Screening
