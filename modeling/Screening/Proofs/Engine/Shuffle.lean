import Screening.Proofs.Engine.Best

namespace Screening

variable {α : Type} [Scalar α]

theorem Verdict.inOrder_antisymm [OrderedScalar α] {a b : Verdict α} (h : a.inOrder b = true)
    (k : b.inOrder a = true) : a.candidate = b.candidate := by
  simp only [inOrder, decide_eq_true_eq] at h k
  rcases h with h | ⟨hties, hab⟩
  · rcases k with k | ⟨kties, _⟩
    · exact absurd (Scalar.lt_trans h k) (Scalar.not_lt_self _)
    · exact absurd h kties.not_lt
  · rcases k with k | ⟨_, hba⟩
    · exact absurd k hties.not_lt
    · exact Std.le_antisymm hab hba

variable [LawfulScalar α]

theorem Ranking.ofVerdicts_perm (version : Text) (job : Job α) {candidates : List Entity}
    {all shuffled : List (Verdict α)} (numbers : ∀ v ∈ all, Scalar.IsNumber v.score)
    (distinct : (all.map Verdict.candidate).Nodup) (perm : shuffled.Perm all)
    (hlength : candidates.length = job.candidates.length) :
    ofVerdicts version { job with candidates } shuffled = ofVerdicts version job all := by
  have hnumbers : ∀ v ∈ shuffled, Scalar.IsNumber v.score := fun v hv =>
    numbers v (perm.mem_iff.mp hv)
  have hkept {v : Verdict α} (hv : v ∈ shuffled.filter (Verdict.survives job.cutoff)) :
      v ∈ shuffled := (List.mem_filter.mp hv).1
  have hsort : Sorting.sort Verdict.inOrder (shuffled.filter (Verdict.survives job.cutoff)) =
      Sorting.sort Verdict.inOrder (all.filter (Verdict.survives job.cutoff)) := by
    apply Sorting.sort_eq_of_perm (perm.filter _)
    · exact fun _ _ _ _ _ _ => Verdict.inOrder_trans
    · exact fun a ha b hb => Verdict.inOrder_total (hnumbers a (hkept ha)) (hnumbers b (hkept hb))
    · intro a ha b hb hab hba
      exact List.inj_on_of_nodup_map distinct (perm.mem_iff.mp (hkept ha))
        (perm.mem_iff.mp (hkept hb)) (Verdict.inOrder_antisymm hab hba)
  have hverdicts : (ofVerdicts version { job with candidates } shuffled).verdicts =
      (ofVerdicts version job all).verdicts := by
    rw [verdicts_ofVerdicts version hnumbers, verdicts_ofVerdicts version numbers, hsort]
  unfold ofVerdicts at hverdicts ⊢
  simp only [Ranking.mk.injEq, perm.length_eq, perm.countP_eq, hlength, true_and, and_true]
  exact hverdicts

namespace Engine

variable {engine : Engine α} {query : Entity} {candidates shuffled : List Entity}
  {algorithm : Algorithm} {most : UInt64}

/-- A query whose candidates have different ids is answered alike in whatever order they are given,
and the engine is the same after it. -/
theorem answer_of_shuffled (deadline : Option Instant)
    (expNonneg : algorithm = .logistic → Scalar.ExpNonneg α) (sound : engine.settings.Sound)
    (enabled : engine.settings.enables algorithm = true) (positive : most ≠ 0)
    (small : candidates.length < 2 ^ 63) (quiet : engine.Quiet deadline candidates.length)
    (explained : engine.scorer.Explains (engine.queryJob query candidates algorithm most)
      candidates)
    (distinct : (candidates.map Entity.id).Nodup) (perm : shuffled.Perm candidates) :
    ∃ ranking after,
      engine.answer query candidates algorithm most deadline = (.ok ranking, after) ∧
      engine.answer query shuffled algorithm most deadline = (.ok ranking, after) := by
  let job := engine.queryJob query candidates algorithm most
  let other := engine.queryJob query shuffled algorithm most
  have hlength := perm.length_eq
  have hexplained : engine.scorer.Explains other shuffled := fun c hc =>
    explained c (perm.mem_iff.mp hc)
  have hanswer := answer_eq sound.chunkSize enabled positive small quiet explained
  have hother := answer_eq sound.chunkSize enabled positive (hlength ▸ small)
    (show engine.Quiet deadline shuffled.length from hlength ▸ quiet) hexplained
  have hnumbers : ∀ v ∈ engine.scorer.verdicts job candidates, Scalar.IsNumber v.score :=
    Scorer.number_verdicts candidates expNonneg (fraction_support sound)
  have hverdicts : (engine.scorer.verdicts other shuffled).Perm
      (engine.scorer.verdicts job candidates) := perm.filterMap (engine.scorer.verdict? job)
  have hdistinct : ((engine.scorer.verdicts job candidates).map Verdict.candidate).Nodup := by
    rwa [Scorer.candidate_verdicts explained]
  have hranking : Ranking.ofVerdicts engine.catalog.version other
      (engine.scorer.verdicts other shuffled) = Ranking.ofVerdicts engine.catalog.version job
        (engine.scorer.verdicts job candidates) :=
    Ranking.ofVerdicts_perm engine.catalog.version job hnumbers hdistinct hverdicts hlength
  have htally : engine.scorer.tally (shuffled.map fun c => (other, c)) engine.counters =
      engine.scorer.tally (candidates.map fun c => (job, c)) engine.counters := by
    have hjob : engine.scorer.tally (shuffled.map fun c => (other, c)) engine.counters =
        engine.scorer.tally (shuffled.map fun c => (job, c)) engine.counters := by
      rw [Scorer.tally, Scorer.tally, List.filterMap_map, List.filterMap_map]
      rfl
    exact hjob.trans (Scorer.tally_perm (perm.map _) _)
  refine ⟨_, _, hanswer, hother.trans ?_⟩
  rw [hlength, htally, hranking]

theorem shuffled_of_reversed :
    let candidates := [Entity.person "1" "Ann Li", .person "2" "boom", .person "3" "Zoe"]
    let query := Entity.person "q" "Ann Lee"
    ∃ ranking after,
      (guarded : Engine Float).answer query candidates .nameBased 2 none = (.ok ranking, after) ∧
      guarded.answer query candidates.reverse .nameBased 2 none = (.ok ranking, after) := by
  intro candidates query
  let engine : Engine Float := guarded
  have explained : engine.scorer.Explains (engine.queryJob query candidates .nameBased 2)
      candidates := by
    unfold Scorer.Explains
    decide +kernel
  exact answer_of_shuffled none (fun h => nomatch h) Settings.usual_sound rfl (by decide)
    (by decide) (fun d hd => nomatch hd) explained (by decide +kernel) (List.reverse_perm _)

end Engine

end Screening
