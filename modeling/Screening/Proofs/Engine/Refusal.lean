import Screening.Proofs.Engine.Best
import Screening.Proofs.Feature.Interruption

namespace Screening

@[simp] theorem Entity.id_withFullNames (query : Entity) : query.withFullNames.id = query.id := by
  unfold withFullNames
  dsimp only
  split <;> rfl

@[simp] theorem Entity.schema_withFullNames (query : Entity) :
    query.withFullNames.schema = query.schema := by
  unfold withFullNames
  dsimp only
  split <;> rfl

variable {α : Type} [Scalar α]

/-- The verdict on a candidate whose scoring is refused. -/
def Verdict.refused (query : Text) (candidate : Entity) (algorithm : Algorithm) (reason : Text) :
    Verdict α :=
  { query
    candidate := candidate.id
    schema := candidate.schema
    score := 0
    isMatch := false
    algorithm
    lines := []
    errored := true
    remark := Text.of "scoring_error: " ++ reason }

theorem Ranking.verdicts_of_enough [LawfulScalar α] {job : Job α} {all : List (Verdict α)} (version : Text)
    (numbers : ∀ v ∈ all, Scalar.IsNumber v.score) (enough : all.length ≤ job.most.toNat) :
    (ofVerdicts version job all).verdicts =
      Sorting.sort Verdict.inOrder (all.filter (Verdict.survives job.cutoff)) := by
  rw [verdicts_ofVerdicts version numbers]
  apply List.take_of_length_le
  rw [Sorting.length_sort]
  exact Nat.le_trans (List.length_filter_le _ _) enough

/-- An errored verdict stands among those that survive the cutoff, and these are listed in the same
order without it. -/
theorem Ranking.verdicts_append_cons [LawfulScalar α] (version : Text) (job : Job α)
    (candidates : List Entity) {first rest : List (Verdict α)} {v : Verdict α}
    (errored : v.errored = true)
    (numbers : ∀ w ∈ first ++ v :: rest, Scalar.IsNumber w.score)
    (enough : (first ++ v :: rest).length ≤ job.most.toNat) :
    ∃ front back,
      (ofVerdicts version job (first ++ v :: rest)).verdicts = front ++ v :: back ∧
      (ofVerdicts version { job with candidates } (first ++ rest)).verdicts = front ++ back := by
  have hsub : (first ++ rest).Sublist (first ++ v :: rest) :=
    (List.sublist_cons_self v rest).append_left first
  have hsurvives : Verdict.survives job.cutoff v = true := by simp [Verdict.survives, errored]
  have hwith : (first ++ v :: rest).filter (Verdict.survives job.cutoff) =
      first.filter (Verdict.survives job.cutoff) ++
        v :: rest.filter (Verdict.survives job.cutoff) := by
    rw [List.filter_append, List.filter_cons_of_pos hsurvives]
  have hkept {w : Verdict α} (hw : w ∈ first.filter (Verdict.survives job.cutoff) ++
      v :: rest.filter (Verdict.survives job.cutoff)) : Scalar.IsNumber w.score := by
    rw [← hwith] at hw
    exact numbers w (List.mem_filter.mp hw).1
  have hwithout : (ofVerdicts version { job with candidates } (first ++ rest)).verdicts =
      Sorting.sort Verdict.inOrder ((first ++ rest).filter (Verdict.survives job.cutoff)) :=
    verdicts_of_enough version (fun w hw => numbers w (hsub.subset hw))
      (Nat.le_trans hsub.length_le enough)
  rw [verdicts_of_enough version numbers enough, hwithout, hwith, List.filter_append]
  apply Sorting.sort_append_cons
  · exact fun _ _ _ _ _ _ => Verdict.inOrder_trans
  · exact fun _ ha _ hb => Verdict.inOrder_total (hkept ha) (hkept hb)

namespace Engine

variable {engine : Engine α} {query candidate c : Entity} {before after candidates : List Entity}
  {algorithm : Algorithm} {most : UInt64} {reason : Text}

/-- Whether a candidate is in one line with the query, and the evidence of the two is refused. -/
def Refuses (engine : Engine α) (query : Entity) (algorithm : Algorithm) (candidate : Entity)
    (reason : Text) : Prop :=
  engine.catalog.inOneLine query.schema candidate.schema = true ∧
    Evidence.build engine.normalizer engine.scorer.aligner engine.catalog algorithm
      algorithm.features query.withFullNames candidate = .error (.refused reason)

theorem Refuses.verdict [OrderedScalar α] (sound : engine.settings.Sound)
    (h : engine.Refuses query algorithm candidate reason) :
    engine.scorer.verdict? (engine.queryJob query candidates algorithm most) candidate =
      some (.refused query.id candidate algorithm reason) := by
  have hassess : engine.scorer.assess (engine.queryJob query candidates algorithm most) candidate =
      some (.failed reason) := by
    have hline : engine.scorer.catalog.inOneLine query.withFullNames.schema candidate.schema =
        true := by
      rw [Entity.schema_withFullNames]
      exact h.1
    have hbuild : Evidence.build engine.scorer.normalizer engine.scorer.aligner
        engine.scorer.catalog algorithm algorithm.features query.withFullNames candidate =
          .error (.refused reason) := h.2
    simp only [Scorer.assess, queryJob, hline, hbuild, if_true]
  have hthreshold : decide (engine.settings.threshold < 0) = false :=
    decide_eq_false fun hneg => Scalar.not_le_of_lt hneg sound.threshold.1
  rw [Scorer.verdict?, hassess, Option.map_some, Assessment.verdict, Verdict.refused,
    Option.some.injEq, Verdict.mk.injEq]
  exact ⟨Entity.id_withFullNames query, rfl, rfl, rfl, hthreshold, rfl, rfl, rfl, rfl⟩

variable [LawfulScalar α]

/-- A candidate whose scoring is refused has its errored verdict, with the reason that the normalizer
gives, and nothing else changes if the candidate is taken away. -/
theorem answer_without_refused (deadline : Option Instant)
    (expNonneg : algorithm = .logistic → Scalar.ExpNonneg α) (sound : engine.settings.Sound)
    (enabled : engine.settings.enables algorithm = true)
    (small : (before ++ c :: after).length < 2 ^ 63)
    (enough : (before ++ c :: after).length ≤ most.toNat)
    (quiet : engine.Quiet deadline (before ++ c :: after).length)
    (explained : engine.scorer.Explains (engine.queryJob query (before ++ c :: after) algorithm most)
      (before ++ after))
    (refuses : engine.Refuses query algorithm c reason) :
    engine.normalizer.Raises (.refused reason) ∧ ∃ full rest front back,
      (engine.answer query (before ++ c :: after) algorithm most deadline).1 = .ok full ∧
      (engine.answer query (before ++ after) algorithm most deadline).1 = .ok rest ∧
      full.verdicts = front ++ .refused query.id c algorithm reason :: back ∧
      rest.verdicts = front ++ back ∧
      full.total = rest.total + 1 ∧ full.scored = rest.scored + 1 ∧
      full.errored = rest.errored + 1 := by
  let job := engine.queryJob query (before ++ c :: after) algorithm most
  let other := engine.queryJob query (before ++ after) algorithm most
  let errored : Verdict α := .refused query.id c algorithm reason
  have hc : engine.scorer.verdict? job c = some errored := refuses.verdict sound
  have hfull : engine.scorer.Explains job (before ++ c :: after) := by
    intro d hd
    rcases List.mem_append.mp hd with hd | hd
    · exact explained d (List.mem_append_left _ hd)
    · rcases List.mem_cons.mp hd with rfl | hd
      · exact Option.isSome_map.symm.trans (congrArg Option.isSome hc)
      · exact explained d (List.mem_append_right _ hd)
  have hlength : (before ++ c :: after).length = (before ++ after).length + 1 := by
    simp only [List.length_append, List.length_cons]
    omega
  have positive : most ≠ 0 := by
    rintro rfl
    rw [hlength] at enough
    exact absurd enough (Nat.not_succ_le_zero _)
  have hanswer := answer_eq_ok sound.chunkSize enabled positive small quiet hfull
  have hother := answer_eq_ok sound.chunkSize enabled positive (by omega)
    (show engine.Quiet deadline (before ++ after).length from
      fun d hd i hi => quiet d hd i (by omega)) explained
  have hwith : engine.scorer.verdicts job (before ++ c :: after) =
      engine.scorer.verdicts job before ++ errored :: engine.scorer.verdicts job after := by
    rw [Scorer.verdicts, List.filterMap_append, List.filterMap_cons_some hc]
    rfl
  have hwithout : engine.scorer.verdicts other (before ++ after) =
      engine.scorer.verdicts job before ++ engine.scorer.verdicts job after :=
    List.filterMap_append
  have hnumbers : ∀ v ∈ engine.scorer.verdicts job (before ++ c :: after),
      Scalar.IsNumber v.score :=
    Scorer.number_verdicts _ expNonneg (fraction_support sound)
  rw [hwith] at hanswer hnumbers
  rw [hwithout] at hother
  have hcount := Scorer.length_verdicts hfull
  rw [hwith] at hcount
  obtain ⟨front, back, hverdicts, hrest⟩ := Ranking.verdicts_append_cons engine.catalog.version job
    (before ++ after) rfl hnumbers (by rw [hcount]; exact enough)
  refine ⟨Evidence.raises_of_build refuses.2, _, _, front, back, hanswer, hother, hverdicts, hrest,
    hlength, ?_, ?_⟩
  · simp only [Ranking.scored_ofVerdicts, List.length_append, List.length_cons]
    omega
  · have herrored : errored.errored = true := rfl
    simp only [Ranking.errored_ofVerdicts, List.countP_append, List.countP_cons, herrored, if_true]
    omega

def strict : Engine Float :=
  { (guarded : Engine Float) with settings := { Settings.usual with cutoff := 0.9 } }

theorem without_refused_of_strict :
    let query := Entity.person "q" "Ann Lee"
    let before := [Entity.person "1" "Zoe", .person "2" "Ann Lee"]
    let c := Entity.person "3" "boom"
    let after := [Entity.person "4" "Ann Lee"]
    ∃ (full rest : Ranking Float) (front back : List (Verdict Float)),
      (strict.answer query (before ++ c :: after) .nameBased 5 none).1 = .ok full ∧
      (strict.answer query (before ++ after) .nameBased 5 none).1 = .ok rest ∧
      full.verdicts = front ++ .refused query.id c .nameBased
        (Text.of "cannot normalize 'boom'") :: back ∧
      rest.verdicts = front ++ back ∧ full.errored = rest.errored + 1 := by
  intro query before c after
  have sound : strict.settings.Sound := Settings.validate_eq_ok.mp rfl
  have explained : strict.scorer.Explains
      (strict.queryJob query (before ++ c :: after) .nameBased 5) (before ++ after) := by
    unfold Scorer.Explains
    decide +kernel
  have expNonneg : Algorithm.nameBased = .logistic → Scalar.ExpNonneg Float := fun h => nomatch h
  have hbuild : Evidence.build strict.normalizer strict.scorer.aligner strict.catalog .nameBased
      Algorithm.nameBased.features query.withFullNames c =
        .error (.refused (Text.of "cannot normalize 'boom'")) := by
    have h : (match Evidence.build strict.normalizer strict.scorer.aligner strict.catalog
        .nameBased Algorithm.nameBased.features query.withFullNames c with
      | .ok _ => none
      | .error e => some e) = some (.refused (Text.of "cannot normalize 'boom'")) := by
      decide +kernel
    split at h
    next => exact nomatch h
    next e he => rw [he, Option.some.inj h]
  have refuses : strict.Refuses query .nameBased c (Text.of "cannot normalize 'boom'") :=
    ⟨by decide +kernel, hbuild⟩
  obtain ⟨_, full, rest, front, back, hfull, hrest, hverdicts, hothers, _, _, herrored⟩ :=
    answer_without_refused none expNonneg sound rfl (by decide) (by decide)
      (fun d hd => nomatch hd) explained refuses
  exact ⟨full, rest, front, back, hfull, hrest, hverdicts, hothers, herrored⟩

end Engine

end Screening
