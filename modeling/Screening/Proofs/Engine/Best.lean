import Screening.Proofs.Engine.Sound
import Screening.Proofs.Engine.Tally
import Screening.Proofs.Scalar.Arithmetic
import Screening.Proofs.Score.Number

namespace Screening

variable {α : Type} [Scalar α]

namespace Verdict

/-- From high to low score, and from low to high id where scores tie. -/
def inOrder (a b : Verdict α) : Bool :=
  decide (b.score < a.score ∨ Scalar.Ties a.score b.score ∧ a.candidate ≤ b.candidate)

theorem outranks_iff [OrderedScalar α] {a b : Verdict α} : a.outranks b = true ↔
    b.score < a.score ∨ Scalar.Ties a.score b.score ∧ a.candidate < b.candidate := by
  unfold outranks
  split
  next hties =>
    have hnot : ¬ b.score < a.score := Scalar.Ties.not_lt (Scalar.Ties.symm hties)
    simp only [decide_eq_true_eq]
    constructor
    · exact fun h => .inr ⟨hties, h⟩
    · exact fun h => (h.resolve_left hnot).2
  next hties =>
    simp only [decide_eq_true_eq]
    constructor
    · exact .inl
    · exact fun h => h.resolve_right fun k => hties k.1

variable [OrderedScalar α] {a b c : Verdict α}

theorem inOrder_iff (ha : Scalar.IsNumber a.score) (hb : Scalar.IsNumber b.score) :
    a.inOrder b = true ↔ b.outranks a = false := by
  rw [← Bool.not_eq_true, outranks_iff]
  simp only [inOrder, decide_eq_true_eq, not_or, not_and]
  constructor
  · rintro (hlt | ⟨hties, hle⟩)
    · refine ⟨fun h => Scalar.not_lt_self _ (Scalar.lt_trans h hlt), fun hties => ?_⟩
      exact absurd hlt hties.not_lt
    · exact ⟨hties.not_lt, fun _ => Std.not_lt.mpr hle⟩
  · rintro ⟨hlt, hid⟩
    rcases Scalar.lt_or_ties_or_gt ha hb with h | h | h
    · exact absurd h hlt
    · exact .inr ⟨h, Std.not_lt.mp (hid h.symm)⟩
    · exact .inl h

theorem inOrder_trans (h : a.inOrder b = true) (k : b.inOrder c = true) : a.inOrder c = true := by
  simp only [inOrder, decide_eq_true_eq] at *
  rcases h with h | ⟨h, hid⟩
  · rcases k with k | ⟨k, _⟩
    · exact .inl (Scalar.lt_trans k h)
    · exact .inl (Scalar.lt_of_le_of_lt k.2 h)
  · rcases k with k | ⟨k, hid'⟩
    · exact .inl (Scalar.lt_of_lt_of_le k h.2)
    · exact .inr ⟨h.trans k, Std.le_trans hid hid'⟩

theorem inOrder_total (ha : Scalar.IsNumber a.score) (hb : Scalar.IsNumber b.score) :
    a.inOrder b = true ∨ b.inOrder a = true := by
  simp only [inOrder, decide_eq_true_eq]
  rcases Scalar.lt_or_ties_or_gt ha hb with h | h | h
  · exact .inr (.inl h)
  · rcases Std.le_total (a := a.candidate) (b := b.candidate) with hid | hid
    · exact .inl (.inr ⟨h, hid⟩)
    · exact .inr (.inr ⟨h.symm, hid⟩)
  · exact .inl (.inl h)

end Verdict

variable [LawfulScalar α]

theorem Engine.fraction_support {engine : Engine α} (sound : engine.settings.Sound) :
    Scalar.Fraction engine.scorer.aligner.support :=
  Scalar.fraction_clamp sound.alignerSupport.isNumber

theorem Scorer.number_verdict {scorer : Scorer α} {job : Job α} {candidate : Entity}
    {v : Verdict α} (hexp : job.algorithm = .logistic → Scalar.ExpNonneg α)
    (ht : Scalar.Fraction scorer.aligner.support)
    (h : scorer.verdict? job candidate = some v) : Scalar.IsNumber v.score := by
  obtain ⟨assessment, hassess, rfl⟩ := Option.map_eq_some_iff.mp h
  unfold assess at hassess
  split at hassess
  next =>
    split at hassess
    next evidence hevidence =>
      obtain rfl := Option.some.inj hassess
      exact (Algorithm.fraction_score hexp (Evidence.numeric_build ht hevidence)).isNumber
    next =>
      obtain rfl := Option.some.inj hassess
      exact Scalar.number_zero
    next => exact nomatch hassess
  next =>
    obtain rfl := Option.some.inj hassess
    exact Scalar.number_zero

theorem Scorer.number_verdicts {scorer : Scorer α} {job : Job α} (candidates : List Entity)
    (hexp : job.algorithm = .logistic → Scalar.ExpNonneg α)
    (ht : Scalar.Fraction scorer.aligner.support) :
    ∀ v ∈ scorer.verdicts job candidates, Scalar.IsNumber v.score := by
  intro v hv
  obtain ⟨c, _, hc⟩ := List.mem_filterMap.mp hv
  exact number_verdict hexp ht hc

omit [LawfulScalar α] in
theorem Scorer.map_verdict? {scorer : Scorer α} {job : Job α} {candidates : List Entity}
    (explained : scorer.Explains job candidates) :
    candidates.map (scorer.verdict? job) = (scorer.verdicts job candidates).map some := by
  induction candidates with
  | nil => rfl
  | cons c cs ih =>
    obtain ⟨_, hc, hverdicts, hrest⟩ := verdicts_cons explained
    rw [hverdicts, List.map_cons, List.map_cons, hc, ih hrest]

/-- A ranking of all candidates that lists, in order, the `most` best of those verdicts that are
errored or exceed a positive cutoff. -/
structure Ranking.ListsBest (ranking : Ranking α) (all : List (Verdict α)) (cutoff : α)
    (most : Nat) : Prop where
  complete : ranking.coverage = .complete
  total : ranking.total = all.length
  scored : ranking.scored = all.length
  errored : ranking.errored = all.countP Verdict.errored
  best : ∃ ordered, Sorting.Arranges Verdict.inOrder
      (all.filter fun v => v.errored ∨ ¬ (0 < cutoff ∧ v.score ≤ cutoff)) ordered ∧
    ranking.verdicts = ordered.take most ∧
    ∀ kept ∈ ranking.verdicts, ∀ dropped ∈ ordered.drop most, kept.inOrder dropped = true

/-- Verdicts whose scores are numbers are listed by the order of scores and ids alone. -/
theorem Ranking.verdicts_ofVerdicts (version : Text) {job : Job α} {all : List (Verdict α)}
    (numbers : ∀ v ∈ all, Scalar.IsNumber v.score) :
    (ofVerdicts version job all).verdicts =
      (Sorting.sort Verdict.inOrder (all.filter (Verdict.survives job.cutoff))).take
        job.most.toNat := by
  refine congrArg (List.take job.most.toNat) (Sorting.sort_congr fun a ha b hb => ?_)
  have h := Verdict.inOrder_iff (numbers a (List.mem_filter.mp ha).1)
    (numbers b (List.mem_filter.mp hb).1)
  rw [Bool.eq_iff_iff, h, Bool.not_eq_true']

theorem Ranking.ofVerdicts_listsBest (version : Text) {job : Job α} {all : List (Verdict α)}
    (numbers : ∀ v ∈ all, Scalar.IsNumber v.score) (hlength : all.length = job.candidates.length) :
    (ofVerdicts version job all).ListsBest all job.cutoff job.most.toNat where
  complete := if_pos hlength
  total := hlength.symm
  scored := rfl
  errored := rfl
  best := by
    let kept := all.filter (Verdict.survives job.cutoff)
    have hkept : (all.filter fun v => v.errored ∨ ¬ (0 < job.cutoff ∧ v.score ≤ job.cutoff)) =
        kept := by
      apply List.filter_congr
      intro v _
      simp [Verdict.survives]
    have hnumbers : ∀ v ∈ kept, Scalar.IsNumber v.score := fun v hv =>
      numbers v (List.mem_filter.mp hv).1
    have harranges : Sorting.Arranges Verdict.inOrder kept (Sorting.sort Verdict.inOrder kept) := by
      apply Sorting.sort_arranges
      · exact fun _ _ _ _ _ _ => Verdict.inOrder_trans
      · exact fun a ha b hb => Verdict.inOrder_total (hnumbers a ha) (hnumbers b hb)
    have hverdicts : (ofVerdicts version job all).verdicts =
        (Sorting.sort Verdict.inOrder kept).take job.most.toNat :=
      verdicts_ofVerdicts version numbers
    rw [hkept]
    refine ⟨Sorting.sort Verdict.inOrder kept, harranges, hverdicts, ?_⟩
    rw [hverdicts]
    have hsplit := harranges.inOrder
    rw [← List.take_append_drop job.most.toNat (Sorting.sort Verdict.inOrder kept)] at hsplit
    exact (List.pairwise_append.mp hsplit).2.2

namespace Engine

variable {engine : Engine α} {query : Entity} {candidates : List Entity} {algorithm : Algorithm}

/-- Whether no reading that is taken for `n` candidates of a query shows the deadline. -/
def Quiet (engine : Engine α) (deadline : Option Instant) (n : Nat) : Prop :=
  ∀ d, (engine.queryDeadline deadline).1 = some d → ∀ i < n,
    (engine.queryDeadline deadline).2.reading ((engine.queryDeadline deadline).2.taken + i) < d

omit [LawfulScalar α] in
/-- Where no reading of the clock shows the deadline, a query's ranking is made of the verdicts on
all its candidates, and all of them are counted. -/
theorem answer_eq {most : UInt64} {deadline : Option Instant}
    (chunked : engine.settings.chunkSize ≠ 0)
    (enabled : engine.settings.enables algorithm = true) (positive : most ≠ 0)
    (small : candidates.length < 2 ^ 63) (quiet : engine.Quiet deadline candidates.length)
    (explained : engine.scorer.Explains (engine.queryJob query candidates algorithm most)
      candidates) :
    let start := engine.queryDeadline deadline
    let job := engine.queryJob query candidates algorithm most
    let ranking := Ranking.ofVerdicts engine.catalog.version job
      (engine.scorer.verdicts job candidates)
    engine.answer query candidates algorithm most deadline =
      (.ok ranking, { engine with
        clock := (Progress.after start.1 candidates.length
          ⟨false, start.2, engine.counters⟩).clock
        counters := Ranking.count
          (engine.scorer.tally (candidates.map fun c => (job, c)) engine.counters) ranking }) := by
  intro start job ranking
  let started := { engine with clock := start.2 }
  have hpairs : Job.pairs [job] = candidates.map fun c => (job, c) := Job.pairs_singleton job
  have hlength : (Job.pairs [job]).length = candidates.length := by rw [hpairs, List.length_map]
  have hreach : Progress.reach start.1 (Job.pairs [job]).length
      ⟨false, start.2, engine.counters⟩ = candidates.length := by
    rw [hlength]
    exact Progress.reach_eq_of_quiet start.1 rfl quiet
  have hsmall : ∀ j ∈ [job], j.candidates.length < 2 ^ 63 :=
    List.forall_mem_singleton.mpr small
  have hexplained : ∀ p ∈ (Job.pairs [job]).take candidates.length,
      (engine.scorer.assess p.1 p.2).isSome := by
    rw [hpairs, ← List.map_take, List.take_length]
    exact List.forall_mem_map.mpr explained
  have hrankings := started.respond_rankings chunked start.1 hsmall hreach hexplained
  have hportions : Job.portions candidates.length [job] = [candidates] :=
    congrArg (fun cs => [cs]) (List.take_length (l := candidates))
  rw [hportions] at hrankings
  have hengine := started.respond_engine chunked start.1 hsmall hreach hexplained hrankings
  rw [hpairs, List.length_map, ← List.map_take, List.take_length] at hengine
  rw [answer_eq_respond deadline enabled positive, hrankings, hengine]
  rfl

omit [LawfulScalar α] in
theorem answer_eq_ok {most : UInt64} {deadline : Option Instant}
    (chunked : engine.settings.chunkSize ≠ 0)
    (enabled : engine.settings.enables algorithm = true) (positive : most ≠ 0)
    (small : candidates.length < 2 ^ 63) (quiet : engine.Quiet deadline candidates.length)
    (explained : engine.scorer.Explains (engine.queryJob query candidates algorithm most)
      candidates) :
    (engine.answer query candidates algorithm most deadline).1 =
      .ok (Ranking.ofVerdicts engine.catalog.version
        (engine.queryJob query candidates algorithm most)
        (engine.scorer.verdicts (engine.queryJob query candidates algorithm most) candidates)) :=
  congrArg Prod.fst (answer_eq chunked enabled positive small quiet explained)

/-- A query whose candidates are all scored before a deadline passes is answered with the best of
their verdicts, and with the first of these if fewer are asked for. -/
theorem answer_lists_best {most : UInt64} (deadline : Option Instant)
    (expNonneg : algorithm = .logistic → Scalar.ExpNonneg α) (sound : engine.settings.Sound)
    (enabled : engine.settings.enables algorithm = true) (positive : most ≠ 0)
    (small : candidates.length < 2 ^ 63)
    (quiet : ∀ d, (engine.queryDeadline deadline).1 = some d → ∀ i < candidates.length,
      (engine.queryDeadline deadline).2.reading ((engine.queryDeadline deadline).2.taken + i) < d)
    (explained : engine.scorer.Explains (engine.queryJob query candidates algorithm most)
      candidates) :
    ∃ all ranking,
      candidates.map (engine.scorer.verdict? (engine.queryJob query candidates algorithm most)) =
        all.map some ∧
      (∀ v ∈ all, v.isMatch = true ↔ engine.settings.threshold < v.score) ∧
      (engine.answer query candidates algorithm most deadline).1 = .ok ranking ∧
      ranking.ListsBest all engine.settings.cutoff most.toNat ∧
      ∀ fewer : UInt64, fewer ≠ 0 → fewer ≤ most → ∃ other,
        (engine.answer query candidates algorithm fewer deadline).1 = .ok other ∧
        other.verdicts <+: ranking.verdicts := by
  let job := engine.queryJob query candidates algorithm most
  have hanswer := answer_eq_ok sound.chunkSize enabled positive small quiet explained
  have hall := Scorer.map_verdict? explained
  have hnumbers : ∀ v ∈ engine.scorer.verdicts job candidates, Scalar.IsNumber v.score := by
    intro v hv
    obtain ⟨c, _, hc⟩ := List.mem_filterMap.mp hv
    exact Scorer.number_verdict expNonneg (fraction_support sound) hc
  refine ⟨engine.scorer.verdicts job candidates, _, hall, ?_, hanswer, ?_, ?_⟩
  · intro v hv
    obtain ⟨c, _, hc⟩ := List.mem_filterMap.mp hv
    obtain ⟨assessment, _, rfl⟩ := Option.map_eq_some_iff.mp hc
    simp [Assessment.verdict, job, queryJob]
  · exact Ranking.ofVerdicts_listsBest _ hnumbers (Scorer.length_verdicts explained)
  · intro fewer hfewer hle
    refine ⟨_, answer_eq_ok sound.chunkSize enabled hfewer small quiet explained, ?_⟩
    exact List.take_prefix_take_left (UInt64.le_iff_toNat_le.mp hle)

def stillEngine : Engine Float := usual fun _ => 0

def twoCandidates : List Entity := [.person "1" "Ann Li", .person "2" "Ann Lee"]

theorem twoCandidates_lists_best :
    ∃ all ranking,
      twoCandidates.map (stillEngine.scorer.verdict?
        (stillEngine.queryJob (.person "q" "Ann Lee") twoCandidates .nameBased 1)) = all.map some ∧
      (stillEngine.answer (.person "q" "Ann Lee") twoCandidates .nameBased 1 none).1 =
        .ok ranking ∧
      ranking.ListsBest all stillEngine.settings.cutoff 1 := by
  have explained : stillEngine.scorer.Explains
      (stillEngine.queryJob (.person "q" "Ann Lee") twoCandidates .nameBased 1) twoCandidates := by
    unfold Scorer.Explains
    decide +kernel
  have sound : stillEngine.settings.Sound := Settings.validate_eq_ok.mp (by decide +kernel)
  have expNonneg : Algorithm.nameBased = .logistic → Scalar.ExpNonneg Float := fun h => nomatch h
  obtain ⟨all, ranking, hall, _, hanswer, hbest, _⟩ := answer_lists_best none expNonneg sound
    (by decide) (by decide) (by decide) (fun d hd => nomatch hd) explained
  exact ⟨all, ranking, hall, hanswer, hbest⟩

/-- The same name ranks above one that is written otherwise. -/
example : (stillEngine.answer (.person "q" "Ann Lee") twoCandidates .nameBased 1 none).1.toOption.map
    (fun ranking => ranking.verdicts.map Verdict.candidate) = some [Text.of "2"] := by
  decide +kernel

end Engine

end Screening
