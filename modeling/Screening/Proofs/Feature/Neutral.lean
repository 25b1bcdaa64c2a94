import Mathlib.Data.List.Basic
import Screening.Engine.Run
import Screening.Proofs.Feature.Interruption
import Screening.Schema.Builtin

namespace Screening

theorem Entity.gather_congr {e e' : Entity} {names : List Text}
    (h : ∀ name ∈ names, e.property name = e'.property name) : e.gather names = e'.gather names :=
  List.flatMap_congr h

variable {α : Type} [Scalar α] {normalizer : Normalizer} {aligner : Aligner α} {catalog : Catalog}
  {algorithm : Algorithm} {q q' c c' : Entity}

namespace Feature

def Reading.OneSided (r : Reading) : Prop := r.query = [] ∨ r.candidate = []

theorem evaluate_of_oneSided {d : FeatureDecl α} (h : (read catalog algorithm q c d).OneSided)
    (memo : NameMemo α) :
    evaluate normalizer aligner catalog algorithm q c d memo = .ok (missing d.name, memo) := by
  unfold evaluate
  rcases h with h | h
  · simp [h]
  · simp [h]

theorem evaluate_congr {d : FeatureDecl α} (hq : q.schema = q'.schema) (hc : c.schema = c'.schema)
    (h : read catalog algorithm q c d = read catalog algorithm q' c' d) (memo : NameMemo α) :
    evaluate normalizer aligner catalog algorithm q c d memo =
      evaluate normalizer aligner catalog algorithm q' c' d memo := by
  unfold evaluate
  rw [h, hq, hc]

theorem evaluateFrom_congr {decls : List (FeatureDecl α)}
    (h : ∀ d ∈ decls, ∀ memo, evaluate normalizer aligner catalog algorithm q c d memo =
      evaluate normalizer aligner catalog algorithm q' c' d memo) (memo : NameMemo α) :
    evaluateFrom normalizer aligner catalog algorithm q c decls memo =
      evaluateFrom normalizer aligner catalog algorithm q' c' decls memo := by
  induction decls generalizing memo with
  | nil => rfl
  | cons d decls ih =>
    obtain ⟨hhead, htail⟩ := List.forall_mem_cons.mp h
    rw [evaluateFrom, evaluateFrom, hhead memo]
    simp only [ih htail]

omit [Scalar α] in
theorem read_of_candidate (d : FeatureDecl α) (h : c.schema = c'.schema) :
    read catalog algorithm q c' d =
      { read catalog algorithm q c d with
        candidate := (read catalog algorithm q c' d).candidate } := by
  unfold read
  rw [h]

omit [Scalar α] in
theorem read_of_query (d : FeatureDecl α) (h : q.schema = q'.schema) :
    read catalog algorithm q' c d =
      { read catalog algorithm q c d with query := (read catalog algorithm q' c d).query } := by
  unfold read
  rw [h]

end Feature

namespace Evidence

open Feature

theorem build_of_candidate {decls : List (FeatureDecl α)} (hc : c.schema = c'.schema)
    (h : ∀ d ∈ decls, (read catalog algorithm q c d).query ≠ [] →
      (read catalog algorithm q c d).candidate = (read catalog algorithm q c' d).candidate) :
    build normalizer aligner catalog algorithm decls q c =
      build normalizer aligner catalog algorithm decls q c' := by
  refine evaluateFrom_congr (fun d hd memo => ?_) NameMemo.empty
  by_cases hquery : (read catalog algorithm q c d).query = []
  · have hother : (read catalog algorithm q c' d).query = [] := by
      rw [read_of_candidate d hc]
      exact hquery
    rw [evaluate_of_oneSided (.inl hquery), evaluate_of_oneSided (.inl hother)]
  · refine evaluate_congr rfl hc ?_ memo
    rw [read_of_candidate d hc, ← h d hd hquery]

theorem build_of_query {decls : List (FeatureDecl α)} (hq : q.schema = q'.schema)
    (h : ∀ d ∈ decls, (read catalog algorithm q c d).candidate ≠ [] →
      (read catalog algorithm q c d).query = (read catalog algorithm q' c d).query) :
    build normalizer aligner catalog algorithm decls q c =
      build normalizer aligner catalog algorithm decls q' c := by
  refine evaluateFrom_congr (fun d hd memo => ?_) NameMemo.empty
  by_cases hcandidate : (read catalog algorithm q c d).candidate = []
  · have hother : (read catalog algorithm q' c d).candidate = [] := by
      rw [read_of_query d hq]
      exact hcandidate
    rw [evaluate_of_oneSided (.inr hcandidate), evaluate_of_oneSided (.inr hother)]
  · refine evaluate_congr hq rfl ?_ memo
    rw [read_of_query d hq, ← h d hd hcandidate]

/-- Values that are added where a feature reads them only if the other side has none are neutral. -/
theorem build_addValues {decls : List (FeatureDecl α)} (name : Text) (values : List Text)
    (h : ∀ d ∈ decls, name ∈ (read catalog algorithm q c d).counterparts →
      (read catalog algorithm q c d).query = []) :
    build normalizer aligner catalog algorithm decls q
        { c with properties := Entity.addValues name values c.properties } =
      build normalizer aligner catalog algorithm decls q c := by
  symm
  refine build_of_candidate rfl fun d hd hquery => ?_
  have hgather : c.gather (read catalog algorithm q c d).counterparts =
      Entity.gather { c with properties := Entity.addValues name values c.properties }
        (read catalog algorithm q c d).counterparts := by
    refine Entity.gather_congr fun other hother => (c.property_addValues values ?_).symm
    rintro rfl
    exact hquery (h d hd hother)
  exact congrArg meaningful hgather

end Evidence

namespace Scorer

theorem assess_of_build {scorer : Scorer α} {job : Job α} (hq : q.schema = q'.schema)
    (hc : c.schema = c'.schema)
    (h : Evidence.build scorer.normalizer scorer.aligner scorer.catalog job.algorithm
        job.algorithm.features q c =
      Evidence.build scorer.normalizer scorer.aligner scorer.catalog job.algorithm
        job.algorithm.features q' c') :
    scorer.assess { job with query := q } c = scorer.assess { job with query := q' } c' := by
  simp only [assess, hq, hc, h]

/-- Two candidates that hold the same values wherever the query holds any are told apart neither by
their evidence nor by their scores, and no more are two queries that hold the same values wherever
the candidate holds any. -/
theorem assess_neutral (folding : Folding) (fold : Text → Text) (aligner : Aligner α)
    (catalog : Catalog) (job : Job α) :
    let scorer : Scorer α := ⟨.ofFold folding fold, aligner, catalog⟩
    let features : List (FeatureDecl α) := job.algorithm.features
    let read (q c : Entity) (d : FeatureDecl α) := Feature.read catalog job.algorithm q c d
    let build (q c : Entity) :=
      Evidence.build scorer.normalizer aligner catalog job.algorithm features q c
    (∀ c c' : Entity, c.schema = c'.schema →
      (∀ d ∈ features, (read job.query c d).query ≠ [] →
        (read job.query c d).candidate = (read job.query c' d).candidate) →
      (∃ evidence, build job.query c = .ok evidence ∧ build job.query c' = .ok evidence) ∧
        scorer.assess job c = scorer.assess job c') ∧
    ∀ q q' c : Entity, q.schema = q'.schema →
      (∀ d ∈ features, (read q c d).candidate ≠ [] → (read q c d).query = (read q' c d).query) →
      (∃ evidence, build q c = .ok evidence ∧ build q' c = .ok evidence) ∧
        scorer.assess { job with query := q } c = scorer.assess { job with query := q' } c := by
  intro scorer features read build
  constructor
  · intro c c' hc h
    obtain ⟨evidence, hbuild⟩ := Evidence.build_ofFold folding fold aligner catalog job.algorithm
      features job.query c
    have hsame : build job.query c = build job.query c' := Evidence.build_of_candidate hc h
    exact ⟨⟨evidence, hbuild, hsame.symm.trans hbuild⟩, assess_of_build rfl hc hsame⟩
  · intro q q' c hq h
    obtain ⟨evidence, hbuild⟩ := Evidence.build_ofFold folding fold aligner catalog job.algorithm
      features q c
    have hsame : build q c = build q' c := Evidence.build_of_query hq h
    exact ⟨⟨evidence, hbuild, hsame.symm.trans hbuild⟩, assess_of_build hq rfl hsame⟩

/-- A date of birth that the other side does not know. -/
theorem assess_neutral_of_birthDate :
    let named : Entity := ⟨Text.of "1", Text.of "Person", [⟨Text.of "name", [Text.of "Ann Lee"]⟩]⟩
    let dated : Entity := ⟨Text.of "2", Text.of "Person",
      [⟨Text.of "name", [Text.of "Ann Lee"]⟩, ⟨Text.of "birthDate", [Text.of "1975"]⟩]⟩
    let scorer : Scorer Float := ⟨.basic, .clamped 0.05 0.5, .builtin⟩
    let job : Job Float := ⟨Text.of "q", named, [], .nameQualified, 1, 0.7, 0⟩
    scorer.assess job named = scorer.assess job dated ∧
      scorer.assess { job with query := named } named =
        scorer.assess { job with query := dated } named := by
  intro named dated scorer job
  have h := assess_neutral .basic Unicode.ascii.fold (.clamped (0.05 : Float) 0.5) .builtin job
  exact ⟨(h.1 named dated rfl (by decide +kernel)).2, (h.2 named dated named rfl (by decide +kernel)).2⟩

end Scorer

end Screening
