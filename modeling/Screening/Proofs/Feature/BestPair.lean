import Screening.Proofs.Feature.Itself

namespace Screening

namespace Feature

variable {K : Type} [ExactScalar K]

/-- The clamped similarities of the pairs of values of which anything can be told. -/
def told (similarity : Text → Text → Option K) (queries candidates : List Text) : Set K :=
  {s | ∃ v ∈ queries, ∃ w ∈ candidates, ∃ a, similarity v w = some a ∧ Scalar.clamp a = s}

/-- What the greatest of the similarities makes of the value of a feature. -/
def RestsOn (floor : K) (kind : FeatureKind) (greatest value : K) : Prop :=
  match kind with
  | .similarity => if 0 < greatest ∧ floor ≤ greatest then greatest ≤ value else value = 0
  | .disagreement => value = if 0 < greatest ∧ floor ≤ greatest then 1 - greatest else 1
  | .foreignNumbers => True

/-- What a feature is that is made of the similarities of the values read for it. -/
structure ByBestPair (normalizer : Normalizer) (aligner : Aligner K) (catalog : Catalog)
    (algorithm : Algorithm) (query candidate : Entity) (d : FeatureDecl K) (f : Feature K) :
    Prop where
  ignored :
    let r := read catalog algorithm query candidate d
    d.scope.includes catalog query.schema candidate.schema = true → r.query ≠ [] →
      r.candidate ≠ [] → (f.presence = .ignored ↔ ∀ v ∈ r.query, ∀ w ∈ r.candidate,
        Comparison.compare normalizer d.rules d.type v w = .ok none)
  present :
    let r := read catalog algorithm query candidate d
    f.presence = .present → ∃ m,
      IsGreatest {s | ∃ v ∈ r.query, ∃ w ∈ r.candidate, ∃ a,
        Comparison.compare normalizer d.rules d.type v w = .ok (some a) ∧ Scalar.clamp a = s} m ∧
      RestsOn aligner.floor d.kind m f.value

variable {similarity : Text → Text → Option K} {queries candidates : List Text} {m : K}
  {aligner : Aligner K} {d : FeatureDecl K}

theorem exists_greatest_told
    (h : ∃ v ∈ queries, ∃ w ∈ candidates, ∃ a, similarity v w = some a) :
    ∃ m, IsGreatest (told similarity queries candidates) m := by
  let listed := queries.flatMap fun v => candidates.filterMap fun w =>
    (similarity v w).map Scalar.clamp
  have hlisted (s : K) : s ∈ listed ↔ s ∈ told similarity queries candidates := by
    simp [listed, told]
  obtain ⟨v, hv, w, hw, a, ha⟩ := h
  have hsome : listed ≠ [] :=
    List.ne_nil_of_mem ((hlisted (Scalar.clamp a)).mpr ⟨v, hv, w, hw, a, ha, rfl⟩)
  obtain ⟨m, rest, hperm, hmax⟩ := Aligner.exists_greatest hsome
  refine ⟨m, (hlisted m).mp (hperm.mem_iff.mpr List.mem_cons_self), fun s hs => ?_⟩
  exact Aligner.le_greatest hperm hmax s ((hlisted s).mpr hs)

/-- The table of similarities as it is read: 0 where nothing can be told. -/
def entry (similarity : Text → Text → Option K) (queries candidates : List Text) (i j : Nat) : K :=
  (((queries.map fun v => candidates.map fun w => similarity v w).getD i []).getD j none).getD 0

theorem entry_eq {i j : Nat} (hi : i < queries.length) (hj : j < candidates.length) :
    entry similarity queries candidates i j = (similarity queries[i] candidates[j]).getD 0 := by
  simp [entry, List.getD_eq_getElem?_getD, hi, hj]

theorem greatest_entry (h : IsGreatest (told similarity queries candidates) m) :
    IsGreatest (Aligner.worths queries.length candidates.length
      (entry similarity queries candidates)) m := by
  obtain ⟨⟨v, hv, w, hw, a, ha, rfl⟩, hmax⟩ := h
  constructor
  · obtain ⟨i, hi, rfl⟩ := List.mem_iff_getElem.mp hv
    obtain ⟨j, hj, rfl⟩ := List.mem_iff_getElem.mp hw
    refine ⟨i, hi, j, hj, ?_⟩
    rw [entry_eq hi hj, ha, Option.getD_some]
  · rintro _ ⟨i, hi, j, hj, rfl⟩
    rw [entry_eq hi hj]
    cases hentry : similarity queries[i] candidates[j] with
    | none =>
      rw [Option.getD_none, Scalar.clamp_zero]
      exact (Scalar.fraction_clamp (ExactScalar.isNumber a)).1
    | some b => exact hmax ⟨_, List.getElem_mem hi, _, List.getElem_mem hj, b, hentry, rfl⟩

theorem ofSimilarities_of_told
    (h : ∃ v ∈ queries, ∃ w ∈ candidates, ∃ a, similarity v w = some a) :
    ofSimilarities aligner d queries.length candidates.length
      (queries.map fun v => candidates.map fun w => similarity v w) =
        let alignment := aligner.align queries.length candidates.length
          (entry similarity queries candidates)
        ⟨d.name, if d.kind = .disagreement then 1 - alignment.best else alignment.aggregate,
          .present, alignment.pairs.length⟩ := by
  rw [ofSimilarities, if_neg (told_iff.mpr h)]
  cases d.kind <;> rfl

theorem ofSimilarities_of_untold
    (h : ¬ ∃ v ∈ queries, ∃ w ∈ candidates, ∃ a, similarity v w = some a) :
    ofSimilarities aligner d queries.length candidates.length
      (queries.map fun v => candidates.map fun w => similarity v w) = ⟨d.name, 0, .ignored, 0⟩ := by
  rw [ofSimilarities, if_pos (not_not.mp (mt told_iff.mp h))]

theorem restsOn_ofSimilarities (ht : Scalar.Fraction aligner.support)
    (hm : IsGreatest (told similarity queries candidates) m) :
    RestsOn aligner.floor d.kind m (ofSimilarities aligner d queries.length candidates.length
      (queries.map fun v => candidates.map fun w => similarity v w)).value := by
  obtain ⟨v, hv, w, hw, a, ha, _⟩ := hm.1
  have hgreatest := greatest_entry hm
  rw [ofSimilarities_of_told ⟨v, hv, w, hw, a, ha⟩]
  cases hkind : d.kind with
  | similarity => exact Aligner.aggregate_of_greatest hgreatest ht
  | disagreement =>
    simp only [RestsOn, if_pos, Aligner.best_of_greatest hgreatest]
    split
    next => rfl
    next => exact sub_zero 1
  | foreignNumbers => trivial

section Fold

variable {folding : Folding} {fold : Text → Text} {catalog : Catalog} {algorithm : Algorithm}
  {query candidate : Entity}

theorem ignored_afresh_iff (hkind : d.kind ≠ .foreignNumbers)
    (hscope : d.scope.includes catalog query.schema candidate.schema = true)
    (hquery : (read catalog algorithm query candidate d).query ≠ [])
    (hcandidate : (read catalog algorithm query candidate d).candidate ≠ []) :
    let r := read catalog algorithm query candidate d
    (afresh (.ofFold folding fold) aligner catalog algorithm query candidate d).presence = .ignored ↔
      ∀ v ∈ r.query, ∀ w ∈ r.candidate,
        Comparison.similarity (.ofFold folding fold) d.rules d.type v w = none := by
  intro r
  rw [afresh_of_read hscope hquery hcandidate, if_neg hkind]
  by_cases htold : ∃ v ∈ r.query, ∃ w ∈ r.candidate, ∃ a,
      Comparison.similarity (.ofFold folding fold) d.rules d.type v w = some a
  · rw [ofSimilarities_of_told htold]
    refine iff_of_false (fun h => nomatch h) fun hnone => ?_
    obtain ⟨v, hv, w, hw, a, ha⟩ := htold
    exact nomatch ha.symm.trans (hnone v hv w hw)
  · rw [ofSimilarities_of_untold htold]
    refine iff_of_true rfl fun v hv w hw => Option.eq_none_iff_forall_ne_some.mpr fun a ha => ?_
    exact htold ⟨v, hv, w, hw, a, ha⟩

theorem exists_greatest_of_present (ht : Scalar.Fraction aligner.support)
    (hkind : d.kind ≠ .foreignNumbers)
    (hpresent : (afresh (.ofFold folding fold) aligner catalog algorithm query candidate d).presence =
      .present) :
    let r := read catalog algorithm query candidate d
    ∃ m, IsGreatest (told (Comparison.similarity (.ofFold folding fold) d.rules d.type)
        r.query r.candidate) m ∧
      RestsOn aligner.floor d.kind m
        (afresh (.ofFold folding fold) aligner catalog algorithm query candidate d).value := by
  intro r
  by_cases hread : d.scope.includes catalog query.schema candidate.schema = true ∧
      r.query ≠ [] ∧ r.candidate ≠ []
  · obtain ⟨hscope, hquery, hcandidate⟩ := hread
    rw [afresh_of_read hscope hquery hcandidate, if_neg hkind] at hpresent ⊢
    by_cases htold : ∃ v ∈ r.query, ∃ w ∈ r.candidate, ∃ a,
        Comparison.similarity (.ofFold folding fold) d.rules d.type v w = some a
    · obtain ⟨m, hm⟩ := exists_greatest_told htold
      exact ⟨m, hm, restsOn_ofSimilarities ht hm⟩
    · rw [ofSimilarities_of_untold htold] at hpresent
      exact nomatch hpresent
  · rw [presence_afresh_of_unread hread] at hpresent
    exact nomatch hpresent

theorem byBestPair_afresh (ht : Scalar.Fraction aligner.support)
    (hkind : d.kind ≠ .foreignNumbers) :
    ByBestPair (.ofFold folding fold) aligner catalog algorithm query candidate d
      (afresh (.ofFold folding fold) aligner catalog algorithm query candidate d) := by
  have hcompare (v w : Text) (told : Option K) :
      Comparison.compare (.ofFold folding fold) d.rules d.type v w = .ok told ↔
        Comparison.similarity (.ofFold folding fold) d.rules d.type v w = told := by
    rw [Comparison.compare_ofFold, Except.ok.injEq]
  constructor
  · intro _ hscope hquery hcandidate
    simp only [hcompare]
    exact ignored_afresh_iff hkind hscope hquery hcandidate
  · intro _ hpresent
    simp only [hcompare]
    exact exists_greatest_of_present ht hkind hpresent

end Fold

end Feature

/-- The evidence of an algorithm holds of each feature that is no share of numbers what the most
similar values of all make of it. -/
theorem Evidence.build_rests_on_best {K : Type} [ExactScalar K] (folding : Folding)
    (fold : Text → Text) {aligner : Aligner K} (ht : Scalar.Fraction aligner.support)
    (catalog : Catalog) (algorithm : Algorithm) (query candidate : Entity) :
    ∃ evidence, build (.ofFold folding fold) aligner catalog algorithm algorithm.features query
        candidate = .ok evidence ∧
      List.Forall₂ (fun d f => d.kind ≠ .foreignNumbers →
        Feature.ByBestPair (.ofFold folding fold) aligner catalog algorithm query candidate d f)
        algorithm.features evidence := by
  refine ⟨_, build_features folding fold aligner catalog algorithm query candidate, ?_⟩
  rw [List.forall₂_map_right_iff, List.forall₂_same]
  exact fun d _ hkind => Feature.byBestPair_afresh ht hkind

/-- A gender that cannot be read and one that differs stand in front of the one that agrees. -/
theorem Evidence.build_rests_on_best_of_genders :
    let aligner : Aligner ℚ := .clamped (1 / 20) (1 / 2)
    let query : Entity := ⟨Text.of "q", Text.of "Person",
      [⟨Text.of "gender", [Text.of "male"]⟩, ⟨Text.of "country", [Text.of "us"]⟩]⟩
    let candidate : Entity := ⟨Text.of "c", Text.of "Person",
      [⟨Text.of "gender", [Text.of "?", Text.of "female", Text.of "m"]⟩,
        ⟨Text.of "country", [Text.of "fr"]⟩]⟩
    Scalar.Fraction aligner.support ∧ ∃ evidence : Evidence ℚ,
      build .basic aligner .builtin .logistic Logistic.features query candidate = .ok evidence ∧
      evidence.valueD (Text.of "gender.mismatch") 2 = 0 ∧
      evidence.valueD (Text.of "country.mismatch") 2 = 1 ∧
      List.Forall₂ (fun d f => d.kind ≠ .foreignNumbers →
        Feature.ByBestPair .basic aligner .builtin .logistic query candidate d f)
        Logistic.features evidence := by
  intro aligner query candidate
  have ht : Scalar.Fraction aligner.support := by decide +kernel
  obtain ⟨evidence, hbuild, hrests⟩ :=
    build_rests_on_best .basic Unicode.ascii.fold ht .builtin .logistic query candidate
  have hvalues : (build .basic aligner .builtin .logistic Logistic.features query candidate).map
      (fun evidence => (evidence.valueD (Text.of "gender.mismatch") 2,
        evidence.valueD (Text.of "country.mismatch") 2)) = .ok (0, 1) := by
    decide +kernel
  obtain ⟨other, hother, hpair⟩ := map_eq_ok.mp hvalues
  obtain rfl := Except.ok.inj (hbuild.symm.trans hother)
  obtain ⟨hgender, hcountry⟩ := Prod.mk.inj hpair
  exact ⟨ht, evidence, hbuild, hgender, hcountry, hrests⟩

end Screening
