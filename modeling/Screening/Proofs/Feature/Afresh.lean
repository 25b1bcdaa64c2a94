import Mathlib.Data.List.Forall2
import Screening.Proofs.Feature.Interruption
import Screening.Proofs.Feature.Memo
import Screening.Proofs.Name.Prepared
import Screening.Schema.Builtin
import Screening.Score

namespace Screening

variable {α : Type} [Scalar α]

namespace Comparison

def similarity (normalizer : Normalizer) (rules : ComparisonRules α) (type : ValueType)
    (query candidate : Text) : Option α :=
  match compare normalizer rules type query candidate with
  | .ok similarity => similarity
  | .error _ => none

theorem compare_ofFold (folding : Folding) (fold : Text → Text) (rules : ComparisonRules α)
    (type : ValueType) (query candidate : Text) :
    compare (.ofFold folding fold) rules type query candidate =
      .ok (similarity (.ofFold folding fold) rules type query candidate) := by
  cases type <;> rfl

theorem similarity_name (folding : Folding) (fold : Text → Text) (rules : ComparisonRules α)
    (query candidate : Text) :
    similarity (.ofFold folding fold) rules .name query candidate =
      (NameResemblance.compare (.ofFold fold query) (.ofFold fold candidate)).map
        rules.weights.apply := rfl

end Comparison

namespace Feature

def ofShare (name : Text) : Option α → Feature α
  | none => missing name
  | some share => ⟨name, share, .present, 0⟩

@[simp] theorem name_ofShare (name : Text) (share : Option α) :
    (ofShare name share).name = name := by
  cases share <;> rfl

/-- The feature that is declared, with every pair of values compared afresh. -/
def afresh (normalizer : Normalizer) (aligner : Aligner α) (catalog : Catalog)
    (algorithm : Algorithm) (query candidate : Entity) (d : FeatureDecl α) : Feature α :=
  let r := read catalog algorithm query candidate d
  if !d.scope.includes catalog query.schema candidate.schema || r.query.isEmpty ||
      r.candidate.isEmpty then missing d.name
  else if d.kind = .foreignNumbers then ofShare d.name (foreignNumbers r.query r.candidate)
  else
    ofSimilarities aligner d r.query.length r.candidate.length
      (r.query.map fun q => r.candidate.map fun c =>
        Comparison.similarity normalizer d.rules d.type q c)

def tabulated (tabulate : FeatureDecl α → List Text → List Text →
      Except Interruption (List (List (Option α))))
    (aligner : Aligner α) (catalog : Catalog) (algorithm : Algorithm) (query candidate : Entity)
    (d : FeatureDecl α) : Except Interruption (Feature α) :=
  let r := read catalog algorithm query candidate d
  if !d.scope.includes catalog query.schema candidate.schema || r.query.isEmpty ||
      r.candidate.isEmpty then .ok (missing d.name)
  else if d.kind = .foreignNumbers then .ok (ofShare d.name (foreignNumbers r.query r.candidate))
  else
    (tabulate d r.query r.candidate).map
      (ofSimilarities aligner d r.query.length r.candidate.length)

/-- The feature that is declared, from a comparison of each value of the query with each one of the
candidate. -/
def pairwise (normalizer : Normalizer) (aligner : Aligner α) (catalog : Catalog)
    (algorithm : Algorithm) (query candidate : Entity) (d : FeatureDecl α) :
    Except Interruption (Feature α) :=
  tabulated (compareAll normalizer) aligner catalog algorithm query candidate d

def similaritiesOf (normalizer : Normalizer) (d : FeatureDecl α) (query candidate : List Text) :
    Except Interruption (List (List (Option α))) :=
  match d.type with
  | .name => (NameMemo.tableOf normalizer query candidate).map fun table =>
      table.map fun row => row.map fun resemblance => resemblance.map d.rules.weights.apply
  | _ => compareAll normalizer d query candidate

/-- The feature that is declared, with the names that it reads prepared for it alone. -/
def alone (normalizer : Normalizer) (aligner : Aligner α) (catalog : Catalog)
    (algorithm : Algorithm) (query candidate : Entity) (d : FeatureDecl α) :
    Except Interruption (Feature α) :=
  tabulated (similaritiesOf normalizer) aligner catalog algorithm query candidate d

theorem similaritiesOf_name {normalizer : Normalizer} {d : FeatureDecl α} (h : d.type = .name)
    (query candidate : List Text) : similaritiesOf normalizer d query candidate =
      (NameMemo.tableOf normalizer query candidate).map fun table =>
        table.map fun row => row.map fun resemblance => resemblance.map d.rules.weights.apply := by
  rw [similaritiesOf, h]

theorem similaritiesOf_of_ne {normalizer : Normalizer} {d : FeatureDecl α} (h : d.type ≠ .name)
    (query candidate : List Text) : similaritiesOf normalizer d query candidate =
      compareAll normalizer d query candidate := by
  unfold similaritiesOf
  split
  next hname => exact absurd hname h
  next => rfl

/-- Whether the names that a feature reads are kept under keys that tell them apart. -/
def Keyed (catalog : Catalog) (algorithm : Algorithm) (query candidate : Entity)
    (d : FeatureDecl α) : Prop :=
  let r := read catalog algorithm query candidate d
  d.type = .name → NameMemo.Plain r.queryProperties ∧ NameMemo.Plain r.counterparts

variable {normalizer : Normalizer} {aligner : Aligner α} {catalog : Catalog}
  {algorithm : Algorithm} {query candidate : Entity} {memo : NameMemo α}

theorem compareAll_ofFold (folding : Folding) (fold : Text → Text) (d : FeatureDecl α)
    (queries candidates : List Text) :
    compareAll (.ofFold folding fold) d queries candidates =
      .ok (queries.map fun q => candidates.map fun c =>
        Comparison.similarity (.ofFold folding fold) d.rules d.type q c) := by
  unfold compareAll
  simp only [Comparison.compare_ofFold]
  have hrow (q : Text) : candidates.mapM (fun c => Except.ok (ε := Interruption)
      (Comparison.similarity (.ofFold folding fold) d.rules d.type q c)) =
        .ok (candidates.map fun c =>
          Comparison.similarity (.ofFold folding fold) d.rules d.type q c) := List.mapM_pure
  simp only [hrow]
  exact List.mapM_pure

theorem presence_afresh_of_unread {d : FeatureDecl α}
    (h : ¬ (d.scope.includes catalog query.schema candidate.schema = true ∧
      (read catalog algorithm query candidate d).query ≠ [] ∧
        (read catalog algorithm query candidate d).candidate ≠ [])) :
    (afresh normalizer aligner catalog algorithm query candidate d).presence = .missing := by
  unfold afresh
  dsimp only
  rw [if_pos]
  · rfl
  · by_contra hread
    simp only [Bool.or_eq_true, Bool.not_eq_true', List.isEmpty_iff, not_or, Bool.not_eq_false]
      at hread
    exact h ⟨hread.1.1, hread.1.2, hread.2⟩

theorem afresh_of_read {d : FeatureDecl α}
    (hscope : d.scope.includes catalog query.schema candidate.schema = true)
    (hquery : (read catalog algorithm query candidate d).query ≠ [])
    (hcandidate : (read catalog algorithm query candidate d).candidate ≠ []) :
    let r := read catalog algorithm query candidate d
    afresh normalizer aligner catalog algorithm query candidate d =
      if d.kind = .foreignNumbers then ofShare d.name (foreignNumbers r.query r.candidate)
      else
        ofSimilarities aligner d r.query.length r.candidate.length
          (r.query.map fun q => r.candidate.map fun c =>
            Comparison.similarity normalizer d.rules d.type q c) := by
  unfold afresh
  simp [hscope, hquery, hcandidate]

theorem evaluate_foreignNumbers {d : FeatureDecl α} (hkind : d.kind = .foreignNumbers)
    (memo : NameMemo α) :
    evaluate normalizer aligner catalog algorithm query candidate d memo =
      .ok (afresh normalizer aligner catalog algorithm query candidate d, memo) := by
  unfold evaluate afresh
  dsimp only
  split
  next => rfl
  next =>
    simp only [hkind]
    cases (foreignNumbers _ _ : Option α) <;> rfl

/-- A feature hands on what is in order, where the table of its names is one that would be made
again and leaves what is in order. -/
theorem carries_evaluate {P : NameMemo α → Prop} (hmemo : P memo) {d : FeatureDecl α}
    (htable : let r := read catalog algorithm query candidate d
      d.type = .name → Carries P (NameMemo.tableOf normalizer r.query r.candidate)
        (memo.table normalizer (NameMemo.key r.queryProperties) r.query
          (NameMemo.key r.counterparts) r.candidate)) :
    Carries P (alone normalizer aligner catalog algorithm query candidate d)
      (evaluate normalizer aligner catalog algorithm query candidate d memo) := by
  unfold evaluate alone tabulated
  dsimp only
  split
  next => exact .ok hmemo
  next =>
    split
    next hkind =>
      rw [hkind]
      dsimp only
      cases (foreignNumbers _ _ : Option α) with
      | none => exact .ok hmemo
      | some share => exact .ok hmemo
    next hkind =>
      split
      next hforeign => exact absurd hforeign hkind
      next hname _ =>
        rw [similaritiesOf_name hname]
        change Carries _ (_ <$> _ <$> _) _
        rw [← comp_map]
        exact (htable hname).map _
      next hname =>
        rw [similaritiesOf_of_ne hname]
        exact .retain _ _ hmemo

theorem evaluateFrom_eq_mapM (hmemo : memo.Faithful normalizer query candidate)
    {decls : List (FeatureDecl α)}
    (hdecls : ∀ d ∈ decls, Keyed catalog algorithm query candidate d) :
    evaluateFrom normalizer aligner catalog algorithm query candidate decls memo =
      decls.mapM (alone normalizer aligner catalog algorithm query candidate) := by
  induction decls generalizing memo with
  | nil => rfl
  | cons d decls ih =>
    obtain ⟨hd, hrest⟩ := List.forall_mem_cons.mp hdecls
    rw [List.mapM_cons, evaluateFrom]
    have hhead : Carries (NameMemo.Faithful normalizer query candidate) _
        (evaluate normalizer aligner catalog algorithm query candidate d memo) :=
      carries_evaluate hmemo fun hname => hmemo.carries_table (hd hname).1 (hd hname).2
    refine (hhead.bind_eq fun feature memo' hmemo' => ?_).symm
    rw [← ih hmemo' hrest]

theorem compare_name (rules : ComparisonRules α) (query candidate : Text) :
    Comparison.compare normalizer rules .name query candidate =
      (NameForms.prepare normalizer candidate >>= fun c =>
        (NameForms.prepare normalizer query).map fun q =>
          (NameResemblance.compare q c).map rules.weights.apply) := by
  unfold Comparison.compare Comparison.names
  cases NameForms.prepare normalizer candidate with
  | error e => rfl
  | ok c => cases NameForms.prepare normalizer query <;> rfl

theorem compareAll_of_prepared {d : FeatureDecl α} (hname : d.type = .name)
    {queries candidates : List Text} {q c : List NameForms}
    (hq : queries.mapM (NameForms.prepare normalizer) = .ok q)
    (hc : candidates.mapM (NameForms.prepare normalizer) = .ok c) :
    compareAll normalizer d queries candidates =
      .ok ((NameMemo.resemblances q c).map fun row =>
        row.map fun resemblance => resemblance.map d.rules.weights.apply) := by
  have hcells (v w : Text) (s t : NameForms) (hv : NameForms.prepare normalizer v = .ok s)
      (hw : NameForms.prepare normalizer w = .ok t) :
      Comparison.compare normalizer d.rules d.type v w =
        .ok ((NameResemblance.compare s t).map d.rules.weights.apply) := by
    rw [hname, compare_name, hw, hv]
    rfl
  have hrows (v : Text) (s : NameForms) (hv : NameForms.prepare normalizer v = .ok s) :
      (candidates.mapM fun w => Comparison.compare normalizer d.rules d.type v w) =
        .ok (c.map fun t => (NameResemblance.compare s t).map d.rules.weights.apply) :=
    mapM_eq_ok_map (fun w t hw => hcells v w s t hv hw) hc
  simp only [NameMemo.resemblances, List.map_map, Function.comp_def]
  exact mapM_eq_ok_map hrows hq

theorem prepared_of_compareAll {d : FeatureDecl α} (hname : d.type = .name)
    {queries candidates : List Text} (hqueries : queries ≠ []) (hcandidates : candidates ≠ [])
    {table : List (List (Option α))}
    (h : compareAll normalizer d queries candidates = .ok table) :
    (∃ q, queries.mapM (NameForms.prepare normalizer) = .ok q) ∧
      ∃ c, candidates.mapM (NameForms.prepare normalizer) = .ok c := by
  have hboth : ∀ v ∈ queries, ∀ w ∈ candidates, (∃ s, NameForms.prepare normalizer v = .ok s) ∧
      ∃ t, NameForms.prepare normalizer w = .ok t := by
    intro v hv w hw
    obtain ⟨row, _, hrow⟩ := exists_mem_of_mapM h hv
    obtain ⟨cell, _, hcell⟩ := exists_mem_of_mapM hrow hw
    rw [hname, compare_name] at hcell
    obtain ⟨t, ht, hcell⟩ := bind_eq_ok.mp hcell
    obtain ⟨s, hs, _⟩ := map_eq_ok.mp hcell
    exact ⟨⟨s, hs⟩, t, ht⟩
  obtain ⟨v, hv⟩ := List.exists_mem_of_ne_nil queries hqueries
  obtain ⟨w, hw⟩ := List.exists_mem_of_ne_nil candidates hcandidates
  exact ⟨mapM_exists.mpr fun v' hv' => (hboth v' hv' w hw).1,
    mapM_exists.mpr fun w' hw' => (hboth v hv w' hw').2⟩

/-- Where there are values on both sides, names are prepared just if each pair is compared. -/
theorem similaritiesOf_eq_ok {d : FeatureDecl α} {queries candidates : List Text}
    (hqueries : queries ≠ []) (hcandidates : candidates ≠ []) {table : List (List (Option α))} :
    similaritiesOf normalizer d queries candidates = .ok table ↔
      compareAll normalizer d queries candidates = .ok table := by
  by_cases hname : d.type = .name
  · rw [similaritiesOf_name hname]
    constructor
    · intro h
      obtain ⟨_, htable, rfl⟩ := map_eq_ok.mp h
      obtain ⟨q, hq, htable⟩ := bind_eq_ok.mp htable
      obtain ⟨c, hc, htable⟩ := bind_eq_ok.mp htable
      obtain rfl := Except.ok.inj htable
      exact compareAll_of_prepared hname hq hc
    · intro h
      obtain ⟨⟨q, hq⟩, c, hc⟩ := prepared_of_compareAll hname hqueries hcandidates h
      obtain rfl := Except.ok.inj (h.symm.trans (compareAll_of_prepared hname hq hc))
      exact map_eq_ok.mpr ⟨_, bind_eq_ok.mpr ⟨q, hq, bind_eq_ok.mpr ⟨c, hc, rfl⟩⟩, rfl⟩
  · rw [similaritiesOf_of_ne hname]

theorem alone_eq_ok {d : FeatureDecl α} {f : Feature α} :
    alone normalizer aligner catalog algorithm query candidate d = .ok f ↔
      pairwise normalizer aligner catalog algorithm query candidate d = .ok f := by
  unfold alone pairwise tabulated
  dsimp only
  split
  next => exact Iff.rfl
  next hread =>
    split
    next => exact Iff.rfl
    next =>
      simp only [Bool.or_eq_true, List.isEmpty_iff, not_or] at hread
      simp only [map_eq_ok, similaritiesOf_eq_ok hread.1.2 hread.2]

theorem pairwise_ofFold (folding : Folding) (fold : Text → Text) (d : FeatureDecl α) :
    pairwise (.ofFold folding fold) aligner catalog algorithm query candidate d =
      .ok (afresh (.ofFold folding fold) aligner catalog algorithm query candidate d) := by
  unfold pairwise tabulated afresh
  dsimp only
  rw [compareAll_ofFold]
  split
  next => rfl
  next => split <;> rfl

/-- A name-typed feature of an algorithm spells out its properties. -/
theorem plain_features (algorithm : Algorithm) :
    ∀ d ∈ (algorithm.features : List (FeatureDecl α)), d.type = .name →
      d.properties ≠ [] ∧ NameMemo.Plain d.properties ∧ NameMemo.Plain d.counterparts := by
  have hrows : ∀ row ∈ (algorithm.features : List (FeatureDecl Float)).map
      (fun d => (d.type, d.properties, d.counterparts)), row.1 = .name →
        row.2.1 ≠ [] ∧ NameMemo.Plain row.2.1 ∧ NameMemo.Plain row.2.2 := by
    unfold NameMemo.Plain
    cases algorithm <;> decide +kernel
  have hsame : (algorithm.features : List (FeatureDecl α)).map
      (fun d => (d.type, d.properties, d.counterparts)) =
        (algorithm.features : List (FeatureDecl Float)).map
          fun d => (d.type, d.properties, d.counterparts) := by
    cases algorithm <;> rfl
  intro d hd
  have hrow := List.mem_map_of_mem (f := fun d => (d.type, d.properties, d.counterparts)) hd
  rw [hsame] at hrow
  exact hrows _ hrow

theorem plain_propertiesRead {schema : Text} {type : ValueType} {requested : List Text}
    (hne : requested ≠ []) (h : NameMemo.Plain requested) :
    NameMemo.Plain (propertiesRead catalog schema type requested algorithm) := by
  intro p hp
  rw [propertiesRead, if_neg (mt List.isEmpty_iff.mp hne)] at hp
  exact h p (List.mem_of_mem_filter hp)

theorem keyed_features (algorithm : Algorithm) :
    ∀ d ∈ (algorithm.features : List (FeatureDecl α)),
      Keyed catalog algorithm query candidate d := by
  intro d hd hname
  obtain ⟨hne, hproperties, hcounterparts⟩ := plain_features algorithm d hd hname
  have hquery : NameMemo.Plain (propertiesRead catalog
      (lookupSchema catalog query.schema candidate.schema) d.type d.properties algorithm) :=
    plain_propertiesRead hne hproperties
  refine ⟨hquery, ?_⟩
  unfold read
  dsimp only
  split
  next => exact hquery
  next hdeclared =>
    exact plain_propertiesRead (fun hnil => hdeclared (List.isEmpty_iff.mpr hnil)) hcounterparts

end Feature

namespace Evidence

theorem build_eq_mapM (normalizer : Normalizer) (aligner : Aligner α) (catalog : Catalog)
    (algorithm : Algorithm) (query candidate : Entity) :
    build normalizer aligner catalog algorithm algorithm.features query candidate =
      algorithm.features.mapM
        (Feature.alone normalizer aligner catalog algorithm query candidate) :=
  Feature.evaluateFrom_eq_mapM NameMemo.faithful_empty (Feature.keyed_features algorithm)

/-- The evidence of an algorithm is what each of its features would be on its own. -/
theorem build_features (folding : Folding) (fold : Text → Text) (aligner : Aligner α)
    (catalog : Catalog) (algorithm : Algorithm) (query candidate : Entity) :
    build (.ofFold folding fold) aligner catalog algorithm algorithm.features query candidate =
      .ok (algorithm.features.map
        (Feature.afresh (.ofFold folding fold) aligner catalog algorithm query candidate)) := by
  rw [build_eq_mapM, mapM_eq_ok, List.map_map]
  refine List.map_congr_left fun d _ => ?_
  exact Feature.alone_eq_ok.mpr (Feature.pairwise_ofFold folding fold d)

theorem build_singleton (normalizer : Normalizer) (aligner : Aligner α) (catalog : Catalog)
    (algorithm : Algorithm) (query candidate : Entity) (d : FeatureDecl α) :
    build normalizer aligner catalog algorithm [d] query candidate =
      (Feature.alone normalizer aligner catalog algorithm query candidate d).map fun f => [f] := by
  have halone : Carries (fun _ => True) _ (Feature.evaluate normalizer aligner catalog algorithm
      query candidate d NameMemo.empty) :=
    Feature.carries_evaluate trivial fun _ => NameMemo.carries_table_empty _ _ _ _
  rw [build, Feature.evaluateFrom]
  exact (halone.bind_eq fun f _ _ => rfl).symm

/-- The evidence of an algorithm holds of each feature what its declaration makes on its own, and
that is what comes of a comparison of every pair of values with nothing kept. Only the normalizer
can withhold it, and then it withholds a feature on its own too. -/
theorem build_transparent (normalizer : Normalizer) (aligner : Aligner α)
    (catalog : Catalog) (algorithm : Algorithm) (query candidate : Entity) :
    let build (decls : List (FeatureDecl α)) :=
      Evidence.build normalizer aligner catalog algorithm decls query candidate
    (∀ evidence, build algorithm.features = .ok evidence ↔
      List.Forall₂ (fun d f => build [d] = .ok [f]) algorithm.features evidence) ∧
    (∀ e, build algorithm.features = .error e →
      normalizer.Raises e ∧ ∃ d ∈ algorithm.features, build [d] = .error e) ∧
    ∀ d f, build [d] = .ok [f] ↔
      Feature.pairwise normalizer aligner catalog algorithm query candidate d = .ok f := by
  intro build
  have hbuild : build algorithm.features = algorithm.features.mapM
      (Feature.alone normalizer aligner catalog algorithm query candidate) :=
    build_eq_mapM normalizer aligner catalog algorithm query candidate
  have hsingle (d : FeatureDecl α) : build [d] =
      (Feature.alone normalizer aligner catalog algorithm query candidate d).map fun f => [f] :=
    build_singleton normalizer aligner catalog algorithm query candidate d
  have hmade (d : FeatureDecl α) (f : Feature α) : build [d] = .ok [f] ↔
      Feature.alone normalizer aligner catalog algorithm query candidate d = .ok f := by
    rw [hsingle, map_eq_ok]
    simp
  refine ⟨fun evidence => ?_, fun e h => ⟨raises_of_build h, ?_⟩,
    fun d f => (hmade d f).trans Feature.alone_eq_ok⟩
  · rw [hbuild, mapM_eq_ok, ← List.forall₂_eq_eq_eq, List.forall₂_map_left_iff,
      List.forall₂_map_right_iff]
    simp only [hmade]
  · obtain ⟨d, hd, herror⟩ := mapM_eq_error (hbuild.symm.trans h)
    exact ⟨d, hd, by rw [hsingle, herror]; rfl⟩

def knownAs (name pseudonym : String) : Entity :=
  ⟨Text.of "p", Text.of "Person",
    [⟨Text.of "name", [Text.of name]⟩, ⟨Text.of "alias", [Text.of pseudonym]⟩]⟩

/-- A refusal of an alias stops all of the evidence just as it stops a feature on its own. -/
theorem build_transparent_of_refusal :
    let build (refused : String) (decls : List (FeatureDecl Float)) :=
      Evidence.build (.guarded (Text.of "?") (Text.of refused)) (.clamped 0.7 0.5) .builtin
        .logistic decls (knownAs "Ali Hassan" "Abu Nidal") (knownAs "Hassan Ali" "A. Nidal")
    let reason := Interruption.refused (Text.of "cannot normalize 'Abu Nidal'")
    build "Abu" Logistic.features = .error reason ∧
      (∃ d ∈ Logistic.features, build "Abu" [d] = .error reason) ∧
      ∃ evidence, build "!" Logistic.features = .ok evidence ∧
        List.Forall₂ (fun d f => build "!" [d] = .ok [f]) Logistic.features evidence := by
  intro build reason
  have hrefused : build "Abu" Logistic.features = .error reason := rfl
  have hanswered : (build "!" Logistic.features).isOk = true := by decide +kernel
  refine ⟨hrefused, ((build_transparent _ _ _ .logistic _ _).2.1 reason hrefused).2, ?_⟩
  cases hbuild : build "!" Logistic.features with
  | error e => exact nomatch hbuild ▸ hanswered
  | ok evidence =>
    exact ⟨evidence, rfl, ((build_transparent _ _ _ .logistic _ _).1 evidence).mp hbuild⟩

end Evidence

end Screening
