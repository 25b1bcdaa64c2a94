import Screening.Feature.Extraction

namespace Screening

variable {α : Type} [Scalar α] {normalizer : Normalizer} {e : Interruption}

def Normalizer.Raises (normalizer : Normalizer) (e : Interruption) : Prop :=
  ∃ value, normalizer.normalize value = .error e

theorem NameForms.raises_of_prepare {value : Text} (h : prepare normalizer value = .error e) :
    normalizer.Raises e :=
  ⟨value, map_eq_error h⟩

namespace Comparison

variable {query candidate : Text}

theorem raises_of_names
    (h : (names normalizer query candidate : Except _ (Option (NameResemblance α))) = .error e) :
    normalizer.Raises e := by
  rcases bind_eq_error h with h | ⟨_, _, h⟩
  · exact NameForms.raises_of_prepare h
  · rcases bind_eq_error h with h | ⟨_, _, h⟩
    · exact NameForms.raises_of_prepare h
    · exact nomatch h

theorem raises_of_both {β : Type} {finish : Text → Text → β}
    (h : (do
      let q ← normalizer.normalize query
      let c ← normalizer.normalize candidate
      return finish q c) = .error e) : normalizer.Raises e := by
  rcases bind_eq_error h with h | ⟨_, _, h⟩
  · exact ⟨query, h⟩
  · rcases bind_eq_error h with h | ⟨_, _, h⟩
    · exact ⟨candidate, h⟩
    · exact nomatch h

theorem raises_of_compare {rules : ComparisonRules α} {type : ValueType}
    (h : compare normalizer rules type query candidate = .error e) : normalizer.Raises e := by
  cases type with
  | name => exact raises_of_names (map_eq_error h)
  | text => exact raises_of_both h
  | address => exact raises_of_both h
  | date | country | identifier | gender => exact nomatch h

end Comparison

namespace NameMemo

theorem raises_of_prepared {names : List (Text × List NameForms)} {key : Text}
    {values : List Text} (h : prepared normalizer names key values = .error e) :
    normalizer.Raises e := by
  unfold prepared at h
  split at h
  next => exact nomatch h
  next =>
    rcases bind_eq_error h with h | ⟨_, _, h⟩
    · obtain ⟨_, _, hvalue⟩ := mapM_eq_error h
      exact NameForms.raises_of_prepare hvalue
    · exact nomatch h

theorem raises_of_table {memo : NameMemo α} {queryKey candidateKey : Text}
    {query candidate : List Text}
    (h : memo.table normalizer queryKey query candidateKey candidate = .error e) :
    normalizer.Raises e := by
  unfold table at h
  split at h
  next => exact nomatch h
  next =>
    rcases bind_eq_error h with h | ⟨_, _, h⟩
    · exact raises_of_prepared h
    · rcases bind_eq_error h with h | ⟨_, _, h⟩
      · exact raises_of_prepared h
      · exact nomatch h

end NameMemo

namespace Feature

variable {aligner : Aligner α} {catalog : Catalog} {algorithm : Algorithm}
  {query candidate : Entity} {memo : NameMemo α}

theorem raises_of_compareAll {d : FeatureDecl α} {queries candidates : List Text}
    (h : compareAll normalizer d queries candidates = .error e) : normalizer.Raises e := by
  obtain ⟨_, _, h⟩ := mapM_eq_error h
  obtain ⟨_, _, h⟩ := mapM_eq_error h
  exact Comparison.raises_of_compare h

theorem raises_of_evaluate {d : FeatureDecl α}
    (h : evaluate normalizer aligner catalog algorithm query candidate d memo = .error e) :
    normalizer.Raises e := by
  unfold evaluate at h
  dsimp only at h
  split at h
  next => exact nomatch h
  next =>
    split at h
    next => split at h <;> exact nomatch h
    next =>
      rcases bind_eq_error h with h | ⟨_, _, h⟩
      · exact NameMemo.raises_of_table h
      · exact nomatch h
    next =>
      rcases bind_eq_error h with h | ⟨_, _, h⟩
      · exact raises_of_compareAll h
      · exact nomatch h

theorem raises_of_evaluateFrom {decls : List (FeatureDecl α)}
    (h : evaluateFrom normalizer aligner catalog algorithm query candidate decls memo =
      .error e) : normalizer.Raises e := by
  induction decls generalizing memo with
  | nil => exact nomatch h
  | cons d decls ih =>
    rcases bind_eq_error h with h | ⟨_, _, h⟩
    · exact raises_of_evaluate h
    · rcases bind_eq_error h with h | ⟨_, _, h⟩
      · exact ih h
      · exact nomatch h

end Feature

/-- Evidence is interrupted only where the normalizer is. -/
theorem Evidence.raises_of_build {aligner : Aligner α} {catalog : Catalog}
    {algorithm : Algorithm} {decls : List (FeatureDecl α)} {query candidate : Entity}
    (h : build normalizer aligner catalog algorithm decls query candidate = .error e) :
    normalizer.Raises e :=
  Feature.raises_of_evaluateFrom h

theorem Normalizer.not_raises_ofFold (folding : Folding) (fold : Text → Text) :
    ¬ (ofFold folding fold).Raises e :=
  fun ⟨_, h⟩ => nomatch h

theorem Evidence.build_ofFold (folding : Folding) (fold : Text → Text) (aligner : Aligner α)
    (catalog : Catalog) (algorithm : Algorithm) (decls : List (FeatureDecl α))
    (query candidate : Entity) :
    ∃ evidence, build (.ofFold folding fold) aligner catalog algorithm decls query candidate =
      .ok evidence := by
  cases h : build (.ofFold folding fold) aligner catalog algorithm decls query candidate with
  | ok evidence => exact ⟨evidence, rfl⟩
  | error e => exact absurd (raises_of_build h) (Normalizer.not_raises_ofFold folding fold)

end Screening
