import Screening.Proofs.Alignment.Best
import Screening.Proofs.Comparison.Dates
import Screening.Proofs.Feature.Afresh

namespace Screening

variable {α : Type} [Scalar α]

namespace IncompleteDate

theorem agreement_self {precision : Precision} {t : Text} {d : IncompleteDate}
    (h : ofText? t = some d) (hprecision : precision ≠ .any) {e : IncompleteDate} {s : α}
    (hs : agreement precision d e = some s) : agreement precision d d = some (1 : α) := by
  cases precision with
  | any => exact absurd rfl hprecision
  | year => simp [agreement]
  | day =>
    cases hday : d.day with
    | none => simp [agreement, hday] at hs
    | some day =>
      obtain ⟨month, hmonth⟩ := month_of_day h hday
      simp [agreement, monthAgreement, hday, hmonth]

end IncompleteDate

theorem TokenSet.agreement_self {q c : List Text} {s : α} (h : agreement q c = some s) :
    agreement q q = some (1 : α) := by
  have hq : q.isEmpty = false := by
    cases q with
    | nil => exact nomatch h
    | cons _ _ => rfl
  have hcommon : q.filter q.contains = q := List.filter_eq_self.mpr fun t ht => by simpa using ht
  simp [agreement, hq, hcommon]

/-- Rules under which all that can be told of a value and itself is that they are the same. -/
structure ComparisonRules.Strict (rules : ComparisonRules α) (type : ValueType) : Prop where
  names : type = .name → rules.weights.literalWins = true
  dates : type = .date → rules.precision ≠ .any

theorem NameWeights.apply_compare_self [OrderedScalar α] {weights : NameWeights α}
    (h : weights.literalWins = true) (name : NameForms) (hname : name.cleaned ≠ []) :
    (NameResemblance.compare name name).map weights.apply = some (1 : α) := by
  have hliteral : (1 : α) ≤ name.literal name := by
    rw [NameForms.literal, if_pos rfl]
    exact Scalar.number_one
  rw [NameResemblance.compare_eq_some hname hname, Option.map_some, apply, h, Bool.true_and,
    if_pos (decide_eq_true hliteral)]

theorem Comparison.similarity_self [OrderedScalar α] {folding : Folding} {fold : Text → Text}
    {rules : ComparisonRules α} {type : ValueType} (hrules : rules.Strict type) {v w : Text} {s : α}
    (h : similarity (.ofFold folding fold) rules type v w = some s) :
    similarity (.ofFold folding fold) rules type v v = some 1 := by
  cases type with
  | name =>
    rw [similarity_name] at h ⊢
    obtain ⟨r, hr, _⟩ := Option.map_eq_some_iff.mp h
    exact NameWeights.apply_compare_self (hrules.names rfl) _ (NameResemblance.cleaned_of_compare hr).1
  | date =>
    change dates rules.precision v w = some s at h
    change dates rules.precision v v = some 1
    obtain ⟨d, hd, h⟩ := Option.bind_eq_some_iff.mp h
    obtain ⟨e, he, h⟩ := Option.bind_eq_some_iff.mp h
    simp only [dates, hd, Option.bind_eq_bind, Option.bind_some]
    exact IncompleteDate.agreement_self hd (hrules.dates rfl) h
  | country =>
    obtain ⟨code, hcode, _⟩ := Option.bind_eq_some_iff.mp h
    change countries v v = some 1
    simp [countries, hcode]
  | identifier =>
    change identifiers rules.scheme rules.minLength v w = some s at h
    change identifiers rules.scheme rules.minLength v v = some 1
    simp only [identifiers] at h ⊢
    split at h
    next husable =>
      have husable := (Bool.and_eq_true_iff.mp husable).1
      rw [husable]
      simp
    next => exact nomatch h
  | gender =>
    obtain ⟨gender, hgender, _⟩ := Option.bind_eq_some_iff.mp h
    change genders v v = some 1
    simp [genders, hgender]
  | text => exact TokenSet.agreement_self (c := TokenSet.ofText (fold w)) h
  | address => exact TokenSet.agreement_self (c := TokenSet.ofAddress (fold w)) h

namespace Feature

variable [FaithfulScalar α] {aligner : Aligner α} {catalog : Catalog} {algorithm : Algorithm}
  (folding : Folding) {fold : Text → Text} {e : Entity} {d : FeatureDecl α}

/-- A feature that, if it is present, says all for the sameness of two entities and nothing against
it. -/
def Spotless (kind : FeatureKind) (f : Feature α) : Prop :=
  f.presence = .present →
    if kind = .similarity then f.value = 1 else Scalar.Ties f.value 0

omit [Scalar α] [FaithfulScalar α] in
theorem told_iff {similarity : Text → Text → Option α} {queries candidates : List Text} :
    (¬ ((queries.map fun q => candidates.map fun c => similarity q c).all fun row =>
      row.all Option.isNone) = true) ↔
        ∃ q ∈ queries, ∃ c ∈ candidates, ∃ s, similarity q c = some s := by
  simp [Option.ne_none_iff_exists']

theorem ofSimilarities_self (hfloor : aligner.floor ≤ 1) (ht : Scalar.Fraction aligner.support)
    (hkind : d.kind ≠ .foreignNumbers) {similarity : Text → Text → Option α} {values : List Text}
    {v : Text} (hv : v ∈ values) (hself : similarity v v = some 1) :
    let f := ofSimilarities aligner d values.length values.length
      (values.map fun q => values.map fun c => similarity q c)
    f.presence = .present ∧ Spotless d.kind f := by
  intro f
  let table := values.map fun q => values.map fun c => similarity q c
  let cells (q c : Nat) : α := ((table.getD q []).getD c none).getD 0
  obtain ⟨i, hi, rfl⟩ := List.mem_iff_getElem.mp hv
  have hcell : cells i i = 1 := by simp [cells, table, List.getD_eq_getElem?_getD, hi, hself]
  have htold : ¬ (table.all fun row => row.all Option.isNone) = true :=
    told_iff.mpr ⟨_, hv, _, hv, 1, hself⟩
  have hf : f = ofSimilarities aligner d values.length values.length table := rfl
  unfold ofSimilarities at hf
  rw [if_neg htold] at hf
  refine ⟨by rw [hf], fun _ => ?_⟩
  rw [hf]
  cases h : d.kind with
  | similarity => exact aligner.aggregate_align_eq_one hfloor ht hi hi hcell
  | disagreement =>
    have hbest : (aligner.align values.length values.length cells).best = 1 :=
      aligner.best_eq_one hfloor hi hi hcell
    change Scalar.Ties (1 - (aligner.align values.length values.length cells).best) 0
    rw [hbest]
    exact FaithfulScalar.one_sub_one
  | foreignNumbers => exact absurd h hkind

theorem foreignNumbers_self {values : List Text} {value : α}
    (h : foreignNumbers values values = some value) : Scalar.Ties value 0 := by
  unfold foreignNumbers at h
  dsimp only at h
  split at h
  next => exact nomatch h
  next =>
    obtain rfl := Option.some.inj h
    have hcount : (numbers values).countP (fun n => !(numbers values).contains n) = 0 := by
      rw [List.countP_eq_zero]
      intro n hn
      simpa using hn
    rw [hcount]
    have hshare : Scalar.Ties (Scalar.share 0
        (max 1 (min (numbers values).length (numbers values).length)) : α) 0 :=
      FaithfulScalar.share_zero (by omega)
    rw [← Scalar.clamp_zero]
    exact hshare.clamp

omit [Scalar α] [FaithfulScalar α] in
theorem read_self (hd : d.counterparts = []) :
    (read catalog algorithm e e d).candidate = (read catalog algorithm e e d).query := by
  unfold read
  simp [hd]

omit [FaithfulScalar α] in
theorem afresh_self {normalizer : Normalizer} (hd : d.counterparts = []) :
    let values := (read catalog algorithm e e d).query
    afresh normalizer aligner catalog algorithm e e d =
      if !d.scope.includes catalog e.schema e.schema || values.isEmpty then missing d.name
      else if d.kind = .foreignNumbers then ofShare d.name (foreignNumbers values values)
      else
        ofSimilarities aligner d values.length values.length
          (values.map fun q => values.map fun c =>
            Comparison.similarity normalizer d.rules d.type q c) := by
  unfold afresh
  dsimp only
  rw [read_self hd, Bool.or_assoc, Bool.or_self]

theorem spotless_afresh (hfloor : aligner.floor ≤ 1) (ht : Scalar.Fraction aligner.support)
    (hd : d.counterparts = []) (hrules : d.rules.Strict d.type) :
    Spotless d.kind (afresh (.ofFold folding fold) aligner catalog algorithm e e d) := by
  rw [afresh_self hd]
  generalize (read catalog algorithm e e d).query = values
  intro hpresent
  split at hpresent
  next => exact nomatch hpresent
  next hread =>
    rw [if_neg hread]
    split at hpresent
    next hkind =>
      rw [if_pos hkind, hkind, if_neg (by decide)]
      cases hvalue : (foreignNumbers values values : Option α) with
      | none =>
        rw [hvalue] at hpresent
        exact nomatch hpresent
      | some share => exact foreignNumbers_self hvalue
    next hkind =>
      rw [if_neg hkind]
      by_cases hnone : (values.map fun q => values.map fun c =>
          Comparison.similarity (.ofFold folding fold) d.rules d.type q c).all
          fun row => row.all Option.isNone
      · rw [ofSimilarities, if_pos hnone] at hpresent
        exact nomatch hpresent
      · obtain ⟨v, hv, _, _, _, htold⟩ := told_iff.mp hnone
        exact (ofSimilarities_self hfloor ht hkind hv
          (Comparison.similarity_self hrules htold)).2 hpresent

omit [Scalar α] [FaithfulScalar α] in
theorem lookupSchema_self (catalog : Catalog) (schema : Text) :
    lookupSchema catalog schema schema = schema := by
  unfold lookupSchema
  split <;> rfl

/-- The names of an entity that an algorithm reads. -/
def namesRead (catalog : Catalog) (algorithm : Algorithm) (e : Entity) : List Text :=
  meaningful (e.gather
    (propertiesRead catalog e.schema .name (NameBased.properties.map Text.of) algorithm))

theorem afresh_of_named (hfloor : aligner.floor ≤ 1) (ht : Scalar.Fraction aligner.support)
    (name : String) {weights : NameWeights α} (hweights : weights.literalWins = true)
    (h : ∃ v ∈ namesRead catalog algorithm e, (fold v).dropPunctuation ≠ []) :
    let f := afresh (.ofFold folding fold) aligner catalog algorithm e e
      (.similarity name .name NameBased.properties (.ofWeights weights))
    f.presence = .present ∧ f.value = 1 := by
  obtain ⟨v, hv, hcleaned⟩ := h
  intro f
  let d : FeatureDecl α := .similarity name .name NameBased.properties (.ofWeights weights)
  have hquery : (read catalog algorithm e e d).query = namesRead catalog algorithm e := by
    unfold read namesRead
    rw [lookupSchema_self]
    rfl
  have hnonempty : (namesRead catalog algorithm e).isEmpty = false :=
    List.isEmpty_eq_false_iff.mpr (List.ne_nil_of_mem hv)
  have hself : Comparison.similarity (.ofFold folding fold) d.rules d.type v v = some 1 :=
    NameWeights.apply_compare_self hweights (.ofFold fold v) hcleaned
  have hspotless := ofSimilarities_self (d := d) hfloor ht (fun hkind => nomatch hkind) hv hself
  have hf : f = _ := afresh_self (d := d) rfl
  rw [hquery, hnonempty] at hf
  rw [hf]
  exact ⟨hspotless.1, hspotless.2 hspotless.1⟩

end Feature

end Screening
