import Mathlib.Data.Set.Card
import Mathlib.Order.CompletePartialOrder
import Screening.Proofs.Feature.Afresh
import Screening.Proofs.Feature.Bounds
import Screening.Proofs.Text.Distinct
import Screening.Proofs.Text.Runs

namespace Screening

namespace Feature

/-- The numbers in values: their runs of digits. -/
def numbersIn (values : List Text) : Set Text := {n | ∃ v ∈ values, Text.IsRun Byte.isDigit v n}

theorem mem_numbers {values : List Text} {n : Text} : n ∈ numbers values ↔ n ∈ numbersIn values := by
  rw [numbers, Text.mem_distinct, List.mem_flatMap]
  exact exists_congr fun v => and_congr_right fun _ => Text.mem_runsFrom_iff (List.forall_mem_nil _)

theorem nodup_numbers (values : List Text) : (numbers values).Nodup := Text.nodup_distinct _

theorem coe_numbers (values : List Text) :
    ((numbers values).toFinset : Set Text) = numbersIn values := by
  ext n
  rw [Finset.mem_coe, List.mem_toFinset, mem_numbers]

theorem finite_numbersIn (values : List Text) : (numbersIn values).Finite :=
  coe_numbers values ▸ Finset.finite_toSet _

theorem ncard_numbersIn (values : List Text) :
    (numbersIn values).ncard = (numbers values).length := by
  rw [← coe_numbers, Set.ncard_coe_finset, List.toFinset_card_of_nodup (nodup_numbers values)]

theorem ncard_numbersIn_diff (asked held : List Text) : (numbersIn asked \ numbersIn held).ncard =
    (numbers asked).countP fun n => !(numbers held).contains n := by
  have hlisted : numbersIn asked \ numbersIn held =
      (((numbers asked).filter fun n => !(numbers held).contains n).toFinset : Set Text) := by
    ext n
    simp [← mem_numbers]
  rw [hlisted, Set.ncard_coe_finset,
    List.toFinset_card_of_nodup ((nodup_numbers asked).filter _), List.countP_eq_length_filter]

section Share

variable {K : Type} [ExactScalar K] {lacking asked held : Nat}

theorem clamp_share (part whole : Nat) :
    Scalar.clamp (Scalar.share part whole : K) = min 1 (Scalar.share part whole) := by
  have hnonneg : (0 : K) ≤ Scalar.share part whole :=
    div_nonneg (Nat.cast_nonneg part) (Nat.cast_nonneg whole)
  unfold Scalar.clamp
  rw [if_neg (not_lt.mpr hnonneg)]
  split
  next h => exact (min_eq_left h.le).symm
  next h => exact (min_eq_right (not_lt.mp h)).symm

theorem share_le_of_fewer (hne : asked ≠ 0) (hle : lacking ≤ asked) :
    (Scalar.share lacking asked : K) ≤ min 1 (Scalar.share lacking (max 1 (min asked held))) := by
  have hfewer : max 1 (min asked held) ≤ asked := by omega
  refine le_min (ExactScalar.fraction_share hle).2 ?_
  exact div_le_div_of_nonneg_left (Nat.cast_nonneg lacking) (Nat.cast_pos.mpr (by omega))
    (Nat.cast_le.mpr hfewer)

/-- All that the other side has cannot make up for what is lacking. -/
theorem share_of_fewer_eq_iff (hne : asked ≠ 0) (hle : lacking ≤ asked)
    (hcover : asked ≤ lacking + held) :
    (min 1 (Scalar.share lacking (max 1 (min asked held))) : K) = Scalar.share lacking asked ↔
      asked ≤ held ∨ lacking = asked := by
  constructor
  · contrapose!
    rintro ⟨hheld, hsome⟩
    have hbase : max 1 (min asked held) < asked := by omega
    refine (lt_min ?_ ?_).ne'
    · exact (div_lt_one (Nat.cast_pos.mpr (by omega))).mpr (Nat.cast_lt.mpr (by omega))
    · exact div_lt_div_of_pos_left (Nat.cast_pos.mpr (by omega)) (Nat.cast_pos.mpr (by omega))
        (Nat.cast_lt.mpr hbase)
  · rintro (hheld | rfl)
    · have hbase : max 1 (min asked held) = asked := by omega
      rw [hbase]
      exact min_eq_right (ExactScalar.fraction_share hle).2
    · refine le_antisymm ?_ (share_le_of_fewer hne hle)
      rw [ExactScalar.share_self hne]
      exact min_le_left _ _

end Share

variable {K : Type} [ExactScalar K]

/-- What a feature is that says which share of the numbers `asked` is not among those `held`. -/
structure ByNumbers (asked held : Set Text) (f : Feature K) : Prop where
  present : f.presence = .present
  value : f.value = min 1 (Scalar.share (asked \ held).ncard (max 1 (min asked.ncard held.ncard)))
  atLeast : Scalar.share (asked \ held).ncard asked.ncard ≤ f.value
  exactly : f.value = Scalar.share (asked \ held).ncard asked.ncard ↔
    asked.ncard ≤ held.ncard ∨ Disjoint asked held

theorem foreignNumbers_eq_some {asked held : List Text} (h : (numbersIn asked).Nonempty) :
    (foreignNumbers asked held : Option K) = some (min 1 (Scalar.share
      (numbersIn asked \ numbersIn held).ncard
      (max 1 (min (numbersIn asked).ncard (numbersIn held).ncard)))) := by
  obtain ⟨n, hn⟩ := h
  have hsome : (numbers asked).isEmpty = false :=
    List.isEmpty_eq_false_iff.mpr (List.ne_nil_of_mem (mem_numbers.mpr hn))
  rw [ncard_numbersIn_diff, ncard_numbersIn, ncard_numbersIn, ← clamp_share]
  simp [foreignNumbers, hsome]

theorem byNumbers_ofShare (name : Text) {asked held : List Text}
    (h : (numbersIn asked).Nonempty) :
    ByNumbers (numbersIn asked) (numbersIn held)
      (ofShare name (foreignNumbers asked held : Option K)) := by
  have hasked := finite_numbersIn asked
  have hne : (numbersIn asked).ncard ≠ 0 := (Set.ncard_pos hasked).mpr h |>.ne'
  have hle : (numbersIn asked \ numbersIn held).ncard ≤ (numbersIn asked).ncard :=
    Set.ncard_le_ncard Set.sdiff_subset hasked
  have hcover : (numbersIn asked).ncard ≤
      (numbersIn asked \ numbersIn held).ncard + (numbersIn held).ncard :=
    Set.ncard_le_ncard_sdiff_add_ncard _ _ (finite_numbersIn held)
  have hnone : (numbersIn asked \ numbersIn held).ncard = (numbersIn asked).ncard ↔
      Disjoint (numbersIn asked) (numbersIn held) := by
    rw [← sdiff_eq_left]
    refine ⟨fun heq => ?_, congrArg Set.ncard⟩
    exact Set.eq_of_subset_of_ncard_le Set.sdiff_subset heq.ge hasked
  rw [foreignNumbers_eq_some h]
  refine ⟨rfl, rfl, share_le_of_fewer hne hle, ?_⟩
  rw [← hnone]
  exact share_of_fewer_eq_iff hne hle hcover

end Feature

theorem Evidence.build_of_foreignNumbers {α : Type} [Scalar α] (normalizer : Normalizer)
    (aligner : Aligner α) (catalog : Catalog) (algorithm : Algorithm) (query candidate : Entity)
    {d : FeatureDecl α} (hkind : d.kind = .foreignNumbers) :
    build normalizer aligner catalog algorithm [d] query candidate =
      .ok [Feature.afresh normalizer aligner catalog algorithm query candidate d] := by
  rw [build, Feature.evaluateFrom, Feature.evaluate_foreignNumbers hkind]
  rfl

/-- A feature of numbers is made whatever the normalizer, of the query's numbers that the candidate
lacks and the number of numbers on the side with fewer of them. -/
theorem Evidence.build_lacking_over_fewer {K : Type} [ExactScalar K] (normalizer : Normalizer)
    (aligner : Aligner K) (catalog : Catalog) (algorithm : Algorithm) (query candidate : Entity) :
    let build (decls : List (FeatureDecl K)) :=
      Evidence.build normalizer aligner catalog algorithm decls query candidate
    (∀ d, d.kind = .foreignNumbers → ∃ f, build [d] = .ok [f]) ∧
    ∀ decls evidence, build decls = .ok evidence →
      List.Forall₂ (fun d f => d.kind = .foreignNumbers →
        let r := Feature.read catalog algorithm query candidate d
        d.scope.includes catalog query.schema candidate.schema = true →
          (Feature.numbersIn r.query).Nonempty → r.candidate ≠ [] →
            Feature.ByNumbers (Feature.numbersIn r.query) (Feature.numbersIn r.candidate) f)
        decls evidence := by
  intro build
  refine ⟨fun d hkind => ⟨_, build_of_foreignNumbers _ _ _ _ _ _ hkind⟩, fun decls evidence h => ?_⟩
  refine Feature.forall₂_evaluateFrom (fun d memo f memo' hf hkind => ?_) h
  intro r hscope hasked hcandidate
  obtain ⟨n, v, hv, _⟩ := id hasked
  rw [Feature.evaluate_foreignNumbers hkind] at hf
  obtain ⟨rfl, _⟩ := Prod.mk.inj (Except.ok.inj hf)
  rw [Feature.afresh_of_read hscope (List.ne_nil_of_mem hv) hcandidate, if_pos hkind]
  exact Feature.byNumbers_ofShare d.name hasked

def vesselNamed (name : String) : Entity :=
  ⟨Text.of "v", Text.of "Vessel", [⟨Text.of "name", [Text.of name]⟩]⟩

/-- One number of two is lacking, and the candidate has one number. -/
theorem Evidence.build_lacking_over_fewer_of_flights :
    let d : FeatureDecl ℚ := Logistic.foreignNumbers
    let query := vesselNamed "Flight 714 22"
    let candidate := vesselNamed "Flight 714"
    let r := Feature.read .builtin .logistic query candidate d
    (d.kind = .foreignNumbers ∧ d.scope.includes .builtin query.schema candidate.schema = true ∧
        (Feature.numbersIn r.query).Nonempty ∧ r.candidate ≠ []) ∧
      ∃ f, Evidence.build .basic (.clamped (1 / 20) (1 / 2)) .builtin .logistic [d] query candidate =
          .ok [f] ∧
        f.value = 1 ∧ Feature.ByNumbers (Feature.numbersIn r.query) (Feature.numbersIn r.candidate) f := by
  intro d query candidate r
  have hnumbers : (Feature.numbersIn r.query).Nonempty :=
    ⟨Text.of "714", Feature.mem_numbers.mp (by decide +kernel)⟩
  have hcandidate : r.candidate ≠ [] := by decide +kernel
  have hscope : d.scope.includes .builtin query.schema candidate.schema = true := by decide +kernel
  obtain ⟨hmade, hall⟩ := build_lacking_over_fewer (K := ℚ) .basic (.clamped (1 / 20) (1 / 2)) .builtin
    .logistic query candidate
  obtain ⟨f, hf⟩ := hmade d rfl
  obtain ⟨hby, _⟩ := List.forall₂_cons.mp (hall [d] [f] hf)
  have hby := hby rfl hscope hnumbers hcandidate
  refine ⟨⟨rfl, hscope, hnumbers, hcandidate⟩, f, hf, ?_, hby⟩
  rw [hby.value, Feature.ncard_numbersIn_diff, Feature.ncard_numbersIn, Feature.ncard_numbersIn]
  decide +kernel

/-- The one number of two is not half of them to the feature. -/
theorem Evidence.lacking_half_counts_as_all :
    let d : FeatureDecl Float := Logistic.foreignNumbers
    let query := vesselNamed "Flight 714 22"
    let candidate := vesselNamed "Flight 714"
    let r := Feature.read .builtin .logistic query candidate d
    let asked := Feature.numbersIn r.query
    let held := Feature.numbersIn r.candidate
    (r.candidate ≠ [] ∧ asked.ncard = 2 ∧ (asked \ held).ncard = 1) ∧
      ∃ f, Evidence.build .basic (.clamped 0.05 0.5) .builtin .logistic [d] query candidate =
        .ok [f] ∧ f.presence = .present ∧ f.value = 1 ∧ f.value ≠ 1 / 2 := by
  intro d query candidate r asked held
  have hcounts : asked.ncard = 2 ∧ (asked \ held).ncard = 1 := by
    rw [Feature.ncard_numbersIn_diff, Feature.ncard_numbersIn]
    decide +kernel
  refine ⟨⟨by decide +kernel, hcounts⟩, _, build_of_foreignNumbers _ _ _ _ _ _ rfl, ?_⟩
  exact ⟨by decide +kernel, by decide +kernel, by decide +kernel⟩

end Screening
