import Mathlib.Data.List.Nodup
import Screening.Proofs.Score.Logistic

namespace Screening.Logistic

section Lines

variable {α : Type} [Scalar α] {evidence other : Evidence α} {w : Text × α}

theorem change_of_present {f : Feature α} (h : evidence.present? w.1 = some f) :
    (line evidence w).change = w.2 * Scalar.clamp f.value := by
  rw [line, h]

theorem change_of_absent (h : evidence.present? w.1 = none) : (line evidence w).change = 0 := by
  rw [line, h]

theorem line_congr (h : other.present? w.1 = evidence.present? w.1)
    (hpresence : other.presence w.1 = evidence.presence w.1) : line other w = line evidence w := by
  rw [line, line, h, hpresence]

theorem score_congr (h : ∀ w ∈ (weights : List (Text × α)),
    other.present? w.1 = evidence.present? w.1 ∧ other.presence w.1 = evidence.presence w.1) :
    score other = score evidence := by
  have hlines : lines other = lines evidence :=
    List.map_congr_left fun w hw => line_congr (h w hw).1 (h w hw).2
  have hevidence : hasEvidence other = hasEvidence evidence := by
    rw [Bool.eq_iff_iff, hasEvidence_iff, hasEvidence_iff]
    refine exists_congr fun w => and_congr_right fun hw => ?_
    rw [Evidence.isPresent, Evidence.isPresent, (h w hw).1]
  rw [score, score, hevidence, logit, logit, hlines]

theorem weights_nodup : ((weights : List (Text × α)).map Prod.fst).Nodup := by
  have hnames : (weights : List (Text × α)).map Prod.fst =
      (weights : List (Text × Float)).map Prod.fst := rfl
  rw [hnames]
  decide +kernel

theorem weight_unique {u : Text × α} (hu : u ∈ (weights : List (Text × α)))
    (hw : w ∈ (weights : List (Text × α))) (h : u.1 = w.1) : u = w :=
  List.inj_on_of_nodup_map weights_nodup hu hw h

end Lines

variable {K : Type} [ExactScalar K]

theorem score_le_of_changes {low high : Evidence K}
    (hchanges : ∀ w ∈ (weights : List (Text × K)), (line low w).change ≤ (line high w).change)
    (hevidence : hasEvidence low = true → hasEvidence high = true) :
    (score low).score ≤ (score high).score := by
  by_cases hlow : hasEvidence low = true
  · have hsum : ((lines low).map ScoreLine.change).sum ≤ ((lines high).map ScoreLine.change).sum := by
      rw [lines, lines, List.map_map, List.map_map]
      exact List.sum_le_sum hchanges
    have hlogit : logit low ≤ logit high := by
      rw [logit_eq, logit_eq]
      linarith
    rw [score, score, if_pos hlow, if_pos (hevidence hlow)]
    exact logistic_strictMono.monotone (bounded_mono hlogit)
  · rw [(score_of_no_evidence hlow).1]
    exact (fraction_score (fun _ _ => le_of_lt (ExactScalar.exp_pos _)) high.numeric_exact).1

section Replaced

variable {before after : Evidence K} {f g : Feature K} {w : Text × K}

theorem change_replaced (hname : g.name = f.name) (hg : g.presence = .present)
    (hvalue : f.presence = .present → f.value ≤ g.value) :
    line (before ++ g :: after) w = line (before ++ f :: after) w ∨
      w.1 = f.name ∧ ∃ x y, x ≤ y ∧ (line (before ++ f :: after) w).change = w.2 * x ∧
        (line (before ++ g :: after) w).change = w.2 * y := by
  rcases Evidence.find?_replaced before after hname w.1 with hsame | ⟨hw, hf, hfound⟩
  · left
    exact line_congr (Evidence.present?_congr hsame) (Evidence.presence_congr hsame)
  · right
    have hpresent := Evidence.present?_eq_some.mpr ⟨hfound, hg⟩
    by_cases hpresence : f.presence = .present
    · have hread := Evidence.present?_eq_some.mpr ⟨hf, hpresence⟩
      exact ⟨hw, _, _, Scalar.clamp_mono (hvalue hpresence), change_of_present hread,
        change_of_present hpresent⟩
    · have hread := Evidence.present?_eq_none hf hpresence
      have hclamp := Scalar.fraction_clamp (ExactScalar.isNumber g.value)
      exact ⟨hw, 0, _, hclamp.1, by rw [change_of_absent hread, mul_zero], change_of_present hpresent⟩

theorem score_replaced_of_pos (hw : (f.name, w.2) ∈ (weights : List (Text × K))) (hpos : 0 < w.2)
    (hname : g.name = f.name) (hg : g.presence = .present)
    (hvalue : f.presence = .present → f.value ≤ g.value) :
    (score (before ++ f :: after)).score ≤ (score (before ++ g :: after)).score := by
  refine score_le_of_changes (fun u hu => ?_) fun hevidence => ?_
  · rcases change_replaced (w := u) hname hg hvalue with hsame | ⟨hu', x, y, hxy, hx, hy⟩
    · rw [hsame]
    · obtain rfl := weight_unique hu hw hu'
      rw [hx, hy]
      exact mul_le_mul_of_nonneg_left hxy (le_of_lt hpos)
  · obtain ⟨u, hu, hsign, hpresent⟩ := hasEvidence_iff.mp hevidence
    exact hasEvidence_iff.mpr
      ⟨u, hu, hsign, Evidence.isPresent_replaced before after hname hg hpresent⟩

theorem score_replaced_of_neg (hw : (f.name, w.2) ∈ (weights : List (Text × K))) (hneg : w.2 < 0)
    (hname : g.name = f.name) (hg : g.presence = .present)
    (hvalue : f.presence = .present → f.value ≤ g.value) :
    (score (before ++ g :: after)).score ≤ (score (before ++ f :: after)).score := by
  refine score_le_of_changes (fun u hu => ?_) fun hevidence => ?_
  · rcases change_replaced (w := u) hname hg hvalue with hsame | ⟨hu', x, y, hxy, hx, hy⟩
    · rw [hsame]
    · obtain rfl := weight_unique hu hw hu'
      rw [hx, hy]
      exact mul_le_mul_of_nonpos_left hxy (le_of_lt hneg)
  · obtain ⟨u, hu, hsign, hpresent⟩ := hasEvidence_iff.mp hevidence
    have hother : u.1 ≠ f.name := by
      intro heq
      obtain rfl := weight_unique hu hw heq
      exact lt_asymm hsign hneg
    have hsame := (Evidence.find?_replaced before after hname u.1).resolve_right
      fun h => hother h.1
    rw [Evidence.isPresent, Evidence.present?_congr hsame, ← Evidence.isPresent] at hpresent
    exact hasEvidence_iff.mpr ⟨u, hu, hsign, hpresent⟩

theorem score_of_idle (h : f.name ∉ (weights : List (Text × K)).map Prod.fst ∨
      f.name ∈ before.map Feature.name ∨ f.presence = .missing ∧ f.name ∉ after.map Feature.name) :
    score (before ++ f :: after) = score (before ++ after) := by
  refine score_congr fun w hw => ?_
  rcases h with hname | hbefore | ⟨hf, hafter⟩
  · have hne : f.name ≠ w.1 := fun heq => hname (heq ▸ List.mem_map_of_mem hw)
    have hsame : (before ++ f :: after).find? w.1 = (before ++ after).find? w.1 := by
      rw [Evidence.find?_append, Evidence.find?_append, Evidence.find?_cons, if_neg hne]
    exact ⟨Evidence.present?_congr hsame, Evidence.presence_congr hsame⟩
  · have hsame := Evidence.find?_surplus before after hbefore w.1
    exact ⟨Evidence.present?_congr hsame, Evidence.presence_congr hsame⟩
  · exact Evidence.reads_missing before after hf hafter w.1

end Replaced

/-- Evidence counts by the sign of its weight. What has no weight, comes after a feature of its name
or is missing as if it were not there changes nothing. -/
theorem score_weighs (K : Type) [ExactScalar K] (before after : Evidence K) (f : Feature K) :
    (∀ g : Feature K, ∀ w : K, (f.name, w) ∈ (weights : List (Text × K)) → g.name = f.name →
      g.presence = .present → (f.presence = .present → f.value ≤ g.value) →
      (0 < w → (score (before ++ f :: after)).score ≤ (score (before ++ g :: after)).score) ∧
      (w < 0 → (score (before ++ g :: after)).score ≤ (score (before ++ f :: after)).score)) ∧
    (f.name ∉ (weights : List (Text × K)).map Prod.fst ∨ f.name ∈ before.map Feature.name ∨
        f.presence = .missing ∧ f.name ∉ after.map Feature.name →
      score (before ++ f :: after) = score (before ++ after)) := by
  refine ⟨fun g w hw hname hg hvalue => ⟨fun hpos => ?_, fun hneg => ?_⟩, score_of_idle⟩
  · exact score_replaced_of_pos (w := (f.name, w)) hw hpos hname hg hvalue
  · exact score_replaced_of_neg (w := (f.name, w)) hw hneg hname hg hvalue

/-- A literal match that is raised, a gender that turns out to differ, and a second literal match. -/
theorem score_weighs_of_gender :
    let literal (value : ℚ) : Feature ℚ := ⟨Text.of "name.literal", value, .present, 1⟩
    let gender (presence : Presence) : Feature ℚ := ⟨Text.of "gender.mismatch", 1, presence, 1⟩
    (score [literal (-1)]).score ≤ (score [literal 3]).score ∧
      (score [literal 1, gender .present]).score ≤ (score [literal 1, gender .ignored]).score ∧
      score [literal 1, literal 0] = score [literal 1] := by
  intro literal gender
  have hliteral : (Text.of "name.literal", (4.0 : ℚ)) ∈ (weights : List (Text × ℚ)) := .head _
  have hgender : (Text.of "gender.mismatch", (-1.5 : ℚ)) ∈ (weights : List (Text × ℚ)) := by
    decide +kernel
  refine ⟨?_, ?_, ?_⟩
  · exact ((score_weighs ℚ [] [] (literal (-1))).1 (literal 3) 4.0 hliteral rfl rfl
      fun _ => by decide +kernel).1 (by decide +kernel)
  · exact ((score_weighs ℚ [literal 1] [] (gender .ignored)).1 (gender .present) (-1.5) hgender rfl
      rfl fun h => nomatch h).2 (by decide +kernel)
  · exact (score_weighs ℚ [literal 1] [] (literal 0)).2 (.inr (.inl (.head _)))

end Screening.Logistic
