import Mathlib.Data.List.Forall2
import Mathlib.Data.Option.Basic
import Screening.Proofs.Score.Passes

namespace Screening

namespace NameQualified

variable {K : Type} [ExactScalar K] {q : Qualifier K} {s t : K}

open Scalar (Fraction)

/-- Whether the one reading of a qualifier speaks for a candidate no more than the other. A qualifier
that is not present is neutral. -/
def NoBetter : Option (Feature K) → Option (Feature K) → Prop
  | some f, some g => f.value ≤ g.value
  | some f, none => f.value ≤ 0
  | none, some g => 0 < g.value
  | none, none => True

theorem NoBetter.refl (r : Option (Feature K)) : NoBetter r r := by
  cases r with
  | none => trivial
  | some f => exact le_refl f.value

structure UpTo (s t : K) : Prop where
  low : Fraction s
  high : Fraction t
  le : s ≤ t

section Order

variable {low high : Evidence K}

theorem UpTo.raised (hst : UpTo s t) (hq : Sound q)
    (h : NoBetter (low.present? q.feature) (high.present? q.feature)) :
    UpTo (raised low s q) (raised high t q) := by
  refine ⟨fraction_raised low hq hst.low, fraction_raised high hq hst.high, ?_⟩
  by_cases hlow : ∃ f, low.present? q.feature = some f ∧ 0 < f.value
  · obtain ⟨f, hf, hpos⟩ := hlow
    rw [hf] at h
    cases hg : high.present? q.feature with
    | none =>
      rw [hg] at h
      exact absurd hpos (not_lt.mpr h)
    | some g =>
      rw [hg] at h
      rw [raised_of_pos s hf hpos, raised_of_pos t hg (lt_of_lt_of_le hpos h)]
      exact boosted_mono hq hst.high hst.le h
  · rw [raised_of_not_pos s hlow]
    exact le_trans hst.le (raised_mem high hq hst.high).1

theorem UpTo.lowered (hst : UpTo s t) (hq : Sound q)
    (h : NoBetter (low.present? q.feature) (high.present? q.feature)) :
    UpTo (lowered low s q) (lowered high t q) := by
  refine ⟨fraction_lowered low hq hst.low, fraction_lowered high hq hst.high, ?_⟩
  by_cases hhigh : disagrees high q = true
  · have hlow : disagrees low q = true := by
      obtain ⟨g, hg, hvalue, hpenalty⟩ := disagrees_iff.mp hhigh
      rw [hg] at h
      cases hf : low.present? q.feature with
      | none =>
        rw [hf] at h
        exact absurd h (not_lt.mpr hvalue)
      | some f =>
        rw [hf] at h
        exact disagrees_iff.mpr ⟨f, hf, le_trans h hvalue, hpenalty⟩
    rw [lowered_of_disagrees s hlow, lowered_of_disagrees t hhigh]
    exact penalised_mono hq hst.le
  · rw [lowered_of_not_disagrees t hhigh]
    exact le_trans (lowered_mem low hq hst.low).2 hst.le

theorem score_mono
    (hname : Option.Rel (fun f g => f.value ≤ g.value) (low.present? NameBased.feature)
      (high.present? NameBased.feature))
    (h : ∀ q ∈ (qualifiers : List (Qualifier K)),
      NoBetter (low.present? q.feature) (high.present? q.feature)) :
    (score low).score ≤ (score high).score := by
  cases hlow : low.present? NameBased.feature with
  | none =>
    rw [score_of_no_name hlow]
    exact (fraction_score high.numeric_exact).1
  | some f =>
    cases hhigh : high.present? NameBased.feature with
    | none =>
      rw [hlow, hhigh] at hname
      exact nomatch hname
    | some g =>
      rw [hlow, hhigh, Option.rel_some_some] at hname
      have hclamped : UpTo (Scalar.clamp f.value) (Scalar.clamp g.value) :=
        ⟨Scalar.fraction_clamp (ExactScalar.isNumber _),
          Scalar.fraction_clamp (ExactScalar.isNumber _), Scalar.clamp_mono hname⟩
      have hraised : UpTo (qualifiers.foldl (raised low) _) (qualifiers.foldl (raised high) _) :=
        List.foldl_rel hclamped fun q hq _ _ hst => hst.raised (sound_qualifiers q hq) (h q hq)
      have hlowered : UpTo (qualifiers.foldl (lowered low) _) (qualifiers.foldl (lowered high) _) :=
        List.foldl_rel hraised fun q hq _ _ hst => hst.lowered (sound_qualifiers q hq) (h q hq)
      rw [score_of_name hlow, score_of_name hhigh]
      exact Scalar.clamp_mono hlowered.le

theorem score_le_cap {evidence : Evidence K} {f : Feature K}
    (hq : q ∈ (qualifiers : List (Qualifier K))) (hf : evidence.present? q.feature = some f)
    (hvalue : f.value ≤ 0) : (score evidence).score ≤ q.cap := by
  have hsound := sound_qualifiers q hq
  by_cases hpenalty : q.penalty < 1
  · cases hname : evidence.present? NameBased.feature with
    | none =>
      rw [score_of_no_name hname]
      exact hsound.cap.1
    | some name =>
      have hraised := fraction_foldl_raised evidence sound_qualifiers
        (Scalar.fraction_clamp (ExactScalar.isNumber name.value))
      have hlowered := foldl_lowered_mem evidence sound_qualifiers hraised
      rw [score_of_name hname, Scalar.clamp_of_mem hlowered.1 (le_trans hlowered.2 hraised.2)]
      exact foldl_lowered_le_cap evidence sound_qualifiers hraised hq
        (disagrees_iff.mpr ⟨f, hf, hvalue, hpenalty⟩)
  · rw [hsound.uncapped hpenalty]
    exact (fraction_score evidence.numeric_exact).2

end Order

end NameQualified

variable {α : Type} {K : Type} [ExactScalar K]

/-- Two features of one name and one presence, the one worth no more than the other. -/
structure Feature.AtMost (f g : Feature K) : Prop where
  name : f.name = g.name
  presence : f.presence = g.presence
  value : f.value ≤ g.value

namespace Evidence

theorem present?_atMost {low high : Evidence K} (h : List.Forall₂ Feature.AtMost low high)
    (name : Text) :
    Option.Rel (fun f g => f.value ≤ g.value) (low.present? name) (high.present? name) := by
  induction h with
  | nil => exact .none
  | @cons f g _ _ hfg _ ih =>
    have hpresent : f.isPresent = g.isPresent := congrArg (· == .present) hfg.presence
    rw [present?_cons, present?_cons, ← hfg.name, ← hpresent]
    by_cases hname : f.name = name
    · rw [if_pos hname, if_pos hname]
      split
      next => exact .some hfg.value
      next => exact .none
    · rw [if_neg hname, if_neg hname]
      exact ih

theorem present?_withdrawn (before after : Evidence α) {f g : Feature α}
    (hf : f.presence = .present) (hname : g.name = f.name) (hg : g.presence = .missing)
    (name : Text) :
    (before ++ g :: after).present? name = (before ++ f :: after).present? name ∨
      name = f.name ∧ (before ++ f :: after).present? name = some f ∧
        (before ++ g :: after).present? name = none := by
  rcases find?_replaced before after hname name with hsame | ⟨heq, hread, hfound⟩
  · exact .inl (present?_congr hsame)
  · have habsent : g.presence ≠ .present := by
      rw [hg]
      exact nofun
    exact .inr ⟨heq, present?_eq_some.mpr ⟨hread, hf⟩, present?_eq_none hfound habsent⟩

end Evidence

namespace NameQualified

theorem rel_refl (r : Option (Feature K)) : Option.Rel (fun f g => f.value ≤ g.value) r r := by
  cases r with
  | none => exact .none
  | some f => exact .some (le_refl f.value)

theorem noBetter_of_rel {r r' : Option (Feature K)}
    (h : Option.Rel (fun f g => f.value ≤ g.value) r r') : NoBetter r r' := by
  cases h with
  | some h => exact h
  | none => trivial

theorem qualifier_ne_name : ∀ q ∈ (qualifiers : List (Qualifier K)),
    q.feature ≠ NameBased.feature := by
  unfold qualifiers
  simp only [List.forall_mem_cons]
  exact ⟨by decide, by decide, by decide, by decide, List.forall_mem_nil _⟩

/-- Greater values never lower the score. It is no lower without a qualifier that disagrees and no
higher without one that agrees, and it keeps to the cap of each qualifier that disagrees. -/
theorem score_monotone (K : Type) [ExactScalar K] :
    (∀ low high : Evidence K, List.Forall₂ Feature.AtMost low high →
      (score low).score ≤ (score high).score) ∧
    (∀ (before after : Evidence K) (f g : Feature K),
      f.name ∈ (qualifiers : List (Qualifier K)).map Qualifier.feature → f.presence = .present →
      g.name = f.name → g.presence = .missing →
      (f.value ≤ 0 → (score (before ++ f :: after)).score ≤ (score (before ++ g :: after)).score) ∧
      (0 < f.value → (score (before ++ g :: after)).score ≤ (score (before ++ f :: after)).score)) ∧
    ∀ evidence : Evidence K, ∀ q ∈ (qualifiers : List (Qualifier K)), ∀ f,
      evidence.present? q.feature = some f → f.value ≤ 0 → (score evidence).score ≤ q.cap := by
  refine ⟨fun low high h => ?_, fun before after f g hf hpresent hname hg => ?_, ?_⟩
  · exact score_mono (Evidence.present?_atMost h _)
      fun q _ => noBetter_of_rel (Evidence.present?_atMost h q.feature)
  · obtain ⟨q, hq, hfeature⟩ := List.mem_map.mp hf
    have hread := Evidence.present?_withdrawn before after hpresent hname hg
    have hsame : (before ++ g :: after).present? NameBased.feature =
        (before ++ f :: after).present? NameBased.feature :=
      (hread _).resolve_right fun h => qualifier_ne_name q hq (hfeature.trans h.1.symm)
    constructor
    all_goals
      intro hvalue
      refine score_mono (hsame ▸ rel_refl _) fun r _ => ?_
      rcases hread r.feature with h | ⟨_, hwith, hwithout⟩
      · exact h ▸ NoBetter.refl _
      · rw [hwith, hwithout]
        exact hvalue
  · exact fun evidence q hq f hf hvalue => score_le_cap hq hf hvalue

/-- A date of birth that disagrees keeps the score of names that are the same to its cap. -/
theorem score_monotone_of_birthDate :
    let evidence (value : ℚ) (presence : Presence) : Evidence ℚ :=
      [⟨NameBased.feature, 2, .present, 1⟩, ⟨Text.of "country.match", 1, .present, 1⟩,
        ⟨Text.of "dob.match", value, presence, 1⟩]
    let against := (score (evidence (-1) .present)).score
    let inFavour := (score (evidence 1 .present)).score
    against ≤ inFavour ∧ against ≤ (score (evidence (-1) .missing)).score ∧
      (score (evidence 1 .missing)).score ≤ inFavour ∧ against ≤ 0.6 := by
  intro evidence against inFavour
  obtain ⟨hmono, hwithdrawn, hcap⟩ := score_monotone ℚ
  have hqualifier :
      Text.of "dob.match" ∈ (qualifiers : List (Qualifier ℚ)).map Qualifier.feature := by decide
  let before : Evidence ℚ :=
    [⟨NameBased.feature, 2, .present, 1⟩, ⟨Text.of "country.match", 1, .present, 1⟩]
  refine ⟨?_, ?_, ?_, ?_⟩
  · refine hmono _ _ (.cons ⟨rfl, rfl, le_refl _⟩ (.cons ⟨rfl, rfl, le_refl _⟩ (.cons ?_ .nil)))
    exact ⟨rfl, rfl, by decide⟩
  · exact (hwithdrawn before [] ⟨_, -1, .present, 1⟩ ⟨_, -1, .missing, 1⟩ hqualifier rfl rfl
      rfl).1 (by decide)
  · exact (hwithdrawn before [] ⟨_, 1, .present, 1⟩ ⟨_, 1, .missing, 1⟩ hqualifier rfl rfl
      rfl).2 (by decide)
  · exact hcap (evidence (-1) .present) _ (.tail _ (.head _)) ⟨_, -1, .present, 1⟩ rfl (by decide)

end NameQualified

end Screening
