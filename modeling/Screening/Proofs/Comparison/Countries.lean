import Screening.Comparison
import Screening.Proofs.Country.Codes
import Screening.Proofs.Scalar.Faithful

namespace Screening

namespace Comparison

open Country

section Read

variable {α : Type} [Scalar α] {q c d e cc s : Text}

theorem countries_eq_bind (q c : Text) : (countries q c : Option α) =
    (canonical? q).bind fun d => (canonical? c).bind fun e =>
      some (if d = e then 1 else if related d e then 0.5 else 0) := rfl

theorem countries_of_read (hq : canonical? q = some d) (hc : canonical? c = some e) :
    (countries q c : Option α) = some (if d = e then 1 else if related d e then 0.5 else 0) := by
  rw [countries_eq_bind, hq, hc, Option.bind_some, Option.bind_some]

theorem countries_comm (q c : Text) : (countries c q : Option α) = countries q c := by
  rw [countries_eq_bind, countries_eq_bind]
  cases canonical? q with
  | none => cases canonical? c <;> rfl
  | some d =>
    cases canonical? c with
    | none => rfl
    | some e => simp only [Option.bind_some, related_comm d e, eq_comm (a := e)]

theorem countries_of_writes (hcc : IsCountry cc) (hs : IsSubdivision s) (hq : q.Writes (cc ++ 45 :: s))
    (hc : c.Writes cc) : (countries q c : Option α) = some (if cc.lower = uk then 0 else 0.5) := by
  have hd := canonical?_of_writes (.subdivision hcc hs) hq
  have he := canonical?_of_writes (.country hcc) hc
  rw [lower_subdivision, preferred_subdivision hcc.lower] at hd
  rw [countries_of_read hd he]
  by_cases huk : cc.lower = uk
  · have hrelated : related (uk ++ 45 :: s.lower) gb = false := by
      rw [related_subdivision isCountry_uk fun r hr => (unregional r hr).1]
      decide
    rw [huk, preferred, if_pos rfl, if_neg (subdivision_ne_country isCountry_uk isCountry_gb), hrelated,
      if_pos rfl, if_neg Bool.false_ne_true]
  · have hrelated : related (cc.lower ++ 45 :: s.lower) cc.lower = true := by
      rw [related, parent_subdivision hcc.lower, BEq.rfl, Bool.true_or, Bool.true_or, Bool.true_or]
    rw [preferred, if_neg huk, if_neg huk, if_neg (subdivision_ne_country hcc.lower hcc.lower), hrelated,
      if_pos rfl]

/-- A subdivision of a country of no region agrees with itself and is related to that country alone. -/
theorem countries_of_unregional (hcc : IsCountry cc) (hregion : ∀ r ∈ regions, cc ∉ r.2)
    (hq : canonical? q = some (cc ++ 45 :: s)) (hc : canonical? c = some e) : (countries q c : Option α) =
      some (if cc ++ 45 :: s = e then 1 else if cc = e then 0.5 else 0) := by
  rw [countries_of_read hq hc, related_subdivision hcc hregion]
  simp only [beq_iff_eq]

end Read

section Faithful

variable {α : Type} [Scalar α] [FaithfulScalar α] {q q' c d e s : Text}

theorem countries_ne_iff_of_subdivision (hq : canonical? q = some (uk ++ 45 :: s))
    (hq' : canonical? q' = some (gb ++ 45 :: s)) :
    (countries q c : Option α) ≠ countries q' c ↔
      ∃ e, canonical? c = some e ∧ (e = gb ∨ e = gb ++ 45 :: s ∨ e = uk ++ 45 :: s) := by
  have hone : (1 : α) ≠ 0 := Scalar.ne_zero_of_pos Scalar.zero_lt_one
  have hgbuk : gb ≠ uk := by decide
  have hother : gb ++ 45 :: s ≠ uk ++ 45 :: s :=
    subdivision_ne_subdivision isCountry_gb isCountry_uk hgbuk
  have hukgb : uk ++ 45 :: s ≠ gb := subdivision_ne_country isCountry_uk isCountry_gb
  have hgbgb : gb ++ 45 :: s ≠ gb := subdivision_ne_country isCountry_gb isCountry_gb
  cases hc : canonical? c with
  | none =>
    rw [countries_eq_bind, countries_eq_bind, hq, hq', hc]
    simp
  | some e =>
    have hne : uk ≠ e := (canonical?_ne_uk hc).symm
    rw [countries_of_unregional isCountry_uk (fun r hr => (unregional r hr).1) hq hc,
      countries_of_unregional isCountry_gb (fun r hr => (unregional r hr).2) hq' hc, if_neg hne]
    by_cases htold : e = gb ∨ e = gb ++ 45 :: s ∨ e = uk ++ 45 :: s
    · refine iff_of_true (fun heq => ?_) ⟨e, rfl, htold⟩
      have hvalue := Option.some.inj heq
      rcases htold with rfl | rfl | rfl
      · rw [if_neg hukgb, if_neg hgbgb, if_pos rfl] at hvalue
        exact Scalar.half_ne_zero hvalue.symm
      · rw [if_neg hother.symm, if_pos rfl] at hvalue
        exact hone hvalue.symm
      · rw [if_pos rfl, if_neg hother, if_neg hukgb.symm] at hvalue
        exact hone hvalue
    · simp only [not_or] at htold
      obtain ⟨hcountry, hrenamed, hsame⟩ := htold
      rw [if_neg (Ne.symm hsame), if_neg (Ne.symm hrenamed), if_neg (Ne.symm hcountry)]
      refine iff_of_false (not_not.mpr rfl) ?_
      rintro ⟨_, he, htold⟩
      obtain rfl := Option.some.inj he
      simp [hcountry, hrenamed, hsame] at htold

/-- Countries are compared alike in both directions. A country is worth one half against a subdivision of
its own, but nothing if it is written uk. To write gb for uk makes no difference, except where
a subdivision of uk is compared with gb or with that subdivision of either code. -/
theorem countries_of_subdivisions (α : Type) [Scalar α] [FaithfulScalar α] :
    (∀ q c : Text, (countries c q : Option α) = countries q c) ∧
      (∀ cc s q c : Text, IsCountry cc → IsSubdivision s → q.Writes (cc ++ 45 :: s) → c.Writes cc →
        (countries q c : Option α) = some (if cc.lower = uk then 0 else 0.5) ∧
          (countries c q : Option α) = some (if cc.lower = uk then 0 else 0.5)) ∧
      ∀ before u g rest c : Text, (∀ b ∈ before, Byte.isWhitespace b = true) →
        u.lower = uk → g.lower = gb →
          ((countries (before ++ (u ++ rest)) c : Option α) ≠ countries (before ++ (g ++ rest)) c ↔
            ∃ s, canonical? (before ++ (u ++ rest)) = some (uk ++ 45 :: s) ∧
              ∃ e, canonical? c = some e ∧ (e = gb ∨ e = gb ++ 45 :: s ∨ e = uk ++ 45 :: s)) := by
  refine ⟨countries_comm, fun cc s q c hcc hs hq hc => ?_, fun before u g rest c hbefore hu hg => ?_⟩
  · have hvalue : (countries q c : Option α) = _ := countries_of_writes hcc hs hq hc
    exact ⟨hvalue, (countries_comm q c).trans hvalue⟩
  rcases canonical?_renamed rest hbefore hu hg with ⟨hsame, hno⟩ | ⟨s, hq, hq'⟩
  · refine iff_of_false (not_not.mpr ?_) ?_
    · rw [countries_eq_bind, countries_eq_bind, hsame]
    · rintro ⟨s, hs, _⟩
      exact hno s hs
  · rw [countries_ne_iff_of_subdivision hq hq', hq]
    constructor
    · rintro ⟨e, he⟩
      exact ⟨s, rfl, e, he⟩
    · rintro ⟨s', hs', he⟩
      obtain rfl : s = s' := by simpa using hs'
      exact he

end Faithful

theorem countries_of_subdivisions_of_california :
    let cc := Text.of "us"
    let s := Text.of "ca"
    let q := Text.of " US-Ca\n"
    let c := Text.of "Us\t"
    (IsCountry cc ∧ IsSubdivision s ∧ q.Writes (cc ++ 45 :: s) ∧ c.Writes cc) ∧
      (countries q c = some (0.5 : Float) ∧ countries c q = some (0.5 : Float)) ∧
        ((Text.of "UK").lower = uk ∧ (Text.of "Gb").lower = gb) ∧
          (countries (Text.of "UK-eng") gb : Option Float) ≠ countries (Text.of "Gb-eng") gb := by
  intro cc s q c
  have hcc : IsCountry cc := ⟨rfl, by decide +kernel⟩
  have hs : IsSubdivision s := ⟨by decide +kernel, by decide +kernel⟩
  have hq : q.Writes (cc ++ 45 :: s) :=
    ⟨Text.of " ", Text.of "US-Ca", Text.of "\n", by decide +kernel, by decide +kernel, by decide +kernel,
      by decide +kernel⟩
  have hc : c.Writes cc :=
    ⟨[], Text.of "Us", Text.of "\t", by decide +kernel, by decide +kernel, by decide +kernel,
      by decide +kernel⟩
  have hlower : cc.lower ≠ uk := by decide +kernel
  have huk : (Text.of "UK").lower = uk := by decide +kernel
  have hgb : (Text.of "Gb").lower = gb := by decide +kernel
  obtain ⟨_, hown, hrenamed⟩ := countries_of_subdivisions Float
  have hvalues := hown cc s q c hcc hs hq hc
  rw [if_neg hlower] at hvalues
  exact ⟨⟨hcc, hs, hq, hc⟩, hvalues, ⟨huk, hgb⟩,
    (hrenamed [] (Text.of "UK") (Text.of "Gb") (Text.of "-eng") gb (List.forall_mem_nil _) huk hgb).mpr
      ⟨Text.of "eng", by decide +kernel, gb, by decide +kernel, .inl rfl⟩⟩

/-- A part of the United Kingdom is worth nothing against its own country, which it is worth one half
against when it is written gb. -/
theorem england_apart_from_uk :
    let s := Text.of "eng"
    (IsCountry uk ∧ IsSubdivision s ∧ (Text.of "uk-eng").Writes (uk ++ 45 :: s) ∧
        (Text.of "uk").Writes uk) ∧
      countries (Text.of "uk-eng") (Text.of "uk") = some (0 : Float) ∧
        countries (Text.of "gb-eng") (Text.of "uk") = some (0.5 : Float) ∧ (0 : Float) ≠ 0.5 := by
  intro s
  have hs : IsSubdivision s := ⟨by decide +kernel, by decide +kernel⟩
  have hcode : uk ++ 45 :: s = Text.of "uk-eng" := by decide +kernel
  exact ⟨⟨isCountry_uk, hs, hcode ▸ Text.writes_self _, Text.writes_self _⟩, by decide +kernel,
    by decide +kernel, by decide +kernel⟩

end Comparison

end Screening
