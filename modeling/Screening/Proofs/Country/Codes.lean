import Mathlib.Data.List.TakeWhile
import Screening.Country
import Screening.Proofs.Text.Case

namespace Screening

namespace Country

variable {code cc r s t : Text}

structure IsCountry (code : Text) : Prop where
  length : code.length = 2
  letters : ∀ b ∈ code, Byte.isAlpha b = true

structure IsSubdivision (s : Text) : Prop where
  nonempty : s ≠ []
  signs : ∀ b ∈ s, Byte.isAlphanum b = true

/-- The codes that tell a place: a country, with or without a subdivision behind a dash, or a region. -/
inductive IsCode : Text → Prop
  | country {cc : Text} : IsCountry cc → IsCode cc
  | subdivision {cc s : Text} : IsCountry cc → IsSubdivision s → IsCode (cc ++ 45 :: s)
  | region {code : Text} : code ∈ regions.map Prod.fst → IsCode code

def uk : Text := Text.of "uk"

def gb : Text := Text.of "gb"

/-- The code that is compared: gb for uk. -/
def preferred (code : Text) : Text := if code = uk then gb else code

theorem not_dash_of_isAlpha {b : UInt8} (h : Byte.isAlpha b = true) : (b != 45) = true := by
  rw [bne_iff_ne]
  rintro rfl
  exact absurd h (by decide)

theorem parent_append (h : ∀ b ∈ cc, Byte.isAlpha b = true) : parent (cc ++ r) = cc ++ parent r :=
  List.takeWhile_append_of_pos fun b hb => not_dash_of_isAlpha (h b hb)

theorem parent_of_letters (h : ∀ b ∈ cc, Byte.isAlpha b = true) : parent cc = cc := by
  simpa [parent] using parent_append (r := []) h

theorem parent_subdivision (h : IsCountry cc) : parent (cc ++ 45 :: s) = cc := by
  rw [parent_append h.letters]
  simp [parent]

theorem not_dash_mem_parent (code : Text) : 45 ∉ parent code :=
  fun h => absurd (List.mem_takeWhile_imp h) (by decide)

theorem eq_parent_or (code : Text) : code = parent code ∨ ∃ s, code = parent code ++ 45 :: s := by
  have hsplit : parent code ++ code.dropWhile (· != 45) = code := List.takeWhile_append_dropWhile
  cases hrest : code.dropWhile (· != 45) with
  | nil => exact .inl (by rw [hrest, List.append_nil] at hsplit; exact hsplit.symm)
  | cons b s =>
    have hdash : (b != 45) = false := by
      simpa [hrest] using List.head?_dropWhile_not (· != 45) code
    obtain rfl : b = 45 := by simpa using hdash
    exact .inr ⟨s, by rw [hrest] at hsplit; exact hsplit.symm⟩

theorem drop_parent {code : Text} (rest : Text) (h : code = parent code ++ rest) :
    code.drop (parent code).length = rest := by
  calc code.drop (parent code).length = (parent code ++ rest).drop (parent code).length := by rw [← h]
    _ = rest := List.drop_left

/-- The codes of regions are words of small letters. -/
theorem region_table : ∀ code ∈ regions.map Prod.fst,
    2 ≤ code.length ∧ (∀ b ∈ code, Byte.isAlpha b = true) ∧ code.lower = code ∧
      ¬ uk <+: code ∧ ¬ gb <+: code := by
  decide +kernel

theorem isCode_of_canonical? (h : canonical? t = some code) : IsCode t.trim.lower := by
  unfold canonical? at h
  generalize t.trim.lower = w at h ⊢
  obtain ⟨hread, _⟩ := Option.ite_none_right_eq_some.mp h
  simp only [Bool.and_eq_true, List.all_eq_true] at hread
  obtain ⟨⟨_, hletters⟩, hform⟩ := hread
  rcases eq_parent_or w with hw | ⟨s, hw⟩
  · rw [drop_parent [] (by rw [List.append_nil]; exact hw), ← hw] at hform
    rw [← hw] at hletters
    rcases Bool.or_eq_true_iff.mp hform with hlength | hregion
    · exact .country ⟨eq_of_beq hlength, hletters⟩
    · obtain ⟨region, hmem, hcode⟩ := List.any_eq_true.mp hregion
      exact .region (eq_of_beq hcode ▸ List.mem_map_of_mem hmem)
  · rw [drop_parent (45 :: s) hw] at hform
    dsimp only at hform
    simp only [Bool.and_eq_true, List.all_eq_true, Bool.not_eq_true', List.isEmpty_eq_false_iff] at hform
    obtain ⟨⟨hlength, hne⟩, hsigns⟩ := hform
    rw [hw]
    exact .subdivision ⟨eq_of_beq hlength, hletters⟩ ⟨hne, hsigns⟩

theorem canonical?_of_isCode (h : IsCode t.trim.lower) :
    canonical? t = some (preferred t.trim.lower) := by
  unfold canonical?
  generalize t.trim.lower = w at h ⊢
  have hpreferred : (if (w == Text.of "uk") = true then Text.of "gb" else w) = preferred w := by
    simp only [beq_iff_eq]
    rfl
  dsimp only
  rw [hpreferred]
  refine if_pos ?_
  cases h with
  | country h =>
    have hparent := parent_of_letters h.letters
    rw [drop_parent [] (by rw [hparent, List.append_nil]), hparent]
    have hne := List.ne_nil_of_length_pos (by rw [h.length]; decide)
    simpa [h.length, hne] using h.letters
  | @subdivision cc s h hs =>
    have hparent := parent_subdivision (s := s) h
    rw [drop_parent (45 :: s) (by rw [hparent]), hparent]
    have hne := List.ne_nil_of_length_pos (by rw [h.length]; decide)
    simp only [Bool.and_eq_true, List.all_eq_true, decide_eq_true_eq, Bool.not_eq_true',
      List.isEmpty_eq_false_iff, List.length_append]
    exact ⟨⟨⟨by rw [h.length]; omega, hne⟩, h.letters⟩, ⟨beq_of_eq h.length, hs.nonempty⟩, hs.signs⟩
  | region h =>
    obtain ⟨hlength, hletters, _⟩ := region_table _ h
    have hparent := parent_of_letters hletters
    rw [drop_parent [] (by rw [hparent, List.append_nil]), hparent]
    have hne := List.ne_nil_of_length_pos (Nat.lt_of_lt_of_le Nat.zero_lt_two hlength)
    have hregion : regions.any (fun region => region.1 == w) = true := by
      simpa [List.any_eq_true] using h
    simpa [hlength, hne, hregion] using hletters

/-- What can be read are the codes of places, and gb is read for uk. -/
theorem canonical?_eq_some_iff :
    canonical? t = some code ↔ IsCode t.trim.lower ∧ preferred t.trim.lower = code := by
  constructor
  · intro h
    have hcode := isCode_of_canonical? h
    rw [canonical?_of_isCode hcode] at h
    exact ⟨hcode, Option.some.inj h⟩
  · rintro ⟨hcode, rfl⟩
    exact canonical?_of_isCode hcode

theorem canonical?_eq_none (h : ¬ IsCode t.trim.lower) : canonical? t = none :=
  Option.eq_none_iff_forall_ne_some.mpr fun _ hsome => h (isCode_of_canonical? hsome)

theorem canonical?_ne_uk (h : canonical? t = some code) : code ≠ uk := by
  obtain ⟨_, rfl⟩ := canonical?_eq_some_iff.mp h
  unfold preferred
  split
  next => decide
  next hother => exact hother

theorem isCountry_uk : IsCountry uk := ⟨rfl, List.all_eq_true.mp rfl⟩

theorem isCountry_gb : IsCountry gb := ⟨rfl, List.all_eq_true.mp rfl⟩

theorem IsCountry.lower (h : IsCountry cc) : IsCountry cc.lower :=
  ⟨by rw [Text.length_lower, h.length], (Text.forall_lower Byte.isAlpha_toLower).mpr h.letters⟩

theorem IsSubdivision.lower (h : IsSubdivision s) : IsSubdivision s.lower :=
  ⟨fun hnil => h.nonempty (List.map_eq_nil_iff.mp hnil),
    (Text.forall_lower Byte.isAlphanum_toLower).mpr h.signs⟩

theorem lower_subdivision (cc s : Text) : Text.lower (cc ++ 45 :: s) = cc.lower ++ 45 :: s.lower :=
  Text.lower_append _ _

theorem IsCode.lower (h : IsCode code) : IsCode code.lower := by
  cases h with
  | country hcc => exact .country hcc.lower
  | subdivision hcc hs => exact lower_subdivision _ _ ▸ .subdivision hcc.lower hs.lower
  | region h => exact (region_table code h).2.2.1.symm ▸ .region h

theorem IsCode.not_isWhitespace (h : IsCode code) : ∀ b ∈ code, Byte.isWhitespace b = false := by
  intro b hb
  cases h with
  | country hcc => exact Byte.isWhitespace_of_isAlpha (hcc.letters b hb)
  | subdivision hcc hs =>
    rcases List.mem_append.mp hb with hb | hb
    · exact Byte.isWhitespace_of_isAlpha (hcc.letters b hb)
    · rcases List.mem_cons.mp hb with rfl | hb
      · rfl
      · exact Byte.isWhitespace_of_isAlphanum (hs.signs b hb)
  | region h => exact Byte.isWhitespace_of_isAlpha ((region_table code h).2.1 b hb)

/-- A code is read in any case and with whitespace around it. -/
theorem canonical?_of_writes (hcode : IsCode code) (h : t.Writes code) :
    canonical? t = some (preferred code.lower) := by
  have hread := h.lower_trim hcode.not_isWhitespace
  rw [canonical?_of_isCode (hread.symm ▸ hcode.lower), hread]

theorem preferred_subdivision (h : IsCountry cc) : preferred (cc ++ 45 :: s) = cc ++ 45 :: s := by
  refine if_neg fun heq => ?_
  have hlength := congrArg List.length heq
  rw [List.length_append, h.length, List.length_cons] at hlength
  exact absurd hlength (by simp [isCountry_uk.length])

theorem subdivision_ne_country (h : IsCountry cc) {code : Text} (hcode : IsCountry code) :
    cc ++ 45 :: s ≠ code := by
  intro heq
  have hlength := congrArg List.length heq
  rw [List.length_append, h.length, List.length_cons, hcode.length] at hlength
  omega

theorem subdivision_ne_subdivision {cc' s' : Text} (h : IsCountry cc) (h' : IsCountry cc')
    (hne : cc ≠ cc') : cc ++ 45 :: s ≠ cc' ++ 45 :: s' := by
  intro heq
  exact hne (List.append_inj_left heq (h.length.trans h'.length.symm))

theorem related_comm (q c : Text) : related c q = related q c := by
  unfold related
  ac_rfl

theorem not_within_of_dash {region member : Text} (h : 45 ∈ region) : within region member = false := by
  rw [within, List.any_eq_false]
  rintro r hr hmember
  obtain ⟨hcode, _⟩ := Bool.and_eq_true_iff.mp hmember
  rw [← eq_of_beq hcode] at h
  exact absurd ((region_table r.1 (List.mem_map_of_mem hr)).2.1 45 h) (by decide)

theorem not_within_of_no_member {region member : Text} (h : ∀ r ∈ regions, parent member ∉ r.2) :
    within region member = false := by
  rw [within, List.any_eq_false]
  intro r hr hmember
  exact h r hr (List.contains_iff_mem.mp (Bool.and_eq_true_iff.mp hmember).2)

theorem related_subdivision (h : IsCountry cc) (hregion : ∀ r ∈ regions, cc ∉ r.2) (e : Text) :
    related (cc ++ 45 :: s) e = (cc == e) := by
  have hdash : 45 ∈ cc ++ 45 :: s := by simp
  have hparent : (parent e == cc ++ 45 :: s) = false := by
    rw [beq_eq_false_iff_ne]
    intro heq
    exact not_dash_mem_parent e (heq ▸ hdash)
  rw [related, hparent, not_within_of_dash hdash, not_within_of_no_member, parent_subdivision h,
    Bool.or_false, Bool.or_false, Bool.or_false]
  rwa [parent_subdivision h]

theorem unregional : ∀ r ∈ regions, uk ∉ r.2 ∧ gb ∉ r.2 := by decide

theorem isCode_append_iff (h : IsCountry cc) (hregion : ∀ code ∈ regions.map Prod.fst, ¬ cc <+: code) :
    IsCode (cc ++ r) ↔ r = [] ∨ ∃ s, IsSubdivision s ∧ r = 45 :: s := by
  constructor
  · intro hcode
    generalize hw : cc ++ r = w at hcode
    cases hcode with
    | country hcountry =>
      have hlength := congrArg List.length hw
      rw [List.length_append, h.length, hcountry.length] at hlength
      exact .inl (List.eq_nil_of_length_eq_zero (by omega))
    | subdivision hcountry hs =>
      exact .inr ⟨_, hs, List.append_inj_right hw (h.length.trans hcountry.length.symm)⟩
    | region hmem => exact absurd ⟨r, hw⟩ (hregion w hmem)
  · rintro (rfl | ⟨s, hs, rfl⟩)
    · rw [List.append_nil]
      exact .country h
    · exact .subdivision h hs

theorem lower_trim_of_letters {before inner : Text} (rest : Text)
    (hbefore : ∀ b ∈ before, Byte.isWhitespace b = true) (hinner : IsCountry inner.lower) :
    (before ++ (inner ++ rest)).trim.lower = inner.lower ++ rest.trimRight.lower := by
  have hletters : ∀ b ∈ inner, Byte.isAlpha b = true :=
    (Text.forall_lower Byte.isAlpha_toLower).mp hinner.letters
  have hlength : inner.length = 2 := by rw [← Text.length_lower, hinner.length]
  rw [Text.trim_append hbefore (List.ne_nil_of_length_pos (by omega)) fun b hb =>
    Byte.isWhitespace_of_isAlpha (hletters b hb), Text.lower_append]

/-- A code with gb in the place of uk is read as the same code, or as the same subdivision of gb. -/
theorem canonical?_renamed {before u g : Text} (rest : Text)
    (hbefore : ∀ b ∈ before, Byte.isWhitespace b = true) (hu : u.lower = uk) (hg : g.lower = gb) :
    (canonical? (before ++ (u ++ rest)) = canonical? (before ++ (g ++ rest)) ∧
        ∀ s, canonical? (before ++ (u ++ rest)) ≠ some (uk ++ 45 :: s)) ∨
      ∃ s, canonical? (before ++ (u ++ rest)) = some (uk ++ 45 :: s) ∧
        canonical? (before ++ (g ++ rest)) = some (gb ++ 45 :: s) := by
  have hreadu := lower_trim_of_letters rest hbefore (hu ▸ isCountry_uk)
  have hreadg := lower_trim_of_letters rest hbefore (hg ▸ isCountry_gb)
  rw [hu] at hreadu
  rw [hg] at hreadg
  generalize rest.trimRight.lower = r at hreadu hreadg
  have hcodeu := isCode_append_iff (r := r) isCountry_uk fun code hmem => (region_table code hmem).2.2.2.1
  have hcodeg := isCode_append_iff (r := r) isCountry_gb fun code hmem => (region_table code hmem).2.2.2.2
  rw [← hreadu] at hcodeu
  rw [← hreadg] at hcodeg
  by_cases hcode : r = [] ∨ ∃ s, IsSubdivision s ∧ r = 45 :: s
  · have hu' := canonical?_of_isCode (hcodeu.mpr hcode)
    have hg' := canonical?_of_isCode (hcodeg.mpr hcode)
    rw [hreadu] at hu'
    rw [hreadg] at hg'
    rcases hcode with rfl | ⟨s, _, rfl⟩
    · refine .inl ⟨hu'.trans hg'.symm, fun s hs => ?_⟩
      exact absurd (Option.some.inj (hs.symm.trans hu')) (subdivision_ne_country isCountry_uk isCountry_gb)
    · rw [preferred_subdivision isCountry_uk] at hu'
      rw [preferred_subdivision isCountry_gb] at hg'
      exact .inr ⟨s, hu', hg'⟩
  · have hu' := canonical?_eq_none fun h => hcode (hcodeu.mp h)
    have hg' := canonical?_eq_none fun h => hcode (hcodeg.mp h)
    exact .inl ⟨hu'.trans hg'.symm, fun s hs => nomatch hu'.symm.trans hs⟩

end Country

end Screening
