import Mathlib.Data.List.Perm.Basic
import Screening.Proofs.Name.Prepared

namespace Screening

namespace NameForms

/-- Pairs of parts that sound alike, and the parts of both names that are in none. -/
structure Pairing (qs cs : List Text) where
  pairs : List (Text × Text)
  loneQuery : List Text
  loneCandidate : List Text
  alike : ∀ p ∈ pairs, soundAlike p.1 p.2 = true
  queries : (pairs.map Prod.fst ++ loneQuery).Perm qs
  candidates : (pairs.map Prod.snd ++ loneCandidate).Perm cs

/-- Whether no two parts that are left sound alike. -/
def Pairing.Maximal {qs cs : List Text} (p : Pairing qs cs) : Prop :=
  ∀ a ∈ p.loneQuery, ∀ b ∈ p.loneCandidate, soundAlike a b = false

/-- Whether all pairings to which no pair can be added have as many pairs. -/
def Equimatchable (qs cs : List Text) : Prop :=
  ∀ p r : Pairing qs cs, p.Maximal → r.Maximal → p.pairs.length = r.pairs.length

/-- Whether the parts that sound like one part of the candidate all sound like the same ones. -/
def Clustered (qs cs : List Text) : Prop :=
  ∀ a ∈ qs, ∀ b ∈ qs, ∀ s ∈ cs, ∀ t ∈ cs,
    soundAlike a s = true → soundAlike b s = true → soundAlike b t = true → soundAlike a t = true

instance (qs cs : List Text) : Decidable (Clustered qs cs) :=
  inferInstanceAs (Decidable (∀ a ∈ qs, ∀ b ∈ qs, ∀ s ∈ cs, ∀ t ∈ cs,
    soundAlike a s = true → soundAlike b s = true → soundAlike b t = true → soundAlike a t = true))

section Orders

variable {qs qs' cs cs' : List Text}

theorem exists_pairing (qs cs : List Text) :
    ∃ p : Pairing qs cs, p.Maximal ∧ p.pairs.length = soundMatches qs cs := by
  induction qs generalizing cs with
  | nil => exact ⟨⟨[], [], cs, by simp, .refl _, .refl _⟩, by simp [Pairing.Maximal], rfl⟩
  | cons part qs ih =>
    rw [soundMatches]
    cases h : cs.findIdx? (soundAlike part) with
    | some j =>
      obtain ⟨hj, halike, _⟩ := List.findIdx?_eq_some_iff_getElem.mp h
      obtain ⟨p, hmaximal, hlength⟩ := ih (cs.eraseIdx j)
      refine ⟨⟨(part, cs[j]) :: p.pairs, p.loneQuery, p.loneCandidate,
        List.forall_mem_cons.mpr ⟨halike, p.alike⟩, p.queries.cons part,
        (p.candidates.cons cs[j]).trans (List.getElem_cons_eraseIdx_perm hj)⟩, hmaximal, ?_⟩
      exact congrArg Nat.succ hlength
    | none =>
      have hnone := List.findIdx?_eq_none_iff.mp h
      obtain ⟨p, hmaximal, hlength⟩ := ih cs
      refine ⟨⟨p.pairs, part :: p.loneQuery, p.loneCandidate, p.alike,
        List.perm_middle.trans (p.queries.cons part), p.candidates⟩, ?_, hlength⟩
      refine List.forall_mem_cons.mpr ⟨fun b hb => ?_, hmaximal⟩
      exact hnone b (p.candidates.subset (List.mem_append_right _ hb))

theorem soundMatches_of_lone (h : ∀ a ∈ qs, ∀ b ∈ cs, soundAlike a b = false) :
    soundMatches qs cs = 0 := by
  induction qs with
  | nil => rfl
  | cons part qs ih =>
    have hnone : cs.findIdx? (soundAlike part) = none :=
      List.findIdx?_eq_none_iff.mpr (h part List.mem_cons_self)
    rw [soundMatches, hnone]
    exact ih fun a ha => h a (List.mem_cons_of_mem part ha)

theorem soundMatches_pairs {ps : List (Text × Text)} (h : ∀ p ∈ ps, soundAlike p.1 p.2 = true) :
    soundMatches (ps.map Prod.fst ++ qs) (ps.map Prod.snd ++ cs) = ps.length + soundMatches qs cs := by
  induction ps with
  | nil => simp
  | cons p ps ih =>
    obtain ⟨hp, hps⟩ := List.forall_mem_cons.mp h
    simp only [List.map_cons, List.cons_append, soundMatches, List.findIdx?_cons, hp, if_true,
      List.eraseIdx_cons_zero, ih hps, List.length_cons]
    omega

/-- The orders of the parts make as many pairs as the pairings have to which none can be added. -/
theorem soundMatches_orders {n : Nat} :
    (∃ qs' cs', qs'.Perm qs ∧ cs'.Perm cs ∧ soundMatches qs' cs' = n) ↔
      ∃ p : Pairing qs cs, p.Maximal ∧ p.pairs.length = n := by
  constructor
  · rintro ⟨qs', cs', hq, hc, rfl⟩
    obtain ⟨p, hmaximal, hlength⟩ := exists_pairing qs' cs'
    exact ⟨⟨p.pairs, p.loneQuery, p.loneCandidate, p.alike, p.queries.trans hq,
      p.candidates.trans hc⟩, hmaximal, hlength⟩
  · rintro ⟨p, hmaximal, rfl⟩
    refine ⟨_, _, p.queries, p.candidates, ?_⟩
    rw [soundMatches_pairs p.alike, soundMatches_of_lone hmaximal, Nat.add_zero]

theorem equimatchable_iff : Equimatchable qs cs ↔
    ∀ qs' cs', qs'.Perm qs → cs'.Perm cs → soundMatches qs' cs' = soundMatches qs cs := by
  constructor
  · intro h qs' cs' hq hc
    obtain ⟨p, hp, hcount⟩ := soundMatches_orders.mp ⟨qs', cs', hq, hc, rfl⟩
    obtain ⟨r, hr, hcount'⟩ := exists_pairing qs cs
    rw [← hcount, ← hcount', h p r hp hr]
  · intro h p r hp hr
    obtain ⟨qs', cs', hq, hc, hcount⟩ := soundMatches_orders.mpr ⟨p, hp, rfl⟩
    obtain ⟨qs'', cs'', hq', hc', hcount'⟩ := soundMatches_orders.mpr ⟨r, hr, rfl⟩
    rw [← hcount, ← hcount', h qs' cs' hq hc, h qs'' cs'' hq' hc']

end Orders

section Count

variable {β : Type} {as bs ls ms : List β} {P Q : β → Bool}

theorem length_le_countP_add (h : ∀ a ∈ as, P a = false → Q a = true) :
    as.length ≤ as.countP P + as.countP Q := by
  have hrest : as.countP (fun a => !P a) ≤ as.countP Q :=
    List.countP_mono_left fun a ha hP => h a ha (by simpa using hP)
  have hsplit := List.length_eq_countP_add_countP (l := as) P
  simp only [Bool.not_eq_true, Bool.decide_eq_false] at hsplit
  omega

theorem countP_add_le_length (h : ∀ a ∈ as, P a = true → Q a = false) :
    as.countP P + as.countP Q ≤ as.length := by
  have hrest : as.countP Q ≤ as.countP fun a => !P a :=
    List.countP_mono_left fun a ha hQ => by
      by_contra hP
      have hQ' := h a ha (by simpa using hP)
      rw [hQ'] at hQ
      exact nomatch hQ
  have hsplit := List.length_eq_countP_add_countP (l := as) P
  simp only [Bool.not_eq_true, Bool.decide_eq_false] at hsplit
  omega

theorem countP_le_of_perm (h : (as ++ ls).Perm (bs ++ ms)) (hms : ∀ a ∈ ms, P a = false) :
    as.countP P ≤ bs.countP P := by
  have hzero : ms.countP P = 0 := List.countP_eq_zero.mpr fun a ha => by simp [hms a ha]
  have hcount := h.countP_eq P
  rw [List.countP_append, List.countP_append, hzero] at hcount
  omega

end Count

section Sizes

variable {qs cs : List Text}

/-- What covers a pairing and holds of no part that another one leaves holds of as many parts of that
one's pairs. -/
theorem Pairing.length_le_of_cover (p r : Pairing qs cs) {P Q : Text → Bool}
    (hP : ∀ a ∈ r.loneQuery, P a = false) (hQ : ∀ b ∈ r.loneCandidate, Q b = false)
    (cover : ∀ x ∈ p.pairs, P x.1 = false → Q x.2 = true) :
    p.pairs.length ≤ (r.pairs.countP fun x => P x.1) + r.pairs.countP fun x => Q x.2 := by
  have hqueries := countP_le_of_perm (p.queries.trans r.queries.symm) hP
  have hcandidates := countP_le_of_perm (p.candidates.trans r.candidates.symm) hQ
  rw [List.countP_map, List.countP_map] at hqueries hcandidates
  exact Nat.le_trans (length_le_countP_add cover) (Nat.add_le_add hqueries hcandidates)

theorem Pairing.length_le_two_mul (p : Pairing qs cs) {r : Pairing qs cs} (hr : r.Maximal) :
    p.pairs.length ≤ 2 * r.pairs.length := by
  have hle := p.length_le_of_cover r (P := fun a => !r.loneQuery.contains a)
    (Q := fun b => !r.loneCandidate.contains b) (by simp) (by simp) fun x hx hquery => by
      have hquery : x.1 ∈ r.loneQuery := by simpa using hquery
      have hcandidate : x.2 ∉ r.loneCandidate := fun hcandidate =>
        Bool.false_ne_true ((hr x.1 hquery x.2 hcandidate).symm.trans (p.alike x hx))
      simpa using hcandidate
  have hqueries := List.countP_le_length (p := fun x => !r.loneQuery.contains x.1) (l := r.pairs)
  have hcandidates := List.countP_le_length (p := fun x => !r.loneCandidate.contains x.2) (l := r.pairs)
  omega

theorem Pairing.mem_of_pair (p : Pairing qs cs) {x : Text × Text} (hx : x ∈ p.pairs) :
    x.1 ∈ qs ∧ x.2 ∈ cs :=
  ⟨p.queries.subset (List.mem_append_left _ (List.mem_map_of_mem hx)),
    p.candidates.subset (List.mem_append_left _ (List.mem_map_of_mem hx))⟩

/-- Whether a part of the query that is left sounds like a part of the candidate. -/
def Pairing.wants (p : Pairing qs cs) (b : Text) : Bool := p.loneQuery.any fun a => soundAlike a b

/-- Whether a part of the query sounds like one that is not wanted. -/
def Pairing.settled (p : Pairing qs cs) (a : Text) : Bool :=
  cs.any fun b => soundAlike a b && !p.wants b

theorem Pairing.wants_of_lone {p : Pairing qs cs} (hp : p.Maximal) {b : Text}
    (hb : b ∈ p.loneCandidate) : p.wants b = false :=
  List.any_eq_false.mpr fun a ha => by simp [hp a ha b hb]

theorem Pairing.settled_of_lone (p : Pairing qs cs) {a : Text} (ha : a ∈ p.loneQuery) :
    p.settled a = false := by
  refine List.any_eq_false.mpr fun b _ => ?_
  rw [Bool.and_eq_true, not_and]
  intro halike
  have hwanted : p.wants b = true := List.any_eq_true.mpr ⟨a, ha, halike⟩
  simp [hwanted]

theorem Pairing.wants_of_not_settled (p : Pairing qs cs) {a b : Text} (hb : b ∈ cs)
    (halike : soundAlike a b = true) (h : p.settled a = false) : p.wants b = true := by
  have hnone := List.any_eq_false.mp h b hb
  simpa [halike] using hnone

theorem Pairing.not_wants_of_settled (p : Pairing qs cs) (h : Clustered qs cs) {x : Text × Text}
    (hx : x ∈ p.pairs) (hsettled : p.settled x.1 = true) : p.wants x.2 = false := by
  obtain ⟨b, hb, halike⟩ := List.any_eq_true.mp hsettled
  obtain ⟨hxb, hfree⟩ := Bool.and_eq_true_iff.mp halike
  refine List.any_eq_false.mpr fun a ha hax => ?_
  have haq : a ∈ qs := p.queries.subset (List.mem_append_right _ ha)
  obtain ⟨hxq, hxc⟩ := p.mem_of_pair hx
  have hab : soundAlike a b = true := h a haq x.1 hxq x.2 hxc b hb hax (p.alike x hx) hxb
  have hwanted : p.wants b = true := List.any_eq_true.mpr ⟨a, ha, hab⟩
  rw [hwanted] at hfree
  exact nomatch hfree

/-- Each pair has a part that is settled or one that is wanted by the other pairing, no part that this
one leaves is either, and among clustered parts no pair of it has both. -/
theorem Pairing.length_le_of_clustered (p : Pairing qs cs) {r : Pairing qs cs} (h : Clustered qs cs)
    (hr : r.Maximal) : p.pairs.length ≤ r.pairs.length := by
  have hcover : ∀ x ∈ p.pairs, r.settled x.1 = false → r.wants x.2 = true := fun x hx =>
    r.wants_of_not_settled (p.mem_of_pair hx).2 (p.alike x hx)
  calc p.pairs.length
      ≤ (r.pairs.countP fun x => r.settled x.1) + r.pairs.countP fun x => r.wants x.2 :=
        p.length_le_of_cover r (fun _ => r.settled_of_lone) (fun _ => wants_of_lone hr) hcover
    _ ≤ r.pairs.length := countP_add_le_length fun _ => r.not_wants_of_settled h

theorem equimatchable_of_clustered (h : Clustered qs cs) : Equimatchable qs cs := fun p r hp hr =>
  Nat.le_antisymm (p.length_le_of_clustered h hr) (r.length_le_of_clustered h hp)

theorem soundMatches_le_two_mul {qs' cs' : List Text} (hq : qs'.Perm qs) (hc : cs'.Perm cs) :
    soundMatches qs' cs' ≤ 2 * soundMatches qs cs := by
  obtain ⟨p, _, hcount⟩ := soundMatches_orders.mp ⟨qs', cs', hq, hc, rfl⟩
  obtain ⟨r, hr, hcount'⟩ := exists_pairing qs cs
  rw [← hcount, ← hcount']
  exact p.length_le_two_mul hr

end Sizes

theorem phonetic_of_equimatchable {α : Type} [Scalar α] {q q' c c' : NameForms}
    (hq : q'.tokens.Perm q.tokens) (hc : c'.tokens.Perm c.tokens)
    (h : Equimatchable q.parts c.parts) : (q'.phonetic c' : α) = q.phonetic c := by
  have hcount := equimatchable_iff.mp h q'.parts c'.parts (parts_perm hq) (parts_perm hc)
  simp only [phonetic, hcount, (parts_perm hq).length_eq, (parts_perm hq).isEmpty_eq,
    (parts_perm hc).isEmpty_eq]

end NameForms

namespace Comparison

variable {fold : Text → Text} {q q' c c' : Text}

/-- How many parts find one that sounds like them may hang on the order of the tokens, if and only if
there are pairings of different sizes to which no pair can be added. No order makes more than twice as
many pairs as another, and where all parts that sound like one part sound like the same ones, values
with the same tokens are given the same share. -/
theorem phonetic_by_pairings (α : Type) [Scalar α] (folding : Folding)
    (hq : (NameForms.ofFold fold q').tokens.Perm (NameForms.ofFold fold q).tokens)
    (hc : (NameForms.ofFold fold c').tokens.Perm (NameForms.ofFold fold c).tokens) :
    let sought := (NameForms.ofFold fold q).parts
    let found := (NameForms.ofFold fold c).parts
    (∃ r r' : Option (NameResemblance α), names (.ofFold folding fold) q c = .ok r ∧
        names (.ofFold folding fold) q' c' = .ok r' ∧ (NameForms.Equimatchable sought found →
          r'.map NameResemblance.phonetic = r.map NameResemblance.phonetic)) ∧
      (NameForms.Clustered sought found → NameForms.Equimatchable sought found) ∧
      (NameForms.Equimatchable sought found ↔ ∀ qs cs, qs.Perm sought → cs.Perm found →
        NameForms.soundMatches qs cs = NameForms.soundMatches sought found) ∧
      ∀ qs cs, qs.Perm sought → cs.Perm found →
        NameForms.soundMatches qs cs ≤ 2 * NameForms.soundMatches sought found := by
  refine ⟨⟨_, _, names_ofFold folding fold q c, names_ofFold folding fold q' c', fun h => ?_⟩,
    NameForms.equimatchable_of_clustered, NameForms.equimatchable_iff,
    fun _ _ => NameForms.soundMatches_le_two_mul⟩
  rw [NameResemblance.compare, NameResemblance.compare, NameForms.isEmpty_of_perm hq,
    NameForms.isEmpty_of_perm hc]
  split
  next => rfl
  next => exact congrArg some (NameForms.phonetic_of_equimatchable hq hc h)

theorem phonetic_by_pairings_of_putin :
    let q := Text.of "Vladimir Putin"
    let q' := Text.of "PUTIN, Vladimir"
    let c := Text.of "Wladimir Puttin"
    let c' := Text.of "Puttin Wladimir"
    ((NameForms.ofFold Text.lower q').tokens.Perm (NameForms.ofFold Text.lower q).tokens ∧
        (NameForms.ofFold Text.lower c').tokens.Perm (NameForms.ofFold Text.lower c).tokens) ∧
      ∃ r r' : Option (NameResemblance Float), names .basic q c = .ok r ∧
        names .basic q' c' = .ok r' ∧
          r'.map NameResemblance.phonetic = r.map NameResemblance.phonetic := by
  intro q q' c c'
  have hq : (NameForms.ofFold Text.lower q').tokens.Perm (NameForms.ofFold Text.lower q).tokens := by
    decide +kernel
  have hc : (NameForms.ofFold Text.lower c').tokens.Perm (NameForms.ofFold Text.lower c).tokens := by
    decide +kernel
  have hclustered : NameForms.Clustered (NameForms.ofFold Text.lower q).parts
      (NameForms.ofFold Text.lower c).parts := by decide +kernel
  obtain ⟨⟨r, r', hr, hr', hsame⟩, hequimatchable, _⟩ := phonetic_by_pairings Float .basic hq hc
  exact ⟨⟨hq, hc⟩, r, r', hr, hr', hsame (hequimatchable hclustered)⟩

/-- Both parts of the query sound like the first one of the candidate and one of them like the second,
too. If that one is first, it takes the part that the other one needs. -/
theorem patar_before_peter :
    let q := Text.of "patar peter"
    let q' := Text.of "peter patar"
    let c := Text.of "petar potar"
    (NameForms.ofFold Text.lower q').tokens.Perm (NameForms.ofFold Text.lower q).tokens ∧
      ∃ r r' : NameResemblance Float, names .basic q c = .ok (some r) ∧
        names .basic q' c = .ok (some r') ∧ r.phonetic = 0.5 ∧ r'.phonetic = 1 := by
  intro q q' c
  have hsome : (NameForms.ofFold Text.lower q).cleaned ≠ [] ∧
      (NameForms.ofFold Text.lower q').cleaned ≠ [] ∧ (NameForms.ofFold Text.lower c).cleaned ≠ [] := by
    decide +kernel
  refine ⟨by decide +kernel, _, _, congrArg Except.ok (NameResemblance.compare_eq_some hsome.1 hsome.2.2),
    congrArg Except.ok (NameResemblance.compare_eq_some hsome.2.1 hsome.2.2), ?_, ?_⟩
  · decide +kernel
  · decide +kernel

end Comparison

end Screening
