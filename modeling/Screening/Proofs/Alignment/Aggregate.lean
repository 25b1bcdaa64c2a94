import Mathlib.Tactic.Linarith
import Mathlib.Tactic.Ring
import Screening.Alignment
import Screening.Proofs.Scalar.Exact

namespace Screening.Aligner

section Order

variable {α : Type} [Scalar α] [OrderedScalar α]

theorem foldl_greater_spec {best : α × Nat} {nexts : List (α × Nat)}
    (numbers : ∀ x ∈ best :: nexts, Scalar.IsNumber x.1) :
    let r := nexts.foldl (fun best next => if best.1 < next.1 then next else best) best
    r ∈ best :: nexts ∧ ∀ x ∈ best :: nexts, x.1 ≤ r.1 := by
  induction nexts generalizing best with
  | nil =>
    have hbest := numbers best List.mem_cons_self
    exact ⟨List.mem_cons_self, List.forall_mem_singleton.mpr hbest⟩
  | cons next nexts ih =>
    have hbest := numbers best List.mem_cons_self
    have hnext := numbers next (List.mem_cons_of_mem best List.mem_cons_self)
    have hrest (x : α × Nat) (hx : x ∈ nexts) : Scalar.IsNumber x.1 :=
      numbers x (List.mem_cons_of_mem best (List.mem_cons_of_mem next hx))
    dsimp only [List.foldl_cons]
    by_cases hlt : best.1 < next.1
    · rw [if_pos hlt]
      obtain ⟨hmem, hmax⟩ := ih (List.forall_mem_cons.mpr ⟨hnext, hrest⟩)
      have hup := Scalar.le_trans (Scalar.le_of_lt hlt) (hmax next List.mem_cons_self)
      exact ⟨List.mem_cons_of_mem best hmem, List.forall_mem_cons.mpr ⟨hup, hmax⟩⟩
    · rw [if_neg hlt]
      obtain ⟨hmem, hmax⟩ := ih (List.forall_mem_cons.mpr ⟨hbest, hrest⟩)
      have hmax' := List.forall_mem_cons.mp hmax
      have hup := Scalar.le_trans (Scalar.le_of_not_lt hbest hnext hlt) hmax'.1
      refine ⟨?_, List.forall_mem_cons.mpr ⟨hmax'.1, List.forall_mem_cons.mpr ⟨hup, hmax'.2⟩⟩⟩
      rcases List.mem_cons.mp hmem with heq | hin
      · rw [heq]
        exact List.mem_cons_self
      · exact List.mem_cons_of_mem best (List.mem_cons_of_mem next hin)

theorem strongest_spec {as : List α} (hne : as ≠ []) (numbers : ∀ a ∈ as, Scalar.IsNumber a) :
    ∃ m, as[strongest as]? = some m ∧ ∀ a ∈ as, a ≤ m := by
  cases as with
  | nil => exact absurd rfl hne
  | cons a as =>
    have hzip : (a :: as).zipIdx = (a, 0) :: as.zipIdx 1 := rfl
    have hnumbers : ∀ x ∈ (a, 0) :: as.zipIdx 1, Scalar.IsNumber x.1 := by
      intro x hx
      rw [← hzip] at hx
      exact numbers x.1 (List.fst_mem_of_mem_zipIdx hx)
    obtain ⟨hmem, hmax⟩ := foldl_greater_spec hnumbers
    rw [← hzip] at hmem hmax
    refine ⟨_, List.mem_zipIdx_iff_getElem?.mp hmem, fun b hb => ?_⟩
    obtain ⟨i, hi, rfl⟩ := List.mem_iff_getElem.mp hb
    exact hmax ((a :: as)[i], i) (List.mem_zipIdx_iff_getElem?.mpr (List.getElem?_eq_getElem hi))

theorem foldl_clamp {as : List α} (h : ∀ a ∈ as, Scalar.Fraction a) (sum : α) :
    as.foldl (fun sum a => sum + Scalar.clamp a) sum = as.foldl (fun sum a => sum + a) sum := by
  induction as generalizing sum with
  | nil => rfl
  | cons a as ih =>
    have ha := h a List.mem_cons_self
    rw [List.foldl_cons, List.foldl_cons, ih (fun b hb => h b (List.mem_cons_of_mem a hb)),
      Scalar.clamp_of_mem ha.1 ha.2]

end Order

section Number

variable {α : Type} [Scalar α] [LawfulScalar α] {aligner : Aligner α}

theorem fraction_aggregate {as : List α} (h : ∀ a ∈ as, Scalar.Fraction a)
    (ht : Scalar.Fraction aligner.support) : Scalar.Fraction (aligner.aggregate as) := by
  unfold aggregate
  dsimp only
  split
  next => exact Scalar.fraction_zero
  next best hbest =>
    have hfraction := h best (List.mem_of_getElem? hbest)
    have hothers : ∀ a ∈ as.eraseIdx (strongest as), Scalar.Fraction a := fun a ha =>
      h a (List.mem_of_mem_eraseIdx ha)
    rw [Scalar.clamp_of_mem hfraction.1 hfraction.2, foldl_clamp hothers]
    split
    next => exact hfraction
    next hne =>
      have hrest : as.eraseIdx (strongest as) ≠ [] :=
        List.isEmpty_eq_false_iff.mp (Bool.eq_false_iff.mpr hne)
      have hmean := LawfulScalar.within_mean hrest hothers
      have hpart := LawfulScalar.fraction_mul (LawfulScalar.fraction_complement hfraction) ht
      have hlift := LawfulScalar.within_mul (by omega) (LawfulScalar.within_fraction hpart) hmean
      have hsum := LawfulScalar.within_add (by omega) (hfraction.within (by omega)) hlift
      exact Scalar.fraction_clamp hsum.isNumber

end Number

variable {K : Type} [ExactScalar K] {aligner : Aligner K}

theorem lift_mem {m t x : K} (hm : m ≤ 1) (ht : 0 ≤ t ∧ t ≤ 1) (hx : 0 ≤ x ∧ x ≤ 1) :
    m ≤ m + (1 - m) * t * x ∧ m + (1 - m) * t * x ≤ 1 := by
  have hroom : 0 ≤ 1 - m := sub_nonneg.mpr hm
  have hpart : 0 ≤ (1 - m) * t := mul_nonneg hroom ht.1
  have hbelow : (1 - m) * t ≤ 1 - m := mul_le_of_le_one_right hroom ht.2
  have hlift : (1 - m) * t * x ≤ (1 - m) * t := mul_le_of_le_one_right hpart hx.2
  have hnonneg : 0 ≤ (1 - m) * t * x := mul_nonneg hpart hx.1
  constructor <;> linarith

theorem lift_mono {m m' t x x' : K} (hm : m ≤ m') (hm' : m' ≤ 1) (ht : 0 ≤ t ∧ t ≤ 1)
    (hx : x ≤ x') (hx' : 0 ≤ x ∧ x ≤ 1) :
    m + (1 - m) * t * x ≤ m' + (1 - m') * t * x' := by
  have hpart : t * x ≤ 1 := mul_le_one₀ ht.2 hx'.1 hx'.2
  have hgain : 0 ≤ (m' - m) * (1 - t * x) := mul_nonneg (sub_nonneg.mpr hm) (sub_nonneg.mpr hpart)
  have hmore : 0 ≤ (1 - m') * t * (x' - x) :=
    mul_nonneg (mul_nonneg (sub_nonneg.mpr hm') ht.1) (sub_nonneg.mpr hx)
  have hsplit : m' + (1 - m') * t * x' - (m + (1 - m) * t * x) =
      (m' - m) * (1 - t * x) + (1 - m') * t * (x' - x) := by ring
  linarith

theorem le_greatest {as rest : List K} {m : K} (hperm : as.Perm (m :: rest))
    (hmax : ∀ a ∈ rest, a ≤ m) : ∀ a ∈ as, a ≤ m := by
  intro a ha
  rcases List.mem_cons.mp (hperm.mem_iff.mp ha) with rfl | hin
  · exact le_refl a
  · exact hmax a hin

/-- The aggregate in terms of the greatest similarity and the rest, in whatever order. -/
theorem aggregate_of_perm {as rest : List K} {m : K} (h : ∀ a ∈ as, Scalar.Fraction a)
    (ht : 0 ≤ aligner.support ∧ aligner.support ≤ 1) (hperm : as.Perm (m :: rest))
    (hmax : ∀ a ∈ rest, a ≤ m) :
    aligner.aggregate as = m + (1 - m) * aligner.support * (rest.sum / (rest.length : K)) := by
  have hne : as ≠ [] := fun hnil => by simp [hnil] at hperm
  obtain ⟨best, hbest, hgreatest⟩ := strongest_spec hne fun a _ => ExactScalar.isNumber a
  obtain ⟨hi, hget⟩ := List.getElem?_eq_some_iff.mp hbest
  have hm := h m (hperm.mem_iff.mpr List.mem_cons_self)
  have heq : best = m := by
    apply le_antisymm
    · exact le_greatest hperm hmax best (List.mem_of_getElem? hbest)
    · exact hgreatest m (hperm.mem_iff.mpr List.mem_cons_self)
  subst heq
  have hothers : (as.eraseIdx (strongest as)).Perm rest := by
    have hsplit := List.getElem_cons_eraseIdx_perm hi
    rw [hget] at hsplit
    exact (hsplit.trans hperm).cons_inv
  have hfractions : ∀ a ∈ rest, Scalar.Fraction a := fun a ha =>
    h a (hperm.mem_iff.mpr (List.mem_cons_of_mem best ha))
  have hfractions' : ∀ a ∈ as.eraseIdx (strongest as), Scalar.Fraction a := fun a ha =>
    hfractions a (hothers.mem_iff.mp ha)
  have hlift := lift_mem hm.2 ht (ExactScalar.fraction_mean hfractions)
  unfold aggregate
  simp only [hbest]
  rw [Scalar.clamp_of_mem hm.1 hm.2, foldl_clamp hfractions', ExactScalar.foldl_add, zero_add,
    hothers.sum_eq, hothers.length_eq]
  split
  case isTrue hempty =>
    rw [List.isEmpty_iff] at hempty
    rw [hempty] at hothers
    rw [← hothers.nil_eq]
    simp
  case isFalse => exact Scalar.clamp_of_mem (le_trans hm.1 hlift.1) hlift.2

theorem exists_greatest {as : List K} (hne : as ≠ []) :
    ∃ m rest, as.Perm (m :: rest) ∧ ∀ a ∈ rest, a ≤ m := by
  obtain ⟨m, hm, hmax⟩ := strongest_spec hne fun a _ => ExactScalar.isNumber a
  obtain ⟨hi, rfl⟩ := List.getElem?_eq_some_iff.mp hm
  have hperm := (List.getElem_cons_eraseIdx_perm hi).symm
  exact ⟨_, _, hperm, fun a ha => hmax a (hperm.mem_iff.mpr (List.mem_cons_of_mem _ ha))⟩

theorem aggregate_perm {as bs : List K} (h : ∀ a ∈ as, Scalar.Fraction a)
    (ht : 0 ≤ aligner.support ∧ aligner.support ≤ 1) (hperm : as.Perm bs) :
    aligner.aggregate as = aligner.aggregate bs := by
  by_cases hne : as = []
  · obtain rfl := hne
    rw [hperm.nil_eq]
  · obtain ⟨m, rest, hsplit, hmax⟩ := exists_greatest hne
    have hbs : ∀ a ∈ bs, Scalar.Fraction a := fun b hb => h b (hperm.mem_iff.mpr hb)
    rw [aggregate_of_perm h ht hsplit hmax,
      aggregate_of_perm hbs ht (hperm.symm.trans hsplit) hmax]

/-- A greater similarity in the place of one of them never lowers the aggregate, even if it becomes
the greatest. -/
theorem aggregate_mono {as bs rest : List K} {a b : K} (has : ∀ a ∈ as, Scalar.Fraction a)
    (hbs : ∀ a ∈ bs, Scalar.Fraction a) (ht : 0 ≤ aligner.support ∧ aligner.support ≤ 1)
    (ha : as.Perm (a :: rest)) (hb : bs.Perm (b :: rest)) (hab : a ≤ b) :
    aligner.aggregate as ≤ aligner.aggregate bs := by
  obtain ⟨m, low, hlow, hm⟩ := exists_greatest fun hnil : as = [] => by simp [hnil] at ha
  obtain ⟨m', high, hhigh, hm'⟩ := exists_greatest fun hnil : bs = [] => by simp [hnil] at hb
  have hbelow : ∀ c ∈ a :: rest, c ≤ m := le_greatest (ha.symm.trans hlow) hm
  have hbelow' : ∀ c ∈ b :: rest, c ≤ m' := le_greatest (hb.symm.trans hhigh) hm'
  have hsum : a + rest.sum = m + low.sum := by
    simpa using (ha.symm.trans hlow).sum_eq
  have hsum' : b + rest.sum = m' + high.sum := by
    simpa using (hb.symm.trans hhigh).sum_eq
  have hlength : low.length = high.length := by
    have h := (ha.symm.trans hlow).length_eq
    have h' := (hb.symm.trans hhigh).length_eq
    simp only [List.length_cons] at h h'
    omega
  have hup : m ≤ m' := by
    rcases List.mem_cons.mp ((ha.symm.trans hlow).mem_iff.mpr List.mem_cons_self) with rfl | hin
    · exact le_trans hab (hbelow' b List.mem_cons_self)
    · exact hbelow' m (List.mem_cons_of_mem b hin)
  have hrest : low.sum ≤ high.sum := by
    rcases List.mem_cons.mp ((hb.symm.trans hhigh).mem_iff.mpr List.mem_cons_self) with rfl | hin
    · have := hbelow a List.mem_cons_self
      linarith
    · have := hbelow m' (List.mem_cons_of_mem a hin)
      linarith
  have hmean : low.sum / (low.length : K) ≤ high.sum / (high.length : K) := by
    rw [hlength]
    exact div_le_div_of_nonneg_right hrest (Nat.cast_nonneg _)
  have hfractions : ∀ a ∈ low, Scalar.Fraction a := fun c hc =>
    has c (hlow.mem_iff.mpr (List.mem_cons_of_mem m hc))
  rw [aggregate_of_perm has ht hlow hm, aggregate_of_perm hbs ht hhigh hm']
  exact lift_mono hup (hbs m' (hhigh.mem_iff.mpr List.mem_cons_self)).2 ht hmean
    (ExactScalar.fraction_mean hfractions)

theorem le_aggregate {as : List K} (h : ∀ a ∈ as, Scalar.Fraction a)
    (ht : Scalar.Fraction aligner.support) : ∀ a ∈ as, a ≤ aligner.aggregate as := by
  intro a ha
  obtain ⟨m, rest, hperm, hmax⟩ := exists_greatest (List.ne_nil_of_mem ha)
  have hrest : ∀ b ∈ rest, Scalar.Fraction b := fun b hb =>
    h b (hperm.mem_iff.mpr (List.mem_cons_of_mem m hb))
  have hm := h m (hperm.mem_iff.mpr List.mem_cons_self)
  rw [aggregate_of_perm h ht hperm hmax]
  exact (le_greatest hperm hmax a ha).trans (lift_mem hm.2 ht (ExactScalar.fraction_mean hrest)).1

/-- What reaches 1 leaves nothing for the others to fill. -/
theorem aggregate_of_one_le {as : List K} {a : K} (ha : a ∈ as) (h : 1 ≤ a) :
    aligner.aggregate as = 1 := by
  obtain ⟨greatest, hget, hmax⟩ :=
    strongest_spec (List.ne_nil_of_mem ha) fun a _ => ExactScalar.isNumber a
  have hclamp : Scalar.clamp greatest = 1 := by
    apply le_antisymm (Scalar.fraction_clamp (ExactScalar.isNumber greatest)).2
    rw [← Scalar.clamp_one]
    exact Scalar.clamp_mono (h.trans (hmax a ha))
  unfold aggregate
  simp only [hget, hclamp]
  split
  next => rfl
  next => rw [sub_self, zero_mul, zero_mul, add_zero, Scalar.clamp_one]

theorem lift_lt_one {m t x : K} (hm : m < 1) (ht : t ≤ 1) (hx : 0 ≤ x ∧ x ≤ m) :
    m + (1 - m) * t * x < 1 := by
  have hroom : 0 < 1 - m := sub_pos.mpr hm
  have hbelow : (1 - m) * t ≤ 1 - m := mul_le_of_le_one_right hroom.le ht
  have hlift : (1 - m) * t * x ≤ (1 - m) * x := mul_le_mul_of_nonneg_right hbelow hx.1
  have hpart : (1 - m) * x < 1 - m := mul_lt_of_lt_one_right hroom (lt_of_le_of_lt hx.2 hm)
  linarith

theorem mean_le {rest : List K} {m : K} (hm : 0 ≤ m) (hmax : ∀ a ∈ rest, a ≤ m) :
    rest.sum / (rest.length : K) ≤ m := by
  have hsum : rest.sum ≤ m * (rest.length : K) := by
    rw [mul_comm, ← nsmul_eq_mul]
    exact List.sum_le_card_nsmul rest m hmax
  exact div_le_of_le_mul₀ (Nat.cast_nonneg _) hm hsum

theorem aggregate_eq_one_iff {as : List K} (h : ∀ a ∈ as, Scalar.Fraction a)
    (ht : Scalar.Fraction aligner.support) : aligner.aggregate as = 1 ↔ 1 ∈ as := by
  constructor
  · intro hone
    have hne : as ≠ [] := by
      rintro rfl
      exact zero_ne_one hone
    obtain ⟨m, rest, hperm, hmax⟩ := exists_greatest hne
    have hmem : m ∈ as := hperm.mem_iff.mpr List.mem_cons_self
    have hrest : ∀ a ∈ rest, Scalar.Fraction a := fun a ha =>
      h a (hperm.mem_iff.mpr (List.mem_cons_of_mem m ha))
    rw [aggregate_of_perm h ht hperm hmax] at hone
    rcases (h m hmem).2.lt_or_eq with hlt | rfl
    · have hmean := mean_le (h m hmem).1 hmax
      have hbelow := lift_lt_one hlt ht.2 ⟨(ExactScalar.fraction_mean hrest).1, hmean⟩
      exact absurd hone hbelow.ne
    · exact hmem
  · exact fun hin => aggregate_of_one_le hin le_rfl

omit [ExactScalar K] in
theorem similarities_raised_perm (before after : List (ValuePair K)) (p : ValuePair K) :
    ((before ++ p :: after).map ValuePair.similarity).Perm
      (p.similarity :: (before ++ after).map ValuePair.similarity) :=
  List.perm_middle.map _

/-- The similarity of one pair may be raised even beyond 1, where it counts as 1. -/
theorem aggregate_le_raised {before after : List (ValuePair K)} {p : ValuePair K} {s : K}
    (h : ∀ a ∈ (before ++ p :: after).map ValuePair.similarity, Scalar.Fraction a)
    (ht : Scalar.Fraction aligner.support) (hup : p.similarity ≤ s) :
    aligner.aggregate ((before ++ p :: after).map ValuePair.similarity) ≤
      aligner.aggregate ((before ++ { p with similarity := s } :: after).map ValuePair.similarity) := by
  have hold := similarities_raised_perm before after p
  have hnew := similarities_raised_perm before after { p with similarity := s }
  rcases le_total s 1 with hs | hs
  · refine aggregate_mono h (fun a ha => ?_) ht hold hnew hup
    rcases List.mem_cons.mp (hnew.mem_iff.mp ha) with rfl | hin
    · have hp := h p.similarity (hold.mem_iff.mpr List.mem_cons_self)
      exact ⟨hp.1.trans hup, hs⟩
    · exact h a (hold.mem_iff.mpr (List.mem_cons_of_mem _ hin))
  · rw [aggregate_of_one_le (hnew.mem_iff.mpr List.mem_cons_self) hs]
    exact (fraction_aggregate h ht).2

/-- The aggregate is at least the greatest similarity and at most 1, is 1 only through a similarity of
1, does not hang on the order of the pairs, and does not fall when a pair becomes more similar, also
beyond all others. -/
theorem aggregate_laws {pairs : List (ValuePair K)}
    (h : ∀ p ∈ pairs, Scalar.Fraction p.similarity) (ht : Scalar.Fraction aligner.support) :
    let worth (ps : List (ValuePair K)) := aligner.aggregate (ps.map ValuePair.similarity)
    (∀ p ∈ pairs, p.similarity ≤ worth pairs) ∧ worth pairs ≤ 1 ∧
      (worth pairs = 1 ↔ ∃ p ∈ pairs, p.similarity = 1) ∧
      (∀ others : List (ValuePair K), others.Perm pairs → worth others = worth pairs) ∧
      ∀ before p after s, pairs = before ++ p :: after → p.similarity ≤ s →
        worth pairs ≤ worth (before ++ { p with similarity := s } :: after) := by
  intro worth
  have hfractions := List.forall_mem_map.mpr h
  refine ⟨List.forall_mem_map.mp (le_aggregate hfractions ht), (fraction_aggregate hfractions ht).2,
    ?_, fun others hperm => (aggregate_perm hfractions ht (hperm.symm.map _)).symm, ?_⟩
  · rw [aggregate_eq_one_iff hfractions ht, List.mem_map]
  · rintro before p after s rfl hup
    exact aggregate_le_raised hfractions ht hup

theorem aggregate_laws_of_overtaking :
    let aligner : Aligner ℚ := clamped (1 / 20) 1
    let weak : ValuePair ℚ := ⟨0, 1, 1 / 2⟩
    let strong : List (ValuePair ℚ) := [⟨1, 0, 9 / 10⟩, ⟨2, 2, 9 / 10⟩]
    let worth (ps : List (ValuePair ℚ)) := aligner.aggregate (ps.map ValuePair.similarity)
    ((∀ p ∈ strong ++ [weak], Scalar.Fraction p.similarity) ∧ Scalar.Fraction aligner.support) ∧
      worth (strong ++ [weak]) ≠ 1 ∧ worth (weak :: strong) = worth (strong ++ [weak]) ∧
      worth (strong ++ [weak]) ≤ worth (strong ++ [⟨0, 1, 19 / 20⟩]) := by
  intro aligner weak strong worth
  have h : ∀ p ∈ strong ++ [weak], Scalar.Fraction p.similarity := by decide +kernel
  have ht : Scalar.Fraction aligner.support := by decide +kernel
  obtain ⟨_, _, hone, hperm, hmono⟩ := aggregate_laws h ht
  have hbelow := mt hone.mp (by decide +kernel)
  have hsame := hperm (weak :: strong) (List.perm_append_singleton weak strong).symm
  exact ⟨⟨h, ht⟩, hbelow, hsame, hmono strong weak [] (19 / 20) rfl (by decide +kernel)⟩

end Screening.Aligner
