import Screening.Proofs.Scalar.Arithmetic
import Screening.Similarity.Jaro

namespace Screening.Similarity

/-- Whether two positions hold the same byte and are no farther apart than the window. -/
def Near (window : Nat) (s t : Text) (i j : Nat) : Prop :=
  (∃ c, s[i]? = some c ∧ t[j]? = some c) ∧ i ≤ j + window ∧ j ≤ i + window

/-- Whether two positions are matched: they are near, and neither is matched with a position before
the other one. -/
def Matched (window : Nat) (s t : Text) (i j : Nat) : Prop :=
  Near window s t i j ∧ (∀ k, k < i → ¬ Matched window s t k j) ∧
    ∀ k, k < j → ¬ Matched window s t i k
termination_by i + j

section Matched

variable {w : Nat} {s t : Text} {i j k : Nat}

theorem matched_iff : Matched w s t i j ↔ Near w s t i j ∧ (∀ k < i, ¬ Matched w s t k j) ∧
    ∀ k < j, ¬ Matched w s t i k := by
  rw [Matched]

theorem near_swap : Near w t s j i ↔ Near w s t i j := by
  unfold Near
  constructor
  · rintro ⟨⟨c, ht, hs⟩, hi, hj⟩
    exact ⟨⟨c, hs, ht⟩, hj, hi⟩
  · rintro ⟨⟨c, hs, ht⟩, hi, hj⟩
    exact ⟨⟨c, ht, hs⟩, hj, hi⟩

theorem matched_swap : Matched w t s j i ↔ Matched w s t i j := by
  induction hn : i + j using Nat.strong_induction_on generalizing i j with
  | h n ih =>
    have hrow : ∀ k < i, (Matched w t s j k ↔ Matched w s t k j) :=
      fun k hk => ih (k + j) (by omega) rfl
    have hcolumn : ∀ k < j, (Matched w t s k i ↔ Matched w s t i k) :=
      fun k hk => ih (i + k) (by omega) rfl
    have hrows : (∀ k < i, ¬ Matched w t s j k) ↔ ∀ k < i, ¬ Matched w s t k j :=
      forall₂_congr fun k hk => not_congr (hrow k hk)
    have hcolumns : (∀ k < j, ¬ Matched w t s k i) ↔ ∀ k < j, ¬ Matched w s t i k :=
      forall₂_congr fun k hk => not_congr (hcolumn k hk)
    have hs := matched_iff (w := w) (s := s) (t := t) (i := i) (j := j)
    rw [matched_iff, near_swap, hrows, hcolumns, hs]
    exact and_congr_right fun _ => And.comm

theorem Matched.unique_right (h : Matched w s t i j) (h' : Matched w s t i k) : j = k := by
  rcases Nat.lt_trichotomy j k with hlt | heq | hgt
  · exact absurd h ((matched_iff.mp h').2.2 j hlt)
  · exact heq
  · exact absurd h' ((matched_iff.mp h).2.2 k hgt)

theorem Matched.lt_left (h : Matched w s t i j) : i < s.length := by
  obtain ⟨c, hs, _⟩ := (matched_iff.mp h).1.1
  exact (List.getElem?_eq_some_iff.mp hs).1

theorem Matched.lt_right (h : Matched w s t i j) : j < t.length := (matched_swap.mpr h).lt_left

end Matched

/-- Whether a byte can claim a position: it is within reach, holds that byte and is not taken. -/
structure Claimable (c : UInt8) (ahead span : Nat) (t : Text) (taken : List Bool) (j : Nat) : Prop where
  ahead : ahead ≤ j
  span : j < span
  byte : t[j]? = some c
  free : taken[j]? = some false

section Claim

variable {c : UInt8} {ahead span : Nat} {t : Text} {taken : List Bool}

theorem claimable_succ {b : UInt8} {mark : Bool} {j : Nat} :
    Claimable c ahead (span + 1) (b :: t) (mark :: taken) (j + 1) ↔
      Claimable c (ahead - 1) span t taken j := by
  constructor
  · rintro ⟨hahead, hspan, hbyte, hfree⟩
    exact ⟨by omega, by omega, hbyte, hfree⟩
  · rintro ⟨hahead, hspan, hbyte, hfree⟩
    exact ⟨by omega, by omega, hbyte, hfree⟩

/-- What comes of a claim: the first position that can be claimed is marked, if there is one. -/
def Settled (c : UInt8) (ahead span : Nat) (t : Text) (taken : List Bool) : Option (List Bool) → Prop
  | none => ∀ j, ¬ Claimable c ahead span t taken j
  | some marks => ∃ j, Claimable c ahead span t taken j ∧
      (∀ k < j, ¬ Claimable c ahead span t taken k) ∧ marks = taken.set j true

theorem Settled.cons {b : UInt8} {mark : Bool} {outcome : Option (List Bool)}
    (first : ¬ Claimable c ahead (span + 1) (b :: t) (mark :: taken) 0)
    (h : Settled c (ahead - 1) span t taken outcome) :
    Settled c ahead (span + 1) (b :: t) (mark :: taken) (outcome.map (mark :: ·)) := by
  cases outcome with
  | none =>
    intro j
    cases j with
    | zero => exact first
    | succ j => exact fun hj => h j (claimable_succ.mp hj)
  | some marks =>
    obtain ⟨j, hj, hfirst, rfl⟩ := h
    refine ⟨j + 1, claimable_succ.mpr hj, fun k hk => ?_, rfl⟩
    cases k with
    | zero => exact first
    | succ k => exact fun hc => hfirst k (by omega) (claimable_succ.mp hc)

theorem settled_claim (c : UInt8) (ahead span : Nat) (t : Text) (taken : List Bool) :
    Settled c ahead span t taken (claim c ahead span t taken) := by
  induction ahead, span, t, taken using claim.induct c with
  | case1 ahead t taken =>
    intro j hj
    exact absurd hj.span (Nat.not_lt_zero j)
  | case2 ahead span b bs mark taken ih =>
    exact ih.cons fun h => absurd h.ahead (Nat.not_succ_le_zero ahead)
  | case3 span b bs mark taken hfree =>
    rw [claim, if_pos hfree]
    simp only [Bool.and_eq_true, Bool.not_eq_true', beq_iff_eq] at hfree
    obtain ⟨rfl, rfl⟩ := hfree
    exact ⟨0, ⟨Nat.le_refl 0, Nat.succ_pos span, rfl, rfl⟩, fun k hk => absurd hk (Nat.not_lt_zero k), rfl⟩
  | case4 span b bs mark taken hfree ih =>
    rw [claim, if_neg hfree]
    refine ih.cons fun h => hfree ?_
    obtain ⟨_, _, hbyte, hmark⟩ := h
    obtain rfl := Option.some.inj hbyte
    obtain rfl := Option.some.inj hmark
    simp
  | case5 span ahead t taken hspan hlater hhere =>
    have hempty : t = [] ∨ taken = [] := by
      rcases t with _ | ⟨b, bs⟩
      · exact .inl rfl
      · rcases taken with _ | ⟨mark, taken⟩
        · exact .inr rfl
        · obtain ⟨n, rfl⟩ := Nat.exists_eq_succ_of_ne_zero hspan
          cases ahead with
          | zero => exact (hhere n b bs mark taken rfl rfl rfl rfl).elim
          | succ m => exact (hlater m n b bs mark taken rfl rfl rfl rfl).elim
    have hnone : claim c ahead span t taken = none := by
      rw [claim] <;> assumption
    rw [hnone]
    intro j hj
    rcases hempty with rfl | rfl
    · exact nomatch hj.byte
    · exact nomatch hj.free

end Claim

/-- Whether the marks on `t` are those of the positions that the bytes of `s` before position `i` are
matched with. -/
structure MarkedBefore (w : Nat) (s t : Text) (i : Nat) (marks : List Bool) : Prop where
  length : marks.length = t.length
  marked : ∀ j, marks[j]? = some true ↔ ∃ k < i, Matched w s t k j

/-- Whether the marks are those of the bytes of `s` from position `i` on that are matched. -/
structure MarkedFrom (w : Nat) (s t : Text) (i : Nat) (marks : List Bool) : Prop where
  length : marks.length = s.length - i
  marked : ∀ k, marks[k]? = some true ↔ ∃ j, Matched w s t (i + k) j

section Claims

variable {w i j : Nat} {s t : Text} {taken : List Bool} {c : UInt8}

theorem markedBefore_start (w : Nat) (s t : Text) :
    MarkedBefore w s t 0 (List.replicate t.length false) where
  length := List.length_replicate
  marked j := by
    simp only [List.getElem?_replicate]
    split <;> simp

/-- The byte whose turn it is can claim the near positions that no byte before it is matched with. -/
theorem claimable_iff (h : MarkedBefore w s t i taken) (hbyte : s[i]? = some c) :
    Claimable c (i - w) (i + w + 1) t taken j ↔
      Near w s t i j ∧ ∀ k < i, ¬ Matched w s t k j := by
  constructor
  · rintro ⟨hahead, hspan, ht, hfree⟩
    refine ⟨⟨⟨c, hbyte, ht⟩, by omega, by omega⟩, fun k hk hmatched => ?_⟩
    have htaken := (h.marked j).mpr ⟨k, hk, hmatched⟩
    exact absurd (hfree.symm.trans htaken) (by simp)
  · rintro ⟨⟨⟨d, hd, ht⟩, hi, hj⟩, hfree⟩
    obtain rfl := Option.some.inj (hbyte.symm.trans hd)
    have hlt : j < taken.length := by
      rw [h.length]
      exact (List.getElem?_eq_some_iff.mp ht).1
    refine ⟨by omega, by omega, ht, ?_⟩
    rw [List.getElem?_eq_getElem hlt]
    cases hmark : taken[j] with
    | false => rfl
    | true =>
      obtain ⟨k, hk, hmatched⟩ := (h.marked j).mp (List.getElem?_eq_some_iff.mpr ⟨hlt, hmark⟩)
      exact absurd hmatched (hfree k hk)

theorem claimable_of_matched (h : MarkedBefore w s t i taken) (hbyte : s[i]? = some c)
    (hmatched : Matched w s t i j) : Claimable c (i - w) (i + w + 1) t taken j := by
  obtain ⟨hnear, hfree, _⟩ := matched_iff.mp hmatched
  exact (claimable_iff h hbyte).mpr ⟨hnear, hfree⟩

theorem matched_of_first (h : MarkedBefore w s t i taken) (hbyte : s[i]? = some c)
    (hclaim : Claimable c (i - w) (i + w + 1) t taken j)
    (hfirst : ∀ k < j, ¬ Claimable c (i - w) (i + w + 1) t taken k) : Matched w s t i j := by
  obtain ⟨hnear, hfree⟩ := (claimable_iff h hbyte).mp hclaim
  exact matched_iff.mpr
    ⟨hnear, hfree, fun k hk hmatched => hfirst k hk (claimable_of_matched h hbyte hmatched)⟩

theorem MarkedBefore.claimed (h : MarkedBefore w s t i taken) (hmatched : Matched w s t i j) :
    MarkedBefore w s t (i + 1) (taken.set j true) where
  length := by rw [List.length_set, h.length]
  marked k := by
    have hlt : j < taken.length := by
      rw [h.length]
      exact hmatched.lt_right
    rw [List.getElem?_set, Nat.exists_lt_succ_right, ← h.marked k]
    by_cases hk : j = k
    · subst hk
      simp [hlt, hmatched]
    · have hother : ¬ Matched w s t i k := fun h' => hk (hmatched.unique_right h')
      simp [hk, hother]

theorem MarkedBefore.passed (h : MarkedBefore w s t i taken) (hnone : ∀ j, ¬ Matched w s t i j) :
    MarkedBefore w s t (i + 1) taken where
  length := h.length
  marked k := by
    rw [Nat.exists_lt_succ_right, ← h.marked k]
    simp [hnone k]

theorem MarkedFrom.cons {mark : Bool} {marks : List Bool} (hi : i < s.length)
    (head : mark = true ↔ ∃ j, Matched w s t i j) (h : MarkedFrom w s t (i + 1) marks) :
    MarkedFrom w s t i (mark :: marks) where
  length := by
    rw [List.length_cons, h.length]
    omega
  marked k := by
    cases k with
    | zero => simpa using head
    | succ k =>
      have hk : i + (k + 1) = i + 1 + k := by omega
      rw [List.getElem?_cons_succ, h.marked, hk]

/-- When all bytes have had their turn, the positions that are matched are marked on both sides. -/
theorem claims_marks (rest : Text) (hrest : s.drop i = rest) (hi : i ≤ s.length)
    (h : MarkedBefore w s t i taken) :
    MarkedFrom w s t i (claims w t i rest taken).1 ∧
      MarkedBefore w s t s.length (claims w t i rest taken).2 := by
  induction rest generalizing i taken with
  | nil =>
    obtain rfl := Nat.le_antisymm hi (List.drop_eq_nil_iff.mp hrest)
    refine ⟨⟨(Nat.sub_self _).symm, fun k => ?_⟩, h⟩
    constructor
    · exact fun hmark => nomatch hmark
    · rintro ⟨j, hj⟩
      have := hj.lt_left
      omega
  | cons c rest ih =>
    have hbyte : s[i]? = some c := by
      rw [← List.head?_drop, hrest, List.head?_cons]
    have hlt : i < s.length := (List.getElem?_eq_some_iff.mp hbyte).1
    have hnext : s.drop (i + 1) = rest := by
      rw [← List.tail_drop, hrest, List.tail_cons]
    have hsettled := settled_claim c (i - w) (i + w + 1) t taken
    cases hclaim : claim c (i - w) (i + w + 1) t taken with
    | none =>
      rw [hclaim] at hsettled
      have hnone : ∀ j, ¬ Matched w s t i j :=
        fun j hj => hsettled j (claimable_of_matched h hbyte hj)
      obtain ⟨hmarks, htaken⟩ := ih hnext hlt (h.passed hnone)
      simp only [claims, hclaim]
      exact ⟨.cons hlt (by simpa using hnone) hmarks, htaken⟩
    | some marks =>
      rw [hclaim] at hsettled
      obtain ⟨j, hj, hfirst, rfl⟩ := hsettled
      have hmatched := matched_of_first h hbyte hj hfirst
      obtain ⟨hmarks, htaken⟩ := ih hnext hlt (h.claimed hmatched)
      simp only [claims, hclaim]
      exact ⟨.cons hlt ⟨fun _ => ⟨j, hmatched⟩, fun _ => rfl⟩ hmarks, htaken⟩

theorem MarkedFrom.eq_of_before {marks marks' : List Bool} (h : MarkedFrom w s t 0 marks)
    (h' : MarkedBefore w t s t.length marks') : marks = marks' := by
  apply List.ext_getElem (by rw [h.length, h'.length, Nat.sub_zero])
  intro k hk hk'
  have hfrom := h.marked k
  have hbefore := h'.marked k
  rw [List.getElem?_eq_getElem hk, Option.some.injEq, Nat.zero_add] at hfrom
  rw [List.getElem?_eq_getElem hk', Option.some.injEq] at hbefore
  rw [Bool.eq_iff_iff, hfrom, hbefore]
  constructor
  · rintro ⟨j, hj⟩
    exact ⟨j, hj.lt_right, matched_swap.mpr hj⟩
  · rintro ⟨j, _, hj⟩
    exact ⟨j, matched_swap.mp hj⟩

theorem claims_swap (w : Nat) (s t : Text) :
    claims w s 0 t (List.replicate s.length false) =
      (claims w t 0 s (List.replicate t.length false)).swap := by
  obtain ⟨hs, ht⟩ := claims_marks s rfl (Nat.zero_le _) (markedBefore_start w s t)
  obtain ⟨ht', hs'⟩ := claims_marks t rfl (Nat.zero_le _) (markedBefore_start w t s)
  exact Prod.ext (ht'.eq_of_before ht) (hs.eq_of_before hs').symm

theorem count_claims (w : Nat) (t : Text) (i : Nat) (rest : Text) (taken : List Bool) :
    (claims w t i rest taken).2.count true =
      (claims w t i rest taken).1.count true + taken.count true := by
  induction rest generalizing i taken with
  | nil => simp [claims]
  | cons c rest ih =>
    have hsettled := settled_claim c (i - w) (i + w + 1) t taken
    cases hclaim : claim c (i - w) (i + w + 1) t taken with
    | none => simp [claims, hclaim, ih]
    | some marks =>
      rw [hclaim] at hsettled
      obtain ⟨j, hj, _, rfl⟩ := hsettled
      obtain ⟨hlt, hfree⟩ := List.getElem?_eq_some_iff.mp hj.free
      have hcount : (taken.set j true).count true = taken.count true + 1 := by
        rw [List.count_set hlt]
        simp [hfree]
      simp only [claims, hclaim, ih, hcount, List.count_cons_self]
      omega

theorem length_marked {t : Text} {marks : List Bool} (h : marks.length = t.length) :
    (marked t marks).length = marks.count true := by
  induction t generalizing marks with
  | nil =>
    obtain rfl := List.length_eq_zero_iff.mp h
    rfl
  | cons b t ih =>
    obtain ⟨mark, marks, rfl⟩ := List.exists_cons_of_length_eq_add_one h
    have hrest := ih (Nat.succ.inj h)
    rw [marked] at hrest ⊢
    cases mark <;> simp [hrest]

end Claims

theorem window_comm (s t : Text) : window t s = window s t := by
  rw [window, window, Nat.max_comm]

theorem sharedBytes_swap (s t : Text) : sharedBytes t s = (sharedBytes s t).swap := by
  unfold sharedBytes
  dsimp only
  rw [window_comm, claims_swap]
  rfl

theorem length_sharedBytes (s t : Text) :
    (sharedBytes s t).2.length = (sharedBytes s t).1.length := by
  have hstart := markedBefore_start (window s t) s t
  obtain ⟨hs, ht⟩ := claims_marks s rfl (Nat.zero_le _) hstart
  have hcount := count_claims (window s t) t 0 s (List.replicate t.length false)
  simp only [sharedBytes]
  rw [length_marked ht.length, length_marked (hs.length.trans (Nat.sub_zero _)), hcount]
  simp [List.count_replicate]

theorem transpositions_comm (m n : Text) : transpositions n m = transpositions m n := by
  rw [transpositions, ← List.zip_swap, List.countP_map, transpositions]
  apply List.countP_congr
  intro p _
  simp [bne_comm]

theorem commonLength_comm (s t : Text) : commonLength t s = commonLength s t := by
  induction s generalizing t with
  | nil => cases t <;> rfl
  | cons a s ih =>
    cases t with
    | nil => rfl
    | cons b t => simp only [commonLength, ih, eq_comm]

section Symmetry

variable {α : Type} [Scalar α] (commutes : ∀ a b : α, a + b = b + a)

include commutes

theorem jaro_comm (s t : Text) : (jaro t s : α) = jaro s t := by
  have hlength := length_sharedBytes s t
  have hempty : (sharedBytes s t).2.isEmpty = (sharedBytes s t).1.isEmpty := by
    rw [Bool.eq_iff_iff, List.isEmpty_iff, List.isEmpty_iff, ← List.length_eq_zero_iff, hlength,
      List.length_eq_zero_iff]
  unfold jaro
  rw [sharedBytes_swap s t]
  simp only [Prod.fst_swap, Prod.snd_swap, hempty, hlength, transpositions_comm (sharedBytes s t).1,
    Bool.and_comm t.isEmpty, Bool.or_comm t.isEmpty, eq_comm (a := t)]
  rw [commutes (((sharedBytes s t).1.length : α) / (t.length : α))]

theorem jaroWinkler_comm (s t : Text) : (jaroWinkler t s : α) = jaroWinkler s t := by
  simp only [jaroWinkler, jaro_comm commutes s t, commonLength_comm (s.take 4)]

end Symmetry

/-- Jaro similarity and its Winkler form are the same in both directions to the last bit: the shares
of the two texts are added first, and the sum of two floats does not hang on their order. -/
theorem jaro_symmetric (s t : Text) :
    (jaro s t : Float) = jaro t s ∧ (jaroWinkler s t : Float) = jaroWinkler t s :=
  ⟨jaro_comm Machine.float_add_comm t s, jaroWinkler_comm Machine.float_add_comm t s⟩

end Screening.Similarity
