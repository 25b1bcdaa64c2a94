import Screening.Comparison
import Screening.Proofs.Scalar.Faithful

namespace Screening

namespace IncompleteDate

variable {d e : IncompleteDate} {t : Text}

/-- Both dates carry a part, and it differs. -/
def Differ (a b : Option Nat) : Prop := ∃ m n, a = some m ∧ b = some n ∧ m ≠ n

def DayInMonth (d : IncompleteDate) : Prop := ∀ day, d.day = some day → ∃ month, d.month = some month

/-- Whether a part differs that both dates carry. -/
def Disagree (d e : IncompleteDate) : Prop :=
  d.year ≠ e.year ∨ Differ d.month e.month ∨ Differ d.day e.day

/-- Full dates of one year, the day of each being the month of the other. -/
def Exchanged (d e : IncompleteDate) : Prop :=
  d.year = e.year ∧ ∃ m n, d.month = some m ∧ d.day = some n ∧ e.month = some n ∧ e.day = some m

/-- What agreement on the finest part is worth that both dates carry. -/
def finestWorth (α : Type) [Scalar α] (d e : IncompleteDate) : α :=
  if d.day.isSome && e.day.isSome then 1
  else if d.month.isSome && e.month.isSome then 0.85
  else 0.7

theorem month_of_day (h : ofText? t = some d) {day : Nat} (hday : d.day = some day) :
    ∃ month, d.month = some month := by
  unfold ofText? at h
  dsimp only at h
  split at h
  next => exact nomatch h
  next =>
    split at h
    next =>
      obtain rfl := Option.some.inj h
      exact nomatch hday
    next month _ =>
      obtain rfl := Option.some.inj h
      exact ⟨month, rfl⟩

theorem not_differ_self (a : Option Nat) : ¬ Differ a a := by
  rintro ⟨m, n, hm, hn, hne⟩
  exact hne (Option.some.inj (hm.symm.trans hn))

section Agreement

variable {α : Type} [Scalar α]

theorem monthAgreement_comm (d e : IncompleteDate) :
    (monthAgreement e d : α) = monthAgreement d e := by
  unfold monthAgreement
  cases d.month with
  | none => cases e.month <;> rfl
  | some m =>
    cases e.month with
    | none => rfl
    | some n =>
      by_cases hmonth : m = n
      · cases d.day <;> cases e.day <;> simp [hmonth, eq_comm]
      · simp [hmonth, Ne.symm hmonth, and_comm]

theorem agreement_comm (precision : Precision) (d e : IncompleteDate) :
    (agreement precision e d : Option α) = agreement precision d e := by
  simp only [agreement, monthAgreement_comm d e, Bool.or_comm e.day.isNone, ne_comm (a := e.year)]

theorem agreement_of_year_ne (precision : Precision) (h : d.year ≠ e.year) :
    (agreement precision d e : Option α).getD 0 = 0 := by
  rw [agreement, if_pos h]
  split <;> rfl

theorem agreement_any (h : d.year = e.year) :
    (agreement .any d e : Option α) = some (monthAgreement d e) := by
  simp [agreement, h]

theorem agreement_any_of_day {s : α} (h : agreement .day d e = some s) :
    agreement .any d e = some s := by
  unfold agreement at h ⊢
  split at h
  next => exact nomatch h
  next => simpa using h

theorem agreement_of_exchanged (hdisagree : Disagree d e) (h : Exchanged d e) :
    (agreement .any d e : Option α) = some 0.5 := by
  obtain ⟨hyear, m, n, hm, hn, hn', hm'⟩ := h
  have hne : m ≠ n := by
    rintro rfl
    rcases hdisagree with hne | hdiffer | hdiffer
    · exact hne hyear
    · exact not_differ_self _ (hm ▸ hn' ▸ hdiffer)
    · exact not_differ_self _ (hn ▸ hm' ▸ hdiffer)
  simp [agreement_any hyear, monthAgreement, hm, hn, hn', hm', hne]

theorem monthAgreement_of_month_ne {m n : Nat} (hm : d.month = some m) (hn : e.month = some n)
    (hne : m ≠ n) (hyear : d.year = e.year) (h : ¬ Exchanged d e) :
    (monthAgreement d e : α) = 0 := by
  have hdays : (decide (d.day = some n) && decide (e.day = some m)) = false := by
    rw [Bool.and_eq_false_iff, decide_eq_false_iff_not, decide_eq_false_iff_not, ← not_and_or]
    rintro ⟨hday, hday'⟩
    exact h ⟨hyear, m, n, hm, hday, hn, hday'⟩
  simp [monthAgreement, hm, hn, hne, hdays]

theorem agreement_of_disagree (hd : DayInMonth d) (he : DayInMonth e) (hdisagree : Disagree d e)
    (h : ¬ Exchanged d e) : (agreement .any d e : Option α) = some 0 := by
  by_cases hyear : d.year = e.year
  · rw [agreement_any hyear]
    rcases hdisagree with hne | ⟨m, n, hm, hn, hne⟩ | ⟨day, day', hday, hday', hne⟩
    · exact absurd hyear hne
    · rw [monthAgreement_of_month_ne hm hn hne hyear h]
    · obtain ⟨m, hm⟩ := hd day hday
      obtain ⟨n, hn⟩ := he day' hday'
      by_cases hmonth : m = n
      · simp [monthAgreement, hm, hn, hmonth, hday, hday', hne]
      · rw [monthAgreement_of_month_ne hm hn hmonth hyear h]
  · simp [agreement, hyear]

theorem eq_of_not_differ {m n : Nat} (h : ¬ Differ (some m) (some n)) : m = n := by
  by_contra hne
  exact h ⟨m, n, rfl, rfl, hne⟩

theorem agreement_of_not_disagree (hd : DayInMonth d) (he : DayInMonth e) (h : ¬ Disagree d e) :
    (agreement .any d e : Option α) = some (finestWorth α d e) := by
  simp only [Disagree, not_or, not_not] at h
  obtain ⟨hyear, hmonth, hday⟩ := h
  obtain ⟨year, dm, dd⟩ := d
  obtain ⟨_, em, ed⟩ := e
  rw [agreement_any hyear, monthAgreement, finestWorth]
  dsimp only at *
  cases dm with
  | none =>
    cases dd with
    | none => rfl
    | some day => exact absurd (hd day rfl) (by simp)
  | some m =>
    cases em with
    | none =>
      cases ed with
      | none => simp
      | some day => exact absurd (he day rfl) (by simp)
    | some n =>
      obtain rfl := eq_of_not_differ hmonth
      cases dd with
      | none => simp
      | some day =>
        cases ed with
        | none => simp
        | some day' =>
          obtain rfl := eq_of_not_differ hday
          simp

end Agreement

section Faithful

variable {α : Type} [Scalar α] [FaithfulScalar α]

theorem finestWorth_ne_zero (d e : IncompleteDate) : finestWorth α d e ≠ 0 := by
  unfold finestWorth
  split
  · exact Scalar.ne_zero_of_pos Scalar.zero_lt_one
  · split
    · exact Scalar.ne_zero_of_pos (FaithfulScalar.decimal_pos (by decide) (by decide) (by decide))
    · exact Scalar.ne_zero_of_pos (FaithfulScalar.decimal_pos (by decide) (by decide) (by decide))

/-- What dates that can be read agree by where any part may be unknown. -/
structure AgreeBy (d e : IncompleteDate) (s : α) : Prop where
  zero_iff : s = 0 ↔ Disagree d e ∧ ¬ Exchanged d e
  exchanged : Disagree d e → Exchanged d e → s = 0.5
  finest : ¬ Disagree d e → s = finestWorth α d e

theorem agreement_any_agreeBy (hd : DayInMonth d) (he : DayInMonth e) :
    ∃ s : α, agreement .any d e = some s ∧ AgreeBy d e s := by
  by_cases hdisagree : Disagree d e
  · by_cases hexchanged : Exchanged d e
    · exact ⟨0.5, agreement_of_exchanged hdisagree hexchanged,
        ⟨fun h => absurd h Scalar.half_ne_zero, fun h => absurd hexchanged h.2⟩, fun _ _ => rfl,
        fun h => absurd hdisagree h⟩
    · exact ⟨0, agreement_of_disagree hd he hdisagree hexchanged,
        ⟨fun _ => ⟨hdisagree, hexchanged⟩, fun _ => rfl⟩, fun _ h => absurd h hexchanged,
        fun h => absurd hdisagree h⟩
  · exact ⟨finestWorth α d e, agreement_of_not_disagree hd he hdisagree,
      ⟨fun h => absurd h (finestWorth_ne_zero d e), fun h => absurd h.1 hdisagree⟩,
      fun h => absurd h hdisagree, fun _ => rfl⟩

end Faithful

end IncompleteDate

namespace Comparison

open IncompleteDate

variable {α : Type} [Scalar α]

theorem dates_eq_bind (precision : Precision) (q c : Text) : (dates precision q c : Option α) =
    (ofText? q).bind fun d => (ofText? c).bind fun e => agreement precision d e := rfl

theorem dates_comm (precision : Precision) (q c : Text) :
    (dates precision c q : Option α) = dates precision q c := by
  rw [dates_eq_bind, dates_eq_bind]
  cases ofText? q with
  | none => cases ofText? c <;> rfl
  | some d =>
    cases ofText? c with
    | none => rfl
    | some e => exact agreement_comm precision d e

theorem dates_of_read {q c : Text} {d e : IncompleteDate} (hq : ofText? q = some d)
    (hc : ofText? c = some e) (precision : Precision) :
    (dates precision q c : Option α) = agreement precision d e := by
  rw [dates_eq_bind, hq, hc, Option.bind_some, Option.bind_some]

theorem dates_any_of_day {q c : Text} {s : α} (h : dates .day q c = some s) :
    dates .any q c = some s := by
  obtain ⟨d, hd, h⟩ := Option.bind_eq_some_iff.mp h
  obtain ⟨e, he, h⟩ := Option.bind_eq_some_iff.mp h
  rw [dates_of_read hd he]
  exact agreement_any_of_day h

/-- Dates are compared alike in both directions. Those that can be read and are of different years
are worth nothing, and where any part may be unknown their parts tell what they agree by. What is told
of full dates is told where any part may be unknown, too. -/
theorem dates_agreeBy (α : Type) [Scalar α] [FaithfulScalar α] (q c : Text) :
    (∀ precision, (dates precision c q : Option α) = dates precision q c) ∧
      (∀ d e, ofText? q = some d → ofText? c = some e →
        (d.year ≠ e.year → ∀ precision, (dates precision q c : Option α).getD 0 = 0) ∧
          ∃ s : α, dates .any q c = some s ∧ AgreeBy d e s) ∧
      ∀ s : α, dates .day q c = some s → dates .any q c = some s := by
  refine ⟨fun precision => dates_comm precision q c, fun d e hd he => ⟨fun hyear precision => ?_, ?_⟩,
    fun s => dates_any_of_day⟩
  · rw [dates_of_read hd he]
    exact agreement_of_year_ne precision hyear
  · rw [dates_of_read hd he]
    exact agreement_any_agreeBy (fun _ => month_of_day hd) fun _ => month_of_day he

theorem dates_agreeBy_of_exchanged :
    let q := Text.of "1975-03-05"
    let c := Text.of "1975/05/03"
    let late := Text.of "1976-13"
    (ofText? q = some ⟨1975, some 3, some 5⟩ ∧ ofText? c = some ⟨1975, some 5, some 3⟩ ∧
        ofText? late = some ⟨1976, none, none⟩) ∧
      (dates .any q c = some (0.5 : Float) ∧ dates .any c q = some (0.5 : Float)) ∧
        (dates .day c c = some (1 : Float) ∧ dates .any c c = some (1 : Float)) ∧
          ∀ precision, (dates precision q late : Option Float).getD 0 = 0 := by
  intro q c late
  have hq : ofText? q = some ⟨1975, some 3, some 5⟩ := by decide +kernel
  have hc : ofText? c = some ⟨1975, some 5, some 3⟩ := by decide +kernel
  have hlate : ofText? late = some ⟨1976, none, none⟩ := by decide +kernel
  obtain ⟨hcomm, hread, _⟩ := dates_agreeBy Float q c
  obtain ⟨_, s, hs, hagree⟩ := hread _ _ hq hc
  rw [hagree.exchanged (.inr (.inl ⟨3, 5, rfl, rfl, by decide⟩)) ⟨rfl, 3, 5, rfl, rfl, rfl, rfl⟩] at hs
  have hday : dates .day c c = some (1 : Float) := by decide +kernel
  have hyears := ((dates_agreeBy Float q late).2.1 _ _ hq hlate).1 (by decide)
  exact ⟨⟨hq, hc, hlate⟩, ⟨hs, (hcomm .any).trans hs⟩,
    ⟨hday, (dates_agreeBy Float c c).2.2 1 hday⟩, hyears⟩

end Comparison

end Screening
