import Mathlib.Data.List.Basic
import Screening.Text.Words

namespace Screening.Text

variable {inside : UInt8 → Bool} {run s t w : Text} {ws : List Text} {separator : UInt8}

/-- Whether a text holds `run` as a run of bytes in a class that is not part of a longer one. -/
structure IsRun (inside : UInt8 → Bool) (t run : Text) : Prop where
  nonempty : run ≠ []
  within : ∀ b ∈ run, inside b = true
  maximal : ∃ before after, t = before ++ (run ++ after) ∧
    (∀ b ∈ before.getLast?, inside b = false) ∧ ∀ b ∈ after.head?, inside b = false

theorem eq_nil_of_head? (hw : ∀ b ∈ w, inside b = true)
    (h : ∀ b ∈ (w ++ t).head?, inside b = false) : w = [] := by
  cases w with
  | nil => rfl
  | cons b w =>
    have hb : inside b = false := h b rfl
    exact absurd (hw b List.mem_cons_self) (by simp [hb])

theorem not_isRun_nil : ¬ IsRun inside [] w := by
  rintro ⟨hne, _, before, after, heq, _⟩
  exact hne (List.append_eq_nil_iff.mp (List.append_eq_nil_iff.mp heq.symm).2).1

theorem isRun_cons {b : UInt8} (hb : inside b = false) :
    IsRun inside (b :: t) w ↔ IsRun inside t w := by
  constructor
  · rintro ⟨hne, hw, before, after, heq, hbefore, hafter⟩
    cases before with
    | nil =>
      have hhead : ∀ c ∈ (w ++ after).head?, inside c = false := by
        rw [← List.nil_append (w ++ after), ← heq]
        simpa using hb
      exact absurd (eq_nil_of_head? hw hhead) hne
    | cons c before =>
      obtain ⟨_, rfl⟩ := List.cons.inj heq
      refine ⟨hne, hw, before, after, rfl, fun d hd => hbefore d ?_, hafter⟩
      rw [Option.mem_def] at hd ⊢
      rw [List.getLast?_cons, hd, Option.getD_some]
  · rintro ⟨hne, hw, before, after, rfl, hbefore, hafter⟩
    refine ⟨hne, hw, b :: before, after, rfl, fun d hd => ?_, hafter⟩
    rw [List.getLast?_cons, Option.mem_some_iff] at hd
    cases hlast : before.getLast? with
    | none => rwa [← hd, hlast]
    | some e =>
      rw [hlast, Option.getD_some] at hd
      exact hbefore d (hd ▸ hlast)

/-- A run that is open is closed by what does not go on with it. -/
theorem isRun_append (hrun : ∀ b ∈ run, inside b = true) (hs : ∀ b ∈ s.head?, inside b = false) :
    IsRun inside (run ++ s) w ↔ run ≠ [] ∧ w = run ∨ IsRun inside s w := by
  constructor
  · rintro ⟨hne, hw, before, after, heq, hbefore, hafter⟩
    rcases List.append_eq_append_iff.mp heq with ⟨middle, rfl, hrest⟩ | ⟨rest, rfl, hrest⟩
    · refine .inr ⟨hne, hw, middle, after, hrest, fun b hb => hbefore b ?_, hafter⟩
      rw [Option.mem_def] at hb ⊢
      rw [List.getLast?_append, hb, Option.some_or]
    · have hnone : before = [] := by
        refine List.getLast?_eq_none_iff.mp (Option.eq_none_iff_forall_ne_some.mpr fun b hb => ?_)
        have hin := hrun b (List.mem_append_left rest (List.mem_of_getLast? hb))
        exact absurd hin (by simp [hbefore b hb])
      subst hnone
      rcases List.append_eq_append_iff.mp hrest with ⟨more, rfl, rfl⟩ | ⟨more, rfl, rfl⟩
      · obtain rfl : more = [] :=
          eq_nil_of_head? (fun b hb => hrun b (by simp [hb])) hafter
        exact .inl (by simpa using hne)
      · obtain rfl : more = [] :=
          eq_nil_of_head? (fun b hb => hw b (by simp [hb])) hs
        exact .inl (by simpa using hne)
  · rintro (⟨hsome, rfl⟩ | ⟨hne, hw, before, after, rfl, hbefore, hafter⟩)
    · exact ⟨hsome, hrun, [], s, rfl, by simp, hs⟩
    · refine ⟨hne, hw, run ++ before, after, by simp, ?_, hafter⟩
      cases before with
      | nil => exact absurd (eq_nil_of_head? hw hs) hne
      | cons c before => simpa using hbefore

theorem mem_runsFrom_iff (hrun : ∀ b ∈ run, inside b = true) :
    w ∈ runsFrom inside run t ↔ IsRun inside (run ++ t) w := by
  induction t generalizing run with
  | nil =>
    rw [runsFrom, isRun_append hrun (by simp), or_iff_left not_isRun_nil]
    cases run with
    | nil => simp
    | cons c run => simp
  | cons b t ih =>
    rw [runsFrom]
    split
    next hb =>
      have hopen : ∀ c ∈ run ++ [b], inside c = true := by simpa [or_imp, forall_and] using ⟨hrun, hb⟩
      rw [ih hopen, List.append_assoc, List.singleton_append]
    next hb =>
      have hb : inside b = false := by simpa using hb
      have hrest : w ∈ runsFrom inside [] t ↔ IsRun inside t w := ih (List.forall_mem_nil _)
      rw [isRun_append hrun (by simpa using hb), isRun_cons hb, ← hrest]
      cases run with
      | nil => simp
      | cons c run => simp

theorem runsFrom_ne_nil (hrun : run ≠ []) : runsFrom inside run t ≠ [] := by
  induction t generalizing run with
  | nil => simp [runsFrom, hrun]
  | cons b t ih =>
    rw [runsFrom]
    split
    next => exact ih (by simp)
    next =>
      rw [if_neg fun hempty => hrun (List.isEmpty_iff.mp hempty)]
      exact List.cons_ne_nil _ _

theorem runsFrom_append (hw : ∀ b ∈ w, inside b = true) (run t : Text) :
    runsFrom inside run (w ++ t) = runsFrom inside (run ++ w) t := by
  induction w generalizing run with
  | nil => rw [List.nil_append, List.append_nil]
  | cons b w ih =>
    obtain ⟨hb, hrest⟩ := List.forall_mem_cons.mp hw
    rw [List.cons_append, runsFrom, if_pos hb, ih hrest, List.append_assoc, List.singleton_append]

/-- Runs that are joined by a byte outside of the class are found again. -/
theorem runsFrom_join (hseparator : inside separator = false)
    (hws : ∀ w ∈ ws, w ≠ [] ∧ ∀ b ∈ w, inside b = true) :
    runsFrom inside [] (join [separator] ws) = ws := by
  induction ws with
  | nil => rfl
  | cons w ws ih =>
    obtain ⟨⟨hne, hw⟩, hrest⟩ := List.forall_mem_cons.mp hws
    cases ws with
    | nil =>
      have hlone := runsFrom_append hw [] []
      rw [List.append_nil] at hlone
      simp [join, hlone, runsFrom, hne]
    | cons second ws =>
      rw [join, List.intercalate_cons_cons, ← join, List.append_assoc, runsFrom_append hw,
        List.singleton_append, List.nil_append, runsFrom, hseparator, List.isEmpty_eq_false_iff.mpr hne]
      exact congrArg (w :: ·) (ih hrest)

/-- The runs of a text hold its bytes of the class, in order. -/
theorem flatten_runsFrom (inside : UInt8 → Bool) (run t : Text) :
    (runsFrom inside run t).flatten = run ++ t.filter inside := by
  induction t generalizing run with
  | nil => cases run <;> simp [runsFrom]
  | cons b t ih =>
    rw [runsFrom, List.filter_cons]
    split
    next => rw [ih, List.append_assoc, List.singleton_append]
    next =>
      cases run with
      | nil => exact ih []
      | cons c run => simp [ih]

end Screening.Text
