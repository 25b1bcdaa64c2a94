import Mathlib.Data.Nat.Digits.Defs
import Screening.Proofs.Config.List
import Screening.Proofs.Config.Load
import Screening.Proofs.Text.Case

namespace Screening

namespace Numeral

def decimal (n : Nat) : Text := (Nat.digits 10 n).reverse.map fun d => UInt8.ofNat (48 + d)

theorem digit_table : ∀ d < 10, Byte.isDigit (UInt8.ofNat (48 + d)) = true ∧
    Byte.digit (UInt8.ofNat (48 + d)) = d := by
  decide +kernel

theorem isDigit_decimal {n : Nat} : ∀ b ∈ decimal n, Byte.isDigit b = true := by
  intro b hb
  obtain ⟨d, hd, rfl⟩ := List.mem_map.mp hb
  exact (digit_table d (Nat.digits_lt_base (by decide) (List.mem_reverse.mp hd))).1

theorem decimal_ne_nil {n : Nat} (positive : 0 < n) : decimal n ≠ [] := by
  have hdigits : Nat.digits 10 n ≠ [] := Nat.digits_ne_nil_iff_ne_zero.mpr (Nat.ne_of_gt positive)
  simpa [decimal] using hdigits

theorem trim_decimal (n : Nat) : Text.trim (decimal n) = decimal n := by
  have hblank : ∀ b ∈ decimal n, Byte.isWhitespace b = false := fun b hb =>
    Byte.isWhitespace_of_isAlphanum (Byte.isAlphanum_of_isDigit (isDigit_decimal b hb))
  simpa using Text.trim_word (List.forall_mem_nil _) hblank (List.forall_mem_nil _)

theorem digitsValue_decimal (n : Nat) : Text.digitsValue (decimal n) = n := by
  rw [Text.digitsValue, decimal, List.foldl_map, List.foldl_reverse]
  conv_rhs => rw [← Nat.ofDigits_digits 10 n, Nat.ofDigits_eq_foldr]
  refine List.foldr_ext _ _ 0 fun d hd value => ?_
  rw [(digit_table d (Nat.digits_lt_base (by decide) hd)).2]
  exact Nat.add_comm _ _

theorem milliseconds?_decimal {n : Nat} (positive : 0 < n) (hfits : n < 2 ^ 63) :
    milliseconds? (decimal n) = some (n : Int) := by
  have hdigits : (decimal n).all Byte.isDigit = true := List.all_eq_true.mpr isDigit_decimal
  simp [milliseconds?, digitsValue_decimal, decimal_ne_nil positive, hdigits]
  exact hfits

theorem milliseconds?_lt {t : Text} {ms : Int} (h : milliseconds? t = some ms) : ms < 2 ^ 63 := by
  simp only [milliseconds?, Bool.and_eq_true, decide_eq_true_eq, Option.ite_none_right_eq_some,
    Option.some.injEq] at h
  have hfits : Text.digitsValue t < 2 ^ 63 := h.1.2
  omega

end Numeral

namespace Settings

variable {n : Nat}

/-- A file that says a number of milliseconds for the deadline and nothing else. -/
def deadlineText (n : Nat) : Text :=
  Text.join [10] [Text.of "[matching]", Text.of "deadline_ms" ++ 61 :: Numeral.decimal n]

theorem ofText_decimal (n : Nat) :
    ConfigLine.ofText (Text.of "deadline_ms" ++ 61 :: Numeral.decimal n) =
      .assignment (Text.of "deadline_ms") (Numeral.decimal n) := by
  have hsign : 35 ∉ Numeral.decimal n := fun h => absurd (Numeral.isDigit_decimal 35 h) (by decide)
  have huncomment : ConfigLine.uncomment false (Numeral.decimal n) = Numeral.decimal n := by
    simpa [ConfigLine.uncomment] using
      ConfigLine.uncomment_append (ConfigLine.not_holdsComment_of_not_mem hsign) []
  rw [ConfigLine.ofText_assignment (by decide +kernel) _ (by decide +kernel) (by decide +kernel),
    Numeral.trim_decimal, huncomment, Numeral.trim_decimal]
  congr 1

theorem lines_deadlineText (n : Nat) : ConfigFile.lines (deadlineText n) =
    [.header SettingsFault.sectionName, .assignment (Text.of "deadline_ms") (Numeral.decimal n)] := by
  have hend : 10 ∉ Text.of "deadline_ms" ++ 61 :: Numeral.decimal n := by
    have hdigits : 10 ∉ Numeral.decimal n := fun h => absurd (Numeral.isDigit_decimal 10 h) (by decide)
    have hkey : 10 ∉ Text.of "deadline_ms" := by decide +kernel
    simp [hkey, hdigits]
  have hheader : ConfigLine.ofText (Text.of "[matching]") = .header SettingsFault.sectionName := by
    decide +kernel
  rw [ConfigFile.lines, deadlineText, Text.pieces_join (List.cons_ne_nil _ _)]
  · rw [List.map_cons, List.map_singleton, hheader, ofText_decimal]
  · exact List.forall_mem_cons.mpr ⟨by decide +kernel, List.forall_mem_singleton.mpr hend⟩

theorem setting_deadlineText (positive : 0 < n) :
    setting (deadlineText n) "deadline_ms" = some (Numeral.decimal n) := by
  have hunquote : ConfigFile.unquote (Numeral.decimal n) = Numeral.decimal n := by
    rw [ConfigFile.unquote_of_head, Numeral.trim_decimal]
    intro b hb
    rw [Numeral.trim_decimal] at hb
    have hdigit := Numeral.isDigit_decimal b (List.mem_of_mem_head? hb)
    exact ⟨fun h => absurd (h ▸ hdigit) (by decide), fun h => absurd (h ▸ hdigit) (by decide)⟩
  rw [setting, ConfigFile.value, lines_deadlineText]
  simp [ConfigFile.find?, hunquote, Environment.nonEmpty, Numeral.decimal_ne_nil positive]

/-- The dotted name of a key in the section does not begin like a plain one. -/
theorem setting_deadlineText_of_ne {key : String} (hkey : Text.of key ≠ Text.of "deadline_ms") :
    setting (deadlineText n) key = none := by
  have hdotted : Text.of "deadline_ms" ≠ SettingsFault.sectionName ++ 46 :: Text.of key := by
    have hname : SettingsFault.sectionName = 109 :: Text.of "atching" := by decide +kernel
    have hdeadline : Text.of "deadline_ms" = 100 :: Text.of "eadline_ms" := by decide +kernel
    rw [hname, hdeadline]
    exact fun h => absurd (List.cons.inj h).1 (by decide)
  rw [setting, ConfigFile.value, lines_deadlineText]
  simp [ConfigFile.find?, hkey.symm, hdotted, Environment.nonEmpty]

/-- Nothing but the width of a word bounds the deadlines that are accepted. -/
theorem ofText_deadlineText (positive : 0 < n) (hfits : n < 2 ^ 63) :
    ofText (deadlineText n) = .ok { usual with deadline := n } := by
  have hother : ∀ {β : Type} {key : String} {read : Text → Option β} {b : β},
      Text.of key ≠ Text.of "deadline_ms" → Reads (deadlineText n) key read b b := by
    intro β key read b hkey
    rw [Reads, setting_deadlineText_of_ne hkey]
  have hdeadline : Reads (deadlineText n) "deadline_ms" Numeral.milliseconds? 0 (n : Int) := by
    rw [Reads, setting_deadlineText positive]
    exact Numeral.milliseconds?_decimal positive hfits
  refine ofText_eq_ok.mpr ⟨?_, ?_⟩
  · exact ⟨hother (by decide +kernel), hother (by decide +kernel), hother (by decide +kernel),
      hother (by decide +kernel), hother (by decide +kernel), hother (by decide +kernel),
      hother (by decide +kernel), hother (by decide +kernel), hother (by decide +kernel),
      hother (by decide +kernel), hother (by decide +kernel), hdeadline⟩
  · exact ⟨usual_sound.algorithms, usual_sound.defaultAlgorithm, usual_sound.limit,
      usual_sound.chunkSize, usual_sound.candidateFactor, usual_sound.threshold, usual_sound.cutoff,
      usual_sound.alignerFloor, usual_sound.alignerSupport⟩

theorem deadline_lt {text : Text} {settings : Settings Float} (h : ofText text = .ok settings) :
    settings.deadline < 2 ^ 63 :=
  (ofText_eq_ok.mp h).1.deadline.elim (by decide) fun _ _ => Numeral.milliseconds?_lt

theorem exists_ofText_iff {timeout : Int} (positive : 0 < timeout) :
    (∃ text settings, ofText text = .ok settings ∧ settings.deadline = timeout) ↔
      timeout < 2 ^ 63 := by
  constructor
  · rintro ⟨text, settings, htext, rfl⟩
    exact deadline_lt htext
  · intro hfits
    obtain ⟨n, rfl⟩ := Int.eq_ofNat_of_zero_le positive.le
    exact ⟨deadlineText n, _, ofText_deadlineText (by omega) (by omega), rfl⟩

end Settings

end Screening
