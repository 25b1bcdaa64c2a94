import Screening.Proofs.Config.Timeout

namespace Screening

namespace Instant

variable {t s : Instant} {ms shorter : Int}

theorem toInt_ofMilliseconds (ms : Int) :
    (ofMilliseconds ms).toInt = (1000000 * ms).bmod (2 ^ 64) := by
  have hfactor : nanosecondsPerMillisecond.toInt = 1000000 := by decide
  rw [ofMilliseconds, Int64.toInt_mul, Int64.toInt_ofInt, hfactor, Int.mul_comm,
    show Int64.size = 2 ^ 64 from rfl, Int.mul_bmod_bmod]

theorem toInt_later (t : Instant) (ms : Int) :
    (t.later ms).toInt = (t.toInt + 1000000 * ms).bmod (2 ^ 64) := by
  rw [later, Int64.toInt_add, toInt_ofMilliseconds, Int.add_bmod_bmod]

theorem lt_add_iff (ht : 0 ≤ t) : t < t + s ↔ 0 < s.toInt ∧ t.toInt + s.toInt < 2 ^ 63 := by
  have hlow := Int64.le_toInt s
  have hhigh := Int64.toInt_lt s
  have htop := Int64.toInt_lt t
  rw [Int64.le_iff_toInt_le, Int64.toInt_zero] at ht
  rw [Int64.lt_iff_toInt_lt, Int64.toInt_add, Int.bmod_def]
  split <;> omega

/-- A deadline is exact if a word holds it, and only then. -/
theorem toInt_later_eq_iff (ht : 0 ≤ t) (positive : 0 < ms) :
    (t.later ms).toInt = t.toInt + 1000000 * ms ↔ t.toInt + 1000000 * ms < 2 ^ 63 := by
  have htop := Int64.toInt_lt (t.later ms)
  rw [Int64.le_iff_toInt_le, Int64.toInt_zero] at ht
  refine ⟨fun heq => heq ▸ htop, fun hfits => ?_⟩
  rw [toInt_later, Int.bmod_def]
  split <;> omega

theorem lt_later (ht : 0 ≤ t) (positive : 0 < ms) (hfits : t.toInt + 1000000 * ms < 2 ^ 63) :
    t < t.later ms := by
  rw [Int64.lt_iff_toInt_lt, (toInt_later_eq_iff ht positive).mpr hfits]
  omega

theorem later_mono (ht : 0 ≤ t) (positive : 0 < shorter) (hle : shorter ≤ ms)
    (hfits : t.toInt + 1000000 * ms < 2 ^ 63) : t.later shorter ≤ t.later ms := by
  rw [Int64.le_iff_toInt_le, (toInt_later_eq_iff ht positive).mpr (by omega),
    (toInt_later_eq_iff ht (by omega)).mpr hfits]
  omega

end Instant

namespace Engine

variable {timeout : Int} {clock : Clock}

theorem deadlineAfter_eq (positive : 0 < timeout) :
    deadlineAfter clock timeout = (some (clock.now.later timeout), clock.tick) :=
  if_neg (Int.not_le.mpr positive)

/-- A timeout is accepted from a file if it fits a word. It sets the deadline that it says, and a shorter
one sets none that is later, as long as a word holds the nanoseconds of that deadline too. Elsewhere the
deadline comes after the reading just if what a word keeps of the timeout goes up and does not wrap
around. -/
theorem deadlineAfter_of_positive (positive : 0 < timeout) (hnow : 0 ≤ clock.now) :
    ((∃ text settings, Settings.ofText text = .ok settings ∧ settings.deadline = timeout) ↔
        timeout < 2 ^ 63) ∧
      ∃ deadline, deadlineAfter clock timeout = (some deadline, clock.tick) ∧
        (clock.now < deadline ↔ 0 < (1000000 * timeout).bmod (2 ^ 64) ∧
          clock.now.toInt + (1000000 * timeout).bmod (2 ^ 64) < 2 ^ 63) ∧
        (deadline.toInt = clock.now.toInt + 1000000 * timeout ↔
          clock.now.toInt + 1000000 * timeout < 2 ^ 63) ∧
        (clock.now.toInt + 1000000 * timeout < 2 ^ 63 → clock.now < deadline ∧
          ∀ shorter, 0 < shorter → shorter ≤ timeout → ∃ earlier,
            deadlineAfter clock shorter = (some earlier, clock.tick) ∧ earlier ≤ deadline) := by
  refine ⟨Settings.exists_ofText_iff positive, clock.now.later timeout, deadlineAfter_eq positive, ?_,
    Instant.toInt_later_eq_iff hnow positive, fun hfits => ⟨Instant.lt_later hnow positive hfits, ?_⟩⟩
  · rw [← Instant.toInt_ofMilliseconds]
    exact Instant.lt_add_iff hnow
  · intro shorter hpos hle
    exact ⟨clock.now.later shorter, deadlineAfter_eq hpos, Instant.later_mono hnow hpos hle hfits⟩

/-- The longest timeout that a clock at its start can be asked for. -/
theorem deadlineAfter_of_longest :
    let timeout : Int := 9223372036854
    let clock := Clock.start fun _ => 0
    (0 < timeout ∧ 0 ≤ clock.now) ∧
      (∃ text settings, Settings.ofText text = .ok settings ∧ settings.deadline = timeout) ∧
        ∃ deadline, deadlineAfter clock timeout = (some deadline, clock.tick) ∧
          deadline.toInt = 9223372036854000000 ∧ clock.now < deadline ∧
            ∀ shorter, 0 < shorter → shorter ≤ timeout → ∃ earlier,
              deadlineAfter clock shorter = (some earlier, clock.tick) ∧ earlier ≤ deadline := by
  intro timeout clock
  have positive : 0 < timeout := by decide
  have hnow : 0 ≤ clock.now := by decide
  have hsum : clock.now.toInt + 1000000 * timeout = 9223372036854000000 := by decide +kernel
  have hfits : clock.now.toInt + 1000000 * timeout < 2 ^ 63 := by decide +kernel
  obtain ⟨haccepted, deadline, hset, _, hexact, hlater⟩ := deadlineAfter_of_positive positive hnow
  exact ⟨⟨positive, hnow⟩, haccepted.mpr (by decide), deadline, hset, (hexact.mpr hfits).trans hsum,
    hlater hfits⟩

/-- A millisecond more is accepted as well, and its deadline has passed when it is set. -/
theorem deadline_passed_when_set :
    let text := Text.of "[matching]\ndeadline_ms = 9223372036855\n"
    let clock := Clock.start fun _ => 0
    ((Settings.ofText text).toOption.map Settings.deadline = some 9223372036855 ∧ 0 ≤ clock.now) ∧
      (deadlineAfter clock 9223372036855).1 = some (-9223372036854551616) ∧
        ¬ clock.now < -9223372036854551616 := by
  decide +kernel

end Engine

end Screening
