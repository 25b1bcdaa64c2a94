import Mathlib.Tactic.SplitIfs
import Screening.Phonetic.Metaphone

namespace Screening.Phonetic

open Letter

variable {b c : UInt8} {before : Option UInt8} {after word : Text} {m n : Nat}

/-- All sounds of the letters after `before`, of which the first `skip` are already part of one. -/
def soundsOf : (before : Option UInt8) → (skip : Nat) → Text → Text
  | _, _, [] => []
  | _, skip + 1, c :: after => soundsOf (some c) skip after
  | before, 0, c :: after =>
    if c != C && before == some c then soundsOf (some c) 0 after
    else sound before c after ++ soundsOf (some c) (if c == D && isDge after then 2 else 0) after

/-- The letters that sounds are written with, where no vowel opens the word. -/
def soundLetters : Text := [B, F, H, J, K, L, M, N, P, R, S, T, W, X, Y, 48]

theorem soundsFrom_eq_take (room : Nat) (before : Option UInt8) (skip : Nat) (word : Text) :
    soundsFrom room before skip word = (soundsOf before skip word).take room := by
  induction word generalizing room before skip with
  | nil => simp [soundsFrom, soundsOf]
  | cons c after ih =>
    cases room with
    | zero => simp [soundsFrom]
    | succ room =>
      cases skip with
      | succ skip => rw [soundsFrom, soundsOf, ih]
      | zero =>
        rw [soundsFrom, soundsOf]
        split
        next => rw [ih]
        next =>
          have hroom : room + 1 - ((sound before c after).take (room + 1)).length =
              room + 1 - (sound before c after).length := by
            rw [List.length_take]
            omega
          simp only [ih, hroom, List.take_append]

theorem soundOfC_subset : soundOfC before after ⊆ soundLetters := by
  simp only [soundOfC]
  split_ifs <;> decide

theorem soundOfG_subset : soundOfG before after ⊆ soundLetters := by
  simp only [soundOfG]
  split_ifs <;> decide

theorem soundOfH_subset : soundOfH before after ⊆ soundLetters := by
  simp only [soundOfH]
  split_ifs <;> decide

theorem soundOfS_subset : soundOfS after ⊆ soundLetters := by
  simp only [soundOfS]
  split_ifs <;> decide

theorem soundOfT_subset : soundOfT after ⊆ soundLetters := by
  simp only [soundOfT]
  split_ifs <;> decide

theorem sound_of_isVowel (h : isVowel c = true) :
    sound before c after = if before.isNone then [c] else [] := by
  simp only [isVowel, List.contains_eq_mem, decide_eq_true_eq, List.mem_cons, List.not_mem_nil,
    or_false] at h
  rcases h with rfl | rfl | rfl | rfl | rfl <;> rfl

theorem sound_subset_of_consonant (h : isVowel c = false) : sound before c after ⊆ soundLetters := by
  unfold sound
  split
  case h_1 | h_2 | h_3 | h_4 | h_5 => exact absurd h (by decide)
  case h_7 => exact soundOfC_subset
  case h_9 => exact soundOfG_subset
  case h_10 => exact soundOfH_subset
  case h_20 => exact soundOfS_subset
  case h_21 => exact soundOfT_subset
  all_goals repeat' split
  all_goals decide

theorem sound_subset_of_some : sound (some b) c after ⊆ soundLetters := by
  cases h : isVowel c with
  | true =>
    rw [sound_of_isVowel h]
    exact List.nil_subset _
  | false => exact sound_subset_of_consonant h

theorem soundsOf_subset_of_some (skip : Nat) : soundsOf (some b) skip word ⊆ soundLetters := by
  induction word generalizing b skip with
  | nil => exact List.nil_subset _
  | cons c after ih =>
    cases skip with
    | succ skip => exact ih skip
    | zero =>
      rw [soundsOf]
      split
      · exact ih 0
      · exact List.append_subset.mpr ⟨sound_subset_of_some, ih _⟩

theorem soundsOf_opening (word : Text) : (soundsOf none 0 word).tail ⊆ soundLetters ∧
    ∀ b ∈ (soundsOf none 0 word).head?, b ∈ soundLetters ∨ isVowel b = true := by
  cases word with
  | nil => simp [soundsOf]
  | cons c after =>
    have hopening : soundsOf none 0 (c :: after) = sound none c after ++
        soundsOf (some c) (if c == D && isDge after then 2 else 0) after := by simp [soundsOf]
    rw [hopening]
    have hrest : soundsOf (some c) (if c == D && isDge after then 2 else 0) after ⊆ soundLetters :=
      soundsOf_subset_of_some _
    cases h : isVowel c with
    | true =>
      rw [sound_of_isVowel h]
      refine ⟨hrest, fun b hb => .inr ?_⟩
      rwa [← Option.some.inj hb]
    | false =>
      have hsound : sound none c after ⊆ soundLetters := sound_subset_of_consonant h
      have hall := List.append_subset.mpr ⟨hsound, hrest⟩
      exact ⟨fun b hb => hall (List.mem_of_mem_tail hb),
        fun b hb => .inl (hall (List.mem_of_mem_head? hb))⟩

theorem metaphone_eq_take (h : 2 ≤ (letters word).length) (room : Nat) :
    metaphone word room = (soundsOf none 0 (opening (letters word))).take room := by
  rw [← soundsFrom_eq_take, metaphone]
  split
  next hnone => simp [hnone] at h
  next hone => simp [hone] at h
  next => rfl

theorem metaphone_of_single (h : (letters word).length ≤ 1) (room : Nat) :
    metaphone word room = letters word := by
  unfold metaphone
  cases hletters : letters word with
  | nil => rfl
  | cons c after =>
    rw [hletters] at h
    obtain rfl : after = [] := List.eq_nil_of_length_eq_zero (by simpa using h)
    rfl

theorem not_isVowel_of_mem_soundLetters (h : b ∈ soundLetters) : isVowel b = false := by
  have consonants : ∀ b ∈ soundLetters, isVowel b = false := by decide +kernel
  exact consonants b h

/-- A key is the start of each longer key, and behind its first byte it holds no vowel, nor anything
but the letters of sounds. -/
theorem metaphone_truncated (word : Text) :
    (∀ m n, 1 ≤ m → m ≤ n → metaphone word m = (metaphone word n).take m) ∧
      (2 ≤ (letters word).length → ∀ n,
        (∀ b ∈ (metaphone word n).tail, b ∈ soundLetters ∧ isVowel b = false) ∧
          ∀ b ∈ (metaphone word n).head?, b ∈ soundLetters ∨ isVowel b = true) := by
  refine ⟨fun m n hm hmn => ?_, fun hletters n => ?_⟩
  · by_cases hletters : 2 ≤ (letters word).length
    · rw [metaphone_eq_take hletters, metaphone_eq_take hletters, List.take_take, Nat.min_eq_left hmn]
    · have hsingle : (letters word).length ≤ 1 := by omega
      rw [metaphone_of_single hsingle, metaphone_of_single hsingle,
        List.take_of_length_le (Nat.le_trans hsingle hm)]
  · obtain ⟨htail, hhead⟩ := soundsOf_opening (opening (letters word))
    rw [metaphone_eq_take hletters]
    refine ⟨fun b hb => ?_, fun b hb => hhead b ?_⟩
    · rw [← List.drop_one, List.drop_take, List.drop_one] at hb
      have hsound := htail (List.mem_of_mem_take hb)
      exact ⟨hsound, not_isVowel_of_mem_soundLetters hsound⟩
    · rw [List.head?_take] at hb
      split at hb
      next => exact nomatch hb
      next => exact hb

/-- The sounds of X are cut off between their letters. -/
theorem metaphone_truncated_of_edgex :
    let word := Text.of "Edgex"
    (1 ≤ 3 ∧ 3 ≤ 4 ∧ 2 ≤ (letters word).length) ∧ metaphone word 4 = Text.of "EJKS" ∧
      metaphone word 3 = Text.of "EJK" ∧
        ∀ b ∈ Text.of "JKS", b ∈ soundLetters ∧ isVowel b = false := by
  intro word
  have hletters : 2 ≤ (letters word).length := by decide +kernel
  have hkey : metaphone word 4 = Text.of "EJKS" := by decide +kernel
  obtain ⟨shorter, behind⟩ := metaphone_truncated word
  have hshorter := shorter 3 4 (by decide) (by decide)
  have hbehind := (behind hletters 4).1
  rw [hkey] at hshorter hbehind
  exact ⟨⟨by decide, by decide, hletters⟩, hkey, hshorter.trans (by decide +kernel), hbehind⟩

end Screening.Phonetic
