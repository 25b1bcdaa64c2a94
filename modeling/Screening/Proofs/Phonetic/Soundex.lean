import Mathlib.Data.List.Destutter
import Mathlib.Tactic.SplitIfs
import Screening.Phonetic.Soundex

namespace Screening.Phonetic

open Letter

/-- The groups of letters that sound alike; the first one has the digit 1. -/
def soundGroups : List Text := ["BFPV", "CGJKQSXZ", "DT", "L", "MN", "R"].map Text.of

def groupDigit (c : UInt8) : UInt8 :=
  match soundGroups.findIdx? fun letters => letters.contains c with
  | some i => 49 + UInt8.ofNat i
  | none => 48

/-- A letter that does not part letters of one group. -/
def isMute (c : UInt8) : Bool := c == H || c == W

/-- The code of a word by the rules of American Soundex. -/
def americanSoundex (word : Text) : Text :=
  match letters word with
  | [] => []
  | first :: rest =>
    let sounded := first :: rest.filter fun c => !isMute c
    let digits := (sounded.map groupDigit).destutter (· ≠ ·)
    first :: ((digits.tail.filter (· != 48)).take 3).rightpad 3 48

theorem groupDigit_eq_consonantClass (c : UInt8) : groupDigit c = consonantClass c := by
  have bytes : ∀ i : Fin 256, groupDigit (.ofFin i) = consonantClass (.ofFin i) := by decide +kernel
  exact bytes c.toFin

theorem destutter'_eq_cons_tail {α : Type} (R : α → α → Prop) [DecidableRel R] (a : α) (l : List α) :
    l.destutter' R a = a :: (l.destutter' R a).tail := by
  induction l generalizing a with
  | nil => rfl
  | cons b l ih =>
    by_cases h : R a b
    · rw [List.destutter'_cons_pos l h, List.tail_cons]
    · rw [List.destutter'_cons_neg l h, ih a, List.tail_cons]

/-- The digits of letters that follow a digit, with each run as one and without zeros. -/
def collapsed (last : UInt8) (rest : Text) : Text :=
  ((((rest.filter fun c => !isMute c).map consonantClass).destutter' (· ≠ ·) last).tail).filter
    (· != 48)

theorem collapsed_cons (last c : UInt8) (rest : Text) : collapsed last (c :: rest) =
    if isMute c then collapsed last rest
    else if consonantClass c = last then collapsed last rest
    else if consonantClass c = 48 then collapsed 48 rest
    else consonantClass c :: collapsed (consonantClass c) rest := by
  unfold collapsed
  split
  next hmute => rw [List.filter_cons_of_neg (by simp [hmute])]
  next hmute =>
    rw [List.filter_cons_of_pos (by simp [hmute]), List.map_cons]
    split
    next hsame => rw [List.destutter'_cons_neg _ (by simp [hsame])]
    next hother =>
      rw [List.destutter'_cons_pos _ (Ne.symm hother), List.tail_cons, destutter'_eq_cons_tail]
      split
      next hzero => simp [hzero]
      next hdigit => rw [List.filter_cons_of_pos (by simpa using hdigit), List.tail_cons]

theorem consonantClass_of_isMute {c : UInt8} (h : isMute c = true) : consonantClass c = 48 := by
  rcases Bool.or_eq_true_iff.mp h with h | h <;> rw [eq_of_beq h] <;> rfl

theorem classesFrom_cons (last : UInt8) (room : Nat) (c : UInt8) (rest : Text) :
    classesFrom last (room + 1) (c :: rest) =
      if isMute c then classesFrom last (room + 1) rest
      else if consonantClass c = last then classesFrom last (room + 1) rest
      else if consonantClass c = 48 then classesFrom 48 (room + 1) rest
      else consonantClass c :: classesFrom (consonantClass c) room rest := by
  have hmuted : (c == H || c == W) = isMute c := rfl
  rw [classesFrom, hmuted]
  cases hmute : isMute c with
  | true => simp [consonantClass_of_isMute hmute]
  | false =>
    by_cases hsame : consonantClass c = last
    · simp [hsame]
    · by_cases hzero : consonantClass c = 48
      · rw [hzero] at hsame
        simp [hzero, hsame]
      · simp [hzero, hsame]

/-- The digits that are read with the last one in mind are the first ones of the collapsed ones. -/
theorem classesFrom_eq_take (last : UInt8) (room : Nat) (rest : Text) :
    classesFrom last room rest = (collapsed last rest).take room := by
  induction rest generalizing last room with
  | nil => simp [classesFrom, collapsed]
  | cons c rest ih =>
    cases room with
    | zero => simp [classesFrom]
    | succ room =>
      rw [classesFrom_cons, collapsed_cons]
      split_ifs
      · exact ih last (room + 1)
      · exact ih last (room + 1)
      · exact ih 48 (room + 1)
      · rw [ih, List.take_succ_cons]

/-- The four-byte codes are those of American Soundex. -/
theorem soundex_eq_americanSoundex (word : Text) : soundex word = americanSoundex word := by
  have hdigits : groupDigit = consonantClass := funext groupDigit_eq_consonantClass
  unfold soundex americanSoundex
  cases letters word with
  | nil => rfl
  | cons first rest =>
    simp only [hdigits, List.map_cons, List.destutter_cons', classesFrom_eq_take]
    rfl

/-- H does not part S and C, so that both have one digit. -/
example : americanSoundex (Text.of "Ashcraft") = Text.of "A261" := by decide +kernel

end Screening.Phonetic
