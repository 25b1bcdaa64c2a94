import Screening.Proofs.Text.Runs

namespace Screening.Text

variable {t w : Text}

theorem mem_words (h : w ∈ words t) : w ≠ [] ∧ 32 ∉ w := by
  have hrun := (mem_runsFrom_iff (List.forall_mem_nil _)).mp h
  exact ⟨hrun.nonempty, fun hspace => absurd (hrun.within 32 hspace) (by decide)⟩

theorem not_isWhitespace_of_isWord {b : UInt8} (h : Byte.isWord b = true) :
    Byte.isWhitespace b = false := by
  simp only [Byte.isWord, Byte.isAlphanum, Byte.isAlpha, Byte.isUpper, Byte.isLower, Byte.isDigit,
    Byte.isWhitespace, Bool.or_eq_true, Bool.and_eq_true, decide_eq_true_eq, Bool.or_eq_false_iff,
    Bool.and_eq_false_iff, beq_eq_false_iff_ne, decide_eq_false_iff_not, UInt8.le_iff_toNat_le, ne_eq,
    ← UInt8.toNat_inj] at h ⊢
  simp at h ⊢
  omega

/-- Words that are joined by spaces are told apart again. -/
theorem words_join {ws : List Text}
    (hws : ∀ w ∈ ws, w ≠ [] ∧ ∀ b ∈ w, Byte.isWhitespace b = false) : words (join [32] ws) = ws :=
  runsFrom_join rfl fun w hw => ⟨(hws w hw).1, by simpa using (hws w hw).2⟩

/-- Words without spaces can be told apart when they are joined. -/
theorem join_injective {s t : List Text} (hs : s ≠ []) (ht : t ≠ []) (plain : ∀ w ∈ s, 32 ∉ w)
    (plain' : ∀ w ∈ t, 32 ∉ w) (h : join [32] s = join [32] t) : s = t := by
  calc s = (join [32] s).splitOn 32 := (List.splitOn_intercalate 32 plain hs).symm
    _ = (join [32] t).splitOn 32 := by rw [h]
    _ = t := List.splitOn_intercalate 32 plain' ht

theorem pieces_eq_splitOn (separator : UInt8) (t : Text) :
    pieces separator t = t.splitOn separator := by
  induction t with
  | nil => rfl
  | cons b t ih =>
    rw [pieces, List.splitOn_cons_eq_if_modifyHead, ih]
    split
    next => rfl
    next =>
      obtain ⟨piece, others, hsplit⟩ := List.exists_cons_of_ne_nil (List.splitOn_ne_nil separator t)
      rw [hsplit]
      rfl

theorem pieces_append_cons (separator : UInt8) (s t : Text) :
    pieces separator (s ++ separator :: t) = pieces separator s ++ pieces separator t := by
  simp only [pieces_eq_splitOn, List.splitOn_append_cons_self]

theorem pieces_join {separator : UInt8} {parts : List Text} (hne : parts ≠ [])
    (plain : ∀ part ∈ parts, separator ∉ part) : pieces separator (join [separator] parts) = parts := by
  rw [pieces_eq_splitOn]
  exact List.splitOn_intercalate separator plain hne

theorem pieces_of_not_mem {separator : UInt8} (h : separator ∉ t) : pieces separator t = [t] := by
  simpa [join] using pieces_join (List.cons_ne_nil t []) (by simpa using h)

/-- What is left when the separators are taken out again. -/
theorem filter_join {separator : UInt8} {parts : List Text} (plain : ∀ part ∈ parts, separator ∉ part) :
    (join [separator] parts).filter (· != separator) = parts.flatten := by
  induction parts with
  | nil => rfl
  | cons part parts ih =>
    obtain ⟨hpart, hparts⟩ := List.forall_mem_cons.mp plain
    have hkept : part.filter (· != separator) = part :=
      List.filter_eq_self.mpr fun b hb => bne_iff_ne.mpr fun heq => hpart (heq ▸ hb)
    cases parts with
    | nil => simp [join, hkept]
    | cons second parts =>
      rw [join, List.intercalate_cons_cons, ← join, List.filter_append, List.filter_append, hkept,
        ih hparts]
      simp

theorem not_mem_join {b separator : UInt8} {parts : List Text} (hb : b ≠ separator)
    (h : ∀ part ∈ parts, b ∉ part) : b ∉ join [separator] parts := by
  induction parts with
  | nil => exact List.not_mem_nil
  | cons part parts ih =>
    obtain ⟨hpart, hparts⟩ := List.forall_mem_cons.mp h
    cases parts with
    | nil => simpa [join] using hpart
    | cons second parts =>
      have hrest := ih hparts
      rw [join] at hrest ⊢
      rw [List.intercalate_cons_cons]
      simp [hpart, hb, hrest]

end Screening.Text
