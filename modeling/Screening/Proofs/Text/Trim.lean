import Mathlib.Data.List.Basic
import Mathlib.Data.List.DropRight
import Mathlib.Data.List.TakeWhile
import Screening.Text.Words

namespace Screening.Text

variable {before after inner left rest t : Text} {b : UInt8}

theorem trimLeft_append_cons (left rest : Text) (hb : Byte.isWhitespace b = false) :
    trimLeft (left ++ b :: rest) = trimLeft left ++ b :: rest := by
  rw [trimLeft, trimLeft, List.dropWhile_append]
  split
  next hempty =>
    rw [List.isEmpty_iff.mp hempty, List.nil_append, List.dropWhile_cons_of_neg (by simp [hb])]
  next => rfl

theorem trimRight_append_cons (left rest : Text) (hb : Byte.isWhitespace b = false) :
    trimRight (left ++ b :: rest) = left ++ b :: trimRight rest := by
  have hreverse : (left ++ b :: rest).reverse = rest.reverse ++ b :: left.reverse := by simp
  have hdrop := trimLeft_append_cons rest.reverse left.reverse hb
  rw [trimLeft, trimLeft] at hdrop
  rw [trimRight, trimRight, hreverse, hdrop]
  simp

/-- What stands in front of a byte that is no whitespace is trimmed by itself, and so is what follows
it. -/
theorem trim_append_cons (left rest : Text) (hb : Byte.isWhitespace b = false) :
    trim (left ++ b :: rest) = trimLeft left ++ b :: trimRight rest := by
  rw [trim, trimLeft_append_cons left rest hb, trimRight_append_cons _ rest hb]

theorem trimLeft_of_whitespace (h : ∀ b ∈ t, Byte.isWhitespace b = true) : trimLeft t = [] :=
  List.dropWhile_eq_nil_iff.mpr h

theorem trimRight_append_of_whitespace (inner : Text) (h : ∀ b ∈ after, Byte.isWhitespace b = true) :
    trimRight (inner ++ after) = trimRight inner := by
  rw [trimRight, trimRight, List.reverse_append,
    List.dropWhile_append_of_pos fun b hb => h b (List.mem_reverse.mp hb)]

theorem trimRight_of_whitespace (h : ∀ b ∈ t, Byte.isWhitespace b = true) : trimRight t = [] :=
  trimRight_append_of_whitespace [] h

theorem trimLeft_append_of_whitespace (h : ∀ b ∈ before, Byte.isWhitespace b = true) (rest : Text) :
    trimLeft (before ++ rest) = trimLeft rest := List.dropWhile_append_of_pos h

theorem trim_append_of_whitespace (h : ∀ b ∈ before, Byte.isWhitespace b = true) (rest : Text) :
    trim (before ++ rest) = trim rest := by
  rw [trim, trimLeft_append_of_whitespace h, trim]

theorem trim_append (hbefore : ∀ b ∈ before, Byte.isWhitespace b = true) (hne : inner ≠ [])
    (hinner : ∀ b ∈ inner, Byte.isWhitespace b = false) :
    trim (before ++ (inner ++ rest)) = inner ++ trimRight rest := by
  obtain ⟨first, tail, rfl⟩ := List.exists_cons_of_ne_nil hne
  have hleft : trimLeft (before ++ (first :: tail ++ rest)) = first :: tail ++ rest := by
    rw [trimLeft_append_of_whitespace hbefore]
    exact List.dropWhile_cons_of_neg (by simp [hinner first List.mem_cons_self])
  obtain ⟨init, last, heq⟩ := (List.eq_nil_or_concat' (first :: tail)).resolve_left hne
  have hlast : Byte.isWhitespace last = false := hinner last (by simp [heq])
  rw [trim, hleft, heq, List.append_assoc, List.singleton_append, trimRight_append_cons _ _ hlast,
    List.append_assoc, List.singleton_append]

/-- A text that neither begins nor ends with whitespace is what is left between whitespace. -/
theorem trim_between (hbefore : ∀ b ∈ before, Byte.isWhitespace b = true)
    (hfirst : ∀ b ∈ inner.head?, Byte.isWhitespace b = false)
    (hlast : ∀ b ∈ inner.getLast?, Byte.isWhitespace b = false)
    (hafter : ∀ b ∈ after, Byte.isWhitespace b = true) :
    trim (before ++ (inner ++ after)) = inner := by
  rw [trim_append_of_whitespace hbefore, trim]
  cases inner with
  | nil => rw [List.nil_append, trimLeft_of_whitespace hafter]; rfl
  | cons b more =>
    have hleft : trimLeft (b :: more ++ after) = b :: more ++ after :=
      List.dropWhile_cons_of_neg (by simp [hfirst b rfl])
    rw [hleft, trimRight_append_of_whitespace _ hafter]
    refine List.rdropWhile_eq_self_iff.mpr fun hne => ?_
    rw [hlast _ (List.getLast_mem_getLast? hne)]
    exact Bool.false_ne_true

theorem trim_word (hbefore : ∀ b ∈ before, Byte.isWhitespace b = true)
    (hinner : ∀ b ∈ inner, Byte.isWhitespace b = false)
    (hafter : ∀ b ∈ after, Byte.isWhitespace b = true) :
    trim (before ++ (inner ++ after)) = inner :=
  trim_between hbefore (fun b hb => hinner b (List.mem_of_mem_head? hb))
    (fun b hb => hinner b (List.mem_of_mem_getLast? hb)) hafter

/-- A text is all whitespace, or it has a last byte that is none. -/
theorem whitespace_or_last (t : Text) : (∀ b ∈ t, Byte.isWhitespace b = true) ∨
    ∃ init b after, t = init ++ b :: after ∧ Byte.isWhitespace b = false ∧
      ∀ c ∈ after, Byte.isWhitespace c = true := by
  induction t with
  | nil => exact .inl (List.forall_mem_nil _)
  | cons c t ih =>
    rcases ih with hblank | ⟨init, b, after, rfl, hb, hafter⟩
    · cases hc : Byte.isWhitespace c with
      | true => exact .inl (List.forall_mem_cons.mpr ⟨hc, hblank⟩)
      | false => exact .inr ⟨[], c, t, rfl, hc, hblank⟩
    · exact .inr ⟨c :: init, b, after, rfl, hb, hafter⟩

theorem trim_trimRight (t : Text) : trim (trimRight t) = trim t := by
  rcases whitespace_or_last t with hblank | ⟨init, b, after, rfl, hb, hafter⟩
  · rw [trimRight_of_whitespace hblank, trim, trim, trimLeft_of_whitespace hblank]
    rfl
  · rw [trimRight_append_cons _ _ hb, trim_append_cons _ _ hb, trim_append_cons _ _ hb,
      trimRight_of_whitespace hafter]
    rfl

theorem trim_trimLeft (t : Text) : trim (trimLeft t) = trim t := by
  have hleft : trimLeft (trimLeft t) = trimLeft t := List.dropWhile_idempotent _ _
  rw [trim, hleft, trim]

theorem trim_trim (t : Text) : trim (trim t) = trim t :=
  (trim_trimRight (trimLeft t)).trans (trim_trimLeft t)

theorem exists_trim (t : Text) : ∃ before after, t = before ++ (trim t ++ after) ∧
    (∀ b ∈ before, Byte.isWhitespace b = true) ∧ ∀ b ∈ after, Byte.isWhitespace b = true := by
  have hsplit : t = t.takeWhile Byte.isWhitespace ++ trimLeft t :=
    List.takeWhile_append_dropWhile.symm
  have hbefore : ∀ b ∈ t.takeWhile Byte.isWhitespace, Byte.isWhitespace b = true :=
    fun _ hb => List.mem_takeWhile_imp hb
  rcases whitespace_or_last (trimLeft t) with hblank | ⟨init, b, after, hlast, hb, hafter⟩
  · refine ⟨t.takeWhile Byte.isWhitespace, trimLeft t, ?_, hbefore, hblank⟩
    rw [trim, trimRight_of_whitespace hblank]
    exact hsplit
  · refine ⟨t.takeWhile Byte.isWhitespace, after, ?_, hbefore, hafter⟩
    have htrim : trim t = init ++ [b] := by
      rw [trim, hlast, trimRight_append_cons _ _ hb, trimRight_of_whitespace hafter]
    have hrest : trim t ++ after = trimLeft t := by
      rw [htrim, hlast, List.append_assoc, List.singleton_append]
    rw [hrest]
    exact hsplit

theorem head?_trim (t : Text) : (trim t).head? = (trimLeft t).head? := by
  rcases whitespace_or_last (trimLeft t) with hblank | ⟨init, last, after, hleft, hlast, hafter⟩
  · have hnil : trimLeft t = [] :=
      (List.dropWhile_idempotent _ _).symm.trans (trimLeft_of_whitespace hblank)
    rw [trim, hnil]
    rfl
  · rw [trim, hleft, trimRight_append_cons _ _ hlast, trimRight_of_whitespace hafter]
    cases init <;> rfl

theorem head_of_trim (h : trim t = b :: rest) : Byte.isWhitespace b = false := by
  have hnot := List.head?_dropWhile_not Byte.isWhitespace t
  rw [← trimLeft, ← head?_trim, h] at hnot
  exact hnot

end Screening.Text
