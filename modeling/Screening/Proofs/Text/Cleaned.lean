import Screening.Proofs.Text.Words

namespace Screening.Text

variable {t : Text} {ws : List Text}

def withoutPunctuation (t : Text) : Text := t.filter fun b => Byte.isWord b || Byte.isWhitespace b

/-- What is left of a text once it is cleaned: words of word bytes with a single space between each two
of them, which hold the word bytes of the text in order. Cleaning it again changes nothing, and neither
does taking its words apart and joining them. -/
structure IsCleaned (t : Text) (ws : List Text) (cleaned : Text) : Prop where
  plain : ∀ w ∈ ws, w ≠ [] ∧ ∀ b ∈ w, Byte.isWord b = true
  spaced : cleaned = join [32] ws
  bytes : cleaned.filter (· != 32) = t.filter Byte.isWord
  dropped : cleaned.dropPunctuation = cleaned
  parted : cleaned.spacePunctuation = cleaned
  joined : join [32] cleaned.words = cleaned

theorem cleanFrom_filter (breaks : UInt8 → Bool) (begun owed : Bool) (t : Text) :
    cleanFrom breaks begun owed t =
      cleanFrom (fun _ => true) begun owed (t.filter fun b => Byte.isWord b || breaks b) := by
  induction t generalizing begun owed with
  | nil => rfl
  | cons b t ih =>
    cases hword : Byte.isWord b with
    | true => simp [cleanFrom, hword, ih]
    | false => cases hbreak : breaks b <;> simp [cleanFrom, hword, hbreak, ih]

theorem dropPunctuation_eq (t : Text) : t.dropPunctuation = (withoutPunctuation t).spacePunctuation :=
  cleanFrom_filter Byte.isWhitespace false false t

/-- Behind a word that is open, it goes on; behind one that is closed, a space is owed and stands in
front of the next word, if there is one. -/
theorem join_runsFrom (t : Text) :
    (∀ run ≠ [], join [32] (runsFrom Byte.isWord run t) =
      run ++ cleanFrom (fun _ => true) true false t) ∧
    ∀ w, join [32] (w :: runsFrom Byte.isWord [] t) =
      w ++ cleanFrom (fun _ => true) true true t := by
  induction t with
  | nil =>
    refine ⟨fun run hrun => ?_, fun w => ?_⟩
    · simp [runsFrom, cleanFrom, join, hrun]
    · simp [runsFrom, cleanFrom, join]
  | cons b t ih =>
    obtain ⟨opened, closed⟩ := ih
    cases hb : Byte.isWord b with
    | true =>
      refine ⟨fun run _ => ?_, fun w => ?_⟩
      · rw [runsFrom, if_pos hb, opened _ (by simp), cleanFrom, if_pos hb]
        simp
      · have hne : runsFrom Byte.isWord [b] t ≠ [] := runsFrom_ne_nil (List.cons_ne_nil b [])
        obtain ⟨next, rest, hcons⟩ := List.exists_cons_of_ne_nil hne
        have hnext := opened [b] (List.cons_ne_nil b [])
        rw [hcons] at hnext
        rw [runsFrom, if_pos hb, List.nil_append, hcons, join, List.intercalate_cons_cons, ← join,
          hnext, cleanFrom, if_pos hb]
        simp
    | false =>
      refine ⟨fun run hrun => ?_, fun w => ?_⟩
      · simp [runsFrom, cleanFrom, hb, hrun, closed]
      · simp [runsFrom, cleanFrom, hb, closed]

/-- In front of the first word no space is paid. -/
theorem cleanFrom_eq_join (owed : Bool) (t : Text) :
    cleanFrom (fun _ => true) false owed t = join [32] (runsFrom Byte.isWord [] t) := by
  induction t generalizing owed with
  | nil => rfl
  | cons b t ih =>
    rw [cleanFrom, runsFrom]
    split
    next => simp [(join_runsFrom t).1 [b] (List.cons_ne_nil b [])]
    next => simp [ih]

theorem spacePunctuation_eq_join (t : Text) :
    t.spacePunctuation = join [32] (runsFrom Byte.isWord [] t) := cleanFrom_eq_join false t

theorem withoutPunctuation_join (hws : ∀ w ∈ ws, ∀ b ∈ w, Byte.isWord b = true) :
    withoutPunctuation (join [32] ws) = join [32] ws := by
  refine List.filter_eq_self.mpr fun b hb => ?_
  by_contra hnot
  have hne : b ≠ 32 := fun heq => hnot (heq ▸ rfl)
  exact not_mem_join hne (fun w hw hbw => hnot (by rw [hws w hw b hbw, Bool.true_or])) hb

theorem isCleaned_join (hws : ∀ w ∈ ws, w ≠ [] ∧ ∀ b ∈ w, Byte.isWord b = true)
    (hbytes : ws.flatten = t.filter Byte.isWord) : IsCleaned t ws (join [32] ws) := by
  have hparted : (join [32] ws).spacePunctuation = join [32] ws := by
    rw [spacePunctuation_eq_join, runsFrom_join rfl hws]
  have hblank : ∀ w ∈ ws, ∀ b ∈ w, Byte.isWhitespace b = false := fun w hw b hb =>
    not_isWhitespace_of_isWord ((hws w hw).2 b hb)
  refine ⟨hws, rfl, ?_, ?_, hparted, ?_⟩
  · rw [filter_join fun w hw hspace => absurd (hblank w hw 32 hspace) (by decide), hbytes]
  · rw [dropPunctuation_eq, withoutPunctuation_join fun w hw => (hws w hw).2, hparted]
  · rw [words_join fun w hw => ⟨(hws w hw).1, hblank w hw⟩]

theorem isCleaned_spacePunctuation (t : Text) :
    IsCleaned t (runsFrom Byte.isWord [] t) t.spacePunctuation := by
  rw [spacePunctuation_eq_join]
  refine isCleaned_join (fun w hw => ?_) (flatten_runsFrom Byte.isWord [] t)
  have hrun := (mem_runsFrom_iff (List.forall_mem_nil _)).mp hw
  exact ⟨hrun.nonempty, hrun.within⟩

theorem isCleaned_dropPunctuation (t : Text) :
    IsCleaned t (runsFrom Byte.isWord [] (withoutPunctuation t)) t.dropPunctuation := by
  have hbytes : (withoutPunctuation t).filter Byte.isWord = t.filter Byte.isWord := by
    rw [withoutPunctuation, List.filter_filter]
    exact List.filter_congr fun b _ => by cases Byte.isWord b <;> rfl
  rw [dropPunctuation_eq]
  exact { isCleaned_spacePunctuation (withoutPunctuation t) with
    bytes := (isCleaned_spacePunctuation (withoutPunctuation t)).bytes.trans hbytes }

theorem words_dropPunctuation_eq_nil : t.dropPunctuation.words = [] ↔ t.dropPunctuation = [] := by
  refine ⟨fun h => ?_, fun h => by rw [h]; rfl⟩
  have hjoined := (isCleaned_dropPunctuation t).joined
  rw [h] at hjoined
  exact hjoined.symm

/-- Cleaned text is canonical, whether punctuation was dropped or words were parted at it, and the words
of a text can be joined by spaces without loss. -/
theorem cleaned_canonical (t : Text) :
    IsCleaned t (runsFrom Byte.isWord [] (withoutPunctuation t)) t.dropPunctuation ∧
      IsCleaned t (runsFrom Byte.isWord [] t) t.spacePunctuation ∧
      ∀ ws : List Text, (∀ w ∈ ws, w ≠ [] ∧ ∀ b ∈ w, Byte.isWhitespace b = false) →
        words (join [32] ws) = ws :=
  ⟨isCleaned_dropPunctuation t, isCleaned_spacePunctuation t, fun _ hws => words_join hws⟩

/-- With punctuation in words, between them and around them, and a byte of no ASCII letter. -/
theorem cleaned_canonical_of_punctuated :
    let t := Text.of " (Zoë-Ann)\tO'Brien, \n-- 7."
    let tokens := [Text.of "(Zoë-Ann)", Text.of "O'Brien,", Text.of "--", Text.of "7."]
    let dropped := Text.of "ZoëAnn OBrien 7"
    let parted := Text.of "Zoë Ann O Brien 7"
    (∀ w ∈ tokens, w ≠ [] ∧ ∀ b ∈ w, Byte.isWhitespace b = false) ∧
      IsCleaned t [Text.of "ZoëAnn", Text.of "OBrien", Text.of "7"] dropped ∧
      IsCleaned t [Text.of "Zoë", Text.of "Ann", Text.of "O", Text.of "Brien", Text.of "7"] parted ∧
      words (Text.of "(Zoë-Ann) O'Brien, -- 7.") = tokens := by
  intro t tokens dropped parted
  have htokens : ∀ w ∈ tokens, w ≠ [] ∧ ∀ b ∈ w, Byte.isWhitespace b = false := by decide +kernel
  obtain ⟨hdropped, hparted, hwords⟩ := cleaned_canonical t
  exact ⟨htokens, hdropped, hparted, hwords tokens htokens⟩

end Screening.Text
