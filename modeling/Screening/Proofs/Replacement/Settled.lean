import Screening.Proofs.Replacement.Rewriting
import Screening.Replacement.Tables

namespace Screening.Replacer

variable {rows : List Row} {row : Row} {before rest out written t u v q w : Text}

/-- No pattern stands at the start of a word. -/
def Settled (rows : List Row) (t : Text) : Prop :=
  ∀ before rest, t = before ++ rest → StartsWord before rest → ∀ row ∈ rows, ¬ row.Stands rest

/-- The word that a text starts with, if any. -/
def leadingWord (t : Text) : Text := t.takeWhile Byte.isWord

/-- What is left of a text at each place where a word may start; `fresh` tells whether one may start
at its first byte. -/
def places : (fresh : Bool) → Text → List Text
  | fresh, [] => if fresh then [[]] else []
  | fresh, b :: rest =>
    if fresh then (b :: rest) :: places (isBreak b) rest else places (isBreak b) rest

/-- No replacement starts with a word that a pattern starts or goes on with, and no pattern starts with
one that a replacement starts or goes on with. -/
structure Apart (rows : List Row) : Prop where
  patterns : ∀ row ∈ rows, ∀ place ∈ places true row.pattern, ∀ other ∈ rows,
    leadingWord place ≠ leadingWord other.replacement
  replacements : ∀ other ∈ rows, ∀ place ∈ places true other.replacement, ∀ row ∈ rows,
    leadingWord place ≠ leadingWord row.pattern

instance (rows : List Row) : Decidable (Apart rows) :=
  decidable_of_iff
    ((∀ row ∈ rows, ∀ place ∈ places true row.pattern, ∀ other ∈ rows,
        leadingWord place ≠ leadingWord other.replacement) ∧
      ∀ other ∈ rows, ∀ place ∈ places true other.replacement, ∀ row ∈ rows,
        leadingWord place ≠ leadingWord row.pattern)
    ⟨fun h => ⟨h.1, h.2⟩, fun h => ⟨h.1, h.2⟩⟩

theorem leadingWord_append (h : atBreak w = true) : leadingWord (q ++ w) = leadingWord q := by
  induction q with
  | nil =>
    cases w with
    | nil => rfl
    | cons b w =>
      have hb : Byte.isWord b = false := by simpa using atBreak_iff.mp h
      simp [leadingWord, hb]
  | cons b q ih =>
    unfold leadingWord at ih ⊢
    rw [List.cons_append, List.takeWhile_cons, List.takeWhile_cons, ih]

theorem mem_places_cons {fresh : Bool} {b : UInt8} (h : u ∈ places (isBreak b) v) :
    u ∈ places fresh (b :: v) := by
  rw [places]
  split
  · exact List.mem_cons_of_mem _ h
  · exact h

theorem mem_places (h : parted (before ++ u) = true) : v ∈ places (parted before) (u ++ v) := by
  induction u generalizing before with
  | nil =>
    rw [List.append_nil] at h
    cases v <;> simp [places, h]
  | cons b u ih =>
    have hmem : v ∈ places (parted (before ++ [b])) (u ++ v) := ih (by simpa using h)
    rw [parted_append_singleton] at hmem
    exact mem_places_cons hmem

theorem parted_of_parted_append (h : parted (written ++ u) = true) : parted u = true := by
  cases hlast : u.getLast? with
  | none => simp [parted, hlast]
  | some b => simpa [parted, List.getLast?_append, hlast] using h

theorem StartsWord.parted (starts : StartsWord before rest) : Replacer.parted before = true := by
  cases rest with
  | nil =>
    obtain ⟨_, hb, _⟩ := starts.opens
    exact nomatch hb
  | cons b rest => exact (Bool.and_eq_true_iff.mp (startsWord_cons.mp starts)).1

theorem StartsWord.not_atBreak (starts : StartsWord before rest) : Replacer.atBreak rest = false := by
  obtain ⟨b, hb, hword⟩ := starts.opens
  rw [← Bool.not_eq_true]
  intro hend
  exact absurd hword (by simp [atBreak_iff.mp hend b hb])

theorem Chosen.atBreak (chosen : Chosen rows before (row.pattern ++ rest) row) :
    Replacer.atBreak rest = true := by
  obtain ⟨after, happend, hend⟩ := chosen.stands
  rw [List.append_cancel_left happend]
  exact atBreak_iff.mpr hend

theorem Rewrites.atBreak (h : Rewrites rows before rest out) (hend : Replacer.atBreak rest = true) :
    Replacer.atBreak out = true := by
  cases h with
  | finish => rfl
  | replace chosen => exact absurd hend (by simp [chosen.starts.not_atBreak])
  | copy => exact hend

/-- What ends with a word is only written where it stands in the text, if no replacement starts with
a word of it. -/
theorem Rewrites.copied (h : Rewrites rows before rest out) (hout : out = q ++ w)
    (hend : Replacer.atBreak w = true)
    (apart : ∀ place ∈ places (parted before) q, ∀ other ∈ rows,
      leadingWord place ≠ leadingWord other.replacement) :
    ∃ after, rest = q ++ after ∧ Replacer.atBreak after = true := by
  induction h generalizing q with
  | finish =>
    obtain ⟨rfl, rfl⟩ := List.append_eq_nil_iff.mp hout.symm
    exact ⟨[], rfl, rfl⟩
  | @replace before after out row chosen rewrites =>
    have hplace : q ∈ places (parted before) q :=
      mem_places (u := []) (by rw [List.append_nil]; exact chosen.starts.parted)
    refine absurd ?_ (apart q hplace row chosen.mem)
    rw [← leadingWord_append hend, ← hout, leadingWord_append (rewrites.atBreak chosen.atBreak)]
  | @copy before after out b none rewrites ih =>
    cases q with
    | nil =>
      rw [List.nil_append] at hout
      subst hout
      exact ⟨b :: after, rfl, hend⟩
    | cons c q =>
      obtain ⟨rfl, htail⟩ := List.cons.inj hout
      rw [parted_append_singleton] at ih
      obtain ⟨after', rfl, hend'⟩ :=
        ih htail fun place hplace => apart place (mem_places_cons hplace)
      exact ⟨after', rfl, hend'⟩

/-- Behind what is written for a text, the rest is written without a pattern at the start of a word.
Either no word goes on in the rest, or a word may start there wherever one may start in what is
written. -/
theorem Rewrites.settled (apart : Apart rows) (h : Rewrites rows before rest out)
    (fresh : Replacer.atBreak rest = true ∨ (parted written = true → parted before = true))
    (hout : out = u ++ v) (starts : StartsWord (written ++ u) v) (hrow : row ∈ rows) :
    ¬ row.Stands v := by
  induction h generalizing written u with
  | finish =>
    obtain ⟨rfl, rfl⟩ := List.append_eq_nil_iff.mp hout.symm
    exact absurd starts.not_atBreak (by simp [Replacer.atBreak])
  | @replace before after out chosenRow chosen rewrites ih =>
    rcases List.append_eq_append_iff.mp hout with ⟨u', rfl, hv⟩ | ⟨place, hreplacement, rfl⟩
    · exact ih (.inl chosen.atBreak) hv (by rwa [List.append_assoc])
    · rintro ⟨w, hv, hend⟩
      have hplace : place ∈ places true chosenRow.replacement := by
        rw [hreplacement]
        have hparted : parted ([] ++ u) = true := parted_of_parted_append starts.parted
        exact mem_places hparted
      refine apart.replacements chosenRow chosen.mem place hplace row hrow ?_
      rw [← leadingWord_append (rewrites.atBreak chosen.atBreak), hv,
        leadingWord_append (atBreak_iff.mpr hend)]
  | @copy before after out b none rewrites ih =>
    cases u with
    | nil =>
      rw [List.nil_append] at hout
      subst hout
      rw [List.append_nil] at starts
      have hstart := Bool.and_eq_true_iff.mp (startsWord_cons.mp starts)
      have hparted : parted before = true :=
        fresh.resolve_left (by simpa [Replacer.atBreak] using hstart.2) hstart.1
      rintro ⟨w, hv, hend⟩
      have hplaces := apart.patterns row hrow
      rw [← hparted] at hplaces
      obtain ⟨after', hafter, hend'⟩ :=
        (Rewrites.copy none rewrites).copied hv (atBreak_iff.mpr hend) hplaces
      exact none (startsWord_cons.mpr (by rw [hparted, hstart.2]; rfl)) row hrow
        ⟨after', hafter, atBreak_iff.mp hend'⟩
    | cons c u =>
      obtain ⟨rfl, htail⟩ := List.cons.inj hout
      have hstarts : StartsWord ((written ++ [b]) ++ u) v := by simpa using starts
      exact ih (.inr fun hb => by simpa using hb) htail hstarts

theorem settled_apply (apart : Apart rows) (t : Text) : Settled rows ((ofRows rows).apply t) := by
  intro before rest hout starts row hrow
  have rewrites : Rewrites rows [] t (before ++ rest) := apply_eq_iff.mp hout
  exact rewrites.settled apart (.inr id) rfl (by simpa using starts) hrow

theorem rewrites_of_settled (settled : ∀ u v, rest = u ++ v → StartsWord (before ++ u) v →
    ∀ row ∈ rows, ¬ row.Stands v) : Rewrites rows before rest rest := by
  induction rest generalizing before with
  | nil => exact .finish
  | cons b rest ih =>
    refine .copy (fun starts => settled [] (b :: rest) rfl (by simpa using starts)) (ih ?_)
    intro u v hrest starts
    exact settled (b :: u) v (by rw [hrest]; rfl) (by simpa using starts)

theorem apply_of_settled (settled : Settled rows t) : (ofRows rows).apply t = t :=
  apply_eq_iff.mpr (rewrites_of_settled settled)

theorem apply_apply (apart : Apart rows) (t : Text) :
    (ofRows rows).apply ((ofRows rows).apply t) = (ofRows rows).apply t :=
  apply_of_settled (settled_apply apart t)

/-- Where a replacement ends with the word that its pattern ends with, the second run may find the
pattern again. -/
example : (ofStrings [("a b", "b")]).apply (Text.of "a a b") = Text.of "a b" ∧
    (ofStrings [("a b", "b")]).apply (Text.of "a b") = Text.of "b" := by
  decide +kernel

theorem settled_ofStrings {table : List (String × String)}
    (apart : Apart (table.map fun row => ⟨Text.of row.1, Text.of row.2⟩)) (t : Text) :
    Settled (ofStrings table).rows ((ofStrings table).apply t) ∧
      (ofStrings table).apply ((ofStrings table).apply t) = (ofStrings table).apply t := by
  refine ⟨fun before rest hout starts row hrow => ?_, apply_apply apart t⟩
  exact settled_apply apart t before rest hout starts row (mem_rows_ofRows.mp hrow)

/-- Each of the tables leaves no pattern at the start of a word, and so replacing by it again changes
nothing. -/
theorem tables_idempotent : ∀ replacer ∈ [legalForms, honorifics, streetTerms, ordinals], ∀ t,
    Settled replacer.rows (replacer.apply t) ∧
      replacer.apply (replacer.apply t) = replacer.apply t := by
  intro replacer hreplacer t
  rw [List.mem_cons, List.mem_cons, List.mem_cons, List.mem_singleton] at hreplacer
  rcases hreplacer with rfl | rfl | rfl | rfl
  · exact settled_ofStrings (by decide +kernel) t
  · exact settled_ofStrings (by decide +kernel) t
  · exact settled_ofStrings (by decide +kernel) t
  · exact settled_ofStrings (by decide +kernel) t

theorem tables_idempotent_of_box :
    streetTerms ∈ [legalForms, honorifics, streetTerms, ordinals] ∧
      streetTerms.apply (Text.of "post office p o box") = Text.of "post ofc po box" ∧
      streetTerms.apply (Text.of "post ofc po box") = Text.of "post ofc po box" := by
  have hmem : streetTerms ∈ [legalForms, honorifics, streetTerms, ordinals] := by simp
  have written : streetTerms.apply (Text.of "post office p o box") = Text.of "post ofc po box" := by
    decide +kernel
  have again := (tables_idempotent streetTerms hmem (Text.of "post office p o box")).2
  rw [written] at again
  exact ⟨hmem, written, again⟩

end Screening.Replacer
