import Mathlib.Data.List.Basic
import Mathlib.Data.List.Nodup
import Screening.Replacement

namespace Screening.Replacer

variable {rows others : List Row} {row other : Row} {before rest after out t : Text}

/-- A word starts with what is left of a text behind `before`. -/
structure StartsWord (before rest : Text) : Prop where
  fresh : ∀ b ∈ before.getLast?, Byte.isWord b = false
  opens : ∃ b ∈ rest.head?, Byte.isWord b = true

/-- The pattern is what a text starts with, and no word goes on behind it. -/
def Row.Stands (row : Row) (rest : Text) : Prop :=
  ∃ after, rest = row.pattern ++ after ∧ ∀ b ∈ after.head?, Byte.isWord b = false

/-- The row by which a text is replaced at a place. -/
structure Chosen (rows : List Row) (before rest : Text) (row : Row) : Prop where
  starts : StartsWord before rest
  stands : row.Stands rest
  longest : ∀ other ∈ rows, other.Stands rest → other.pattern.length ≤ row.pattern.length
  first : (rows.find? fun other => other.pattern = row.pattern) = some row

/-- What is written for the rest of a text, behind what is already read of it. -/
inductive Rewrites (rows : List Row) : (before rest out : Text) → Prop
  | finish {before : Text} : Rewrites rows before [] []
  | replace {before after out : Text} {row : Row} :
      Chosen rows before (row.pattern ++ after) row →
      Rewrites rows (before ++ row.pattern) after out →
      Rewrites rows before (row.pattern ++ after) (row.replacement ++ out)
  | copy {before after out : Text} {b : UInt8} :
      (StartsWord before (b :: after) → ∀ row ∈ rows, ¬ row.Stands (b :: after)) →
      Rewrites rows (before ++ [b]) after out →
      Rewrites rows before (b :: after) (b :: out)

theorem isBreak_eq_not_isWord (b : UInt8) : isBreak b = !Byte.isWord b := by
  simp [isBreak, Byte.isWord, Bool.not_or, ← UInt8.not_le]

theorem atBreak_iff : atBreak t = true ↔ ∀ b ∈ t.head?, Byte.isWord b = false := by
  cases t with
  | nil => simp [atBreak]
  | cons b t => simp [atBreak, isBreak_eq_not_isWord]

theorem Row.fits_iff : row.fits t = true ↔ row.Stands t := by
  rw [Row.fits, Bool.and_eq_true, List.isPrefixOf_iff_prefix, atBreak_iff]
  constructor
  · rintro ⟨⟨after, rfl⟩, hend⟩
    exact ⟨after, rfl, by rwa [List.drop_left] at hend⟩
  · rintro ⟨after, rfl, hend⟩
    exact ⟨List.prefix_append _ _, by rwa [List.drop_left]⟩

/-- Nothing is written in place of no bytes: no word could start there and go on behind. -/
theorem StartsWord.pattern_ne_nil (starts : StartsWord before rest) (stands : row.Stands rest) :
    row.pattern ≠ [] := by
  intro hnil
  obtain ⟨after, rfl, hend⟩ := stands
  obtain ⟨b, hb, hword⟩ := starts.opens
  rw [hnil, List.nil_append] at hb
  exact absurd hword (by simp [hend b hb])

theorem Row.Stands.pattern_eq (hrow : row.Stands rest) (hother : other.Stands rest)
    (hlength : row.pattern.length = other.pattern.length) : row.pattern = other.pattern := by
  obtain ⟨after, rfl, -⟩ := hrow
  obtain ⟨_, hrest, -⟩ := hother
  exact List.append_inj_left hrest hlength

theorem Chosen.shorter (chosen : Chosen rows before rest row) :
    ∃ after, rest = row.pattern ++ after ∧ after.length < rest.length := by
  have moves := List.length_pos_of_ne_nil (chosen.starts.pattern_ne_nil chosen.stands)
  obtain ⟨after, rfl, -⟩ := chosen.stands
  exact ⟨after, rfl, by rw [List.length_append]; omega⟩

theorem Chosen.mem (chosen : Chosen rows before rest row) : row ∈ rows :=
  List.mem_of_find?_eq_some chosen.first

theorem Chosen.unique (hrow : Chosen rows before rest row)
    (hother : Chosen rows before rest other) : row = other := by
  have hlength := Nat.le_antisymm (hother.longest row hrow.mem hrow.stands)
    (hrow.longest other hother.mem hother.stands)
  have hfirst := hrow.first
  rw [hrow.stands.pattern_eq hother.stands hlength, hother.first] at hfirst
  exact (Option.some.inj hfirst).symm

theorem mem_rows_ofRows : row ∈ (ofRows rows).rows ↔ row ∈ rows := Sorting.mem_sort _

theorem pairwise_ofRows (rows : List Row) :
    (ofRows rows).rows.Pairwise fun a b => b.pattern.length ≤ a.pattern.length := by
  have arranged : Sorting.Arranges (fun a b : Row => b.pattern.length ≤ a.pattern.length) rows
      (ofRows rows).rows := by
    refine Sorting.sort_arranges (fun a _ b _ c _ hab hbc => ?_) fun a _ b _ => ?_
    · exact decide_eq_true (Nat.le_trans (of_decide_eq_true hbc) (of_decide_eq_true hab))
    · simpa using Nat.le_total b.pattern.length a.pattern.length
  exact arranged.inOrder.imp of_decide_eq_true

/-- Of the rows for one pattern, the one that is given first is also tried first. -/
theorem find?_pattern_ofRows (pattern : Text) :
    ((ofRows rows).rows.find? fun row => row.pattern = pattern) =
      rows.find? fun row => row.pattern = pattern := by
  rw [← List.head?_filter, ← List.head?_filter, ofRows, Sorting.filter_sort]
  refine List.pairwise_of_forall fun a b ha hb => decide_eq_true (Nat.le_of_eq ?_)
  rw [of_decide_eq_true ha, of_decide_eq_true hb]

theorem chosen_of_find? (starts : StartsWord before rest)
    (found : ((ofRows rows).rows.find? fun row => row.fits rest) = some row) :
    Chosen rows before rest row := by
  obtain ⟨hfits, tried, untried, hrows, hfail⟩ := List.find?_eq_some_iff_append.mp found
  have stands := Row.fits_iff.mp hfits
  have not_tried {other : Row} (hother : other.Stands rest) : other ∉ tried := fun hin => by
    simpa [Row.fits_iff.mpr hother] using hfail other hin
  refine ⟨starts, stands, fun other hother hstands => ?_, ?_⟩
  · have hin := mem_rows_ofRows.mpr hother
    rw [hrows, List.mem_append, List.mem_cons] at hin
    rcases hin.resolve_left (not_tried hstands) with rfl | hin
    · exact Nat.le_refl _
    · have sorted := pairwise_ofRows rows
      rw [hrows] at sorted
      exact (List.pairwise_cons.mp (List.pairwise_append.mp sorted).2.1).1 other hin
  · rw [← find?_pattern_ofRows, List.find?_eq_some_iff_append]
    refine ⟨decide_eq_true rfl, tried, untried, hrows, fun other hother => ?_⟩
    rw [Bool.not_eq_true', decide_eq_false_iff_not]
    intro hsame
    obtain ⟨after, hrest, hend⟩ := stands
    exact not_tried ⟨after, hsame ▸ hrest, hend⟩ hother

theorem find?_fits_iff (starts : StartsWord before rest) :
    ((ofRows rows).rows.find? fun row => row.fits rest) = some row ↔
      Chosen rows before rest row := by
  refine ⟨chosen_of_find? starts, fun chosen => ?_⟩
  cases found : (ofRows rows).rows.find? fun row => row.fits rest with
  | some other => rw [(chosen_of_find? starts found).unique chosen]
  | none =>
    have hin := mem_rows_ofRows.mpr chosen.mem
    exact absurd (Row.fits_iff.mpr chosen.stands) (List.find?_eq_none.mp found row hin)

theorem find?_fits_eq_none_iff :
    ((ofRows rows).rows.find? fun row => row.fits rest) = none ↔
      ∀ row ∈ rows, ¬ row.Stands rest := by
  simp only [List.find?_eq_none, mem_rows_ofRows, Row.fits_iff]

/-- Whether a word may start behind what is read of a text. -/
def parted (before : Text) : Bool := before.getLast?.all isBreak

@[simp] theorem parted_append_singleton (before : Text) (b : UInt8) :
    parted (before ++ [b]) = isBreak b := by
  simp [parted]

theorem startsWord_cons {b : UInt8} :
    StartsWord before (b :: after) ↔ (parted before && !isBreak b) = true := by
  rw [Bool.and_eq_true, parted, Option.all_eq_true, isBreak_eq_not_isWord, Bool.not_not]
  constructor
  · rintro ⟨hparted, c, hc, hword⟩
    obtain rfl : b = c := Option.some.inj hc
    exact ⟨fun d hd => by simp [isBreak_eq_not_isWord, hparted d hd], hword⟩
  · rintro ⟨hparted, hword⟩
    exact ⟨fun d hd => by simpa [isBreak_eq_not_isWord] using hparted d hd, b, rfl, hword⟩

theorem replaceFrom_append (skipped : Text) :
    replaceFrom rows (parted before) skipped.length (skipped ++ rest) =
      replaceFrom rows (parted (before ++ skipped)) 0 rest := by
  induction skipped generalizing before with
  | nil => simp
  | cons b skipped ih =>
    rw [List.length_cons, List.cons_append, replaceFrom, ← parted_append_singleton before, ih,
      List.append_assoc, List.singleton_append]

theorem replaceFrom_of_chosen (chosen : Chosen rows before (row.pattern ++ after) row) :
    replaceFrom (ofRows rows).rows (parted before) 0 (row.pattern ++ after) =
      row.replacement ++
        replaceFrom (ofRows rows).rows (parted (before ++ row.pattern)) 0 after := by
  have starts := chosen.starts
  have found := (find?_fits_iff starts).mpr chosen
  cases hpattern : row.pattern with
  | nil => exact absurd hpattern (starts.pattern_ne_nil chosen.stands)
  | cons b pattern =>
    rw [hpattern, List.cons_append] at found starts
    rw [List.cons_append, replaceFrom, if_pos (startsWord_cons.mp starts), found]
    simp only [hpattern, List.length_cons, Nat.add_sub_cancel]
    rw [← parted_append_singleton before, replaceFrom_append, List.append_assoc,
      List.singleton_append]

theorem replaceFrom_of_none {b : UInt8}
    (none : StartsWord before (b :: after) → ∀ row ∈ rows, ¬ row.Stands (b :: after)) :
    replaceFrom (ofRows rows).rows (parted before) 0 (b :: after) =
      b :: replaceFrom (ofRows rows).rows (parted (before ++ [b])) 0 after := by
  rw [replaceFrom, parted_append_singleton]
  split
  next hstarts =>
    rw [find?_fits_eq_none_iff.mpr (none (startsWord_cons.mpr hstarts))]
  next => rfl

theorem Rewrites.eq_replaceFrom (h : Rewrites rows before rest out) :
    out = replaceFrom (ofRows rows).rows (parted before) 0 rest := by
  induction h with
  | finish => rw [replaceFrom]
  | replace chosen _ ih => rw [replaceFrom_of_chosen chosen, ih]
  | copy none _ ih => rw [replaceFrom_of_none none, ih]

theorem exists_chosen (starts : StartsWord before rest) (hrow : row ∈ rows)
    (stands : row.Stands rest) : ∃ chosen, Chosen rows before rest chosen := by
  cases found : (ofRows rows).rows.find? fun row => row.fits rest with
  | some chosen => exact ⟨chosen, chosen_of_find? starts found⟩
  | none => exact absurd stands (find?_fits_eq_none_iff.mp found row hrow)

theorem rewrites_replaceFrom (before rest : Text) :
    Rewrites rows before rest (replaceFrom (ofRows rows).rows (parted before) 0 rest) := by
  induction hlength : rest.length using Nat.strongRecOn generalizing before rest with
  | ind n ih =>
    by_cases h : StartsWord before rest → ∀ row ∈ rows, ¬ row.Stands rest
    · cases rest with
      | nil =>
        rw [replaceFrom]
        exact .finish
      | cons b after =>
        rw [replaceFrom_of_none h]
        exact .copy h (ih _ (by simp [← hlength]) _ _ rfl)
    · push Not at h
      obtain ⟨starts, _, hrow, hstands⟩ := h
      obtain ⟨row, chosen⟩ := exists_chosen starts hrow hstands
      obtain ⟨after, rfl, hshorter⟩ := chosen.shorter
      rw [replaceFrom_of_chosen chosen]
      exact .replace chosen (ih _ (hlength ▸ hshorter) _ _ rfl)

theorem apply_eq_iff : (ofRows rows).apply t = out ↔ Rewrites rows [] t out :=
  ⟨fun h => h ▸ rewrites_replaceFrom [] t, fun h => h.eq_replaceFrom.symm⟩

theorem find?_pattern_of_distinct (distinct : (rows.map Row.pattern).Nodup) (hrow : row ∈ rows) :
    (rows.find? fun other => other.pattern = row.pattern) = some row := by
  cases found : rows.find? fun other => other.pattern = row.pattern with
  | none => simpa using List.find?_eq_none.mp found row hrow
  | some other =>
    have hother := List.mem_of_find?_eq_some found
    have hsame := List.find?_some found
    rw [decide_eq_true_eq] at hsame
    rw [List.inj_on_of_nodup_map distinct hother hrow hsame]

theorem Chosen.of_perm (perm : rows.Perm others) (distinct : (rows.map Row.pattern).Nodup)
    (chosen : Chosen rows before rest row) : Chosen others before rest row where
  starts := chosen.starts
  stands := chosen.stands
  longest other hother := chosen.longest other (perm.mem_iff.mpr hother)
  first :=
    find?_pattern_of_distinct ((perm.map _).nodup_iff.mp distinct) (perm.mem_iff.mp chosen.mem)

theorem Rewrites.of_perm (perm : rows.Perm others) (distinct : (rows.map Row.pattern).Nodup)
    (h : Rewrites rows before rest out) : Rewrites others before rest out := by
  induction h with
  | finish => exact .finish
  | replace chosen _ ih => exact .replace (chosen.of_perm perm distinct) ih
  | copy none _ ih =>
    exact .copy (fun starts row hrow => none starts row (perm.mem_iff.mpr hrow)) ih

/-- The longest pattern at each start of a word is replaced, from left to right and to the end, and
the order of the rows tells only between rows for one pattern. -/
theorem apply_leftmost_longest (rows : List Row) (t : Text) :
    (∀ out, (ofRows rows).apply t = out ↔ Rewrites rows [] t out) ∧
      (∀ before rest row, Chosen rows before rest row →
        ∃ after, rest = row.pattern ++ after ∧ after.length < rest.length) ∧
      ∀ others, rows.Perm others → (rows.map Row.pattern).Nodup →
        (ofRows others).apply t = (ofRows rows).apply t := by
  refine ⟨fun out => apply_eq_iff, fun before rest row => Chosen.shorter,
    fun others perm distinct => ?_⟩
  exact apply_eq_iff.mpr ((rewrites_replaceFrom [] t).of_perm perm distinct)

/-- A word, a phrase that ends with it, and a row that is never used. -/
def phrases : List Row :=
  [⟨[], Text.of "z"⟩, ⟨Text.of "b", Text.of "x"⟩, ⟨Text.of "a b", Text.of "y"⟩]

theorem apply_leftmost_longest_of_phrases :
    Rewrites phrases [] (Text.of "a b b") (Text.of "y x") ∧
      (∃ after, Text.of "a b b" = Text.of "a b" ++ after ∧ after.length < 5) ∧
      (ofRows phrases.reverse).apply (Text.of "a b b") = Text.of "y x" := by
  obtain ⟨rewrites, shorter, reordered⟩ := apply_leftmost_longest phrases (Text.of "a b b")
  have written : (ofRows phrases).apply (Text.of "a b b") = Text.of "y x" := by decide +kernel
  have starts : StartsWord [] (Text.of "a b b") :=
    startsWord_cons.mpr (show (parted [] && !isBreak 97) = true by decide)
  have chosen : Chosen phrases [] (Text.of "a b b") ⟨Text.of "a b", Text.of "y"⟩ :=
    (find?_fits_iff starts).mp (by decide +kernel)
  refine ⟨(rewrites _).mp written, shorter _ _ _ chosen, ?_⟩
  rw [reordered phrases.reverse (List.reverse_perm phrases).symm (by decide +kernel), written]

/-- Of two rows for one pattern the first one counts. -/
example : (ofStrings [("a", "x"), ("a", "y")]).apply (Text.of "a ab") = Text.of "x ab" := by
  decide +kernel

end Screening.Replacer
