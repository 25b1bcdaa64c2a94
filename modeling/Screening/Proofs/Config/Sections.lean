import Screening.Proofs.Config.Lines

namespace Screening

namespace ConfigFile

open ConfigLine (IsHeader Assigns assigns_iff ofText_eq_header_iff)

variable {name key other before rest : Text} {body : List Text}

def ofLines (lines : List Text) : Text := lines.flatMap (· ++ [10])

def BeginsSection (t : Text) : Prop :=
  ∃ line opened more, IsHeader line opened ∧ 10 ∉ line ∧ (t = line ∨ t = line ++ 10 :: more)

theorem lines_append_cons (s t : Text) : lines (s ++ 10 :: t) = lines s ++ lines t := by
  rw [lines, lines, lines, Text.pieces_append_cons, List.map_append]

theorem lines_of_not_mem {line : Text} (h : 10 ∉ line) : lines line = [ConfigLine.ofText line] := by
  rw [lines, Text.pieces_of_not_mem h, List.map_singleton]

theorem lines_ofLines_append {written : List Text} (plain : ∀ l ∈ written, 10 ∉ l) (rest : Text) :
    lines (ofLines written ++ rest) = written.map ConfigLine.ofText ++ lines rest := by
  induction written with
  | nil => rfl
  | cons line written ih =>
    have hline : ofLines (line :: written) ++ rest = line ++ 10 :: (ofLines written ++ rest) := by
      simp [ofLines]
    rw [hline, lines_append_cons, lines_of_not_mem (plain line List.mem_cons_self),
      ih fun l hl => plain l (List.mem_cons_of_mem line hl)]
    rfl

theorem exists_lines_append (h : before = [] ∨ before.getLast? = some 10) :
    ∃ read, ∀ rest, lines (before ++ rest) = read ++ lines rest := by
  rcases h with rfl | hlast
  · exact ⟨[], fun _ => rfl⟩
  · obtain ⟨init, rfl⟩ := List.getLast?_eq_some_iff.mp hlast
    refine ⟨lines init, fun rest => ?_⟩
    rw [List.append_assoc, List.singleton_append, lines_append_cons]

/-- Lines of a section that is not open are passed over, but for the dotted name of the key. -/
theorem find?_append_of_closed (lines : List ConfigLine) (hbody : ∀ line ∈ body,
    (∀ opened, ¬ IsHeader line opened) ∧ ¬ Assigns line (name ++ 46 :: key)) :
    find? name key false (body.map ConfigLine.ofText ++ lines) = find? name key false lines := by
  induction body with
  | nil => rfl
  | cons line body ih =>
    obtain ⟨⟨hheader, hassigns⟩, hbody⟩ := List.forall_mem_cons.mp hbody
    rw [List.map_cons, List.cons_append]
    cases hline : ConfigLine.ofText line with
    | header opened => exact absurd (ofText_eq_header_iff.mp hline) (hheader opened)
    | nothing => exact ih hbody
    | assignment k v =>
      have hkey : k ≠ name ++ 46 :: key := by
        rintro rfl
        exact hassigns (assigns_iff.mpr ⟨v, hline⟩)
      rw [find?, if_neg (by simp [hkey])]
      exact ih hbody

/-- Nothing is left of what was open when a section begins, or the text ends. -/
theorem find?_of_beginsSection (h : rest = [] ∨ BeginsSection rest) (inside inside' : Bool) :
    find? name key inside (lines rest) = find? name key inside' (lines rest) := by
  rcases h with rfl | ⟨line, opened, more, hheader, hplain, rfl | rfl⟩
  · rfl
  · rw [lines_of_not_mem hplain, ofText_eq_header_iff.mpr hheader]
    rfl
  · rw [lines_append_cons, lines_of_not_mem hplain, ofText_eq_header_iff.mpr hheader,
      List.singleton_append]
    rfl

/-- A section of another name does not change what a key of a section reads as, wherever it is put
between sections, if it does not assign the key by its dotted name. -/
theorem value_of_foreign_section {header : Text} (hname : name ≠ []) (hother : other ≠ name)
    (hbefore : before = [] ∨ before.getLast? = some 10) (hrest : rest = [] ∨ BeginsSection rest)
    (hheader : IsHeader header other) (plain : ∀ l ∈ header :: body, 10 ∉ l)
    (hbody : ∀ line ∈ body,
      (∀ opened, ¬ IsHeader line opened) ∧ ¬ Assigns line (name ++ 46 :: key)) :
    value (before ++ (ofLines (header :: body) ++ rest)) name key = value (before ++ rest) name key := by
  obtain ⟨read, hread⟩ := exists_lines_append hbefore
  have hclosed : (name.isEmpty || other == name) = false := by simp [hname, hother]
  have hskip : ∀ inside, find? name key inside ((header :: body).map ConfigLine.ofText ++ lines rest) =
      find? name key inside (lines rest) := by
    intro inside
    rw [List.map_cons, List.cons_append, ofText_eq_header_iff.mpr hheader, find?, hclosed,
      find?_append_of_closed _ hbody]
    exact find?_of_beginsSection hrest false inside
  rw [value, value, hread, hread, lines_ofLines_append plain, find?_append name key _ read,
    find?_append name key _ read, hskip]

theorem value_of_foreign_section_in_front :
    let name := Text.of "matching"
    let key := Text.of "limit"
    let other := Text.of "other"
    let before := Text.of "[matching]\nworkers = 3\n"
    let rest := Text.of "[matching] # again\nlimit = 7"
    let header := Text.of " [ other ] "
    let body := [Text.of "limit = 99", Text.of "# [matching]", Text.of "[matching"]
    (name ≠ [] ∧ other ≠ name ∧ before.getLast? = some 10 ∧ BeginsSection rest ∧
        IsHeader header other ∧ (∀ l ∈ header :: body, 10 ∉ l) ∧ ∀ line ∈ body,
          (∀ opened, ¬ IsHeader line opened) ∧ ¬ Assigns line (name ++ 46 :: key)) ∧
      value (before ++ (ofLines (header :: body) ++ rest)) name key = value (before ++ rest) name key ∧
        value (before ++ rest) name key = Text.of "7" := by
  intro name key other before rest header body
  have hname : name ≠ [] := by decide +kernel
  have hother : other ≠ name := by decide +kernel
  have hbefore : before.getLast? = some 10 := by decide +kernel
  have hrest : BeginsSection rest :=
    ⟨Text.of "[matching] # again", name, Text.of "limit = 7", by decide +kernel, by decide +kernel,
      .inr (by decide +kernel)⟩
  have hheader : IsHeader header other := by decide +kernel
  have plain : ∀ l ∈ header :: body, 10 ∉ l := by decide +kernel
  have hbody : ∀ line ∈ body,
      (∀ opened, ¬ IsHeader line opened) ∧ ¬ Assigns line (name ++ 46 :: key) := by
    have hassigns : Assigns (Text.of "limit = 99") key := by decide +kernel
    intro line hline
    rcases List.mem_cons.mp hline with rfl | hline
    · exact ⟨fun _ => hassigns.not_isHeader, by decide +kernel⟩
    · have hnothing : ∀ line ∈ [Text.of "# [matching]", Text.of "[matching"],
          ConfigLine.ofText line = .nothing := by decide +kernel
      refine ⟨fun _ => ConfigLine.not_isHeader_of_nothing (hnothing line hline), fun h => ?_⟩
      obtain ⟨v, hv⟩ := assigns_iff.mp h
      exact nomatch (hnothing line hline).symm.trans hv
  exact ⟨⟨hname, hother, hbefore, hrest, hheader, plain, hbody⟩,
    value_of_foreign_section hname hother (.inr hbefore) (.inr hrest) hheader plain hbody,
    by decide +kernel⟩

end ConfigFile

end Screening
