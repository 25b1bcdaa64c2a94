import Screening.Config.File
import Screening.Proofs.Text.Trim
import Screening.Proofs.Text.Words

namespace Screening

open Text (trim trimLeft trimRight)

namespace ConfigLine

variable {line left value key name other : Text}

/-- A line opens a section if it begins with the name in brackets, whatever stands behind. -/
def IsHeader (line name : Text) : Prop :=
  ∃ before inner after, line = before ++ 91 :: (inner ++ 93 :: after) ∧
    (∀ b ∈ before, Byte.isWhitespace b = true) ∧ 93 ∉ inner ∧ trim inner = name

/-- A line assigns the key in front of its first equals sign, unless it begins like a comment or a
header. -/
def Assigns (line key : Text) : Prop :=
  ∃ left value, line = left ++ 61 :: value ∧ 61 ∉ left ∧ trim left = key ∧
    key.head? ≠ some 35 ∧ key.head? ≠ some 91

theorem bne_of_not_mem {b : UInt8} (h : b ∉ left) : ∀ c ∈ left, (c != b) = true := by
  intro c hc
  rw [bne_iff_ne]
  exact fun heq => h (heq ▸ hc)

theorem takeWhile_append_cons {b : UInt8} (h : b ∉ left) (rest : Text) :
    (left ++ b :: rest).takeWhile (· != b) = left := by
  rw [List.takeWhile_append_of_pos (bne_of_not_mem h)]
  simp

theorem dropWhile_append_cons {b : UInt8} (h : b ∉ left) (rest : Text) :
    (left ++ b :: rest).dropWhile (· != b) = b :: rest := by
  rw [List.dropWhile_append_of_pos (bne_of_not_mem h)]
  simp

theorem assignmentOf_append_cons (hleft : 61 ∉ left) (value : Text) :
    assignmentOf (left ++ 61 :: value) =
      assignment (trim left) (trim (uncomment false (trim value))) := by
  rw [assignmentOf, takeWhile_append_cons hleft, dropWhile_append_cons hleft]

theorem assignmentOf_of_not_mem (h : 61 ∉ line) : assignmentOf line = nothing := by
  have hrest : line.dropWhile (· != 61) = [] :=
    List.dropWhile_eq_nil_iff.mpr (bne_of_not_mem h)
  rw [assignmentOf, hrest]

theorem ofText_of_trim {b : UInt8} {rest : Text} (h : trim line = b :: rest) (hcomment : b ≠ 35)
    (hheader : b ≠ 91) : ofText line = assignmentOf (b :: rest) := by
  rw [ofText, h]
  split <;> simp_all

theorem ofText_assignment (hleft : 61 ∉ left) (value : Text) (hcomment : (trim left).head? ≠ some 35)
    (hheader : (trim left).head? ≠ some 91) : ofText (left ++ 61 :: value) =
      assignment (trim left) (trim (uncomment false (trim value))) := by
  have htrim : trim (left ++ 61 :: value) = trimLeft left ++ 61 :: trimRight value :=
    Text.trim_append_cons left value rfl
  have hsign : 61 ∉ trimLeft left := fun hmem => hleft (List.dropWhile_sublist _ |>.mem hmem)
  have hread := assignmentOf_append_cons hsign (trimRight value)
  rw [Text.trim_trimLeft, Text.trim_trimRight] at hread
  rw [Text.head?_trim] at hcomment hheader
  rw [← hread]
  cases hkey : trimLeft left with
  | nil =>
    rw [hkey] at htrim
    exact ofText_of_trim htrim (by decide) (by decide)
  | cons b more =>
    rw [hkey] at htrim hcomment hheader
    exact ofText_of_trim htrim (by simpa using hcomment) (by simpa using hheader)

theorem assignmentOf_ne_header (line name : Text) : assignmentOf line ≠ header name := by
  unfold assignmentOf
  split <;> simp

theorem ofText_eq_header_iff : ofText line = header name ↔ IsHeader line name := by
  constructor
  · intro h
    rw [ofText] at h
    split at h
    next => exact nomatch h
    next => exact nomatch h
    next rest htrim =>
      split at h
      next hclosed =>
        obtain ⟨inner, more, rfl, hinner⟩ :=
          List.eq_append_cons_of_mem (List.contains_iff_mem.mp hclosed)
        obtain ⟨before, after, hline, hbefore, _⟩ := Text.exists_trim line
        refine ⟨before, inner, more ++ after, by simpa [htrim] using hline, hbefore, hinner, ?_⟩
        rw [takeWhile_append_cons hinner] at h
        exact header.inj h
      next => exact nomatch h
    next => exact absurd h (assignmentOf_ne_header _ _)
  · rintro ⟨before, inner, after, rfl, hbefore, hinner, rfl⟩
    have htrim : trim (before ++ 91 :: (inner ++ 93 :: after)) =
        91 :: (inner ++ 93 :: trimRight after) := by
      rw [Text.trim_append_cons before _ rfl, Text.trimLeft_of_whitespace hbefore,
        Text.trimRight_append_cons inner after rfl, List.nil_append]
    rw [ofText, htrim]
    simp [takeWhile_append_cons hinner]

instance : Decidable (IsHeader line name) := decidable_of_iff _ ofText_eq_header_iff

theorem assigns_iff : Assigns line key ↔ ∃ value, ofText line = assignment key value := by
  constructor
  · rintro ⟨left, value, rfl, hleft, rfl, hcomment, hheader⟩
    exact ⟨_, ofText_assignment hleft value hcomment hheader⟩
  · rintro ⟨value, h⟩
    rw [ofText] at h
    split at h
    next => exact nomatch h
    next => exact nomatch h
    next => split at h <;> exact nomatch h
    next b rest hcomment hheader htrim =>
      by_cases hsign : 61 ∈ b :: rest
      · obtain ⟨left, more, heq, hleft⟩ := List.eq_append_cons_of_mem hsign
        obtain ⟨before, after, hline, hbefore, _⟩ := Text.exists_trim line
        rw [htrim, heq] at hline
        rw [heq, assignmentOf_append_cons hleft] at h
        obtain ⟨rfl, _⟩ := assignment.inj h
        have hhead : ∀ c, (trim left).head? = some c → b = c := by
          intro c hc
          cases left with
          | nil => exact nomatch hc
          | cons d more =>
            obtain ⟨rfl, _⟩ := List.cons.inj heq
            have hb : Byte.isWhitespace b = false := Text.head_of_trim htrim
            rw [Text.head?_trim, trimLeft, List.dropWhile_cons_of_neg (by simp [hb])] at hc
            exact Option.some.inj hc
        refine ⟨before ++ left, more ++ after, by simpa using hline, ?_,
          Text.trim_append_of_whitespace hbefore left, fun h => hcomment (hhead 35 h),
          fun h => hheader (hhead 91 h)⟩
        rw [List.mem_append, not_or]
        exact ⟨fun hmem => absurd (hbefore 61 hmem) (by decide), hleft⟩
      · exact nomatch (assignmentOf_of_not_mem hsign).symm.trans h

theorem IsHeader.unique (h : IsHeader line name) (h' : IsHeader line other) : name = other :=
  header.inj ((ofText_eq_header_iff.mpr h).symm.trans (ofText_eq_header_iff.mpr h'))

instance : Decidable (Assigns line key) :=
  match h : ofText line with
  | .assignment k _ => decidable_of_iff (k = key) (by simp [assigns_iff, h])
  | .header _ => isFalse (by simp [assigns_iff, h])
  | .nothing => isFalse (by simp [assigns_iff, h])

theorem not_isHeader_of_nothing (h : ofText line = nothing) : ¬ IsHeader line name :=
  fun hheader => nomatch h.symm.trans (ofText_eq_header_iff.mpr hheader)

theorem Assigns.not_isHeader (h : Assigns line key) : ¬ IsHeader line name := by
  intro hheader
  obtain ⟨value, hvalue⟩ := assigns_iff.mp h
  exact nomatch hvalue.symm.trans (ofText_eq_header_iff.mpr hheader)

end ConfigLine

namespace ConfigFile

open ConfigLine (IsHeader Assigns assigns_iff ofText_eq_header_iff)

variable {name key : Text} {lines before after : List Text} {line : Text}

def opens (name : Text) (inside : Bool) : ConfigLine → Bool
  | .header opened => name.isEmpty || opened == name
  | _ => inside

/-- A section is open after some lines if the last header among them opens it. The unnamed section is
open everywhere. -/
def IsOpen (name : Text) (lines : List Text) : Prop :=
  name = [] ∨ ∃ first header rest, lines = first ++ header :: rest ∧ IsHeader header name ∧
    ∀ line ∈ rest, ∀ other, ¬ IsHeader line other

/-- A line assigns a key of a section by its name while the section is open, and by its dotted name
anywhere. -/
def AssignsIn (name key : Text) (before : List Text) (line : Text) : Prop :=
  IsOpen name before ∧ Assigns line key ∨ name ≠ [] ∧ Assigns line (name ++ 46 :: key)

/-- None of some lines assigns a key. -/
def Unassigned (name key : Text) (lines : List Text) : Prop :=
  ∀ first line rest, lines = first ++ line :: rest → ¬ AssignsIn name key first line

/-- Reading goes on behind some lines with what they leave open, unless they give the value. -/
theorem find?_append (name key : Text) (inside : Bool) (first rest : List ConfigLine) :
    find? name key inside (first ++ rest) =
      (find? name key inside first).or (find? name key (first.foldl (opens name) inside) rest) := by
  induction first generalizing inside with
  | nil => rfl
  | cons line first ih =>
    cases line with
    | header opened => exact ih _
    | assignment k v =>
      rw [List.cons_append, find?, find?]
      split
      next => rfl
      next => exact ih inside
    | nothing => exact ih inside

theorem last_or_behind {middle : Text} {first rest : List Text}
    (heq : lines ++ [line] = first ++ middle :: rest) : lines = first ∧ line = middle ∨
      ∃ rest', rest = rest' ++ [line] ∧ lines = first ++ middle :: rest' := by
  obtain rfl | ⟨rest, last, rfl⟩ := List.eq_nil_or_concat' rest
  · obtain ⟨hlines, hline⟩ := List.append_inj' heq rfl
    exact .inl ⟨hlines, (List.cons.inj hline).1⟩
  · rw [← List.cons_append, ← List.append_assoc] at heq
    obtain ⟨hlines, hline⟩ := List.append_inj' heq rfl
    obtain rfl := (List.cons.inj hline).1
    exact .inr ⟨rest, rfl, hlines⟩

theorem isOpen_append_header {opened : Text} (h : IsHeader line opened) :
    IsOpen name (lines ++ [line]) ↔ name = [] ∨ opened = name := by
  refine or_congr_right ⟨?_, ?_⟩
  · rintro ⟨first, header, rest, heq, hheader, hrest⟩
    rcases last_or_behind heq with ⟨_, rfl⟩ | ⟨rest', rfl, _⟩
    · exact h.unique hheader
    · exact absurd h (hrest line (by simp) opened)
  · rintro rfl
    exact ⟨lines, line, [], rfl, h, fun _ h => nomatch h⟩

theorem isOpen_append_of_not_header (h : ∀ other, ¬ IsHeader line other) :
    IsOpen name (lines ++ [line]) ↔ IsOpen name lines := by
  refine or_congr_right ⟨?_, ?_⟩
  · rintro ⟨first, header, rest, heq, hheader, hrest⟩
    rcases last_or_behind heq with ⟨_, rfl⟩ | ⟨rest', rfl, hlines⟩
    · exact absurd hheader (h name)
    · exact ⟨first, header, rest', hlines, hheader, fun l hl => hrest l (List.mem_append_left _ hl)⟩
  · rintro ⟨first, header, rest, rfl, hheader, hrest⟩
    refine ⟨first, header, rest ++ [line], by simp, hheader, fun l hl => ?_⟩
    rcases List.mem_append.mp hl with hl | hl
    · exact hrest l hl
    · exact List.mem_singleton.mp hl ▸ h

theorem isOpen_iff : (lines.map ConfigLine.ofText).foldl (opens name) name.isEmpty = true ↔
    IsOpen name lines := by
  induction lines using List.reverseRecOn with
  | nil => simp [IsOpen]
  | append_singleton lines line ih =>
    rw [List.map_append, List.foldl_append, List.map_singleton, List.foldl_cons, List.foldl_nil]
    cases hline : ConfigLine.ofText line with
    | header opened =>
      rw [isOpen_append_header (ofText_eq_header_iff.mp hline)]
      simp [opens]
    | assignment k v =>
      have hassigns : Assigns line k := assigns_iff.mpr ⟨v, hline⟩
      rw [isOpen_append_of_not_header fun _ => hassigns.not_isHeader]
      exact ih
    | nothing =>
      rw [isOpen_append_of_not_header fun _ => ConfigLine.not_isHeader_of_nothing hline]
      exact ih

instance : Decidable (IsOpen name lines) := decidable_of_iff _ isOpen_iff

theorem find?_singleton_eq_none_iff :
    find? name key ((before.map ConfigLine.ofText).foldl (opens name) name.isEmpty)
      [ConfigLine.ofText line] = none ↔ ¬ AssignsIn name key before line := by
  have hassigns : ∀ key, (∃ v, ConfigLine.ofText line = .assignment key v) ↔ Assigns line key :=
    fun _ => assigns_iff.symm
  rw [AssignsIn, ← isOpen_iff, ← hassigns, ← hassigns]
  cases ConfigLine.ofText line with
  | header opened => simp [find?]
  | nothing => simp [find?]
  | assignment k v => simp [find?]

theorem unassigned_append_singleton : Unassigned name key (lines ++ [line]) ↔
    Unassigned name key lines ∧ ¬ AssignsIn name key lines line := by
  constructor
  · intro h
    exact ⟨fun first l rest heq => h first l (rest ++ [line]) (by simp [heq]), h lines line [] rfl⟩
  · rintro ⟨hlines, hline⟩ first l rest heq
    rcases last_or_behind heq with ⟨rfl, rfl⟩ | ⟨rest', rfl, hrest⟩
    · exact hline
    · exact hlines first l rest' hrest

theorem unassigned_iff : Unassigned name key lines ↔
    find? name key name.isEmpty (lines.map ConfigLine.ofText) = none := by
  induction lines using List.reverseRecOn with
  | nil => simp [Unassigned, find?]
  | append_singleton lines line ih =>
    rw [unassigned_append_singleton, ih, ← find?_singleton_eq_none_iff, List.map_append, find?_append,
      Option.or_eq_none_iff]
    rfl

instance : Decidable (Unassigned name key lines) := decidable_of_iff _ unassigned_iff.symm

/-- The first line that assigns a key gives it its value. -/
theorem value_of_first {written given : Text} (plain : ∀ l ∈ before ++ line :: after, 10 ∉ l)
    (h : Unassigned name key before) (hline : ConfigLine.ofText line = .assignment written given)
    (hwritten : IsOpen name before ∧ written = key ∨ name ≠ [] ∧ written = name ++ 46 :: key) :
    value (Text.join [10] (before ++ line :: after)) name key = unquote given := by
  have hlines : ConfigFile.lines (Text.join [10] (before ++ line :: after)) =
      before.map ConfigLine.ofText ++ .assignment written given :: after.map ConfigLine.ofText := by
    rw [ConfigFile.lines, Text.pieces_join (by simp) plain, List.map_append, List.map_cons, hline]
  have hgiven : ((before.map ConfigLine.ofText).foldl (opens name) name.isEmpty && written == key ||
      !name.isEmpty && written == name ++ 46 :: key) = true := by
    simpa only [Bool.or_eq_true, Bool.and_eq_true, isOpen_iff, beq_iff_eq, Bool.not_eq_true',
      List.isEmpty_eq_false_iff] using hwritten
  rw [value, hlines, find?_append, unassigned_iff.mp h, Option.none_or, find?, if_pos hgiven]
  rfl

end ConfigFile

end Screening
