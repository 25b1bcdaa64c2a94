import Screening.Proofs.Config.Quoted

namespace Screening

namespace Text

variable {separator : UInt8} {t before after : Text}

theorem map_trim_pieces_append_left (hsep : Byte.isWhitespace separator = false)
    (hbefore : ∀ b ∈ before, Byte.isWhitespace b = true) (t : Text) :
    (pieces separator (before ++ t)).map trim = (pieces separator t).map trim := by
  have hfree : separator ∉ before := fun h => nomatch hsep.symm.trans (hbefore _ h)
  by_cases hmem : separator ∈ t
  · obtain ⟨first, rest, rfl, hfirst⟩ := List.eq_append_cons_of_mem hmem
    have hfront : separator ∉ before ++ first := by simp [hfree, hfirst]
    rw [← List.append_assoc, pieces_append_cons, pieces_append_cons, pieces_of_not_mem hfirst,
      pieces_of_not_mem hfront, List.map_append, List.map_append, List.map_singleton,
      List.map_singleton, trim_append_of_whitespace hbefore]
  · rw [pieces_of_not_mem hmem, pieces_of_not_mem (by simp [hfree, hmem]), List.map_singleton,
      List.map_singleton, trim_append_of_whitespace hbefore]

theorem map_trim_pieces_append_right (hsep : Byte.isWhitespace separator = false)
    (hafter : ∀ b ∈ after, Byte.isWhitespace b = true) (t : Text) :
    (pieces separator (t ++ after)).map trim = (pieces separator t).map trim := by
  have hfree : separator ∉ after := fun h => nomatch hsep.symm.trans (hafter _ h)
  have htrim : ∀ u, trim (u ++ after) = trim u := fun u => by
    rw [← trim_trimRight, trimRight_append_of_whitespace u hafter, trim_trimRight]
  by_cases hmem : separator ∈ t
  · obtain ⟨last, rest, heq, hlast⟩ := List.eq_append_cons_of_mem (List.mem_reverse.mpr hmem)
    obtain rfl : t = rest.reverse ++ separator :: last.reverse := by
      rw [← List.reverse_reverse t, heq]
      simp
    have hlast' : separator ∉ last.reverse := by simpa using hlast
    have hback : separator ∉ last.reverse ++ after := by simp [hfree, hlast]
    rw [List.append_assoc, List.cons_append, pieces_append_cons, pieces_append_cons,
      pieces_of_not_mem hback, pieces_of_not_mem hlast', List.map_append, List.map_append,
      List.map_singleton, List.map_singleton, htrim]
  · rw [pieces_of_not_mem hmem, pieces_of_not_mem (by simp [hfree, hmem]), List.map_singleton,
      List.map_singleton, htrim]

/-- Pieces that are trimmed do not tell whether the text around them was. -/
theorem map_trim_pieces_trim (hsep : Byte.isWhitespace separator = false) (t : Text) :
    (pieces separator (trim t)).map trim = (pieces separator t).map trim := by
  obtain ⟨before, after, ht, hbefore, hafter⟩ := exists_trim t
  conv_rhs => rw [ht]
  rw [map_trim_pieces_append_left hsep hbefore, map_trim_pieces_append_right hsep hafter]

end Text

namespace ConfigFile

open Text (trim pieces)

variable {b : UInt8} {t : Text}

abbrev Whitespace := {t : Text // ∀ b ∈ t, Byte.isWhitespace b = true}

abbrev Quotes := Option {b : UInt8 // b = 34 ∨ b = 39}

/-- A place between the commas of a list: whitespace, with an item in it or not. -/
structure Slot where
  before : Whitespace
  content : Option (Quotes × Text)
  after : Whitespace

/-- What a list is taken apart at: the comma, the brackets and the quotes. -/
def listMarks : Text := Text.of ",[]\"'"

/-- An item begins and ends with bytes that are no whitespace and holds none of the marks. -/
@[mk_iff] structure IsItem (t : Text) : Prop where
  nonempty : t ≠ []
  first : ∀ b ∈ t.head?, Byte.isWhitespace b = false
  last : ∀ b ∈ t.getLast?, Byte.isWhitespace b = false
  plain : ∀ b ∈ t, b ∉ listMarks

def Quotes.around (t : Text) : Quotes → Text
  | none => t
  | some q => q.val :: (t ++ [q.val])

namespace Slot

def item? (s : Slot) : Option Text := s.content.map Prod.snd

def text (s : Slot) : Text :=
  s.before.val ++ ((s.content.elim [] fun c => c.1.around c.2) ++ s.after.val)

end Slot

variable {slots : List Slot}

/-- A list as it is written, in brackets with whitespace outside of them or without. -/
def written (slots : List Slot) : (brackets : Option (Whitespace × Whitespace)) → Text
  | none => Text.join [44] (slots.map Slot.text)
  | some outside =>
    outside.1.val ++ 91 :: (Text.join [44] (slots.map Slot.text) ++ 93 :: outside.2.val)

theorem mem_listMarks : b ∈ listMarks ↔ b = 44 ∨ b = 91 ∨ b = 93 ∨ b = 34 ∨ b = 39 := by
  have hmarks : listMarks = [44, 91, 93, 34, 39] := by decide +kernel
  simp [hmarks]

theorem unquote_trim (t : Text) : unquote (trim t) = unquote t := by
  rw [unquote, Text.trim_trim, unquote]

theorem unquote_of_head (h : ∀ b ∈ (trim t).head?, b ≠ 34 ∧ b ≠ 39) : unquote t = trim t := by
  rw [unquote]
  split
  next first second rest htrim =>
    obtain ⟨hdouble, hsingle⟩ := h first (by rw [htrim]; rfl)
    simp [hdouble, hsingle, htrim]
  next => rfl

theorem IsItem.not_mem (h : IsItem t) (hb : b ∈ listMarks) : b ∉ t := fun hmem => h.plain b hmem hb

theorem IsItem.unquote_around (h : IsItem t) (before after : Whitespace) (quotes : Quotes) :
    unquote (before.val ++ (quotes.around t ++ after.val)) = t := by
  cases quotes with
  | none =>
    have htrim : trim (before.val ++ (t ++ after.val)) = t :=
      Text.trim_between before.2 h.first h.last after.2
    rw [Quotes.around, unquote_of_head, htrim]
    intro b hb
    rw [htrim] at hb
    have hplain := h.plain b (List.mem_of_mem_head? hb)
    simp only [mem_listMarks, not_or] at hplain
    exact hplain.2.2.2
  | some q =>
    have hblank : Byte.isWhitespace q.val = false := by rcases q.2 with hq | hq <;> rw [hq] <;> rfl
    have hmark : q.val ∈ listMarks := mem_listMarks.mpr (.inr (.inr (.inr q.2)))
    have htrim : trim (before.val ++ (q.val :: (t ++ [q.val]) ++ after.val)) =
        q.val :: (t ++ [q.val]) :=
      Text.trim_between before.2 (by simp [hblank]) (by simp [List.getLast?_cons, hblank]) after.2
    exact (unquote_eq_iff q.2 htrim (h.not_mem hmark)).mpr rfl

namespace Slot

variable {s : Slot}

theorem unquote_text (h : ∀ t ∈ s.item?, IsItem t) : unquote s.text = s.item?.getD [] := by
  obtain ⟨before, content, after⟩ := s
  cases content with
  | none =>
    have htrim : trim (text ⟨before, none, after⟩) = [] :=
      Text.trim_between before.2 (by simp) (by simp) after.2
    rw [unquote_of_head (by simp [htrim]), htrim]
    rfl
  | some c => exact (h c.2 rfl).unquote_around before after c.1

theorem not_mem_text (h : ∀ t ∈ s.item?, IsItem t) (hb : b = 44 ∨ b = 91) : b ∉ s.text := by
  have hmark : b ∈ listMarks := mem_listMarks.mpr (hb.imp_right .inl)
  have hblank : Byte.isWhitespace b = false := by rcases hb with rfl | rfl <;> rfl
  have hoff : ∀ w : Whitespace, b ∉ w.val := fun w hmem => nomatch hblank.symm.trans (w.2 b hmem)
  obtain ⟨before, content, after⟩ := s
  match content with
  | none => simp [text, hoff]
  | some (none, t) => simp [text, Quotes.around, hoff, (h t rfl).not_mem hmark]
  | some (some q, t) =>
    have hquote : b ≠ q.val := by
      rcases hb with rfl | rfl <;> rcases q.2 with hq | hq <;> rw [hq] <;> decide
    simp [text, Quotes.around, hoff, (h t rfl).not_mem hmark, hquote]

end Slot

/-- Between the commas the items are found, and empty places, which are left out. -/
theorem filter_unquote_pieces (h : ∀ s ∈ slots, ∀ t ∈ s.item?, IsItem t) :
    ((pieces 44 (Text.join [44] (slots.map Slot.text))).map unquote).filter (fun t => !t.isEmpty) =
      slots.filterMap Slot.item? := by
  by_cases hne : slots = []
  · rw [hne]
    rfl
  have hplain : ∀ part ∈ slots.map Slot.text, 44 ∉ part := by
    intro part hpart
    obtain ⟨s, hs, rfl⟩ := List.mem_map.mp hpart
    exact Slot.not_mem_text (h s hs) (.inl rfl)
  rw [Text.pieces_join (by simpa using hne) hplain, List.map_map]
  clear hne hplain
  induction slots with
  | nil => rfl
  | cons s slots ih =>
    obtain ⟨hs, hslots⟩ := List.forall_mem_cons.mp h
    rw [List.map_cons, Function.comp_apply, Slot.unquote_text hs, List.filter_cons, ih hslots]
    cases hitem : s.item? with
    | none => simp [hitem]
    | some t => simp [hitem, (hs t hitem).nonempty]

theorem unbracket_of_not_mem (h : 91 ∉ t) : unbracket t = t := by
  unfold unbracket
  split
  next => simp at h
  next => rfl

theorem unbracket_brackets (t : Text) : unbracket (91 :: (t ++ [93])) = t := by
  simp [unbracket]

theorem list_of_bare (h : 91 ∉ t) :
    list t = ((pieces 44 t).map unquote).filter fun item => !item.isEmpty := by
  have hopen : 91 ∉ trim t := by
    obtain ⟨before, after, ht, _⟩ := Text.exists_trim t
    exact fun hmem => h (ht ▸ List.mem_append_right before (List.mem_append_left after hmem))
  have hunquote : unquote ∘ trim = unquote := funext unquote_trim
  rw [list, unbracket_of_not_mem hopen, ← hunquote, ← List.map_map, Text.map_trim_pieces_trim rfl,
    List.map_map]

theorem list_of_brackets (before after : Whitespace) (t : Text) :
    list (before.val ++ 91 :: (t ++ 93 :: after.val)) =
      ((pieces 44 t).map unquote).filter fun item => !item.isEmpty := by
  have htrim : trim (before.val ++ 91 :: (t ++ 93 :: after.val)) = 91 :: (t ++ [93]) := by
    rw [Text.trim_append_cons _ _ rfl, Text.trimLeft_of_whitespace before.2,
      Text.trimRight_append_cons _ _ rfl, Text.trimRight_of_whitespace after.2, List.nil_append]
  rw [list, htrim, unbracket_brackets]

/-- However a list is written, its items are read back in order. -/
theorem list_of_written {items : List Text} (hitems : ∀ t ∈ items, IsItem t)
    (hslots : slots.filterMap Slot.item? = items) (brackets : Option (Whitespace × Whitespace)) :
    list (written slots brackets) = items := by
  have h : ∀ s ∈ slots, ∀ t ∈ s.item?, IsItem t := fun s hs t ht =>
    hitems t (hslots ▸ List.mem_filterMap.mpr ⟨s, hs, ht⟩)
  rw [← hslots, ← filter_unquote_pieces h]
  cases brackets with
  | none =>
    refine list_of_bare (Text.not_mem_join (by decide) fun part hpart => ?_)
    obtain ⟨s, hs, rfl⟩ := List.mem_map.mp hpart
    exact Slot.not_mem_text (h s hs) (.inr rfl)
  | some outside => exact list_of_brackets outside.1 outside.2 _

/-- With a tab and an end of line, both kinds of quotes and a comma behind the last item. -/
theorem list_of_written_in_brackets :
    let space : Whitespace := ⟨[32], by decide +kernel⟩
    let edge : Whitespace := ⟨[], by decide +kernel⟩
    let slots : List Slot := [
      ⟨⟨[9], by decide +kernel⟩, some (some ⟨34, .inl rfl⟩, Text.of "logic # v1"), space⟩,
      ⟨edge, none, edge⟩,
      ⟨⟨[10, 32], by decide +kernel⟩, some (some ⟨39, .inr rfl⟩, Text.of "a=b"), edge⟩,
      ⟨space, some (none, Text.of "c"), edge⟩,
      ⟨space, none, edge⟩]
    let items := [Text.of "logic # v1", Text.of "a=b", Text.of "c"]
    ((∀ t ∈ items, IsItem t) ∧ slots.filterMap Slot.item? = items) ∧
      written slots (some (space, edge)) =
        Text.of " [\t\"logic # v1\" ,,\n 'a=b', c, ]" ∧
      list (written slots (some (space, edge))) = items := by
  intro space edge slots items
  have hitems : ∀ t ∈ items, IsItem t := by
    simp only [isItem_iff]
    decide +kernel
  have hslots : slots.filterMap Slot.item? = items := by decide +kernel
  exact ⟨⟨hitems, hslots⟩, by decide +kernel, list_of_written hitems hslots _⟩

end ConfigFile

end Screening
