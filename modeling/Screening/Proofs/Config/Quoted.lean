import Mathlib.Algebra.Group.Nat.Even
import Screening.Proofs.Config.Lines

namespace Screening

open Text (trim trimLeft trimRight)

namespace ConfigLine

variable {quote b : UInt8} {quoted : Bool} {first rest t v key : Text}

/-- Whether double quotes are open behind a text, if they are or are not in front of it. -/
def quotedAfter : (quoted : Bool) → Text → Bool
  | quoted, [] => quoted
  | quoted, b :: rest => quotedAfter (quoted ^^ (b == 34)) rest

/-- A number sign outside of double quotes begins a comment. -/
def HoldsComment (quoted : Bool) (t : Text) : Prop :=
  ∃ first rest, t = first ++ 35 :: rest ∧ quotedAfter quoted first = false

theorem quotedAfter_of_not_mem (h : 34 ∉ t) : quotedAfter quoted t = quoted := by
  induction t with
  | nil => rfl
  | cons b t ih =>
    rw [List.mem_cons, not_or] at h
    rw [quotedAfter, beq_false_of_ne (Ne.symm h.1), Bool.xor_false, ih h.2]

theorem quotedAfter_eq (quoted : Bool) (t : Text) :
    quotedAfter quoted t = (quoted ^^ !decide (Even (t.count 34))) := by
  induction t generalizing quoted with
  | nil => simp [quotedAfter]
  | cons b t ih =>
    have heven : decide (Even (t.count 34 + 1)) = !decide (Even (t.count 34)) := by
      simp only [Nat.even_add_one, decide_not]
    rw [quotedAfter, ih, List.count_cons]
    cases b == 34 with
    | false => rw [Bool.xor_false, if_neg Bool.false_ne_true, Nat.add_zero]
    | true =>
      rw [if_pos rfl, heven, Bool.xor_true]
      simp only [Bool.not_xor, Bool.xor_not]

theorem quotedAfter_eq_false_iff : quotedAfter false t = false ↔ Even (t.count 34) := by
  simp [quotedAfter_eq]

theorem holdsComment_cons : HoldsComment quoted (b :: t) ↔
    b = 35 ∧ quoted = false ∨ HoldsComment (quoted ^^ (b == 34)) t := by
  constructor
  · rintro ⟨first, rest, heq, hfirst⟩
    cases first with
    | nil => exact .inl ⟨(List.cons.inj heq).1, hfirst⟩
    | cons c first =>
      obtain ⟨rfl, rfl⟩ := List.cons.inj heq
      exact .inr ⟨first, rest, rfl, hfirst⟩
  · rintro (⟨rfl, rfl⟩ | ⟨first, rest, rfl, hfirst⟩)
    · exact ⟨[], t, rfl, rfl⟩
    · exact ⟨b :: first, rest, rfl, hfirst⟩

theorem not_holdsComment_of_not_mem (h : 35 ∉ t) : ¬ HoldsComment quoted t := by
  rintro ⟨first, rest, rfl, _⟩
  simp at h

theorem not_holdsComment_of_quoted (h : 34 ∉ t) : ¬ HoldsComment true t := by
  rintro ⟨first, rest, rfl, hfirst⟩
  have hplain : 34 ∉ first := fun hmem => h (List.mem_append_left _ hmem)
  exact nomatch (quotedAfter_of_not_mem hplain).symm.trans hfirst

theorem uncomment_cons (quoted : Bool) (b : UInt8) (t : Text) : uncomment quoted (b :: t) =
    if b = 35 ∧ quoted = false then [] else b :: uncomment (quoted ^^ (b == 34)) t := by
  rw [uncomment]
  by_cases hquote : b = 34
  · simp [hquote]
  · have hplain : (b == 34) = false := beq_false_of_ne hquote
    by_cases hsign : b = 35 <;> cases quoted <;> simp [hplain, hsign]

theorem uncomment_append (h : ¬ HoldsComment quoted t) (rest : Text) :
    uncomment quoted (t ++ rest) = t ++ uncomment (quotedAfter quoted t) rest := by
  induction t generalizing quoted with
  | nil => rfl
  | cons b t ih =>
    obtain ⟨hb, ht⟩ := not_or.mp (holdsComment_cons.not.mp h)
    rw [List.cons_append, uncomment_cons, if_neg hb, ih ht, quotedAfter, List.cons_append]

theorem uncomment_of_holdsComment (h : HoldsComment quoted t) :
    ∃ first more, t = first ++ 35 :: more ∧ ∀ rest, uncomment quoted (t ++ rest) = first := by
  induction t generalizing quoted with
  | nil =>
    obtain ⟨first, rest, heq, _⟩ := h
    simp at heq
  | cons b t ih =>
    by_cases hsign : b = 35 ∧ quoted = false
    · refine ⟨[], t, by rw [hsign.1, List.nil_append], fun rest => ?_⟩
      rw [List.cons_append, uncomment_cons, if_pos hsign]
    · obtain ⟨first, more, rfl, hfirst⟩ := ih ((holdsComment_cons.mp h).resolve_left hsign)
      refine ⟨b :: first, more, rfl, fun rest => ?_⟩
      rw [List.cons_append, uncomment_cons, if_neg hsign, hfirst]

abbrev Blanks := {t : Text // ∀ b ∈ t, Byte.isWhitespace b = true ∧ b ≠ 10}

theorem Blanks.whitespace (t : Blanks) : ∀ b ∈ t.val, Byte.isWhitespace b = true :=
  fun b hb => (t.2 b hb).1

theorem Blanks.not_mem (t : Blanks) (hb : Byte.isWhitespace b = false) : b ∉ t.val :=
  fun h => nomatch hb.symm.trans (t.whitespace b h)

/-- How a line writes a value: the quotes, the blanks between its parts and what stands in the
comment, if there is one. -/
structure Quoting where
  quote : UInt8
  indent : Blanks
  beforeSign : Blanks
  afterSign : Blanks
  behind : Blanks
  comment : Option {c : Text // 10 ∉ c}
  isQuote : quote = 34 ∨ quote = 39

def IsBare (t : Text) : Prop := ∀ b ∈ t, Byte.isAlphanum b = true ∨ b = 95

def IsDotted (t : Text) : Prop := ∀ b ∈ t, Byte.isAlphanum b = true ∨ b = 95 ∨ b = 46

instance : Decidable (IsBare t) := inferInstanceAs (Decidable (∀ b ∈ t, _))

theorem IsBare.isDotted (h : IsBare t) : IsDotted t := fun b hb => (h b hb).imp_right .inl

theorem IsBare.isDotted_append {name : Text} (hname : IsBare name) (hkey : IsBare key) :
    IsDotted (name ++ 46 :: key) := by
  intro b hb
  rcases List.mem_append.mp hb with hb | hb
  · exact hname.isDotted b hb
  · rcases List.mem_cons.mp hb with rfl | hb
    · exact .inr (.inr rfl)
    · exact hkey.isDotted b hb

theorem IsDotted.sign (h : IsDotted t) (hb : b ∈ t) :
    Byte.isWhitespace b = false ∧ b ≠ 61 ∧ b ≠ 35 ∧ b ≠ 91 := by
  rcases h b hb with hword | rfl | rfl
  · refine ⟨Text.not_isWhitespace_of_isWord (by simp [Byte.isWord, hword]), ?_, ?_, ?_⟩ <;>
      rintro rfl <;> exact absurd hword (by decide)
  · decide
  · decide

namespace Quoting

variable (f : Quoting)

def remark : Text :=
  match f.comment with
  | none => []
  | some c => 35 :: c

def value (v : Text) : Text := f.quote :: (v ++ f.quote :: (f.behind.val ++ f.remark))

def line (key v : Text) : Text :=
  f.indent.val ++ (key ++ f.beforeSign.val) ++ 61 :: (f.afterSign.val ++ f.value v)

theorem quote_sign : Byte.isWhitespace f.quote = false ∧ f.quote ≠ 35 := by
  rcases f.isQuote with h | h <;> rw [h] <;> decide

/-- The remark is trimmed by itself, and its blanks with it if there is none. -/
theorem trim_value (v : Text) : trim (f.value v) =
    f.quote :: (v ++ f.quote :: trimRight (f.behind.val ++ f.remark)) := by
  have hquote := f.quote_sign.1
  rw [value, ← List.nil_append (f.quote :: _), Text.trim_append_cons _ _ hquote,
    Text.trimRight_append_cons _ _ hquote]
  rfl

/-- A remark is cut off if no quotes are open in front of it. -/
theorem trimRight_uncomment_remark (quoted : Bool) :
    trimRight (uncomment quoted (trimRight (f.behind.val ++ f.remark))) = [] ↔
      f.comment = none ∨ quoted = false := by
  cases hcomment : f.comment with
  | none =>
    have hnone : trimRight (f.behind.val ++ f.remark) = [] := by
      rw [remark, hcomment, List.append_nil,
        Text.trimRight_of_whitespace f.behind.whitespace]
    rw [hnone]
    simp [uncomment, trimRight]
  | some c =>
    have hsome : trimRight (f.behind.val ++ f.remark) = f.behind.val ++ 35 :: trimRight c.val := by
      rw [remark, hcomment, Text.trimRight_append_cons _ _ rfl]
    rw [hsome, uncomment_append (not_holdsComment_of_not_mem (f.behind.not_mem rfl)),
      quotedAfter_of_not_mem (f.behind.not_mem rfl), uncomment_cons]
    cases quoted with
    | false => simp [Text.trimRight_of_whitespace f.behind.whitespace]
    | true => simp [Text.trimRight_append_cons _ _ (show Byte.isWhitespace 35 = false from rfl)]

theorem newline_not_mem_line (hkey : IsDotted key) (hv : 10 ∉ v) : 10 ∉ f.line key v := by
  have hblank : ∀ t : Blanks, 10 ∉ t.val := fun t h => (t.2 10 h).2 rfl
  have hword : 10 ∉ key := fun h => absurd (hkey.sign h).1 (by decide)
  have hquote : 10 ≠ f.quote := fun h => absurd f.quote_sign.1 (h ▸ by decide)
  have hremark : 10 ∉ f.remark := by
    rw [remark]
    split
    next => exact List.not_mem_nil
    next c _ => simp [c.2]
  simp [line, value, hblank, hword, hquote, hv, hremark]

theorem ofText_line (hkey : IsDotted key) (v : Text) :
    ofText (f.line key v) = assignment key (trim (uncomment false (trim (f.value v)))) := by
  have hsign : ∀ t : Blanks, 61 ∉ t.val := fun t => t.not_mem rfl
  have htrim : trim (f.indent.val ++ (key ++ f.beforeSign.val)) = key :=
    Text.trim_word f.indent.whitespace (fun b hb => (hkey.sign hb).1) f.beforeSign.whitespace
  have hleft : 61 ∉ f.indent.val ++ (key ++ f.beforeSign.val) := by
    have hword : 61 ∉ key := fun h => (hkey.sign h).2.1 rfl
    simp [hsign, hword]
  have hhead : ∀ b, key.head? = some b → b ≠ 35 ∧ b ≠ 91 :=
    fun b hb => (hkey.sign (List.mem_of_head? hb)).2.2
  rw [line, ofText_assignment hleft, htrim, Text.trim_append_of_whitespace f.afterSign.whitespace]
  · rw [htrim]
    exact fun h => (hhead 35 h).1 rfl
  · rw [htrim]
    exact fun h => (hhead 91 h).2 rfl

end Quoting

end ConfigLine

namespace ConfigFile

open ConfigLine (Quoting IsBare IsDotted uncomment quotedAfter HoldsComment)

variable {quote : UInt8} {name key written rest t v : Text}

theorem unquote_of_trim (hquote : quote = 34 ∨ quote = 39) (htrim : trim t = quote :: rest) :
    unquote t = if rest.getLast? = some quote then rest.dropLast else quote :: rest := by
  have hmark : (quote == 34 || quote == 39) = true := by simpa using hquote
  rw [unquote, htrim]
  cases rest with
  | nil => rfl
  | cons b rest => simp only [hmark, Bool.true_and, beq_iff_eq]

/-- A text that begins with a quote reads as one without it only if that is all it quotes. -/
theorem unquote_eq_iff (hquote : quote = 34 ∨ quote = 39) (htrim : trim t = quote :: rest)
    (hv : quote ∉ v) : unquote t = v ↔ rest = v ++ [quote] := by
  rw [unquote_of_trim hquote htrim]
  constructor
  · split
    next hlast =>
      rintro rfl
      exact (List.dropLast_append_getLast? quote hlast).symm
    next =>
      rintro rfl
      exact absurd List.mem_cons_self hv
  · rintro rfl
    simp

/-- A quoted value is read back unless a comment begins in it, or double quotes are open in front of a
remark. -/
theorem unquote_value_iff (f : Quoting) (hv : f.quote ∉ v) :
    unquote (trim (uncomment false (trim (f.value v)))) = v ↔
      ¬ HoldsComment (f.quote == 34) v ∧
        (f.comment = none ∨ (quotedAfter (f.quote == 34) v ^^ (f.quote == 34)) = false) := by
  obtain ⟨hblank, hsign⟩ := f.quote_sign
  let remark := trimRight (f.behind.val ++ f.remark)
  have hleft : trim (trim (uncomment false (trim (f.value v)))) =
      f.quote :: trimRight (uncomment (f.quote == 34) (v ++ f.quote :: remark)) := by
    rw [Text.trim_trim, f.trim_value, ConfigLine.uncomment_cons, if_neg fun h => hsign h.1,
      Bool.false_xor]
    exact Text.trim_append_cons [] _ hblank
  rw [unquote_eq_iff f.isQuote hleft hv]
  by_cases hcomment : HoldsComment (f.quote == 34) v
  · obtain ⟨first, more, heq, hfirst⟩ := ConfigLine.uncomment_of_holdsComment hcomment
    rw [hfirst]
    refine iff_of_false (fun h => ?_) fun h => h.1 hcomment
    have hmem : f.quote ∈ trimRight first := by simp [h]
    have hinit : trimRight first <+: first := List.rdropWhile_prefix Byte.isWhitespace first
    exact hv (heq ▸ List.mem_append_left _ (hinit.mem hmem))
  · rw [ConfigLine.uncomment_append hcomment, ConfigLine.uncomment_cons, if_neg fun h => hsign h.1,
      Text.trimRight_append_cons _ _ hblank, ← f.trimRight_uncomment_remark]
    simp [hcomment, remark]

/-- A value in double quotes is read back, whatever it holds and whatever remark stands behind. One in
single quotes is if no number sign in it stands outside of double quotes, and none are left open in
front of a remark. -/
theorem value_of_quoted (f : Quoting) {before after : List Text} (hname : IsBare name)
    (hkey : IsBare key) (hquote : f.quote ∉ v) (hv : 10 ∉ v) (plain : ∀ l ∈ before ++ after, 10 ∉ l)
    (hfirst : Unassigned name key before)
    (hwritten : IsOpen name before ∧ written = key ∨ name ≠ [] ∧ written = name ++ 46 :: key) :
    value (Text.join [10] (before ++ f.line written v :: after)) name key = v ↔
      f.quote = 34 ∨ (¬ ∃ first rest, v = first ++ 35 :: rest ∧ Even (first.count 34)) ∧
        (f.comment = none ∨ Even (v.count 34)) := by
  have hword : IsDotted written := by
    rcases hwritten with ⟨_, rfl⟩ | ⟨_, rfl⟩
    · exact hkey.isDotted
    · exact hname.isDotted_append hkey
  have hlines : ∀ l ∈ before ++ f.line written v :: after, 10 ∉ l := by
    intro l hl
    rcases List.mem_append.mp hl with hl | hl
    · exact plain l (List.mem_append_left _ hl)
    · rcases List.mem_cons.mp hl with rfl | hl
      · exact f.newline_not_mem_line hword hv
      · exact plain l (List.mem_append_right _ hl)
  rw [value_of_first hlines hfirst (f.ofText_line hword v) hwritten, unquote_value_iff f hquote]
  rcases f.isQuote with hdouble | hsingle
  · rw [hdouble] at hquote
    simp [hdouble, ConfigLine.not_holdsComment_of_quoted hquote,
      ConfigLine.quotedAfter_of_not_mem hquote]
  · simp [hsingle, HoldsComment, ConfigLine.quotedAfter_eq_false_iff]

theorem value_of_quoted_of_remark :
    let f : Quoting := ⟨34, ⟨[9], by decide +kernel⟩, ⟨[32], by decide +kernel⟩,
      ⟨[32, 32], by decide +kernel⟩, ⟨[13], by decide +kernel⟩,
      some ⟨Text.of " it's \"quoted # \"", by decide +kernel⟩, .inl rfl⟩
    let name := Text.of "engine"
    let key := Text.of "label"
    let v := Text.of "[x] = 'a#b' "
    let before := [Text.of "label = none", Text.of "[engine] # first"]
    let after := [Text.of "label = last"]
    (IsBare name ∧ IsBare key ∧ f.quote ∉ v ∧ 10 ∉ v ∧ (∀ l ∈ before ++ after, 10 ∉ l) ∧
        Unassigned name key before ∧ IsOpen name before) ∧
      value (Text.join [10] (before ++ f.line key v :: after)) name key = v := by
  intro f name key v before after
  have hname : IsBare name := by decide +kernel
  have hkey : IsBare key := by decide +kernel
  have hquote : f.quote ∉ v := by decide +kernel
  have hv : 10 ∉ v := by decide +kernel
  have plain : ∀ l ∈ before ++ after, 10 ∉ l := by decide +kernel
  have hfirst : Unassigned name key before := by decide +kernel
  have hopen : IsOpen name before := by decide +kernel
  exact ⟨⟨hname, hkey, hquote, hv, plain, hfirst, hopen⟩,
    (value_of_quoted f hname hkey hquote hv plain hfirst (.inl ⟨hopen, rfl⟩)).mpr (.inl rfl)⟩

/-- A number sign in single quotes begins a comment. -/
theorem number_sign_apart_from_quoted :
    let f : Quoting := ⟨39, ⟨[], by decide +kernel⟩, ⟨[32], by decide +kernel⟩,
      ⟨[32], by decide +kernel⟩, ⟨[], by decide +kernel⟩, none, .inr rfl⟩
    let name := Text.of "s"
    let key := Text.of "k"
    let v := Text.of "a#b"
    let before := [Text.of "[s]"]
    (IsBare name ∧ IsBare key ∧ f.quote ∉ v ∧ 10 ∉ v ∧ Unassigned name key before ∧
        IsOpen name before) ∧
      Text.join [10] (before ++ [f.line key v, []]) = Text.of "[s]\nk = 'a#b'\n" ∧
        value (Text.join [10] (before ++ [f.line key v, []])) name key = Text.of "'a" ∧
          Text.of "'a" ≠ v := by
  decide +kernel

end ConfigFile

end Screening
