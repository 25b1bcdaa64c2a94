namespace Screening.Sorting

variable {β : Type} (before : β → β → Bool)

def insert (b : β) : List β → List β
  | [] => [b]
  | c :: cs => if before b c then b :: c :: cs else c :: insert b cs

/-- The items in order, where `before` tells whether one may stand in front of another: from the
last to the first, each is put in its place among those after it. -/
def sort (items : List β) : List β := items.foldr (insert before) []

@[simp] theorem sort_nil : sort before [] = [] := rfl

@[simp] theorem sort_cons (b : β) (items : List β) :
    sort before (b :: items) = insert before b (sort before items) := rfl

theorem insert_perm (b : β) (items : List β) : (insert before b items).Perm (b :: items) := by
  induction items with
  | nil => exact .refl _
  | cons c cs ih =>
    simp only [insert]
    split
    · exact .refl _
    · exact (ih.cons c).trans (.swap b c cs)

theorem sort_perm (items : List β) : (sort before items).Perm items := by
  induction items with
  | nil => exact .refl _
  | cons b items ih => exact (insert_perm before b _).trans (ih.cons b)

@[simp] theorem mem_sort {b : β} {items : List β} : b ∈ sort before items ↔ b ∈ items :=
  (sort_perm before items).mem_iff

@[simp] theorem length_sort (items : List β) : (sort before items).length = items.length :=
  (sort_perm before items).length_eq

variable {before}

theorem insert_congr {after : β → β → Bool} {b : β} {items : List β}
    (h : ∀ c ∈ items, before b c = after b c) : insert before b items = insert after b items := by
  induction items with
  | nil => rfl
  | cons c cs ih =>
    rw [insert, insert, h c List.mem_cons_self, ih fun d hd => h d (List.mem_cons_of_mem c hd)]

theorem sort_congr {after : β → β → Bool} {items : List β}
    (h : ∀ a ∈ items, ∀ b ∈ items, before a b = after a b) :
    sort before items = sort after items := by
  induction items with
  | nil => rfl
  | cons b items ih =>
    have later {c : β} (hc : c ∈ items) : c ∈ b :: items := List.mem_cons_of_mem b hc
    rw [sort_cons, sort_cons, ih fun a ha c hc => h a (later ha) c (later hc)]
    exact insert_congr fun c hc => h b List.mem_cons_self c (later ((mem_sort after).mp hc))

theorem pairwise_insert {given : β → β → Prop} {b : β} {items : List β}
    (trans : ∀ c ∈ items, ∀ d ∈ items, before b c → before c d → before b d)
    (total : ∀ c ∈ items, before b c ∨ before c b) (first : ∀ c ∈ items, given b c)
    (sorted : items.Pairwise fun a c => before a c ∧ (before c a → given a c)) :
    (insert before b items).Pairwise fun a c => before a c ∧ (before c a → given a c) := by
  induction items with
  | nil => exact List.pairwise_singleton _ _
  | cons c cs ih =>
    have hc := List.pairwise_cons.mp sorted
    have head : c ∈ c :: cs := List.mem_cons_self
    have later {d : β} (hd : d ∈ cs) : d ∈ c :: cs := List.mem_cons_of_mem c hd
    simp only [insert]
    split
    case isTrue h =>
      refine List.pairwise_cons.mpr ⟨fun d hd => ⟨?_, fun _ => first d hd⟩, sorted⟩
      rcases List.mem_cons.mp hd with rfl | hd
      · exact h
      · exact trans c head d (later hd) h (hc.1 d hd).1
    case isFalse h =>
      have hrest := ih (fun d hd e he => trans d (later hd) e (later he))
        (fun d hd => total d (later hd)) (fun d hd => first d (later hd)) hc.2
      refine List.pairwise_cons.mpr ⟨fun d hd => ?_, hrest⟩
      rcases List.mem_cons.mp ((insert_perm before b cs).mem_iff.mp hd) with rfl | hd
      · exact ⟨(total c head).resolve_left h, fun hbc => absurd hbc h⟩
      · exact hc.1 d hd

/-- The sorted items are in order, and those that may stand either way are as they were given. -/
theorem pairwise_sort {given : β → β → Prop} {items : List β}
    (trans : ∀ a ∈ items, ∀ b ∈ items, ∀ c ∈ items, before a b → before b c → before a c)
    (total : ∀ a ∈ items, ∀ b ∈ items, before a b ∨ before b a) (h : items.Pairwise given) :
    (sort before items).Pairwise fun a b => before a b ∧ (before b a → given a b) := by
  induction items with
  | nil => exact .nil
  | cons b items ih =>
    have hb := List.pairwise_cons.mp h
    have head : b ∈ b :: items := List.mem_cons_self
    have later {c : β} (hc : c ∈ items) : c ∈ b :: items := List.mem_cons_of_mem b hc
    have hsort {c : β} (hc : c ∈ sort before items) : c ∈ items := (mem_sort before).mp hc
    apply pairwise_insert
    · exact fun c hc d hd => trans b head c (later (hsort hc)) d (later (hsort hd))
    · exact fun c hc => total b head c (later (hsort hc))
    · exact fun c hc => hb.1 c (hsort hc)
    · exact ih (fun a ha c hc d hd => trans a (later ha) c (later hc) d (later hd))
        (fun a ha c hc => total a (later ha) c (later hc)) hb.2

/-- Items that may stand in front of each other keep their order. -/
theorem filter_insert (p : β → Bool) {b : β} {items : List β}
    (h : ∀ c ∈ items, p b → p c → before b c) :
    (insert before b items).filter p = (b :: items).filter p := by
  induction items with
  | nil => rfl
  | cons c cs ih =>
    simp only [insert]
    split
    case isTrue => rfl
    case isFalse hbc =>
      have hrest := ih fun d hd => h d (List.mem_cons_of_mem c hd)
      rw [List.filter_cons, hrest]
      by_cases hb : p b = true
      · have hc : ¬ p c = true := fun hc => hbc (h c List.mem_cons_self hb hc)
        simp [hb, hc]
      · simp [List.filter_cons, hb]

theorem filter_sort (p : β → Bool) {items : List β}
    (h : items.Pairwise fun b c => p b → p c → before b c) :
    (sort before items).filter p = items.filter p := by
  induction items with
  | nil => rfl
  | cons b items ih =>
    have hb := List.pairwise_cons.mp h
    rw [sort_cons, filter_insert p fun c hc => hb.1 c ((mem_sort before).mp hc), List.filter_cons,
      List.filter_cons, ih hb.2]

/-- The items in order, with those that may stand either way as they were given. -/
structure Arranges (before : β → β → Bool) (items sorted : List β) : Prop where
  perm : sorted.Perm items
  inOrder : sorted.Pairwise fun a b => before a b
  stable : ∀ b ∈ items, sorted.filter (fun c => before b c && before c b) =
    items.filter fun c => before b c && before c b

theorem sort_arranges {items : List β}
    (trans : ∀ a ∈ items, ∀ b ∈ items, ∀ c ∈ items, before a b → before b c → before a c)
    (total : ∀ a ∈ items, ∀ b ∈ items, before a b ∨ before b a) :
    Arranges before items (sort before items) where
  perm := sort_perm before items
  inOrder :=
    (pairwise_sort trans total (List.pairwise_of_forall fun _ _ => trivial)).imp fun h => h.1
  stable b hb := by
    refine filter_sort _ (List.pairwise_of_forall_mem_list fun c hc d hd hbc hbd => ?_)
    simp only [Bool.and_eq_true] at hbc hbd
    exact trans c hc b hb d hd hbc.2 hbd.1

/-- Items of which no two may stand either way have one order, however they are given. -/
theorem sort_eq_of_perm {items others : List β} (perm : items.Perm others)
    (trans : ∀ a ∈ items, ∀ b ∈ items, ∀ c ∈ items, before a b → before b c → before a c)
    (total : ∀ a ∈ items, ∀ b ∈ items, before a b ∨ before b a)
    (antisymm : ∀ a ∈ items, ∀ b ∈ items, before a b → before b a → a = b) :
    sort before items = sort before others := by
  have back {a : β} (h : a ∈ others) : a ∈ items := perm.mem_iff.mpr h
  have hitems := sort_arranges trans total
  have hothers : Arranges before others (sort before others) :=
    sort_arranges (fun a ha b hb c hc => trans a (back ha) b (back hb) c (back hc))
      fun a ha b hb => total a (back ha) b (back hb)
  have hperm := hitems.perm.trans (perm.trans hothers.perm.symm)
  refine List.Perm.eq_of_pairwise (fun a b ha hb => ?_) hitems.inOrder hothers.inOrder hperm
  exact antisymm a ((mem_sort before).mp ha) b (back ((mem_sort before).mp hb))

theorem insert_eq_append (b : β) (items : List β) :
    ∃ front back, insert before b items = front ++ b :: back ∧ items = front ++ back := by
  induction items with
  | nil => exact ⟨[], [], rfl, rfl⟩
  | cons c cs ih =>
    by_cases h : before b c = true
    · exact ⟨[], c :: cs, if_pos h, rfl⟩
    · obtain ⟨front, back, hinsert, hcs⟩ := ih
      refine ⟨c :: front, back, ?_, by rw [hcs]; rfl⟩
      rw [insert, if_neg h, hinsert]
      rfl

theorem insert_append_cons {a b : β} {front back : List β}
    (onward : before a b → ∀ c ∈ back, before a c) :
    ∃ front' back', insert before a (front ++ b :: back) = front' ++ b :: back' ∧
      insert before a (front ++ back) = front' ++ back' := by
  induction front with
  | nil =>
    by_cases h : before a b = true
    · refine ⟨[a], back, if_pos h, ?_⟩
      cases back with
      | nil => rfl
      | cons c back => exact if_pos (onward h c List.mem_cons_self)
    · exact ⟨[], insert before a back, if_neg h, rfl⟩
  | cons c front ih =>
    by_cases h : before a c = true
    · exact ⟨a :: c :: front, back, if_pos h, if_pos h⟩
    · obtain ⟨front', back', hwith, hwithout⟩ := ih
      refine ⟨c :: front', back', ?_, ?_⟩
      · rw [List.cons_append, insert, if_neg h, hwith]
        rfl
      · rw [List.cons_append, insert, if_neg h, hwithout]
        rfl

/-- An item takes a place of its own among the others, which are in the same order without it. -/
theorem sort_append_cons {first rest : List β} {b : β}
    (trans : ∀ a ∈ first ++ b :: rest, ∀ c ∈ first ++ b :: rest, ∀ d ∈ first ++ b :: rest,
      before a c → before c d → before a d)
    (total : ∀ a ∈ first ++ b :: rest, ∀ c ∈ first ++ b :: rest, before a c ∨ before c a) :
    ∃ front back, sort before (first ++ b :: rest) = front ++ b :: back ∧
      sort before (first ++ rest) = front ++ back := by
  induction first with
  | nil => exact insert_eq_append b (sort before rest)
  | cons a first ih =>
    have later {c : β} (hc : c ∈ first ++ b :: rest) : c ∈ a :: first ++ b :: rest :=
      List.mem_cons_of_mem a hc
    have htrans : ∀ c ∈ first ++ b :: rest, ∀ d ∈ first ++ b :: rest, ∀ e ∈ first ++ b :: rest,
        before c d → before d e → before c e :=
      fun c hc d hd e he => trans c (later hc) d (later hd) e (later he)
    have htotal : ∀ c ∈ first ++ b :: rest, ∀ d ∈ first ++ b :: rest, before c d ∨ before d c :=
      fun c hc d hd => total c (later hc) d (later hd)
    obtain ⟨front, back, hwith, hwithout⟩ := ih htrans htotal
    have sorted := (sort_arranges htrans htotal).inOrder
    rw [hwith] at sorted
    have behind := (List.pairwise_cons.mp (List.pairwise_append.mp sorted).2.1).1
    have given {c : β} (hc : c ∈ front ++ b :: back) : c ∈ a :: first ++ b :: rest := by
      rw [← hwith] at hc
      exact later ((mem_sort before).mp hc)
    rw [List.cons_append, List.cons_append, sort_cons, sort_cons, hwith, hwithout]
    apply insert_append_cons
    intro hab c hc
    exact trans a List.mem_cons_self b (given (by simp)) c (given (by simp [hc])) hab (behind c hc)

end Screening.Sorting
