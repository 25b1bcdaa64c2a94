import Mathlib.Data.List.Perm.Subperm
import Mathlib.Logic.Relation
import Screening.Schema.Catalog

namespace Screening.Catalog

open Relation (ReflTransGen TransGen)

theorem foldlM_isSome {σ β : Type} {f : σ → β → Option σ} {bs : List β}
    (h : ∀ b ∈ bs, ∀ s, ∃ s', f s b = some s') (s : σ) : ∃ s', bs.foldlM f s = some s' := by
  induction bs generalizing s with
  | nil => exact ⟨s, rfl⟩
  | cons b bs ih =>
    obtain ⟨hb, hbs⟩ := List.forall_mem_cons.mp h
    obtain ⟨s₁, h₁⟩ := hb s
    rw [List.foldlM_cons, h₁]
    exact ih hbs s₁

def Above (parents : Text → List Text) (schema parent : Text) : Prop := parent ∈ parents schema

variable {parents : Text → List Text} {depth : Nat} {path lineage lineage' targets : List Text}
  {schema : Text}

/-- A schema from which every way up comes to an end lies on no circle. -/
theorem not_cycle_of_acc (h : Acc (fun parent schema => Above parents schema parent) schema) :
    ¬ TransGen (Above parents) schema schema := by
  induction h with
  | intro schema _ ih =>
    intro hcycle
    obtain ⟨parent, hparent, hback⟩ := TransGen.head'_iff.mp hcycle
    exact ih parent hparent (TransGen.tail' hback hparent)

/-- The schemas of a lineage that are no longer on the path are done with: so are their parents, and
every way up from them comes to an end. -/
structure Settled (parents : Text → List Text) (path lineage : List Text) : Prop where
  closed : ∀ s ∈ lineage, s ∉ path → ∀ parent ∈ parents s, parent ∈ lineage ∧ parent ∉ path
  grounded : ∀ s ∈ lineage, s ∉ path → Acc (fun parent schema => Above parents schema parent) s

theorem Settled.nil : Settled parents [] [] := ⟨fun _ h => (nomatch h), fun _ h => (nomatch h)⟩

theorem Settled.mem_of_reach (h : Settled parents path lineage) {s t : Text} (hs : s ∈ lineage)
    (hpath : s ∉ path) (hreach : ReflTransGen (Above parents) s t) : t ∈ lineage ∧ t ∉ path := by
  induction hreach with
  | refl => exact ⟨hs, hpath⟩
  | tail _ hparent ih => exact h.closed _ ih.1 ih.2 _ hparent

theorem Settled.enter (h : Settled parents path lineage) (hnew : schema ∉ lineage) :
    Settled parents (schema :: path) (lineage ++ [schema]) := by
  have hold {s : Text} (hs : s ∈ lineage ++ [schema]) (hpath : s ∉ schema :: path) :
      s ∈ lineage ∧ s ∉ path := by
    rw [List.mem_cons, not_or] at hpath
    rcases List.mem_append.mp hs with hs | hs
    · exact ⟨hs, hpath.2⟩
    · exact absurd (List.mem_singleton.mp hs) hpath.1
  constructor
  · intro s hs hpath parent hparent
    obtain ⟨hs, hpath⟩ := hold hs hpath
    obtain ⟨hin, hout⟩ := h.closed s hs hpath parent hparent
    refine ⟨List.mem_append_left _ hin, fun hmem => ?_⟩
    rcases List.mem_cons.mp hmem with rfl | hmem
    · exact hnew hin
    · exact hout hmem
  · intro s hs hpath
    obtain ⟨hs, hpath⟩ := hold hs hpath
    exact h.grounded s hs hpath

structure Walked (parents : Text → List Text) (path lineage targets lineage' : List Text) :
    Prop where
  settled : Settled parents path lineage'
  grows : lineage <+: lineage'
  met : ∀ t ∈ targets, t ∈ lineage' ∧ t ∉ path
  led : ∀ s ∈ lineage', s ∈ lineage ∨ ∃ t ∈ targets, ReflTransGen (Above parents) t s

theorem Walked.nil (h : Settled parents path lineage) : Walked parents path lineage [] lineage :=
  ⟨h, List.prefix_rfl, fun _ h => (nomatch h), fun _ hs => .inl hs⟩

theorem Walked.cons {middle : List Text} (h : Walked parents path lineage [schema] middle)
    (h' : Walked parents path middle targets lineage') :
    Walked parents path lineage (schema :: targets) lineage' := by
  refine ⟨h'.settled, h.grows.trans h'.grows, List.forall_mem_cons.mpr ⟨?_, h'.met⟩, ?_⟩
  · obtain ⟨hin, hout⟩ := h.met schema List.mem_cons_self
    exact ⟨h'.grows.subset hin, hout⟩
  · intro s hs
    rcases h'.led s hs with hs | ⟨t, ht, hreach⟩
    · rcases h.led s hs with hs | ⟨t, ht, hreach⟩
      · exact .inl hs
      · obtain rfl := List.mem_singleton.mp ht
        exact .inr ⟨t, List.mem_cons_self, hreach⟩
    · exact .inr ⟨t, List.mem_cons_of_mem _ ht, hreach⟩

theorem Walked.of_mem (h : Settled parents path lineage) (hpath : schema ∉ path)
    (hin : schema ∈ lineage) : Walked parents path lineage [schema] lineage := by
  refine ⟨h, List.prefix_rfl, fun t ht => ?_, fun _ hs => .inl hs⟩
  obtain rfl := List.mem_singleton.mp ht
  exact ⟨hin, hpath⟩

/-- A schema is done with once its parents are. -/
theorem Walked.leave (hpath : schema ∉ path)
    (h : Walked parents (schema :: path) (lineage ++ [schema]) (parents schema) lineage') :
    Walked parents path lineage [schema] lineage' := by
  have hhere : schema ∈ lineage' := h.grows.subset (List.mem_append_right _ List.mem_cons_self)
  have hrest {s : Text} (hs : s ∉ path) (hne : s ≠ schema) : s ∉ schema :: path := by
    rw [List.mem_cons, not_or]
    exact ⟨hne, hs⟩
  refine ⟨⟨?_, ?_⟩, (List.prefix_append _ _).trans h.grows, ?_, ?_⟩
  · intro s hs hspath parent hparent
    have hdone : parent ∈ lineage' ∧ parent ∉ schema :: path := by
      by_cases heq : s = schema
      · exact h.met parent (heq ▸ hparent)
      · exact h.settled.closed s hs (hrest hspath heq) parent hparent
    exact ⟨hdone.1, fun hin => hdone.2 (List.mem_cons_of_mem _ hin)⟩
  · intro s hs hspath
    by_cases heq : s = schema
    · subst heq
      refine Acc.intro s fun parent hparent => ?_
      obtain ⟨hin, hout⟩ := h.met parent hparent
      exact h.settled.grounded parent hin hout
    · exact h.settled.grounded s hs (hrest hspath heq)
  · intro t ht
    obtain rfl := List.mem_singleton.mp ht
    exact ⟨hhere, hpath⟩
  · intro s hs
    rcases h.led s hs with hs | ⟨parent, hparent, hreach⟩
    · rcases List.mem_append.mp hs with hs | hs
      · exact .inl hs
      · obtain rfl := List.mem_singleton.mp hs
        exact .inr ⟨s, List.mem_cons_self, .refl⟩
    · exact .inr ⟨schema, List.mem_cons_self, .head hparent hreach⟩

theorem walked_foldlM
    (hwalk : ∀ {lineage lineage' : List Text} {schema : Text}, Settled parents path lineage →
      walk parents depth path lineage schema = some lineage' →
        Walked parents path lineage [schema] lineage')
    (h : Settled parents path lineage)
    (hfold : targets.foldlM (walk parents depth path) lineage = some lineage') :
    Walked parents path lineage targets lineage' := by
  induction targets generalizing lineage with
  | nil =>
    obtain rfl := Option.some.inj hfold
    exact .nil h
  | cons t targets ih =>
    rw [List.foldlM_cons] at hfold
    obtain ⟨middle, hmiddle, hrest⟩ := Option.bind_eq_some_iff.mp hfold
    have hfirst := hwalk h hmiddle
    exact hfirst.cons (ih hfirst.settled hrest)

theorem walked_of_walk (h : Settled parents path lineage)
    (hwalk : walk parents depth path lineage schema = some lineage') :
    Walked parents path lineage [schema] lineage' := by
  induction depth generalizing path lineage lineage' schema with
  | zero => exact nomatch hwalk
  | succ depth ih =>
    rw [walk] at hwalk
    split at hwalk
    next => exact nomatch hwalk
    next hpath =>
      rw [List.contains_iff_mem] at hpath
      split at hwalk
      next hin =>
        obtain rfl := Option.some.inj hwalk
        exact .of_mem h hpath (List.contains_iff_mem.mp hin)
      next hnew =>
        rw [List.contains_iff_mem] at hnew
        exact .leave hpath (walked_foldlM (fun h' => ih h') (h.enter hnew) hwalk)

theorem mem_walk_iff (h : walk parents depth [] [] schema = some lineage) {s : Text} :
    s ∈ lineage ↔ ReflTransGen (Above parents) schema s := by
  have hwalked := walked_of_walk .nil h
  constructor
  · intro hs
    rcases hwalked.led s hs with hs | ⟨t, ht, hreach⟩
    · exact nomatch hs
    · obtain rfl := List.mem_singleton.mp ht
      exact hreach
  · intro hreach
    obtain ⟨hin, hout⟩ := hwalked.met schema List.mem_cons_self
    exact (hwalked.settled.mem_of_reach hin hout hreach).1

theorem not_cycle_of_walk (h : walk parents depth [] [] schema = some lineage) :
    ¬ TransGen (Above parents) schema schema := by
  have hwalked := walked_of_walk .nil h
  obtain ⟨hin, hout⟩ := hwalked.met schema List.mem_cons_self
  exact not_cycle_of_acc (hwalked.settled.grounded schema hin hout)

/-- Where no schema lies above itself a walk comes to its end: the schemas on the path are all
different, so the path never grows longer than there are schemas. -/
theorem walk_isSome (hacyclic : ∀ s, ¬ TransGen (Above parents) s s) {known : List Text}
    (hknown : ∀ s ∈ known, ∀ parent ∈ parents s, parent ∈ known) (hschema : schema ∈ known)
    (hnodup : path.Nodup) (hpath : path ⊆ known)
    (hup : ∀ s ∈ path, TransGen (Above parents) s schema)
    (hdepth : known.length < path.length + depth) (lineage : List Text) :
    ∃ lineage', walk parents depth path lineage schema = some lineage' := by
  induction depth generalizing path schema lineage with
  | zero =>
    have hlength := (List.subperm_of_subset hnodup hpath).length_le
    omega
  | succ depth ih =>
    have hfresh : schema ∉ path := fun hmem => hacyclic schema (hup schema hmem)
    rw [walk, if_neg (mt List.contains_iff_mem.mp hfresh)]
    split
    next => exact ⟨lineage, rfl⟩
    next =>
      refine foldlM_isSome (fun parent hparent lineage => ?_) _
      refine ih (hknown schema hschema parent hparent) (List.nodup_cons.mpr ⟨hfresh, hnodup⟩)
        (List.cons_subset.mpr ⟨hschema, hpath⟩) (List.forall_mem_cons.mpr ⟨.single hparent, ?_⟩) ?_
        lineage
      · exact fun s hs => (hup s hs).tail hparent
      · rw [List.length_cons]
        omega

end Screening.Catalog
