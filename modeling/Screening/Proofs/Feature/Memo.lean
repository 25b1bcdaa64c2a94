import Mathlib.Data.List.Basic
import Screening.Feature.Extraction
import Screening.Proofs.Text.Words

namespace Screening

variable {α : Type} [Scalar α]

section Carries

variable {ε β γ σ τ : Type}

/-- A computation that hands on what it knows gives what one that knows nothing gives, and what it
hands on is in order. -/
inductive Carries (P : σ → Prop) : Except ε β → Except ε (β × σ) → Prop
  | ok {b : β} {s : σ} : P s → Carries P (.ok b) (.ok (b, s))
  | error (e : ε) : Carries P (.error e) (.error e)

variable {P : σ → Prop} {Q : τ → Prop} {first : Except ε β} {first' : Except ε (β × σ)}

theorem Carries.bind (h : Carries P first first') {next : β → Except ε γ}
    {next' : β × σ → Except ε (γ × τ)}
    (hnext : ∀ b s, first = .ok b → P s → Carries Q (next b) (next' (b, s))) :
    Carries Q (first >>= next) (first' >>= next') := by
  cases h with
  | ok hs => exact hnext _ _ rfl hs
  | error e => exact .error e

theorem Carries.map (h : Carries P first first') (f : β → γ) :
    Carries P (first.map f) (first' >>= fun (b, s) => .ok (f b, s)) := by
  cases h with
  | ok hs => exact .ok hs
  | error e => exact .error e

theorem Carries.retain (first : Except ε β) (f : β → γ) {s : σ} (hs : P s) :
    Carries P (first.map f) (first >>= fun b => .ok (f b, s)) := by
  cases first with
  | ok b => exact .ok hs
  | error e => exact .error e

theorem Carries.bind_eq (h : Carries P first first') {next : β → Except ε γ}
    {next' : β × σ → Except ε γ} (hnext : ∀ b s, P s → next b = next' (b, s)) :
    first >>= next = first' >>= next' := by
  cases h with
  | ok hs => exact hnext _ _ hs
  | error e => rfl

end Carries

namespace NameMemo

/-- Names of properties that a key keeps apart. -/
def Plain (properties : List Text) : Prop := ∀ p ∈ properties, p ≠ [] ∧ 44 ∉ p ∧ 124 ∉ p

theorem Plain.splitOn_key {properties : List Text} (h : Plain properties) (hne : properties ≠ []) :
    (key properties).splitOn 44 = properties :=
  List.splitOn_intercalate 44 (fun p hp => (h p hp).2.1) hne

theorem Plain.key_ne_nil {properties : List Text} (h : Plain properties) (hne : properties ≠ []) :
    key properties ≠ [] := by
  intro hkey
  have hsplit := h.splitOn_key hne
  rw [hkey] at hsplit
  have hmem : ([] : Text) ∈ properties := by
    rw [← hsplit]
    exact List.mem_cons_self
  exact (h [] hmem).1 rfl

theorem key_injective {ps qs : List Text} (hps : Plain ps) (hqs : Plain qs) (h : key ps = key qs) :
    ps = qs := by
  by_cases hp : ps = []
  · by_cases hq : qs = []
    · rw [hp, hq]
    · exact absurd (h ▸ hp ▸ rfl) (hqs.key_ne_nil hq)
  · by_cases hq : qs = []
    · exact absurd (h.trans (hq ▸ rfl)) (hps.key_ne_nil hp)
    · rw [← hps.splitOn_key hp, h, hqs.splitOn_key hq]

theorem Plain.not_mem_key {properties : List Text} (h : Plain properties) :
    124 ∉ key properties :=
  Text.not_mem_join (by decide) fun p hp => (h p hp).2.2

theorem tableKey_injective {ps qs ps' qs' : List Text} (hps : Plain ps) (hqs : Plain qs)
    (hps' : Plain ps') (hqs' : Plain qs')
    (h : tableKey (key ps) (key qs) = tableKey (key ps') (key qs')) : ps = ps' ∧ qs = qs' := by
  obtain ⟨hquery, _, hcandidate⟩ :=
    (List.append_cons_inj_of_notMem hps.not_mem_key hqs.not_mem_key).mp h
  exact ⟨key_injective hps hps' hquery, key_injective hqs hqs' hcandidate⟩

def namesOf (normalizer : Normalizer) (e : Entity) (properties : List Text) :
    Except Interruption (List NameForms) :=
  (Feature.meaningful (e.gather properties)).mapM (NameForms.prepare normalizer)

/-- The resemblances of names that are given, each of them prepared once. -/
def tableOf (normalizer : Normalizer) (query candidate : List Text) :
    Except Interruption (List (List (Option (NameResemblance α)))) := do
  let q ← query.mapM (NameForms.prepare normalizer)
  let c ← candidate.mapM (NameForms.prepare normalizer)
  return resemblances q c

/-- Prepared names that would be made again of an entity. -/
def Renewable (normalizer : Normalizer) (e : Entity) (names : List (Text × List NameForms)) :
    Prop :=
  ∀ entry ∈ names, ∃ ps, Plain ps ∧ entry.1 = key ps ∧ namesOf normalizer e ps = .ok entry.2

/-- What is kept is what would be made again. -/
structure Faithful (normalizer : Normalizer) (query candidate : Entity) (memo : NameMemo α) :
    Prop where
  queryNames : Renewable normalizer query memo.queryNames
  candidateNames : Renewable normalizer candidate memo.candidateNames
  tables : ∀ entry ∈ memo.tables, ∃ ps qs, Plain ps ∧ Plain qs ∧
    entry.1 = tableKey (key ps) (key qs) ∧
    tableOf normalizer (Feature.meaningful (query.gather ps))
      (Feature.meaningful (candidate.gather qs)) = .ok entry.2

variable {normalizer : Normalizer} {query candidate e : Entity} {memo : NameMemo α}

theorem faithful_empty : (empty : NameMemo α).Faithful normalizer query candidate :=
  ⟨fun _ h => (nomatch h), fun _ h => (nomatch h), fun _ h => (nomatch h)⟩

theorem mem_of_lookup {β : Type} {entries : List (Text × β)} {key : Text} {kept : β}
    (h : entries.lookup key = some kept) : (key, kept) ∈ entries := by
  obtain ⟨before, after, hentries, _⟩ := List.lookup_eq_some_iff.mp h
  rw [hentries]
  exact List.mem_append_right before List.mem_cons_self

theorem carries_prepared {names : List (Text × List NameForms)} {ps : List Text} (hps : Plain ps)
    (h : Renewable normalizer e names) :
    Carries (Renewable normalizer e) (namesOf normalizer e ps)
      (prepared normalizer names (key ps) (Feature.meaningful (e.gather ps))) := by
  unfold prepared
  split
  next kept hlookup =>
    obtain ⟨qs, hqs, hkey, hnames⟩ := h _ (mem_of_lookup hlookup)
    rw [key_injective hps hqs hkey, hnames]
    exact .ok h
  next =>
    change Carries _ _ (namesOf normalizer e ps >>= _)
    cases hnames : namesOf normalizer e ps with
    | error e => exact .error e
    | ok made => exact .ok (List.forall_mem_cons.mpr ⟨⟨ps, hps, rfl, hnames⟩, h⟩)

theorem Faithful.carries_table (h : memo.Faithful normalizer query candidate) {ps qs : List Text}
    (hps : Plain ps) (hqs : Plain qs) :
    Carries (Faithful normalizer query candidate)
      (tableOf normalizer (Feature.meaningful (query.gather ps))
        (Feature.meaningful (candidate.gather qs)))
      (memo.table normalizer (key ps) (Feature.meaningful (query.gather ps)) (key qs)
        (Feature.meaningful (candidate.gather qs))) := by
  unfold table
  split
  next kept hlookup =>
    obtain ⟨ps', qs', hps', hqs', hkey, htable⟩ := h.tables _ (mem_of_lookup hlookup)
    obtain ⟨rfl, rfl⟩ := tableKey_injective hps hqs hps' hqs' hkey
    rw [htable]
    exact .ok h
  next =>
    refine (carries_prepared hps h.queryNames).bind fun q _ hq hqueryNames => ?_
    refine (carries_prepared hqs h.candidateNames).bind fun c _ hc hcandidateNames => ?_
    have htable : tableOf normalizer _ _ = .ok (resemblances (α := α) q c) :=
      bind_eq_ok.mpr ⟨q, hq, bind_eq_ok.mpr ⟨c, hc, rfl⟩⟩
    exact .ok ⟨hqueryNames, hcandidateNames,
      List.forall_mem_cons.mpr ⟨⟨ps, qs, hps, hqs, rfl, htable⟩, h.tables⟩⟩

/-- Where nothing is known yet, everything is made, whatever its keys. -/
theorem carries_table_empty (queryKey candidateKey : Text) (queries candidates : List Text) :
    Carries (fun _ => True) (tableOf normalizer queries candidates)
      ((empty : NameMemo α).table normalizer queryKey queries candidateKey candidates) := by
  have hprepared (key : Text) (values : List Text) : prepared normalizer [] key values =
      values.mapM (NameForms.prepare normalizer) >>= fun made => .ok (made, [(key, made)]) := rfl
  change Carries _ _ (prepared normalizer [] queryKey queries >>= fun q =>
    prepared normalizer [] candidateKey candidates >>= fun c => _)
  unfold tableOf
  rw [hprepared, hprepared]
  cases queries.mapM (NameForms.prepare normalizer) with
  | error e => exact .error e
  | ok q =>
    cases candidates.mapM (NameForms.prepare normalizer) with
    | error e => exact .error e
    | ok c => exact .ok trivial

end NameMemo

end Screening
