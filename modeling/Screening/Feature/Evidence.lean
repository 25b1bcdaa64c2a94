import Screening.Scalar
import Screening.Text

namespace Screening

/-- A feature is missing if a side has no value for it or it is not for the schemas, and ignored if
no pair of values could be interpreted. -/
inductive Presence
  | present
  | missing
  | ignored
  deriving DecidableEq, Repr

namespace Presence

def label : Presence → Text
  | present => Text.of "present"
  | missing => Text.of "missing"
  | ignored => Text.of "ignored"

end Presence

structure Feature (α : Type) where
  name : Text
  value : α
  presence : Presence
  pairCount : Nat
  deriving Repr

namespace Feature

variable {α : Type}

def isPresent (feature : Feature α) : Bool := feature.presence == .present

end Feature

/-- A name may occur more than once; the first feature of a name counts. -/
abbrev Evidence (α : Type) := List (Feature α)

namespace Evidence

variable {α : Type}

def find? (evidence : Evidence α) (name : Text) : Option (Feature α) :=
  List.find? (fun f => f.name == name) evidence

def present? (evidence : Evidence α) (name : Text) : Option (Feature α) :=
  (evidence.find? name).filter Feature.isPresent

def valueD (evidence : Evidence α) (name : Text) (fallback : α) : α :=
  match evidence.present? name with
  | some f => f.value
  | none => fallback

def isPresent (evidence : Evidence α) (name : Text) : Bool := (evidence.present? name).isSome

/-- The presence of a feature; one that does not occur is missing. -/
def presence (evidence : Evidence α) (name : Text) : Presence :=
  match evidence.find? name with
  | some f => f.presence
  | none => .missing

theorem present?_eq_some {evidence : Evidence α} {name : Text} {f : Feature α} :
    evidence.present? name = some f ↔ evidence.find? name = some f ∧ f.presence = .present := by
  rw [present?, Option.filter_eq_some_iff]
  simp [Feature.isPresent]

theorem present?_eq_none {evidence : Evidence α} {name : Text} {f : Feature α}
    (hfind : evidence.find? name = some f) (h : f.presence ≠ .present) :
    evidence.present? name = none := by
  rw [present?, hfind]
  simpa [Option.filter, Feature.isPresent] using h

theorem presence_eq_present {evidence : Evidence α} {name : Text} :
    evidence.presence name = .present ↔ ∃ f, evidence.present? name = some f := by
  unfold presence
  cases h : evidence.find? name with
  | none => simp [present?_eq_some, h]
  | some f => simp [present?_eq_some, h]

theorem present?_cons (f : Feature α) (evidence : Evidence α) (name : Text) :
    present? (f :: evidence) name =
      if f.name = name then if f.isPresent then some f else none else evidence.present? name := by
  by_cases h : f.name = name
  · simp [present?, find?, h, Option.filter]
  · simp [present?, find?, h]

theorem present?_head {f : Feature α} {rest : Evidence α} {name : Text} (hname : f.name = name)
    (h : f.presence = .present) : present? (f :: rest) name = some f := by
  simp [present?_cons, hname, Feature.isPresent, h]

theorem find?_append (before after : Evidence α) (name : Text) :
    find? (before ++ after) name = (before.find? name).or (after.find? name) :=
  List.find?_append

theorem find?_cons (f : Feature α) (evidence : Evidence α) (name : Text) :
    find? (f :: evidence) name = if f.name = name then some f else evidence.find? name := by
  by_cases h : f.name = name
  · simp [find?, h]
  · simp [find?, h]

theorem find?_eq_none {evidence : Evidence α} {name : Text} :
    evidence.find? name = none ↔ name ∉ evidence.map Feature.name := by
  simp [find?]

/-- What is read of a name when a feature gives way to another one of its name: nothing new, unless
it was this feature that was read. -/
theorem find?_replaced (before after : Evidence α) {f g : Feature α} (hname : g.name = f.name)
    (name : Text) :
    (before ++ g :: after).find? name = (before ++ f :: after).find? name ∨
      name = f.name ∧ (before ++ f :: after).find? name = some f ∧
        (before ++ g :: after).find? name = some g := by
  rw [find?_append, find?_append, find?_cons, find?_cons, hname]
  cases before.find? name with
  | some b => exact .inl rfl
  | none =>
    by_cases h : f.name = name
    · right
      simp [h]
    · left
      simp [h]

theorem find?_surplus (before after : Evidence α) {f : Feature α}
    (h : f.name ∈ before.map Feature.name) (name : Text) :
    (before ++ f :: after).find? name = (before ++ after).find? name := by
  rw [find?_append, find?_append, find?_cons]
  cases hbefore : before.find? name with
  | some b => rfl
  | none =>
    have hne : f.name ≠ name := fun heq => find?_eq_none.mp hbefore (heq ▸ h)
    rw [if_neg hne]

theorem present?_congr {evidence other : Evidence α} {name : Text}
    (h : other.find? name = evidence.find? name) :
    other.present? name = evidence.present? name := by
  rw [present?, h, present?]

theorem presence_congr {evidence other : Evidence α} {name : Text}
    (h : other.find? name = evidence.find? name) :
    other.presence name = evidence.presence name := by
  rw [presence, h, presence]

theorem isPresent_replaced (before after : Evidence α) {f g : Feature α} (hname : g.name = f.name)
    (hg : g.presence = .present) {name : Text} (h : (before ++ f :: after).isPresent name = true) :
    (before ++ g :: after).isPresent name = true := by
  rcases find?_replaced before after hname name with hsame | ⟨_, _, hfound⟩
  · rwa [isPresent, present?_congr hsame, ← isPresent]
  · rw [isPresent, present?_eq_some.mpr ⟨hfound, hg⟩]
    rfl

theorem reads_missing (before after : Evidence α) {f : Feature α} (hf : f.presence = .missing)
    (hafter : f.name ∉ after.map Feature.name) (name : Text) :
    (before ++ f :: after).present? name = (before ++ after).present? name ∧
      (before ++ f :: after).presence name = (before ++ after).presence name := by
  unfold present? presence
  rw [find?_append, find?_append, find?_cons]
  cases before.find? name with
  | some b => exact ⟨rfl, rfl⟩
  | none =>
    by_cases h : f.name = name
    · rw [if_pos h, find?_eq_none.mpr (h ▸ hafter)]
      simp [hf, Feature.isPresent]
    · rw [if_neg h]
      exact ⟨rfl, rfl⟩

end Evidence

end Screening
