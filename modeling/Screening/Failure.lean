import Screening.Text

namespace Screening

/-- The kinds of failure, numbered from zero in this order. -/
inductive FailureKind
  | success
  | badArgument
  | badConfiguration
  | badState
  | unsupportedType
  | noSuchSchema
  | noSuchAlgorithm
  | disabledAlgorithm
  | unsupported
  | noSuchFile
  | timeout
  | internal
  | unknown
  deriving DecidableEq, Repr

namespace FailureKind

def all : List FailureKind :=
  [success, badArgument, badConfiguration, badState, unsupportedType, noSuchSchema,
    noSuchAlgorithm, disabledAlgorithm, unsupported, noSuchFile, timeout, internal, unknown]

/-- Codes are 32-bit integers; one outside the table denotes no kind. -/
def ofCode? (code : Int) : Option FailureKind :=
  let word := Int.bmod code UInt32.size
  if word < 0 then none else all[word.toNat]?

def describe : FailureKind → Text
  | success => Text.of "Success"
  | badArgument => Text.of "Invalid argument"
  | badConfiguration => Text.of "Invalid configuration"
  | badState => Text.of "Invalid state"
  | unsupportedType => Text.of "Unsupported property"
  | noSuchSchema => Text.of "Unknown schema"
  | noSuchAlgorithm => Text.of "Unknown algorithm"
  | disabledAlgorithm => Text.of "Algorithm disabled"
  | unsupported => Text.of "Not supported"
  | noSuchFile => Text.of "File not found"
  | timeout => Text.of "Operation timed out"
  | internal => Text.of "Internal error"
  | unknown => Text.of "Unknown error"

def describeCode (code : Int) : Text := ((ofCode? code).getD unknown).describe

end FailureKind

/-- A kind of failure, absent for a code outside the table, and what is said about it. -/
structure Failure where
  kind : Option FailureKind
  message : Text
  deriving DecidableEq, Repr

namespace Failure

def of (kind : FailureKind) (message : Text) : Failure := ⟨some kind, message⟩

/-- A failure known by its code; without a message it carries the wording of the code. -/
def ofCode (code : Int) (message : Option Text) : Failure :=
  ⟨FailureKind.ofCode? code, message.getD (FailureKind.describeCode code)⟩

end Failure

abbrev Outcome := Except Failure

namespace Outcome

variable {β : Type}

def noValue (failure : Failure) : Text :=
  (Text.of "Result contains error: " ++ failure.message).beforeNul

def noFailure : Text := Text.of "Result contains value"

def isValue : Outcome β → Bool
  | .ok _ => true
  | .error _ => false

def value : Outcome β → Except Text β
  | .ok b => .ok b
  | .error failure => .error (noValue failure)

def failure : Outcome β → Except Text Failure
  | .ok _ => .error noFailure
  | .error failure => .ok failure

/-- How an action without a value ended: a failure of kind `success` is no failure. -/
def ofAction (failure : Failure) : Outcome Unit :=
  if failure.kind = some .success then .ok () else .error failure

end Outcome

/-- What stops a computation that had no failure of its own to report: a refusal with a reason, or a
stop without one. -/
inductive Interruption
  | refused (reason : Text)
  | unexplained
  deriving DecidableEq, Repr

namespace Interruption

/-- A reason is read up to its first NUL byte. -/
def refusal (reason : Text) : Interruption := refused reason.beforeNul

end Interruption

theorem bind_eq_ok {ε β γ : Type} {first : Except ε β} {next : β → Except ε γ} {c : γ} :
    first >>= next = .ok c ↔ ∃ b, first = .ok b ∧ next b = .ok c := by
  cases first with
  | error e => exact ⟨fun h => (nomatch h), fun ⟨_, h, _⟩ => nomatch h⟩
  | ok b =>
    constructor
    · exact fun h => ⟨b, rfl, h⟩
    · rintro ⟨_, hb, h⟩
      obtain rfl := Except.ok.inj hb
      exact h

theorem bind_eq_error {ε β γ : Type} {first : Except ε β} {next : β → Except ε γ} {e : ε}
    (h : first >>= next = .error e) :
    first = .error e ∨ ∃ b, first = .ok b ∧ next b = .error e := by
  cases first with
  | error _ => exact .inl (congrArg Except.error (Except.error.inj h))
  | ok b => exact .inr ⟨b, rfl, h⟩

theorem map_eq_error {ε β γ : Type} {first : Except ε β} {f : β → γ} {e : ε}
    (h : first.map f = .error e) : first = .error e := by
  cases first with
  | error _ => exact congrArg Except.error (Except.error.inj h)
  | ok _ => exact nomatch h

theorem map_eq_ok {ε β γ : Type} {first : Except ε β} {f : β → γ} {c : γ} :
    first.map f = .ok c ↔ ∃ b, first = .ok b ∧ f b = c := by
  cases first with
  | error e => exact ⟨fun h => (nomatch h), fun ⟨_, h, _⟩ => nomatch h⟩
  | ok b =>
    constructor
    · exact fun h => ⟨b, rfl, Except.ok.inj h⟩
    · rintro ⟨_, hb, rfl⟩
      obtain rfl := Except.ok.inj hb
      rfl

theorem mapM_eq_error {ε β γ : Type} {f : β → Except ε γ} {bs : List β} {e : ε}
    (h : bs.mapM f = .error e) : ∃ b ∈ bs, f b = .error e := by
  induction bs with
  | nil => exact nomatch h
  | cons b bs ih =>
    rw [List.mapM_cons] at h
    rcases bind_eq_error h with h | ⟨_, _, h⟩
    · exact ⟨b, List.mem_cons_self, h⟩
    · rcases bind_eq_error h with h | ⟨_, _, h⟩
      · obtain ⟨c, hc, hfc⟩ := ih h
        exact ⟨c, List.mem_cons_of_mem b hc, hfc⟩
      · exact nomatch h

theorem mapM_eq_ok {ε β γ : Type} {f : β → Except ε γ} {bs : List β} {cs : List γ} :
    bs.mapM f = .ok cs ↔ bs.map f = cs.map .ok := by
  induction bs generalizing cs with
  | nil =>
    cases cs with
    | nil => exact ⟨fun _ => rfl, fun _ => rfl⟩
    | cons c cs => exact ⟨fun h => (nomatch h), fun h => (nomatch h)⟩
  | cons b bs ih =>
    rw [List.mapM_cons, bind_eq_ok, List.map_cons]
    constructor
    · rintro ⟨c, hc, h⟩
      obtain ⟨rest, hrest, h⟩ := bind_eq_ok.mp h
      obtain rfl := Except.ok.inj h
      rw [hc, ih.mp hrest, List.map_cons]
    · intro h
      cases cs with
      | nil => exact nomatch h
      | cons c cs =>
        obtain ⟨hc, hrest⟩ := List.cons.inj h
        exact ⟨c, hc, bind_eq_ok.mpr ⟨cs, ih.mpr hrest, rfl⟩⟩

theorem exists_mem_of_mapM {ε β γ : Type} {f : β → Except ε γ} {bs : List β} {cs : List γ}
    (h : bs.mapM f = .ok cs) {b : β} (hb : b ∈ bs) : ∃ c ∈ cs, f b = .ok c := by
  have hmem := List.mem_map_of_mem (f := f) hb
  rw [mapM_eq_ok.mp h] at hmem
  obtain ⟨c, hc, hfc⟩ := List.mem_map.mp hmem
  exact ⟨c, hc, hfc.symm⟩

theorem mapM_exists {ε β γ : Type} {f : β → Except ε γ} {bs : List β} :
    (∃ cs, bs.mapM f = .ok cs) ↔ ∀ b ∈ bs, ∃ c, f b = .ok c := by
  constructor
  · rintro ⟨cs, h⟩ b hb
    obtain ⟨c, _, hc⟩ := exists_mem_of_mapM h hb
    exact ⟨c, hc⟩
  · intro h
    cases hmapM : bs.mapM f with
    | ok cs => exact ⟨cs, rfl⟩
    | error e =>
      obtain ⟨b, hb, herror⟩ := mapM_eq_error hmapM
      obtain ⟨c, hc⟩ := h b hb
      exact nomatch herror.symm.trans hc

theorem mapM_eq_ok_map {ε β γ δ : Type} {f : β → Except ε γ} {g : β → Except ε δ} {k : γ → δ}
    {bs : List β} {cs : List γ} (hstep : ∀ b c, f b = .ok c → g b = .ok (k c))
    (h : bs.mapM f = .ok cs) : bs.mapM g = .ok (cs.map k) := by
  induction bs generalizing cs with
  | nil =>
    obtain rfl := Except.ok.inj h
    rfl
  | cons b bs ih =>
    rw [List.mapM_cons] at h
    obtain ⟨c, hc, h⟩ := bind_eq_ok.mp h
    obtain ⟨rest, hrest, h⟩ := bind_eq_ok.mp h
    obtain rfl := Except.ok.inj h
    rw [List.mapM_cons]
    exact bind_eq_ok.mpr ⟨k c, hstep b c hc, bind_eq_ok.mpr ⟨rest.map k, ih hrest, rfl⟩⟩

theorem map_eq_map_of_mapM {ε β γ κ : Type} {f : β → Except ε γ} {bs : List β} {cs : List γ}
    {key : β → κ} {key' : γ → κ} (hkey : ∀ b c, f b = .ok c → key' c = key b)
    (h : bs.mapM f = .ok cs) : cs.map key' = bs.map key := by
  induction bs generalizing cs with
  | nil =>
    obtain rfl := Except.ok.inj h
    rfl
  | cons b bs ih =>
    rw [List.mapM_cons] at h
    obtain ⟨c, hc, h⟩ := bind_eq_ok.mp h
    obtain ⟨rest, hrest, h⟩ := bind_eq_ok.mp h
    obtain rfl := Except.ok.inj h
    rw [List.map_cons, List.map_cons, hkey b c hc, ih hrest]

theorem refuse_eq_ok {ε β : Type} {c : Prop} [Decidable c] {e : ε} {next : Except ε β} {b : β} :
    (if c then .error e else next) = .ok b ↔ ¬ c ∧ next = .ok b := by
  by_cases h : c
  · simp [h]
  · simp [h]

theorem refuse_eq_error {ε β : Type} {c : Prop} [Decidable c] {e f : ε} {next : Except ε β} :
    (if c then .error e else next) = .error f ↔ (c ∧ e = f) ∨ (¬ c ∧ next = .error f) := by
  by_cases h : c
  · simp [h]
  · simp [h]

end Screening
