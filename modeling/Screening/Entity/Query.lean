import Screening.Entity

namespace Screening.Entity

def maxNameCombinations : Nat := 100

def nameParts : List Text :=
  ["firstName", "secondName", "middleName", "fatherName", "lastName"].map Text.of

def extendName (name part : Text) : Text :=
  if part.isEmpty then name else if name.isEmpty then part else name ++ 32 :: part

def fullName (values : List Text) : Text := values.foldl extendName []

def chosen (parts : List (List Text)) (cursor : List Nat) : List Text :=
  List.zipWith (fun values i => values.getD i []) parts cursor

/-- The cursor of the next choice, if there is one. A position behind which no other can move on
moves itself, and those behind it go back to the start. -/
def advance : (parts : List (List Text)) → (cursor : List Nat) → Option (List Nat)
  | values :: rest, i :: is =>
    match advance rest is with
    | some next => some (i :: next)
    | none => if i + 1 < values.length then some ((i + 1) :: is.map fun _ => 0) else none
  | _, _ => none

theorem advance_eq_some {values : List Text} {rest : List (List Text)} {i : Nat}
    {is next : List Nat} : advance (values :: rest) (i :: is) = some next ↔
      (∃ js, advance rest is = some js ∧ next = i :: js) ∨
      (advance rest is = none ∧ i + 1 < values.length ∧ next = (i + 1) :: is.map fun _ => 0) := by
  rw [advance]
  cases advance rest is with
  | some js => simp [eq_comm]
  | none => simp [eq_comm]

def moves : List (List Text) → Nat
  | [] => 0
  | values :: rest => (values.length - 1) * (moves rest + 1) + moves rest

def movesLeft : (parts : List (List Text)) → (cursor : List Nat) → Nat
  | values :: rest, i :: is => (values.length - 1 - i) * (moves rest + 1) + movesLeft rest is
  | _, _ => 0

theorem movesLeft_start_le (parts : List (List Text)) (cursor : List Nat) :
    movesLeft parts (cursor.map fun _ => 0) ≤ moves parts := by
  induction parts generalizing cursor with
  | nil => simp [movesLeft]
  | cons values rest ih =>
    cases cursor with
    | nil => simp [movesLeft]
    | cons i is => simpa [movesLeft, moves] using ih is

/-- A position that moves on gives up a whole turn of those behind it, and they get back no more
than their moves from the start. -/
theorem movesLeft_advance_lt {parts : List (List Text)} {cursor next : List Nat}
    (h : advance parts cursor = some next) : movesLeft parts next < movesLeft parts cursor := by
  induction parts generalizing cursor next with
  | nil => simp [advance] at h
  | cons values rest ih =>
    cases cursor with
    | nil => simp [advance] at h
    | cons i is =>
      rcases advance_eq_some.mp h with ⟨js, hjs, rfl⟩ | ⟨_, hi, rfl⟩
      · exact Nat.add_lt_add_left (ih hjs) _
      · have hturn : values.length - 1 - i = values.length - 1 - (i + 1) + 1 := by omega
        have hstart := movesLeft_start_le rest is
        simp only [movesLeft, hturn, Nat.succ_mul]
        omega

/-- A name that is empty or was found before is passed over. -/
def addName (name : Text) (found : List Text) : List Text :=
  if name.isEmpty || found.contains name then found else found ++ [name]

/-- Adds the names of the choices from the cursor on, until `most` names are found. -/
def combineFrom (most : Nat) (parts : List (List Text)) (cursor : List Nat) (found : List Text) :
    List Text :=
  if most ≤ found.length then found
  else
    let found := addName (fullName (chosen parts cursor)) found
    match _moved : advance parts cursor with
    | some next => combineFrom most parts next found
    | none => found
termination_by movesLeft parts cursor
decreasing_by exact movesLeft_advance_lt _moved

def combineNames (parts : List (List Text)) : List Text :=
  combineFrom maxNameCombinations parts (parts.map fun _ => 0) []

def addNewNames (names : List Text) : List Property → List Property
  | [] => [⟨Text.of "name", names⟩]
  | p :: ps =>
    if p.name = Text.of "name" then
      let add (old : List Text) (name : Text) : List Text :=
        if old.contains name then old else old ++ [name]
      ⟨p.name, names.foldl add p.values⟩ :: ps
    else p :: addNewNames names ps

/-- The query with the combinations of its name parts added to its names, if it has any part. -/
def withFullNames (query : Entity) : Entity :=
  let parts := (nameParts.map query.property).filter fun values => !values.isEmpty
  if parts.isEmpty then query
  else ofEntries query.id query.schema (addNewNames (combineNames parts) query.properties)

end Screening.Entity
