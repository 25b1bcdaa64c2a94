import Screening.Phonetic.Letter

namespace Screening.Phonetic

open Letter

def isVowel (c : UInt8) : Bool := [A, E, I, O, U].contains c

def softens (c : UInt8) : Bool := [E, I, Y].contains c

def swallowsH (c : UInt8) : Bool := [C, S, P, T, G].contains c

/-- KN, GN, PN, AE and WR lose their first letter at the start of a word, WH is W and X is S. -/
def opening : Text → Text
  | K :: N :: rest => N :: rest
  | G :: N :: rest => N :: rest
  | P :: N :: rest => N :: rest
  | A :: E :: rest => E :: rest
  | W :: R :: rest => R :: rest
  | W :: H :: rest => W :: rest
  | X :: c :: rest => S :: c :: rest
  | word => word

def headIs (inside : UInt8 → Bool) : Text → Bool
  | [] => false
  | c :: _ => inside c

def soundOfC (before : Option UInt8) (after : Text) : Text :=
  let soft := headIs softens after
  let afterS := before == some S
  let withH := headIs (· == H) after
  if afterS && soft then []
  else if [I, A].isPrefixOf after then [X]
  else if soft then [S]
  else if afterS && withH then [K]
  else if withH then
    if before.isNone && headIs isVowel (after.drop 1) then [K] else [X]
  else [K]

def isDge (after : Text) : Bool := headIs (· == G) after && headIs softens (after.drop 1)

def soundOfG (before : Option UInt8) (after : Text) : Text :=
  if headIs (· == H) after && !headIs isVowel (after.drop 1) then []
  else if before.isSome && headIs (· == N) after then []
  else if headIs softens after && before != some G then [J]
  else [K]

def soundOfH (before : Option UInt8) (after : Text) : Text :=
  if before.any swallowsH then []
  else if headIs isVowel after then [H]
  else []

def soundOfS (after : Text) : Text :=
  if [H].isPrefixOf after || [I, O].isPrefixOf after || [I, A].isPrefixOf after then [X] else [S]

def soundOfT (after : Text) : Text :=
  if [I, A].isPrefixOf after || [I, O].isPrefixOf after then [X]
  else if [C, H].isPrefixOf after then []
  else if [H].isPrefixOf after then [48]
  else [T]

/-- The sound of a letter between the letter before it, if any, and the letters after it. -/
def sound (before : Option UInt8) (c : UInt8) (after : Text) : Text :=
  match c with
  | A | E | I | O | U => if before.isNone then [c] else []
  | B => if before == some M && after.isEmpty then [] else [B]
  | C => soundOfC before after
  | D => if isDge after then [J] else [T]
  | G => soundOfG before after
  | H => soundOfH before after
  | F | J | L | M | N | R => [c]
  | K => if before == some C then [] else [K]
  | P => if headIs (· == H) after then [F] else [P]
  | Q => [K]
  | S => soundOfS after
  | T => soundOfT after
  | V => [F]
  | W | Y => if headIs isVowel after then [c] else []
  | X => [K, S]
  | Z => [S]
  | _ => []

/-- The sounds of the letters after `before`, until `room` bytes are written; the first `skip`
letters are already part of a sound, and a doubled letter other than C counts once. -/
def soundsFrom : (room : Nat) → (before : Option UInt8) → (skip : Nat) → Text → Text
  | _, _, _, [] => []
  | 0, _, _, _ => []
  | room + 1, _, skip + 1, c :: after => soundsFrom (room + 1) (some c) skip after
  | room + 1, before, 0, c :: after =>
    if c != C && before == some c then soundsFrom (room + 1) (some c) 0 after
    else
      let written := (sound before c after).take (room + 1)
      let skip := if c == D && isDge after then 2 else 0
      written ++ soundsFrom (room + 1 - written.length) (some c) skip after

def keyLength : Nat := 4

/-- The key of a word, at most `room` bytes long; a word of a single letter is its own key. -/
def metaphone (word : Text) (room : Nat) : Text :=
  match letters word with
  | [] => []
  | [c] => [c]
  | word => soundsFrom room none 0 (opening word)

end Screening.Phonetic
