import Screening.Sorting
import Screening.Text

namespace Screening

structure Replacer.Row where
  pattern : Text
  replacement : Text
  deriving DecidableEq, Repr

structure Replacer where
  rows : List Replacer.Row
  deriving DecidableEq, Repr

namespace Replacer

/-- Longer patterns are tried first, those of one length in the order given. -/
def ofRows (rows : List Row) : Replacer :=
  ⟨Sorting.sort (fun a b => b.pattern.length ≤ a.pattern.length) rows⟩

def ofStrings (rows : List (String × String)) : Replacer :=
  ofRows (rows.map fun row => ⟨Text.of row.1, Text.of row.2⟩)

/-- An ASCII byte that is neither a letter nor a digit parts words. -/
def isBreak (b : UInt8) : Bool := b < 128 && !Byte.isAlphanum b

def atBreak : Text → Bool
  | [] => true
  | b :: _ => isBreak b

def Row.fits (row : Row) (t : Text) : Bool :=
  row.pattern.isPrefixOf t && atBreak (t.drop row.pattern.length)

/-- Replaces in a text of which the first `skip` bytes are already replaced; `fresh` tells whether a
word may start at its first byte. -/
def replaceFrom (rows : List Row) : (fresh : Bool) → (skip : Nat) → Text → Text
  | _, _, [] => []
  | _, skip + 1, b :: rest => replaceFrom rows (isBreak b) skip rest
  | fresh, 0, b :: rest =>
    if fresh && !isBreak b then
      match rows.find? fun row => row.fits (b :: rest) with
      | some row => row.replacement ++ replaceFrom rows (isBreak b) (row.pattern.length - 1) rest
      | none => b :: replaceFrom rows (isBreak b) 0 rest
    else b :: replaceFrom rows (isBreak b) 0 rest

def apply (replacer : Replacer) (t : Text) : Text := replaceFrom replacer.rows true 0 t

end Replacer

end Screening
