import Screening.Phonetic.Letter

namespace Screening.Phonetic

open Letter

def consonantClass : UInt8 → UInt8
  | B | F | P | V => 49
  | C | G | J | K | Q | S | X | Z => 50
  | D | T => 51
  | L => 52
  | M | N => 53
  | R => 54
  | _ => 48

/-- The class digits of the letters after one of class `last`, at most `room` of them. A digit equal
to the one before it is passed over, and H and W do not part letters of one class. -/
def classesFrom (last : UInt8) : Nat → Text → Text
  | _, [] => []
  | 0, _ => []
  | room + 1, c :: rest =>
    let class' := consonantClass c
    let last' := if c == H || c == W then last else class'
    if class' != 48 && class' != last then class' :: classesFrom last' room rest
    else classesFrom last' (room + 1) rest

def soundex (word : Text) : Text :=
  match letters word with
  | [] => []
  | first :: rest =>
    let classes := classesFrom (consonantClass first) 3 rest
    first :: (classes ++ List.replicate (3 - classes.length) 48)

end Screening.Phonetic
