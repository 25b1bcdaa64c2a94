import Screening.Text.Words

namespace Screening

inductive ConfigLine
  | header (name : Text)
  | assignment (key value : Text)
  | nothing
  deriving DecidableEq, Repr

namespace ConfigLine

/-- The text in front of the first number sign outside of double quotes. -/
def uncomment : (quoted : Bool) → Text → Text
  | _, [] => []
  | quoted, b :: rest =>
    if b == 34 then b :: uncomment (!quoted) rest
    else if b == 35 && !quoted then []
    else b :: uncomment quoted rest

def assignmentOf (line : Text) : ConfigLine :=
  match line.dropWhile (· != 61) with
  | [] => nothing
  | _ :: value =>
    assignment (Text.trim (line.takeWhile (· != 61))) (uncomment false (Text.trim value)).trim

/-- A section opens with a bracket; what follows its closing bracket is passed over. -/
def ofText (line : Text) : ConfigLine :=
  match line.trim with
  | [] => nothing
  | 35 :: _ => nothing
  | 91 :: rest =>
    if rest.contains 93 then header (Text.trim (rest.takeWhile (· != 93))) else nothing
  | b :: rest => assignmentOf (b :: rest)

end ConfigLine

namespace ConfigFile

def unquote (t : Text) : Text :=
  match t.trim with
  | first :: second :: rest =>
    if (first == 34 || first == 39) && (second :: rest).getLast? == some first then
      (second :: rest).dropLast
    else first :: second :: rest
  | t => t

/-- The value of the first line that assigns a key, in its section or under its dotted name, where
`inside` tells whether the section is open. -/
def find? (name key : Text) : (inside : Bool) → List ConfigLine → Option Text
  | _, [] => none
  | _, .header opened :: lines => find? name key (name.isEmpty || opened == name) lines
  | inside, .assignment k v :: lines =>
    if inside && k == key || !name.isEmpty && k == name ++ 46 :: key then some (unquote v)
    else find? name key inside lines
  | inside, .nothing :: lines => find? name key inside lines

def lines (text : Text) : List ConfigLine := (text.pieces 10).map ConfigLine.ofText

def value (text name key : Text) : Text := (find? name key name.isEmpty (lines text)).getD []

def unbracket (t : Text) : Text :=
  match t with
  | 91 :: rest => if rest.getLast? == some 93 then rest.dropLast else t
  | _ => t

/-- The items of a list, in brackets or bare, each trimmed and unquoted. Empty items are left
out. -/
def list (t : Text) : List Text :=
  ((unbracket t.trim).pieces 44 |>.map unquote).filter fun item => !item.isEmpty

end ConfigFile

end Screening
