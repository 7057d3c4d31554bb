import Behavioral.Text.Blank

/-!
# Lines of a definition

A definition is read line by line. What follows a semicolon is a comment, blanks at either end do
not count, and a line that is blank or starts with a star is skipped. Lines keep the numbers that
they have in the text, counted from one. Words are separated by blanks and commas.
-/

namespace Behavioral

/-- A line that says something. -/
structure Line where
  number : Nat
  text : List Char

namespace Line

def splitLines : List Char → List (List Char)
  | [] => [[]]
  | c :: rest =>
    if c == '\n' then [] :: splitLines rest
    else
      match splitLines rest with
      | [] => [[c]]
      | line :: lines => (c :: line) :: lines

/-- The line without its comment and the blanks around it. -/
def content (line : List Char) : List Char :=
  trimBlanks (line.takeWhile (· != ';'))

def isSkipped (content : List Char) : Bool :=
  match content with
  | [] => true
  | c :: _ => c == '*'

/-- The lines that say something, numbered from `number` on. -/
def keep (number : Nat) : List (List Char) → List Line
  | [] => []
  | line :: rest =>
    if isSkipped (content line) then keep (number + 1) rest
    else ⟨number, content line⟩ :: keep (number + 1) rest

def ofText (text : String) : List Line :=
  keep 1 (splitLines text.toList)

def words (line : Line) : List String :=
  (splitWords (fun c => isBlank c || c == ',') line.text).map String.ofList

end Line

end Behavioral
