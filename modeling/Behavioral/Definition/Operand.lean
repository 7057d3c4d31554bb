import Behavioral.Machine.Function
import Behavioral.Token.Scanner

/-!
# Operands in words

`RET` is the function's result, `P0`, `P1`, … its parameters, `V0`, `V1`, … its locals, `F0`, `F1`,
… the slots of the instruction before, of which `FRET` is the first. Any other operand is a literal:
a signed number as expressions write it, with its suffix, or a named constant.
-/

namespace Behavioral

/-- The number that digits spell, if there are any and it fits a word. -/
def indexOf? (digits : List Char) : Option Nat :=
  if !digits.isEmpty && digits.all isAsciiDigit && decide (digitsValue digits < wordLimit) then
    some (digitsValue digits)
  else none

namespace Operand

/-- The operand that a letter and an index name. -/
def ofLetter? (letter : Char) (index : Nat) : Option Operand :=
  match capital letter with
  | 'P' => some (.caller (2 + index))
  | 'V' => some (.localCell index)
  | 'F' => some (.previous index)
  | _ => none

def ofWord? (word : String) : Option Operand :=
  if sameLetters word "RET" then some (.caller 0)
  else if sameLetters word "FRET" then some (.previous 0)
  else
    match word.toList with
    | letter :: digits => (indexOf? digits).bind (ofLetter? letter)
    | [] => none

def isPrevious : Operand → Bool
  | previous _ => true
  | _ => false

/-- Whether the slot of an operand can be counted: that of a parameter is two more than its
index. -/
def fitsWord : Operand → Bool
  | caller slot => decide (slot < wordLimit)
  | _ => true

end Operand

/-- The single number that a text consists of. -/
def onlyNumber? (text : List Char) : Option Float :=
  match tokenize (String.ofList text) {} with
  | .ok [⟨_, .number value, _⟩] => some value
  | _ => none

def literal? (word : String) : Option Float :=
  match word.toList with
  | '-' :: rest => (onlyNumber? rest).map (-1 * ·)
  | '+' :: rest => onlyNumber? rest
  | rest => onlyNumber? rest

end Behavioral
