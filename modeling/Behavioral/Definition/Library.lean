import Behavioral.Definition.Draft
import Behavioral.Machine.Compose

/-!
# A library of functions

Defined functions are kept by their names in capitals, and later definitions call them by name in
any letter case. A name that starts with an underscore is always a builtin's. Definitions look like
this:

    .FUNC triangle PARAMS=1 LOCALS=1
    * a wave of period one that rises to one and falls back to zero
            _FLOOR V0 P0
            _SUB   RET P0 V0     ; the part of the period gone by
            _JLE   RET 0.5 rising
            _SUB   RET 1 RET
    rising: _MUL   RET RET 2
    .ENDF
-/

namespace Behavioral

structure Library where
  /-- By their names in capitals. -/
  functions : List (String × Composed) := []

namespace Library

def get? (l : Library) (name : String) : Option Composed :=
  l.functions.lookup (capitals name)

def size (l : Library) : Nat :=
  l.functions.length

/-- The function that a name calls. -/
def resolve (l : Library) (line : Nat) (name : String) : Except Fault Function :=
  let found :=
    if name.toList.head? == some '_' then (Builtin.ofMnemonic? name).map .builtin
    else (l.get? name).map .composed
  match found with
  | some f => .ok f
  | none => .error (.definition (.unknownMnemonic line name))

/-- Reads and composes a definition. -/
def parse (l : Library) (text : String) : Except Fault Composed := do
  match Line.ofText text with
  | [] => throw (.definition .empty)
  | first :: rest =>
    let opening ← Opening.ofLine first
    let draft ← Draft.takeLines l.resolve opening {} rest
    let body ← draft.instructions opening
    Composition.compose opening.name (opening.locals + draft.literals.length) opening.params body

/-- Reads a definition and keeps its function, unless one of that name is there. -/
def define (l : Library) (text : String) : Except Fault (Composed × Library) := do
  let f ← l.parse text
  if (l.get? f.name).isSome then throw (.definition (.duplicateFunction f.name))
  else return (f, { l with functions := (capitals f.name, f) :: l.functions })

end Library

end Behavioral
