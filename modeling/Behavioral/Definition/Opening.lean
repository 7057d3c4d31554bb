import Behavioral.Definition.Line
import Behavioral.Definition.Operand
import Behavioral.Fault

/-!
# The opening line

A definition opens with `.FUNC`, the function's name, and how many parameters and locals it has:
`PARAMS=2`, `LOCALS=1`. Either may be missing or repeated; the last one counts.
-/

namespace Behavioral

structure Opening where
  name : String
  params : Nat
  locals : Nat

namespace Opening

def fail {α : Type} (fault : DefinitionFault) : Except Fault α :=
  .error (.definition fault)

/-- A count may have a plus in front. -/
def count (line : Nat) (key value : String) : Except Fault Nat :=
  let digits :=
    match value.toList with
    | '+' :: rest => rest
    | rest => rest
  match indexOf? digits with
  | some n => .ok n
  | none => fail (.badCount line key value)

/-- The parts of a word before and after its first equals sign. -/
def assignment? (word : String) : Option (String × String) :=
  let key := word.toList.takeWhile (· != '=')
  match word.toList.drop key.length with
  | _ :: value => some (String.ofList key, String.ofList value)
  | [] => none

def takeWord (line : Nat) (opening : Opening) (word : String) : Except Fault Opening :=
  match assignment? word with
  | some (key, value) =>
    if sameLetters key "PARAMS" then return { opening with params := ← count line key value }
    else if sameLetters key "LOCALS" then return { opening with locals := ← count line key value }
    else fail (.unexpectedWord line word)
  | none => fail (.unexpectedWord line word)

def ofLine (line : Line) : Except Fault Opening :=
  match line.words with
  | directive :: name :: rest =>
    if sameLetters directive ".FUNC" then rest.foldlM (takeWord line.number) ⟨name, 0, 0⟩
    else fail (.noHeader line.number)
  | _ => fail (.noHeader line.number)

end Opening

end Behavioral
