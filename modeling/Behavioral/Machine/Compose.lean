import Behavioral.Fault
import Behavioral.Machine.Function

/-!
# Composing

Every instruction of a new function is checked in turn: the number of its operands, where each of
them lives, its jump, and its constants. A jump goes to an instruction of the same body or just past
its end, and not to itself. Nothing is checked again when the function runs. The sizes of the new
function are words, and adding them up breaks down where one does not fit.
-/

namespace Behavioral

namespace Operand

/-- The fault of an operand of instruction `pc` of function `name`; `previous` is the size of the
segment of the instruction before. -/
def fault? (name : String) (paramCount localCount pc : Nat) (previous : Option Nat) :
    Operand → Option CompositionFault
  | caller slot =>
    if slot = 0 ∨ (2 ≤ slot ∧ slot < 2 + paramCount) then none else some (.callerSlot name pc slot)
  | localCell index =>
    if index < localCount then none else some (.localIndex name pc index localCount)
  | .previous slot =>
    match previous with
    | none => some (.noPrevious name)
    | some size => if slot < size then none else some (.previousSlot name pc slot size)

end Operand

namespace Instruction

/-- The fault of an instruction's jump, in a body of `length` instructions. -/
def jumpFault? (name : String) (length pc : Nat) (i : Instruction Function) :
    Option CompositionFault :=
  match i.callee.jumps, i.jump with
  | true, some d =>
    let target := (pc : Int) + d
    if d = 0 ∨ target < 0 ∨ (length : Int) < target then some (.jumpRange name pc d length) else none
  | true, none => some (.jumpMissing name pc)
  | false, some _ => some (.cannotJump name pc i.callee.name)
  | false, none => none

/-- The first fault of an instruction. -/
def fault? (name : String) (paramCount localCount length pc : Nat) (previous : Option Nat)
    (i : Instruction Function) : Option CompositionFault :=
  let expected := 1 + i.callee.paramCount
  if i.operands.length ≠ expected then
    some (.arity name pc i.callee.name i.operands.length expected)
  else
    match i.operands.findSome? (Operand.fault? name paramCount localCount pc previous) with
    | some fault => some fault
    | none =>
      match i.jumpFault? name length pc with
      | some fault => some fault
      | none =>
        if i.callee.acceptsConstants i.constants.length then none
        else some (.constants name pc i.callee.name i.constants.length)

end Instruction

namespace Composition

/-- The first fault of the instructions from `pc` on. -/
def bodyFault? (name : String) (paramCount localCount length : Nat) :
    (pc : Nat) → (previous : Option Nat) → List (Instruction Function) → Option CompositionFault
  | _, _, [] => none
  | pc, previous, i :: rest =>
    match i.fault? name paramCount localCount length pc previous with
    | some fault => some fault
    | none =>
      bodyFault? name paramCount localCount length (pc + 1) (some i.callee.fieldSize) rest

/-- The sizes of the segments of a body, added up. -/
def segmentsSize (body : List (Instruction Function)) : Nat :=
  (body.map (·.callee.fieldSize)).foldr (· + ·) 0

def privateSize (body : List (Instruction Function)) : Nat :=
  (body.map (·.callee.storageSize)).foldr (· + ·) 0

/-- The function that runs the instructions in sequence. -/
def compose (name : String) (localCount paramCount : Nat) (body : List (Instruction Function)) :
    Except Fault Composed :=
  match bodyFault? name paramCount localCount body.length 0 none body with
  | some fault => .error (.composition fault)
  | none =>
    let fieldSize := 2 + paramCount + segmentsSize body
    let storageSize := localCount + privateSize body
    if fieldSize < wordLimit ∧ storageSize < wordLimit then
      .ok { name, paramCount, localCount, body, fieldSize, storageSize }
    else .error (.breakdown .countTooLarge)

end Composition

end Behavioral
