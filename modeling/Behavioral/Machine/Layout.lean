import Behavioral.Machine.Function

/-!
# The index field

An activation of a function has an index field: the offsets of its header, and behind it one segment
for each instruction, which is the index field of the callee. Every offset is settled once, before
the function runs. A function's private cells are its locals and then the private cells of each
instruction, in the order of the text.
-/

namespace Behavioral

/-- The offset of an operand, in a function with the header `own` whose private cells start at
`storage`. -/
def Operand.offset (own : List Nat) (storage : Nat) (segment : List Nat) : Operand → Nat
  | caller slot => own[slot]?.getD 0
  | localCell index => storage + index
  | previous slot => segment[slot]?.getD 0

/-- A callee's header: the result first, then the start of its private cells, then the operands. -/
def headerOffsets (privateStart : Nat) : List Nat → List Nat
  | [] => [0, privateStart]
  | result :: operands => result :: privateStart :: operands

mutual

/-- The index field of a function with the given header. -/
def Function.layout : Function → List Nat → List Nat
  | .builtin _, own => own
  | .composed ⟨_, _, localCount, body, _, _⟩, own =>
    let storage := own[1]?.getD 0
    own ++ layoutBody body own storage (storage + localCount) []

/-- The segments of instructions whose private cells start at `privateStart`; `segment` is the one
before. -/
def layoutBody : List (Instruction Function) → (own : List Nat) → (storage privateStart : Nat) →
    (segment : List Nat) → List Nat
  | [], _, _, _, _ => []
  | ⟨callee, operands, _, _⟩ :: rest, own, storage, privateStart, segment =>
    let header := headerOffsets privateStart (operands.map (·.offset own storage segment))
    let next := callee.layout header
    next ++ layoutBody rest own storage (privateStart + callee.storageSize) next

end

/-- The index field of a function whose header is given in full or in part; missing offsets are
zero. -/
def Function.fill (f : Function) (offsets : List Nat) : List Nat :=
  f.layout ((offsets ++ List.replicate f.headerSize 0).take f.headerSize)

end Behavioral
