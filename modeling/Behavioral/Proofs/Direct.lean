import Behavioral.Machine.Execution
import Mathlib

/-!
# Running a function without an index field

A frame keeps the header of its function and an instruction number. Where an instruction's operands
live is worked out when the instruction runs: a slot of the caller is one of the frame's own header,
a local lies behind the function's private base, and a slot of the instruction before in the text is
one of its record, that is, of its header and of the records of the instructions inside it. Private
cells are handed out in the order of the text, behind the locals.

A `trace` is what a run does, one builtin after the other, each with the cells that it works on.
-/

namespace Behavioral

namespace Direct

/-- The cell of an operand in a function with the header `own`; `previous` tells the slots of the
instruction before. -/
def resolve (own : List Nat) (previous : Nat → Nat) : Operand → Nat
  | .caller slot => own[slot]?.getD 0
  | .localCell index => own[1]?.getD 0 + index
  | .previous slot => previous slot

/-- The header of an instruction whose private cells start at `privateBase`. -/
def header (own : List Nat) (privateBase : Nat) (previous : Nat → Nat) (i : Instruction Function) :
    List Nat :=
  headerOffsets privateBase (i.operands.map (resolve own previous))

mutual

/-- A slot of the record of a function with the header `own`. -/
def slot : Function → (own : List Nat) → Nat → Nat
  | .builtin _, own, s => own[s]?.getD 0
  | .composed ⟨_, _, localCount, body, _, _⟩, own, s =>
    if s < own.length then own[s]?.getD 0
    else slotIn own (own[1]?.getD 0 + localCount) (fun _ => 0) body (s - own.length)

/-- A slot of the records of instructions whose private cells start at `privateBase`. -/
def slotIn (own : List Nat) (privateBase : Nat) (previous : Nat → Nat) :
    List (Instruction Function) → Nat → Nat
  | [], _ => 0
  | ⟨callee, operands, _, _⟩ :: rest, s =>
    let header := headerOffsets privateBase (operands.map (resolve own previous))
    if s < callee.fieldSize then slot callee header s
    else slotIn own (privateBase + callee.storageSize) (slot callee header) rest
      (s - callee.fieldSize)

end

/-- The headers of instructions in turn. -/
def headers (own : List Nat) : (privateBase : Nat) → (previous : Nat → Nat) →
    List (Instruction Function) → List (List Nat)
  | _, _, [] => []
  | privateBase, previous, i :: rest =>
    let h := header own privateBase previous i
    h :: headers own (privateBase + i.callee.storageSize) (slot i.callee h) rest

structure Frame where
  function : Composed
  header : List Nat
  pc : Nat

namespace Frame

/-- The header of the instruction that the frame is at. -/
def calleeHeader (f : Frame) : List Nat :=
  let own := f.header
  let privateBase := own[1]?.getD 0 + f.function.localCount
  ((headers own privateBase (fun _ => 0) f.function.body)[f.pc]?).getD []

def follow (f : Frame) (outer : List Frame) : Control → List Frame
  | .next => { f with pc := f.pc + 1 } :: outer
  | .leave => outer
  | .jump displacement => { f with pc := ((f.pc : Int) + displacement).toNat } :: outer
  | .stuck => f :: outer

end Frame

structure State where
  frames : List Frame
  memory : Memory

namespace State

/-- One instruction, or the end of a frame that has none left. -/
def step (s : State) : State :=
  match s.frames with
  | [] => s
  | f :: outer =>
    match f.function.body[f.pc]? with
    | none => { s with frames := outer }
    | some i =>
      match i.callee with
      | .builtin b =>
        let (control, memory) := b.run i.constants i.jump (.ofList f.calleeHeader) s.memory
        ⟨f.follow outer control, memory⟩
      | .composed c =>
        { s with frames := ⟨c, f.calleeHeader, 0⟩ :: { f with pc := f.pc + 1 } :: outer }

/-- The builtin that runs next, with the cells that it works on. -/
def event? (s : State) : Option (Builtin × Header) :=
  match s.frames with
  | [] => none
  | f :: _ =>
    match f.function.body[f.pc]? with
    | some ⟨.builtin b, _, _, _⟩ => some (b, .ofList f.calleeHeader)
    | _ => none

def run : Nat → State → State
  | 0, s => s
  | n + 1, s => run n s.step

end State

end Direct

/-- The events of the first steps of a run. -/
def trace {σ ε : Type} (step : σ → σ) (event? : σ → Option ε) : Nat → σ → List ε
  | 0, _ => []
  | n + 1, s => (event? s).toList ++ trace step event? n (step s)

/-- The builtin that runs next, with the cells that the index field gives it. -/
def State.event? (field : Array Nat) (s : State) : Option (Builtin × Header) :=
  match s.frames with
  | [] => none
  | f :: _ =>
    match f.function.body[f.pc]? with
    | some ⟨.builtin b, _, _, _⟩ => some (b, headerAt field f.base b.fieldSize)
    | _ => none

end Behavioral
