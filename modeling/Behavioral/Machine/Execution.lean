import Behavioral.Machine.Compose
import Behavioral.Machine.Layout

/-!
# Running a function

A run keeps a stack of frames, one for each composed function that has been entered, and the memory.
A frame knows its instruction and where that instruction's segment starts in the index field; both
move together. A builtin acts on the memory through its segment; a composed function is entered with
its segment for an index field, and its caller goes on behind it. Leaving ends the innermost frame
only, and an instruction that gives no answer is never passed. A run of `n` steps is `State.run`; a
run that loops for ever has no last step, so evaluation gives it a great many and then takes the
memory as it is, without an answer.
-/

namespace Behavioral

structure Frame where
  function : Composed
  /-- Where the function's own index field starts. -/
  origin : Nat
  pc : Nat
  /-- Where the segment of the instruction at `pc` starts. -/
  base : Nat

namespace Frame

def enter (function : Composed) (origin : Nat) : Frame :=
  ⟨function, origin, 0, origin + (2 + function.paramCount)⟩

/-- Past an instruction with a segment of the given size. -/
def advance (f : Frame) (size : Nat) : Frame :=
  { f with pc := f.pc + 1, base := f.base + size }

/-- Past, or back over, the segments between the instruction and the target of its jump. -/
def jump (f : Frame) (displacement : Int) : Frame :=
  let target := ((f.pc : Int) + displacement).toNat
  let body := f.function.body
  if f.pc < target then
    { f with
      pc := target
      base := f.base + Composition.segmentsSize ((body.drop f.pc).take (target - f.pc)) }
  else
    { f with
      pc := target
      base := f.base - Composition.segmentsSize ((body.drop target).take (f.pc - target)) }

/-- The frames after an instruction of `f` with a segment of the given size. -/
def follow (f : Frame) (size : Nat) (outer : List Frame) : Control → List Frame
  | .next => f.advance size :: outer
  | .leave => outer
  | .jump displacement =>
    if displacement = 0 then f.advance size :: outer else f.jump displacement :: outer
  | .stuck => f :: outer

end Frame

/-- The header at a place in an index field. -/
def headerAt (field : Array Nat) (base size : Nat) : Header :=
  Header.ofList (field.extract base (base + size)).toList

structure State where
  frames : List Frame
  memory : Memory

namespace State

/-- One instruction, or the end of a frame that has none left. -/
def step (field : Array Nat) (s : State) : State :=
  match s.frames with
  | [] => s
  | f :: outer =>
    match f.function.body[f.pc]? with
    | none => { s with frames := outer }
    | some i =>
      match i.callee with
      | .builtin b =>
        let (control, memory) :=
          b.run i.constants i.jump (headerAt field f.base b.fieldSize) s.memory
        ⟨f.follow b.fieldSize outer control, memory⟩
      | .composed c =>
        { s with frames := Frame.enter c f.base :: f.advance c.fieldSize :: outer }

/-- At most `n` steps; fewer if no frame is left. -/
def run (field : Array Nat) : Nat → State → State
  | 0, s => s
  | n + 1, s => if s.frames.isEmpty then s else run field n (s.step field)

end State

namespace Function

/-- How many steps an evaluation gets. -/
def stepLimit : Nat := Nat.pow 2 62

/-- Evaluates a function whose index field has been filled. -/
def evaluate (f : Function) (field : Array Nat) (constants : List Float) (jump : Option Int)
    (m : Memory) : Control × Memory :=
  match f with
  | .builtin b => b.run constants jump (headerAt field 0 b.fieldSize) m
  | .composed c =>
    let s := State.run field stepLimit ⟨[Frame.enter c 0], m⟩
    (if s.frames.isEmpty then .next else .stuck, s.memory)

end Function

end Behavioral
