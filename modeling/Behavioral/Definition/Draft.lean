import Behavioral.Definition.Opening

/-!
# Reading a body

Each line of a body is labels and then an instruction: the name of a function, its result and its
operands. A builtin that writes no result takes none, and a jump takes a label last. Numbers at the
end are the constants of an instruction that carries constants. Anywhere else a number stands for a
hidden local behind the declared ones, one for each bit pattern, which an instruction ahead of the
body loads.
-/

namespace Behavioral

/-- An instruction as it was read, with the label that it jumps to. -/
structure DraftLine where
  number : Nat
  instruction : Instruction Function
  label : Option String

/-- What has been read of a body. -/
structure Draft where
  /-- Labels in capitals, with the number of instructions before each. -/
  labels : List (String × Nat) := []
  lines : List DraftLine := []
  /-- The values of the hidden locals. -/
  literals : List Float := []

namespace Draft

def fail {α : Type} (fault : DefinitionFault) : Except Fault α :=
  .error (.definition fault)

/-- The index of a literal among the hidden locals, where it is added if it is new. -/
def literalIndex (literals : List Float) (value : Float) : Nat × List Float :=
  match literals.findIdx? (·.toBits == value.toBits) with
  | some k => (k, literals)
  | none => (literals.length, literals ++ [value])

/-- How the operands of a function are written. -/
structure Form where
  writesResult : Bool
  jumps : Bool
  takesConstants : Bool

def Form.of : Function → Form
  | .builtin b => ⟨b.writesResult, b.jumps, b.constants != .none⟩
  | .composed _ => ⟨true, false, false⟩

/-- The operands and constants of an instruction, as far as they have been read. -/
structure Reading where
  operands : List Operand
  constants : List Float
  literals : List Float

def takeOperand (line firstLocal : Nat) (form : Form) (r : Reading) (word : String) :
    Except Fault Reading :=
  match Operand.ofWord? word with
  | some operand =>
    if !operand.fitsWord then .error (.breakdown .countTooLarge)
    else if r.constants.isEmpty then .ok { r with operands := r.operands ++ [operand] }
    else fail (.operandAfterConstant line word)
  | none =>
    match literal? word with
    | some value =>
      if form.takesConstants then .ok { r with constants := r.constants ++ [value] }
      else if r.operands.isEmpty then fail (.resultInLiteral line word)
      else
        let (k, literals) := literalIndex r.literals value
        .ok { r with operands := r.operands ++ [.localCell (firstLocal + k)], literals }
    | none => fail (.badOperand line word)

/-- The operands without the label of a jump, and the label. -/
def splitLabel (line : Nat) (form : Form) (operands : List String) :
    Except Fault (List String × Option String) :=
  if form.jumps then
    match operands.getLast? with
    | some label => .ok (operands.dropLast, some label)
    | none => fail (.missingLabel line)
  else .ok (operands, none)

/-- Reads the operands of an instruction that calls `callee`. -/
def readInstruction (firstLocal : Nat) (literals : List Float) (line : Nat) (callee : Function)
    (operands : List String) : Except Fault (DraftLine × List Float) := do
  let form := Form.of callee
  let (operands, label) ← splitLabel line form operands
  let start : Reading := ⟨if form.writesResult then [] else [.caller 0], [], literals⟩
  let r ← operands.foldlM (takeOperand line firstLocal form) start
  return (⟨line, ⟨callee, r.operands, r.constants, none⟩, label⟩, r.literals)

/-- The label that a word defines. -/
def label? (word : String) : Option String :=
  match word.toList.reverse with
  | ':' :: rest => some (String.ofList rest.reverse)
  | _ => none

/-- Takes the labels in front of the words, and returns the words behind them. -/
def takeLabels (line : Nat) (d : Draft) : List String → Except Fault (Draft × List String)
  | [] => .ok (d, [])
  | word :: rest =>
    match label? word with
    | none => .ok (d, word :: rest)
    | some label =>
      if (d.labels.lookup (capitals label)).isSome then fail (.duplicateLabel line label)
      else takeLabels line { d with labels := (capitals label, d.lines.length) :: d.labels } rest

/-- Takes a line of the body; `resolve` finds the function that a name calls. -/
def takeLine (resolve : (line : Nat) → (name : String) → Except Fault Function) (firstLocal : Nat)
    (d : Draft) (line : Line) : Except Fault Draft := do
  match ← takeLabels line.number d line.words with
  | (d, []) => return d
  | (d, name :: operands) =>
    let callee ← resolve line.number name
    let (read, literals) ← readInstruction firstLocal d.literals line.number callee operands
    return { d with lines := d.lines ++ [read], literals }

def isEnd (line : Line) : Bool :=
  sameLetters (String.ofList line.text) ".ENDF"

/-- Takes lines up to the end of the body; nothing may follow it. -/
def takeLines (resolve : (line : Nat) → (name : String) → Except Fault Function)
    (opening : Opening) (d : Draft) : List Line → Except Fault Draft
  | [] => fail (.noEnd opening.name)
  | line :: rest =>
    if isEnd line then
      match rest with
      | [] => .ok d
      | after :: _ => fail (.afterEnd after.number (String.ofList after.text))
    else do
      takeLines resolve opening (← takeLine resolve opening.locals d line) rest

/-- The instructions that load the hidden locals. -/
def loads (firstLocal : Nat) (literals : List Float) : List (Instruction Function) :=
  literals.zipIdx.map fun (value, k) =>
    ⟨.builtin .constant, [.localCell (firstLocal + k)], [value], none⟩

/-- Places in a body are words of 32 bits with a sign. -/
def placeLimit : Nat := Nat.pow 2 31

/-- The displacement of a jump from one place of a body to another. -/
def displacement (pc target : Nat) : Except Fault Int :=
  if pc < placeLimit ∧ target < placeLimit then .ok ((target : Int) - pc)
  else .error (.breakdown .countTooLarge)

/-- The instruction of line `pc`, with its jump settled. -/
def settleJump (labels : List (String × Nat)) (pc : Nat) (line : DraftLine) :
    Except Fault (Instruction Function) :=
  match line.label with
  | none => .ok line.instruction
  | some label =>
    match labels.lookup (capitals label) with
    | some target =>
      (displacement pc target).map fun d => { line.instruction with jump := some d }
    | none => fail (.unknownLabel line.number label)

/-- The instructions of the lines from the `pc`th on, with their jumps settled. -/
def settleJumps (labels : List (String × Nat)) :
    (pc : Nat) → List DraftLine → Except Fault (List (Instruction Function))
  | _, [] => .ok []
  | pc, line :: rest => do
    let i ← settleJump labels pc line
    return i :: (← settleJumps labels (pc + 1) rest)

/-- Whether the first line refers to an instruction before it. -/
def leadsWithPrevious (d : Draft) : Bool :=
  match d.lines with
  | [] => false
  | line :: _ => line.instruction.operands.any Operand.isPrevious

/-- The whole body: the loads, which must not become the instruction that the first line refers to,
and then the lines. -/
def instructions (opening : Opening) (d : Draft) : Except Fault (List (Instruction Function)) :=
  if d.leadsWithPrevious && !d.literals.isEmpty then fail (.leadingPrevious opening.name)
  else do
    return loads opening.locals d.literals ++ (← settleJumps d.labels 0 d.lines)

end Draft

end Behavioral
