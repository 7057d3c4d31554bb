import Behavioral.Expr.Item
import Behavioral.Fault

/-!
# Reduction

An expression is reduced bracket by bracket, each when it closes. Inside a bracket the runs between
commas are reduced in turn: first the leading operators, from right to left, then the joining
operators level by level, each level from left to right. What an operator makes of its operands is
left to an `Algebra`, so the same reduction builds a table of atoms, or anything else that operators
and calls can be read into. The algebra's steps happen in the order of the reduction, and the first
fault ends it.
-/

namespace Behavioral

/-- A step that changes a state of type `σ` and may fail. -/
abbrev Build (σ : Type) := StateT σ (Except Fault)

/-- What literals, names, operators and calls stand for. Positions are for faults. -/
structure Algebra (σ α : Type) where
  number : Float → Build σ α
  name : String → Build σ α
  lead : LeadOp → α → (start : Nat) → Build σ α
  join : BinaryOp → α → α → (start : Nat) → Build σ α
  /-- A call of the named function of one argument. -/
  call : UnaryOp → (name : String) → α → (start : Nat) → Build σ α
  /-- A call of the named function of a list. -/
  callList : ListOp → (name : String) → List α → (start : Nat) → Build σ α

/-- A part of the inside of a bracket. -/
inductive Part (α : Type) where
  | operand (a : α)
  | lead (op : LeadOp)
  | join (op : BinaryOp)
  | comma

/-- A part, or a bracket with the name of the function that it calls. -/
inductive Piece (α : Type) where
  | part (p : Part α)
  | opening (callee : Option (Spanned String))
  | closing

namespace Reduction

variable {σ α : Type}

def fail (fault : SyntaxFault) : Build σ α :=
  throw (.grammar fault)

/-- Reads literals and names as operands, in the order of the text; a name in front of a bracket is
the bracket's. -/
def pieces (alg : Algebra σ α) : List (Spanned Item) → Build σ (List (Spanned (Piece α)))
  | [] => return []
  | ⟨start, .name f, stop⟩ :: ⟨openStart, .opening, openStop⟩ :: rest =>
    return ⟨openStart, .opening (some ⟨start, f, stop⟩), openStop⟩ :: (← pieces alg rest)
  | ⟨start, item, stop⟩ :: rest => do
    let piece ←
      match item with
      | .number value => (.part <| .operand ·) <$> alg.number value
      | .name text => (.part <| .operand ·) <$> alg.name text
      | .lead op => pure (.part (.lead op))
      | .join op => pure (.part (.join op))
      | .comma => pure (.part .comma)
      | .opening => pure (.opening none)
      | .closing => pure .closing
    return ⟨start, piece, stop⟩ :: (← pieces alg rest)

/-- Applies every leading operator to the operand after it, the last one first. -/
def applyLeads (alg : Algebra σ α) : List (Spanned (Part α)) → Build σ (List (Spanned (Part α)))
  | [] => return []
  | ⟨start, .lead op, _⟩ :: rest => do
    match ← applyLeads alg rest with
    | ⟨_, .operand a, stop⟩ :: after =>
      return ⟨start, .operand (← alg.lead op a start), stop⟩ :: after
    | _ => fail (.signWithoutOperand start)
  | p :: rest => return p :: (← applyLeads alg rest)

/-- Applies every joining operator of one level to the operands around it, the first one first. What
has been passed is kept latest first. -/
def applyLevel (alg : Algebra σ α) (level : Nat) :
    (passed : List (Spanned (Part α))) → List (Spanned (Part α)) →
      Build σ (List (Spanned (Part α)))
  | passed, [] => return passed.reverse
  | passed, ⟨start, .join op, stop⟩ :: rest =>
    if op.level = level then
      match passed, rest with
      | ⟨first, .operand a, _⟩ :: before, ⟨_, .operand b, last⟩ :: after => do
        let c ← alg.join op a b start
        applyLevel alg level (⟨first, .operand c, last⟩ :: before) after
      | _, _ => fail (.operatorWithoutOperand start)
    else applyLevel alg level (⟨start, .join op, stop⟩ :: passed) rest
  | passed, p :: rest => applyLevel alg level (p :: passed) rest

def levels : List Nat := [0, 1, 2, 3, 4, 5, 6]

/-- Reduces a run without commas to one operand. -/
def segment (alg : Algebra σ α) (start : Nat) (parts : List (Spanned (Part α))) : Build σ α :=
  match parts with
  | [] => fail (.emptyArgument start)
  | _ => do
    let parts ← applyLeads alg parts
    let parts ← levels.foldlM (fun parts level => applyLevel alg level [] parts) parts
    match parts with
    | [⟨_, .operand a, _⟩] => return a
    | _ :: second :: _ => fail (.missingOperator second.start)
    | _ => fail (.noOperand start)

/-- Reduces the runs between commas in turn; the first starts at `start`, and `run` is what has been
read of it, latest first. -/
def segments (alg : Algebra σ α) (start : Nat) (run : List (Spanned (Part α))) :
    List (Spanned (Part α)) → Build σ (List α)
  | [] => return [← segment alg start run.reverse]
  | ⟨_, .comma, stop⟩ :: rest => do
    let a ← segment alg start run.reverse
    return a :: (← segments alg stop [] rest)
  | p :: rest => segments alg start (p :: run) rest

/-- What a bracket around the arguments stands for, with the function that it calls. -/
def bracket (alg : Algebra σ α) (callee : Option (Spanned String)) (start : Nat) :
    List α → Build σ α
  | [a] =>
    match callee with
    | none => return a
    | some f =>
      match UnaryOp.ofFunctionName? f.value with
      | some op => alg.call op f.value a start
      | none => fail (.unknownFunction f.value start)
  | args =>
    match callee with
    | none => fail (.bareList (some start))
    | some f =>
      if args.length = 2 then fail (.twoArguments f.value start)
      else
        match ListOp.ofName? f.value with
        | none => fail (.unknownFunction f.value start)
        | some op =>
          if op.takes args.length then alg.callList op f.value args start
          else fail (.wrongArgumentCount f.value start args.length)

/-- An open bracket, with what stood in front of it, latest first. -/
structure Frame (α : Type) where
  callee : Option (Spanned String)
  start : Nat
  before : List (Spanned (Part α))

/-- Where the operand that a bracket becomes starts. -/
def Frame.first (f : Frame α) : Nat :=
  match f.callee with
  | some name => name.start
  | none => f.start

/-- Reduces the pieces inside the open brackets, innermost first; `inner` is what has been read of
the innermost one, latest first. -/
def reduce (alg : Algebra σ α) :
    (outer : List (Frame α)) → (inner : List (Spanned (Part α))) →
      List (Spanned (Piece α)) → Build σ α
  | [], [], [] => fail .nothingLeft
  | [], inner, [] => do
    match ← segments alg 0 [] inner.reverse with
    | [a] => return a
    | _ => fail (.bareList none)
  | f :: _, _, [] => fail (.neverClosed f.start)
  | outer, inner, ⟨start, .opening callee, _⟩ :: rest =>
    reduce alg (⟨callee, start, inner⟩ :: outer) [] rest
  | [], _, ⟨start, .closing, _⟩ :: _ => fail (.closedTooOften start)
  | f :: outer, inner, ⟨_, .closing, stop⟩ :: rest => do
    if inner.isEmpty then fail (.emptyBrackets f.start)
    else
      let args ← segments alg f.start [] inner.reverse
      let a ← bracket alg f.callee f.start args
      reduce alg outer (⟨f.first, .operand a, stop⟩ :: f.before) rest
  | outer, inner, ⟨start, .part p, stop⟩ :: rest => reduce alg outer (⟨start, p, stop⟩ :: inner) rest

/-- Reads a whole expression. -/
def run (alg : Algebra σ α) (items : List (Spanned Item)) : Build σ α := do
  reduce alg [] [] (← pieces alg items)

end Reduction

end Behavioral
