import Behavioral.Expr.Atom
import Behavioral.Expr.Reduction

/-!
# Assembling atoms

The algebra whose operands are atoms of a growing table. Equal subexpressions share an atom, a
double negation is its operand, a power with constant exponent two is a square, and a constant
divisor may not be zero. Arithmetic takes numbers, logic takes truth values, and equality takes two
of a kind. When folding is on, an operator on constants carries its value; functions of a list never
do.
-/

namespace Behavioral.Assembly

def addAtom (atom : Atom) : Build AtomTable AtomId := fun table =>
  table.intern atom

def atomAt (id : AtomId) : Build AtomTable Atom := do
  return (← get).get id

def fail {α : Type} (fault : Fault) : Build AtomTable α :=
  throw fault

/-- What an operator folds to, from the values of its operands. -/
def foldedValue (op : Op) (a : Option Float) (b : Option (Option Float)) : Option Float :=
  match a, b with
  | some x, none => some (op.apply1 x)
  | some x, some (some y) => some (op.apply2 x y)
  | _, _ => none

def applyOp (fold : Bool) (op : Op) (a : AtomId) (b : Option AtomId) (isBoolean : Bool) :
    Build AtomTable AtomId := do
  let table ← get
  let constant id := (table.get id).constant?
  let folded := if fold then foldedValue op (constant a) (b.map constant) else none
  addAtom (.apply op a b folded isBoolean)

/-- The operand of an application of the given operator. -/
def operandOf? (op : UnaryOp) : Atom → Option AtomId
  | .apply (.unary op') a none _ _ => if op' = op then some a else none
  | _ => none

def applyLead (fold : Bool) (op : LeadOp) (a : AtomId) (start : Nat) : Build AtomTable AtomId := do
  let atom ← atomAt a
  match op with
  | .not =>
    if !atom.isBoolean then fail (.typing (.notNeedsBoolean start))
    else
      match operandOf? .not atom with
      | some inner => return inner
      | none => applyOp fold (.unary .not) a none true
  | .negate =>
    if atom.isBoolean then fail (.typing (.minusNeedsNumber start))
    else
      match operandOf? .neg atom with
      | some inner => return inner
      | none => applyOp fold (.unary .neg) a none false

/-- The types that an operator takes; the fault if these are others. -/
def typeFault? (op : BinaryOp) (aIsBoolean bIsBoolean : Bool) (start : Nat) : Option TypeFault :=
  match op with
  | .eq | .neq => if aIsBoolean != bIsBoolean then some (.mixedEquality start) else none
  | .and | .or => if aIsBoolean && bIsBoolean then none else some (.logicOnNumber start)
  | _ => if aIsBoolean || bIsBoolean then some (.arithmeticOnBoolean start) else none

def isConstant (atom : Atom) (value : Float) : Bool :=
  match atom.constant? with
  | some x => x == value
  | none => false

def applyJoin (fold : Bool) (op : BinaryOp) (a b : AtomId) (start : Nat) :
    Build AtomTable AtomId := do
  let left ← atomAt a
  let right ← atomAt b
  match typeFault? op left.isBoolean right.isBoolean start with
  | some fault => fail (.typing fault)
  | none =>
    if op = .pow && isConstant right 2 then applyOp fold (.unary .square) a none false
    else if op = .div && isConstant right 0 then fail (.arithmetic (.divisionByZero start))
    else applyOp fold (.binary op) a (some b) op.isBoolean

def applyCall (fold : Bool) (op : UnaryOp) (name : String) (a : AtomId) (start : Nat) :
    Build AtomTable AtomId := do
  if (← atomAt a).isBoolean then fail (.typing (.functionNeedsNumber name start))
  else applyOp fold (.unary op) a none false

/-- Adds the list elements of the arguments, the last one first; the last one ends the chain. -/
def addChain : List AtomId → Build AtomTable AtomId
  | [] => return 0
  | [last] => return last
  | a :: rest => do
    let tail ← addChain rest
    addAtom (.element a tail)

def applyList (op : ListOp) (name : String) (args : List AtomId) (start : Nat) :
    Build AtomTable AtomId := do
  let table ← get
  if args.any fun id => (table.get id).isBoolean then fail (.typing (.functionNeedsNumbers name start))
  else
    match args with
    | [] => return 0
    | first :: rest =>
      let tail ← addChain rest
      addAtom (.apply (.list op) first (some tail) none false)

/-- Atoms of a growing table, with operators on constants folded or not. -/
def algebra (fold : Bool) : Algebra AtomTable AtomId where
  number value := addAtom (.const value false)
  name text := addAtom (.name text)
  lead := applyLead fold
  join := applyJoin fold
  call := applyCall fold
  callList := applyList

end Behavioral.Assembly
