import Behavioral.Machine.Effect

/-!
# Functions

A function is a builtin, or a sequence of instructions each of which calls a function. An
instruction says where its result and its operands live, relative to the function that it stands in.
The sizes of a composed function are kept with it: how many offsets its index field has, and how
many private cells it needs.
-/

namespace Behavioral

/-- Counts and indices are words of 64 bits. -/
def wordLimit : Nat := Nat.pow 2 64

/-- Where an operand lives. -/
inductive Operand where
  /-- A slot of the enclosing function's own header. -/
  | caller (slot : Nat)
  /-- A local variable of the enclosing function. -/
  | localCell (index : Nat)
  /-- A slot of the segment of the instruction before in the text. -/
  | previous (slot : Nat)
deriving DecidableEq, Repr

structure Instruction (F : Type) where
  callee : F
  /-- The result and the operands. -/
  operands : List Operand
  constants : List Float
  jump : Option Int

structure Composition (F : Type) where
  name : String
  paramCount : Nat
  localCount : Nat
  body : List (Instruction F)
  fieldSize : Nat
  storageSize : Nat

inductive Function where
  | builtin (b : Builtin)
  | composed (c : Composition Function)

abbrev Composed := Composition Function

namespace Function

def name : Function → String
  | builtin b => b.mnemonic
  | composed c => c.name

def paramCount : Function → Nat
  | builtin b => b.paramCount
  | composed c => c.paramCount

/-- How many offsets the index field has. -/
def fieldSize : Function → Nat
  | builtin b => b.fieldSize
  | composed c => c.fieldSize

/-- How many private cells an activation has. -/
def storageSize : Function → Nat
  | builtin b => b.storageSize
  | composed c => c.storageSize

def jumps : Function → Bool
  | builtin b => b.jumps
  | composed _ => false

/-- Composed functions take no constants. -/
def acceptsConstants : Function → Nat → Bool
  | builtin b, n => b.constants.accepts n
  | composed _, n => n == 0

/-- How many offsets its header has. -/
def headerSize (f : Function) : Nat :=
  2 + f.paramCount

end Function

/-- An instruction that hands its caller's result and parameters on. -/
def Instruction.passThrough (f : Function) : Instruction Function where
  callee := f
  operands := .caller 0 :: (List.range f.paramCount).map fun i => .caller (2 + i)
  constants := []
  jump := none

end Behavioral
