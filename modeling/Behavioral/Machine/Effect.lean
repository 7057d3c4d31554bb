import Behavioral.Machine.Builtin
import Behavioral.Machine.Memory
import Behavioral.Number.Breakpoints

/-!
# What a builtin does

A builtin finds its operands, its result and its private storage through a header of offsets into
the working array. Operands are read first; what is written is the result, the delayed operand or a
node state. Then the function goes on, is left, or jumps. A table that has no value for its operand
gives no answer, and nothing happens after it.
-/

namespace Behavioral

/-- Where the function goes after an instruction. -/
inductive Control where
  | next
  | leave
  | jump (displacement : Int)
  /-- Nowhere: there is no answer. -/
  | stuck
deriving DecidableEq, Repr

/-- The offsets that a function is given: its result, the start of its private storage, and its
operands. -/
structure Header where
  result : Nat
  storage : Nat
  operands : List Nat
deriving DecidableEq, Repr

def Header.toList (h : Header) : List Nat :=
  h.result :: h.storage :: h.operands

/-- Reads a header off the front of a row of offsets. -/
def Header.ofList (offsets : List Nat) : Header where
  result := offsets[0]?.getD 0
  storage := offsets[1]?.getD 0
  operands := offsets.drop 2

namespace UnaryFn

def apply : UnaryFn → Float → Float
  | mov, a => a
  | neg, a => -a
  | sqr, a => a * a
  | sqrt, a => a.sqrt
  | exp, a => a.exp
  | ln, a => a.log
  | log, a => a.log10
  | abs, a => a.abs
  | inv, a => inverse a
  | floor, a => a.floor
  | ceil, a => a.ceil
  | sign, a => signum a
  | sin, a => a.sin
  | cos, a => a.cos
  | tan, a => a.tan
  | asin, a => a.asin
  | acos, a => a.acos
  | atan, a => a.atan
  | sinh, a => a.sinh
  | cosh, a => a.cosh
  | tanh, a => a.tanh
  | qcnl, a => signedSquare a
  | unit, a => unitStep a
  | uramp, a => ramp a

end UnaryFn

namespace BinaryFn

def apply : BinaryFn → Float → Float → Float
  | add, a, b => a + b
  | sub, a, b => a - b
  | mul, a, b => a * b
  | div, a, b => a / b
  | pow, a, b => a.pow b
  | min, a, b => if a < b then a else b
  | max, a, b => if a > b then a else b
  | atan2, a, b => a.atan2 b

end BinaryFn

namespace Connective

def apply : Connective → Bool → Bool → Bool
  | and, a, b => a && b
  | or, a, b => a || b
  | xor, a, b => a != b

end Connective

/-- Held between a floor and a ceiling; the floor wins. -/
def clamp (x floor ceiling : Float) : Float :=
  if x < floor then floor else if x > ceiling then ceiling else x

/-- The node that a number names: its whole part, held between zero and the largest ordinal. -/
def nodeOrdinal (x : Float) : Nat :=
  x.toUInt64.toNat

namespace Builtin

/-- A jump that is not taken, or has nowhere to go, goes on. -/
def branch (displacement : Option Int) (taken : Bool) : Control :=
  match displacement with
  | some d => if taken then .jump d else .next
  | none => .next

/-- Runs a builtin with the constants and the displacement of its instruction. -/
def run (b : Builtin) (constants : List Float) (displacement : Option Int) (h : Header)
    (m : Memory) : Control × Memory :=
  let arg (i : Nat) : Float :=
    match h.operands[i]? with
    | some cell => m.read cell
    | none => 0
  let first := constants.headD 0
  let put (value : Float) : Control × Memory := (.next, m.write h.result value)
  match b with
  | unary f => put (f.apply (arg 0))
  | binary f => put (f.apply (arg 0) (arg 1))
  | limit => put (clamp (arg 0) (arg 1) (arg 2))
  | constant => put first
  | compare r => put (ofBool (r.holds (arg 0) (arg 1)))
  | storeIf r => if r.holds (arg 0) (arg 1) then put (arg 2) else (.next, m)
  | selectIf r => put (if r.holds (arg 0) (arg 1) then arg 2 else arg 3)
  | logic c => put (ofBool (c.apply (truthy (arg 0)) (truthy (arg 1))))
  | not => put (ofBool (!truthy (arg 0)))
  | jump => (branch displacement true, m)
  | jumpIf r => (branch displacement (r.holds (arg 0) (arg 1)), m)
  | jumpIfZero r => (branch displacement (r.holds (arg 0) 0), m)
  | leave => (.leave, m)
  | table =>
    match (Breakpoints.ofFlat constants).lookup (arg 0) with
    | some value => put value
    | none => (.stuck, m)
  | time => put m.context.time
  | timestep => put m.context.timestep
  | frequency => put m.context.frequency
  | positiveRail => put m.context.positiveRail
  | negativeRail => put m.context.negativeRail
  | loadNode => put (m.context.nodes.get (nodeOrdinal first))
  | storeNode => (.next, m.setNode (nodeOrdinal first) (arg 0))
  | last => (.next, (m.write h.storage (arg 0)).write h.result (m.read h.storage))

end Builtin

end Behavioral
