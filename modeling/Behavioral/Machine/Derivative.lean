import Behavioral.Machine.Execution

/-!
# Derivatives

A partial derivative is a forward difference: the operand is raised by a small step, the function is
evaluated, and then the operand and the result are put back. The step is relative to the size of the
result and the operand, or absolute when both are zero. Whatever else the evaluation changes stays
changed.
-/

namespace Behavioral

/-- A function with its filled index field and the constants of the instruction that calls it. -/
structure Call where
  function : Function
  field : Array Nat
  constants : List Float
  jump : Option Int

namespace Call

def slot (c : Call) (i : Nat) : Nat :=
  c.field[i]?.getD 0

def evaluate (c : Call) (m : Memory) : Control × Memory :=
  c.function.evaluate c.field c.constants c.jump m

def result (c : Call) (m : Memory) : Float :=
  m.read (c.slot 0)

/-- How far an operand is raised. -/
def difference (result operand relativeStep : Float) : Float :=
  let h := (result.abs + operand.abs) * relativeStep
  if h == 0 then relativeStep else h

/-- The derivative of the result by the operand that a slot of the index field names. -/
def derivative (c : Call) (slot : Nat) (relativeStep : Float) (m : Memory) : Float × Memory :=
  let operandAt := c.slot slot
  let result := c.result m
  let operand := m.read operandAt
  let h := difference result operand relativeStep
  let m := (c.evaluate (m.write operandAt (operand + h))).2
  let perturbed := c.result m
  let m := (m.write operandAt operand).write (c.slot 0) result
  ((perturbed - result) / h, m)

/-- The derivatives by the slots in turn. -/
def derivatives (c : Call) (relativeStep : Float) : List Nat → Memory → List Float × Memory
  | [], m => ([], m)
  | slot :: rest, m =>
    let (d, m) := c.derivative slot relativeStep m
    let (ds, m) := derivatives c relativeStep rest m
    (d :: ds, m)

/-- The derivatives by every parameter. -/
def gradient (c : Call) (relativeStep : Float) (m : Memory) : List Float × Memory :=
  c.derivatives relativeStep ((List.range c.function.paramCount).map (2 + ·)) m

/-- Evaluates the call on each memory by itself. -/
def evaluateBatch (c : Call) (memories : List Memory) : List (Float × Memory) :=
  memories.map fun m =>
    let m := (c.evaluate m).2
    (c.result m, m)

end Call

end Behavioral
