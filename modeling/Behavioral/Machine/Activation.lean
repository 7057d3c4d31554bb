import Behavioral.Fault
import Behavioral.Machine.Derivative
import Behavioral.Settings

/-!
# Activations

An activation is a function ready to be evaluated on working arrays of its own: the result first,
then the parameters, then the private cells.
-/

namespace Behavioral

structure Activation where
  call : Call
  workingLength : Nat
  relativeStep : Float

namespace Activation

/-- The header of an activation's own function. -/
def header (f : Function) : List Nat :=
  0 :: (1 + f.paramCount) :: (List.range f.paramCount).map (1 + ·)

def defaultStep : Float := 1e-9

def build (f : Function) (constants : List Float) : Activation where
  call := ⟨f, (f.layout (header f)).toArray, constants, none⟩
  workingLength := 1 + f.paramCount + f.storageSize
  relativeStep := defaultStep

def ofFunction (f : Function) : Activation :=
  build f []

/-- Takes the step of derivatives from the settings. -/
def withSettings (f : Function) (settings : Settings) : Activation :=
  { ofFunction f with relativeStep := settings.relativeStep }

/-- An activation of a function with constants, such as a table's breakpoints. -/
def withConstants (f : Function) (constants : List Float) : Except Fault Activation :=
  if f.acceptsConstants constants.length then .ok (build f constants)
  else .error (.composition (.activationConstants f.name constants.length))

def withStep (a : Activation) (step : Float) : Activation :=
  { a with relativeStep := step }

/-- A working array of zeros. -/
def workingArray (a : Activation) : Array Float :=
  Array.replicate a.workingLength 0

def setParam (a : Activation) (i : Nat) (value : Float) (m : Memory) : Memory :=
  m.write (a.call.slot (2 + i)) value

/-- Sets the parameters from `i` on. -/
def setParams (a : Activation) : (i : Nat) → List Float → Memory → Memory
  | _, [], m => m
  | i, value :: rest, m => setParams a (i + 1) rest (a.setParam i value m)

def param (a : Activation) (i : Nat) (m : Memory) : Float :=
  m.read (a.call.slot (2 + i))

def evaluate (a : Activation) (m : Memory) : Float × Memory :=
  let m := (a.call.evaluate m).2
  (a.call.result m, m)

/-- The derivative by parameter `i`, at the values that the memory holds. -/
def derivative (a : Activation) (i : Nat) (m : Memory) : Float × Memory :=
  a.call.derivative (2 + i) a.relativeStep m

def gradient (a : Activation) (m : Memory) : List Float × Memory :=
  a.call.gradient a.relativeStep m

end Activation

end Behavioral
