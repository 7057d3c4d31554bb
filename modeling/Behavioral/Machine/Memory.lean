/-!
# What a function works on

A working array of cells and the simulation around it: its time, timestep and frequency, its two
rails, and node states by ordinal. A simulation may also discard what is written to its nodes.
-/

namespace Behavioral

/-- Node states, by ascending ordinal. -/
inductive Nodes where
  | kept (states : List (Nat × Float))
  | discarded

namespace Nodes

/-- A node that has no state reads as zero. -/
def get : Nodes → Nat → Float
  | kept states, node => (states.lookup node).getD 0
  | discarded, _ => 0

def insert (node : Nat) (value : Float) : List (Nat × Float) → List (Nat × Float)
  | [] => [(node, value)]
  | (n, v) :: rest =>
    if node < n then (node, value) :: (n, v) :: rest
    else if node = n then (node, value) :: rest
    else (n, v) :: insert node value rest

def set : Nodes → Nat → Float → Nodes
  | kept states, node, value => kept (insert node value states)
  | discarded, _, _ => discarded

def toList : Nodes → List (Nat × Float)
  | kept states => states
  | discarded => []

def ofList (states : List (Nat × Float)) : Nodes :=
  kept (states.foldl (fun kept s => insert s.1 s.2 kept) [])

end Nodes

/-- The simulation that a function is evaluated in. -/
structure Context where
  time : Float := 0
  timestep : Float := 0
  frequency : Float := 0
  positiveRail : Float := 0
  negativeRail : Float := 0
  nodes : Nodes := .kept []

/-- The simulation of functions that have none: all reads are zero and writes are lost. -/
def Context.null : Context :=
  { nodes := .discarded }

structure Memory where
  cells : Array Float
  context : Context

namespace Memory

def read (m : Memory) (cell : Nat) : Float :=
  m.cells[cell]?.getD 0

def write (m : Memory) (cell : Nat) (value : Float) : Memory :=
  { m with cells := m.cells.setIfInBounds cell value }

def setNode (m : Memory) (node : Nat) (value : Float) : Memory :=
  { m with context := { m.context with nodes := m.context.nodes.set node value } }

end Memory

end Behavioral
