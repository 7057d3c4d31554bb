import Behavioral.Number.Scalar

/-!
# Piecewise-linear tables

A table is a row of breakpoints `(x, y)`. Looking up an index clamps it to the first and the last
breakpoint, finds by bisection the first breakpoint that is not left of it, and interpolates on the
segment that ends there; an index close to that breakpoint gets its `y`. No segment ends at the
first breakpoint, so an index that is sent there and is not close to it has no value.
-/

namespace Behavioral

/-- The breakpoints of a flat list `x₀, y₀, x₁, y₁, …`; a last number without a partner is left
out. -/
def pairs : List Float → List (Float × Float)
  | x :: y :: rest => (x, y) :: pairs rest
  | _ => []

abbrev Breakpoints := Array (Float × Float)

namespace Breakpoints

def ofFlat (points : List Float) : Breakpoints :=
  (pairs points).toArray

def x (t : Breakpoints) (i : Nat) : Float :=
  (t[i]?.getD (notANumber, notANumber)).1

def y (t : Breakpoints) (i : Nat) : Float :=
  (t[i]?.getD (notANumber, notANumber)).2

/-- Bisects `low … high` for the first breakpoint that is not left of `index`. -/
def bisect (t : Breakpoints) (index : Float) (low high : Nat) : Nat :=
  if low < high then
    let mid := low + (high - low) / 2
    if t.x mid < index then bisect t index (mid + 1) high else bisect t index low mid
  else low
termination_by high - low

/-- The line through breakpoints `i` and `i + 1`, at `index`. -/
def line (t : Breakpoints) (index : Float) (i : Nat) : Float :=
  let slope := (t.y (i + 1) - t.y i) / (t.x (i + 1) - t.x i)
  (index - t.x i) * slope + t.y i

/-- Interpolates on the segment that ends at a breakpoint. -/
def interpolate (t : Breakpoints) (index : Float) : Nat → Option Float
  | 0 => none
  | i + 1 => some (t.line index i)

def lookup (t : Breakpoints) (index : Float) : Option Float :=
  if t.size = 0 ∨ index.isNaN then some notANumber
  else if index < t.x 0 then some (t.y 0)
  else if index > t.x (t.size - 1) then some (t.y (t.size - 1))
  else
    let i := t.bisect index 0 t.size
    if close (t.x i) index then some (t.y i) else t.interpolate index i

end Breakpoints

end Behavioral
