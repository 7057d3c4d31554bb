import Behavioral.Number.Closeness

/-!
# Scalar functions

The functions of one number that expressions and builtin instructions share. Truth values are
numbers: 1 and 0 stand for true and false, and a number counts as false when it is close to zero.
-/

namespace Behavioral

def notANumber : Float := 0 / 0

def truthy (x : Float) : Bool :=
  !close x 0

def ofBool : Bool → Float
  | true => 1
  | false => 0

/-- The reciprocal, with a large finite value for zero. -/
def inverse (x : Float) : Float :=
  if x == 0 then 1e20 else 1 / x

/-- A conduction law: quadratic, with the sign of its operand. -/
def signedSquare (x : Float) : Float :=
  x * x.abs

def unitStep (x : Float) : Float :=
  ofBool (x > 0)

def ramp (x : Float) : Float :=
  if x > 0 then x else 0

/-- `1`, `-1` or `0` by the sign; `0` for a not-a-number. -/
def signum (x : Float) : Float :=
  if x > 0 then 1 else if x < 0 then -1 else 0

/-- `ln (1 + x)` without the cancellation of adding first: the rounding error of `1 + x` scales the
logarithm and its argument alike, so their quotient keeps the digits of `x`. -/
def logOnePlus (x : Float) : Float :=
  let u := 1 + x
  if u == 1 then x
  else if u.isInf then u.log
  else u.log * (x / (u - 1))

/-- The inverse hyperbolic tangent as half the logarithm of `(1 + x) / (1 - x)`, which is
`1 + 2x / (1 - x)`. The fraction is rounded, so the result is coarse near `-1`. -/
def inverseTanh (x : Float) : Float :=
  0.5 * logOnePlus ((2 * x) / (1 - x))

end Behavioral
