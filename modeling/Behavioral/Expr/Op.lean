import Behavioral.Number.Breakpoints
import Behavioral.Text.Letters

/-!
# Operators

The operators of compiled expressions: operators and functions of one operand, operators of two, and
functions of a list. An operator applied to a number of operands that it does not take is not a
number.
-/

namespace Behavioral

inductive UnaryOp where
  | neg | not | square
  | inv | sqrt | exp | ln | log | abs | qcnl | unit | uramp
  | sin | cos | tan | asin | acos | atan | sinh | cosh | tanh | asinh | acosh | atanh
deriving DecidableEq, Repr

inductive BinaryOp where
  | pow | mul | div | add | sub | lt | lte | gt | gte | eq | neq | and | or
deriving DecidableEq, Repr

inductive ListOp where
  | ratio | pwl
deriving DecidableEq, Repr

inductive Op where
  | unary (op : UnaryOp)
  | binary (op : BinaryOp)
  | list (op : ListOp)
deriving DecidableEq, Repr

namespace UnaryOp

def all : List UnaryOp :=
  [neg, not, square, inv, sqrt, exp, ln, log, abs, qcnl, unit, uramp,
    sin, cos, tan, asin, acos, atan, sinh, cosh, tanh, asinh, acosh, atanh]

def name : UnaryOp → String
  | neg => "neg"
  | not => "not"
  | square => "square"
  | inv => "inv"
  | sqrt => "sqrt"
  | exp => "exp"
  | ln => "ln"
  | log => "log"
  | abs => "abs"
  | qcnl => "qcnl"
  | unit => "unit"
  | uramp => "uramp"
  | sin => "sin"
  | cos => "cos"
  | tan => "tan"
  | asin => "asin"
  | acos => "acos"
  | atan => "atan"
  | sinh => "sinh"
  | cosh => "cosh"
  | tanh => "tanh"
  | asinh => "asinh"
  | acosh => "acosh"
  | atanh => "atanh"

def apply : UnaryOp → Float → Float
  | neg, a => -a
  | not, a => ofBool (!truthy a)
  | square, a => a * a
  | inv, a => inverse a
  | sqrt, a => a.sqrt
  | exp, a => a.exp
  | ln, a => a.log
  | log, a => a.log10
  | abs, a => a.abs
  | qcnl, a => signedSquare a
  | unit, a => unitStep a
  | uramp, a => ramp a
  | sin, a => a.sin
  | cos, a => a.cos
  | tan, a => a.tan
  | asin, a => a.asin
  | acos, a => a.acos
  | atan, a => a.atan
  | sinh, a => a.sinh
  | cosh, a => a.cosh
  | tanh, a => a.tanh
  | asinh, a => a.asinh
  | acosh, a => a.acosh
  | atanh, a => inverseTanh a

/-- The function of one argument that a name stands for, in any letter case. -/
def ofFunctionName? (name : String) : Option UnaryOp :=
  match capitals name with
  | "INV" | ".INV" => some inv
  | "SQRT" => some sqrt
  | "EXP" => some exp
  | "LN" => some ln
  | "LOG" => some log
  | "ABS" => some abs
  | "QCNL" => some qcnl
  | "U" | "UNIT" => some unit
  | "URAMP" => some uramp
  | "SIN" => some sin
  | "COS" => some cos
  | "TAN" => some tan
  | "ASIN" => some asin
  | "ACOS" => some acos
  | "ATAN" => some atan
  | "SINH" => some sinh
  | "COSH" => some cosh
  | "TANH" => some tanh
  | "ASINH" => some asinh
  | "ACOSH" => some acosh
  | "ATANH" => some atanh
  | _ => none

end UnaryOp

namespace BinaryOp

def all : List BinaryOp :=
  [pow, mul, div, add, sub, lt, lte, gt, gte, eq, neq, and, or]

def name : BinaryOp → String
  | pow => "pow"
  | mul => "mul"
  | div => "div"
  | add => "add"
  | sub => "sub"
  | lt => "lt"
  | lte => "lte"
  | gt => "gt"
  | gte => "gte"
  | eq => "eq"
  | neq => "neq"
  | and => "and"
  | or => "or"

def apply : BinaryOp → Float → Float → Float
  | pow, a, b => a.pow b
  | mul, a, b => a * b
  | div, a, b => a / b
  | add, a, b => a + b
  | sub, a, b => a - b
  | lt, a, b => ofBool (a < b)
  | lte, a, b => ofBool (a ≤ b)
  | gt, a, b => ofBool (a > b)
  | gte, a, b => ofBool (a ≥ b)
  | eq, a, b => ofBool (close a b)
  | neq, a, b => ofBool (!close a b)
  | and, a, b => ofBool (truthy a && truthy b)
  | or, a, b => ofBool (truthy a || truthy b)

/-- How tightly the operator binds; the lowest level binds first. -/
def level : BinaryOp → Nat
  | pow => 0
  | mul | div => 1
  | add | sub => 2
  | lt | lte | gt | gte => 3
  | eq | neq => 4
  | and => 5
  | or => 6

/-- Whether the operator's value is a truth value. -/
def isBoolean : BinaryOp → Bool
  | pow | mul | div | add | sub => false
  | _ => true

end BinaryOp

namespace ListOp

def all : List ListOp :=
  [ratio, pwl]

def name : ListOp → String
  | ratio => "ratio"
  | pwl => "pwl"

/-- A ratio falls back on its third argument where the second is zero; a table reads its first
argument off the breakpoints that follow, if it has a value there. -/
def apply : ListOp → List Float → Option Float
  | ratio, a :: b :: c :: _ => some (if b != 0 then a / b else c)
  | ratio, _ => some notANumber
  | pwl, index :: points => (Breakpoints.ofFlat points).lookup index
  | pwl, [] => some notANumber

def ofName? (name : String) : Option ListOp :=
  match capitals name with
  | "RATIO" => some ratio
  | "PWL" => some pwl
  | _ => none

/-- Whether the function takes `count` arguments, for a count of at least three. -/
def takes : ListOp → Nat → Bool
  | ratio, count => count == 3
  | pwl, count => count % 2 == 1

end ListOp

namespace Op

def all : List Op :=
  UnaryOp.all.map unary ++ BinaryOp.all.map binary ++ ListOp.all.map list

def name : Op → String
  | unary op => op.name
  | binary op => op.name
  | list op => op.name

def isList : Op → Bool
  | list _ => true
  | _ => false

def apply1 : Op → Float → Float
  | unary op, a => op.apply a
  | _, _ => notANumber

def apply2 : Op → Float → Float → Float
  | binary op, a, b => op.apply a b
  | _, _, _ => notANumber

def applyList : Op → List Float → Option Float
  | list op, args => op.apply args
  | _, _ => some notANumber

/-- The name with a capital first letter, as messages write it. -/
def title (op : Op) : String :=
  match op.name.toList with
  | c :: rest => String.ofList (capital c :: rest)
  | [] => ""

end Op

end Behavioral
