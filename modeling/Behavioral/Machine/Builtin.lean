import Behavioral.Machine.Relation
import Behavioral.Text.Letters

/-!
# Builtins

The instructions that every function is made of: functions of one and two numbers, comparisons that
write a truth value, stores and selections and jumps on a comparison, logic, and the few that read
constants, tables or the simulation. Each has a number and a mnemonic; the numbers are stable and
have gaps.
-/

namespace Behavioral

/-- A function of one number. -/
inductive UnaryFn where
  | mov | neg | sqr | sqrt | exp | ln | log | abs | inv | floor | ceil | sign
  | sin | cos | tan | asin | acos | atan | sinh | cosh | tanh | qcnl | unit | uramp
deriving DecidableEq, Repr

/-- A function of two numbers. -/
inductive BinaryFn where
  | add | sub | mul | div | pow | min | max | atan2
deriving DecidableEq, Repr

inductive Connective where
  | and | or | xor
deriving DecidableEq, Repr

inductive Builtin where
  | unary (f : UnaryFn)
  | binary (f : BinaryFn)
  /-- The first operand held between the other two. -/
  | limit
  /-- The instruction's constant. -/
  | constant
  | compare (r : Relation)
  /-- Writes the third operand if the first two are related, and nothing otherwise. -/
  | storeIf (r : Relation)
  /-- The third operand if the first two are related, and otherwise the fourth. -/
  | selectIf (r : Relation)
  | logic (c : Connective)
  | not
  | jump
  | jumpIf (r : Relation)
  /-- Jumps if its operand is related to zero. -/
  | jumpIfZero (r : Relation)
  /-- Leaves the function that it stands in. -/
  | leave
  /-- Looks its operand up in a table of breakpoints. -/
  | table
  | time
  | timestep
  | frequency
  | positiveRail
  | negativeRail
  | loadNode
  | storeNode
  /-- The operand of the previous evaluation. -/
  | last
deriving DecidableEq, Repr

/-- How many constants an instruction carries. -/
inductive ConstantSpec where
  | none
  | exactly (count : Nat)
  /-- A table: at least one pair. -/
  | pairs
deriving DecidableEq, Repr

def ConstantSpec.accepts : ConstantSpec → Nat → Bool
  | none, n => n == 0
  | exactly count, n => n == count
  | pairs, n => decide (2 ≤ n) && n % 2 == 0

namespace UnaryFn

def id : UnaryFn → Nat
  | mov => 1
  | neg => 2
  | sqr => 8
  | sqrt => 9
  | exp => 10
  | ln => 11
  | log => 12
  | abs => 13
  | inv => 14
  | floor => 18
  | ceil => 19
  | sign => 20
  | sin => 21
  | cos => 22
  | tan => 23
  | asin => 24
  | acos => 25
  | atan => 26
  | sinh => 28
  | cosh => 29
  | tanh => 30
  | qcnl => 31
  | unit => 32
  | uramp => 33

def mnemonic : UnaryFn → String
  | mov => "_MOV"
  | neg => "_NEG"
  | sqr => "_SQR"
  | sqrt => "_SQRT"
  | exp => "_EXP"
  | ln => "_LN"
  | log => "_LOG"
  | abs => "_ABS"
  | inv => "_INV"
  | floor => "_FLOOR"
  | ceil => "_CEIL"
  | sign => "_SIGN"
  | sin => "_SIN"
  | cos => "_COS"
  | tan => "_TAN"
  | asin => "_ASIN"
  | acos => "_ACOS"
  | atan => "_ATAN"
  | sinh => "_SINH"
  | cosh => "_COSH"
  | tanh => "_TANH"
  | qcnl => "_QCNL"
  | unit => "_UNIT"
  | uramp => "_URAMP"

end UnaryFn

namespace BinaryFn

def id : BinaryFn → Nat
  | add => 3
  | sub => 4
  | mul => 5
  | div => 6
  | pow => 7
  | min => 15
  | max => 16
  | atan2 => 27

def mnemonic : BinaryFn → String
  | add => "_ADD"
  | sub => "_SUB"
  | mul => "_MUL"
  | div => "_DIV"
  | pow => "_POW"
  | min => "_MIN"
  | max => "_MAX"
  | atan2 => "_ATAN2"

end BinaryFn

namespace Connective

def id : Connective → Nat
  | and => 150
  | or => 151
  | xor => 152

def mnemonic : Connective → String
  | and => "_AND"
  | or => "_OR"
  | xor => "_XOR"

end Connective

namespace Builtin

/-- Every builtin, in the order of the numbers. -/
def all : List Builtin :=
  [unary .mov, unary .neg, binary .add, binary .sub, binary .mul, binary .div, binary .pow,
    unary .sqr, unary .sqrt, unary .exp, unary .ln, unary .log, unary .abs, unary .inv,
    binary .min, binary .max, limit, unary .floor, unary .ceil, unary .sign, unary .sin,
    unary .cos, unary .tan, unary .asin, unary .acos, unary .atan, binary .atan2, unary .sinh,
    unary .cosh, unary .tanh, unary .qcnl, unary .unit, unary .uramp, constant] ++
  Relation.all.map compare ++ Relation.all.map storeIf ++ Relation.all.map selectIf ++
  [logic .and, logic .or, logic .xor, not, jump] ++
  Relation.all.map jumpIf ++ Relation.all.map jumpIfZero ++
  [leave, table, time, timestep, frequency, positiveRail, negativeRail, loadNode, storeNode, last]

def id : Builtin → Nat
  | unary f => f.id
  | binary f => f.id
  | limit => 17
  | constant => 34
  | compare r => 100 + r.index
  | storeIf r => 110 + r.index
  | selectIf r => 120 + r.index
  | logic c => c.id
  | not => 153
  | jump => 200
  | jumpIf r => 201 + r.index
  | jumpIfZero r => 207 + r.index
  | leave => 213
  | table => 300
  | time => 301
  | timestep => 302
  | frequency => 303
  | positiveRail => 304
  | negativeRail => 305
  | loadNode => 306
  | storeNode => 307
  | last => 308

def mnemonic : Builtin → String
  | unary f => f.mnemonic
  | binary f => f.mnemonic
  | limit => "_LIMIT"
  | constant => "_LDC"
  | compare r => "_" ++ r.letters
  | storeIf r => "_S" ++ r.letters
  | selectIf r => "_T" ++ r.letters
  | logic c => c.mnemonic
  | not => "_NOT"
  | jump => "_JMP"
  | jumpIf r => "_J" ++ r.letters
  | jumpIfZero r => "_J" ++ r.letters ++ "Z"
  | leave => "_RET"
  | table => "_PWL"
  | time => "_TIME"
  | timestep => "_DT"
  | frequency => "_FREQ"
  | positiveRail => "_VPOS"
  | negativeRail => "_VNEG"
  | loadNode => "_LDNODE"
  | storeNode => "_STNODE"
  | last => "_LAST"

/-- How many operands it reads. -/
def paramCount : Builtin → Nat
  | constant | time | timestep | frequency | positiveRail | negativeRail | loadNode | jump
  | leave => 0
  | unary _ | not | jumpIfZero _ | table | storeNode | last => 1
  | binary _ | compare _ | logic _ | jumpIf _ => 2
  | limit | storeIf _ => 3
  | selectIf _ => 4

/-- Result, private storage and operands. -/
def fieldSize (b : Builtin) : Nat :=
  2 + b.paramCount

/-- Only a delay keeps something of its own. -/
def storageSize : Builtin → Nat
  | last => 1
  | _ => 0

def jumps : Builtin → Bool
  | jump | jumpIf _ | jumpIfZero _ => true
  | _ => false

def writesResult : Builtin → Bool
  | jump | jumpIf _ | jumpIfZero _ | leave | storeNode => false
  | _ => true

def constants : Builtin → ConstantSpec
  | constant | loadNode | storeNode => .exactly 1
  | table => .pairs
  | _ => .none

/-- The builtin of a mnemonic, in any letter case. -/
def ofMnemonic? (mnemonic : String) : Option Builtin :=
  all.find? fun b => b.mnemonic == capitals mnemonic

def ofId? (id : Nat) : Option Builtin :=
  all.find? fun b => b.id == id

end Builtin

end Behavioral
