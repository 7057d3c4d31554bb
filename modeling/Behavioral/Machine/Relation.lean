import Behavioral.Number.Closeness

/-!
# Relations

The six comparisons that builtins test. Equality is approximate; the order relations are exact.
-/

namespace Behavioral

inductive Relation where
  | lt | le | gt | ge | eq | ne
deriving DecidableEq, Repr

namespace Relation

def all : List Relation :=
  [lt, le, gt, ge, eq, ne]

def holds : Relation → Float → Float → Bool
  | lt, a, b => a < b
  | le, a, b => a ≤ b
  | gt, a, b => a > b
  | ge, a, b => a ≥ b
  | eq, a, b => close a b
  | ne, a, b => !close a b

/-- The place among the six. -/
def index : Relation → Nat
  | lt => 0
  | le => 1
  | gt => 2
  | ge => 3
  | eq => 4
  | ne => 5

def letters : Relation → String
  | lt => "LT"
  | le => "LE"
  | gt => "GT"
  | ge => "GE"
  | eq => "EQ"
  | ne => "NE"

end Relation

end Behavioral
