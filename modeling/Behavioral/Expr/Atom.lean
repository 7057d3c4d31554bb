import Behavioral.Expr.Op
import Behavioral.Fault

/-!
# Atoms

A compiled expression is a row of atoms, each of which refers to earlier ones by position. Position
zero holds a sentinel that nothing refers to. The arguments of a list function past the first hang
off it as a chain of list elements.
-/

namespace Behavioral

abbrev AtomId := Nat

inductive Atom where
  | sentinel
  | const (value : Float) (isBoolean : Bool)
  /-- An operator applied to one or two atoms, with its value if those are constant. -/
  | apply (op : Op) (a : AtomId) (b : Option AtomId) (folded : Option Float) (isBoolean : Bool)
  | element (a b : AtomId)
  | name (text : String)

namespace Atom

def isBoolean : Atom → Bool
  | const _ isBoolean => isBoolean
  | apply _ _ _ _ isBoolean => isBoolean
  | _ => false

/-- The value of a constant or of an operator applied to constants. -/
def constant? : Atom → Option Float
  | const value _ => some value
  | apply _ _ _ folded _ => folded
  | _ => none

def operands : Atom → List AtomId
  | apply _ a b _ _ => a :: b.toList
  | element a b => [a, b]
  | _ => []

/-- The same atom with every operand renamed. -/
def renumber (f : AtomId → AtomId) : Atom → Atom
  | apply op a b folded isBoolean => apply op (f a) (b.map f) folded isBoolean
  | element a b => element (f a) (f b)
  | atom => atom

/-- Equality of constants: a not-a-number equals any other, and the zeros are equal. -/
def sameNumber (x y : Float) : Bool :=
  (x.isNaN && y.isNaN) || x == y

/-- Whether two atoms stand for the same thing; what an operator folds to follows from the rest. A
sentinel is not even the same as itself. -/
def sameContent : Atom → Atom → Bool
  | const x xIsBoolean, const y yIsBoolean => xIsBoolean == yIsBoolean && sameNumber x y
  | apply op a b _ _, apply op' a' b' _ _ => op == op' && a == a' && b == b'
  | element a b, element a' b' => a == a' && b == b'
  | name s, name t => s == t
  | _, _ => false

end Atom

structure AtomTable where
  atoms : Array Atom
  /-- The atom whose value is the expression's. -/
  root : AtomId

namespace AtomTable

def empty : AtomTable :=
  ⟨#[.sentinel], 0⟩

def size (t : AtomTable) : Nat :=
  t.atoms.size

/-- Whether only the sentinel is there. -/
def isEmpty (t : AtomTable) : Bool :=
  t.size ≤ 1

def get (t : AtomTable) (id : AtomId) : Atom :=
  t.atoms[id]?.getD .sentinel

def rootAtom (t : AtomTable) : Atom :=
  t.get t.root

/-- Atoms are numbered by words of 32 bits. -/
def limit : Nat := Nat.pow 2 32 - 1

/-- The position of an atom with the same content, which is added at the end if there is none. -/
def intern (t : AtomTable) (atom : Atom) : Except Fault (AtomId × AtomTable) :=
  match t.atoms.findIdx? (·.sameContent atom) with
  | some id => .ok (id, t)
  | none =>
    if t.size < limit then .ok (t.size, { t with atoms := t.atoms.push atom })
    else .error (.grammar (.tooManyAtoms limit))

/-- The atoms that a chain of list elements holds; `fuel` bounds the elements followed. -/
def chain (t : AtomTable) : Nat → AtomId → List AtomId
  | 0, id => [id]
  | fuel + 1, id =>
    match t.get id with
    | .element a b => a :: chain t fuel b
    | _ => [id]

/-- The arguments of a list function, from its two operands. -/
def listArguments (t : AtomTable) (first : AtomId) (rest : Option AtomId) : List AtomId :=
  match rest with
  | none => [first]
  | some id => first :: t.chain t.size id

/-- The names that the atoms refer to, in order. -/
def names (t : AtomTable) : List String :=
  t.atoms.toList.filterMap fun
    | .name text => some text
    | _ => none

end AtomTable

end Behavioral
