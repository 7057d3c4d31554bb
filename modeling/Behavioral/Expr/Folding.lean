import Behavioral.Expr.Atom

/-!
# Folding and pruning

Folding turns every operator that carries a value into a constant. Pruning drops the constants that
nothing refers to, except the root, and closes the gaps.
-/

namespace Behavioral

/-- A constant in place of an operator that carries a value. -/
def Atom.fold : Atom → Atom
  | .apply _ _ _ (some value) isBoolean => .const value isBoolean
  | atom => atom

def Atom.isConst : Atom → Bool
  | .const _ _ => true
  | _ => false

namespace AtomTable

def fold (t : AtomTable) : AtomTable :=
  { t with atoms := t.atoms.map Atom.fold }

def isReferenced (t : AtomTable) (id : AtomId) : Bool :=
  id == t.root || t.atoms.any fun atom => atom.operands.contains id

/-- Whether pruning keeps the atom at the position. -/
def keeps (t : AtomTable) (id : AtomId) : Bool :=
  t.isReferenced id || !(t.get id).isConst

/-- The positions that pruning keeps, in order. -/
def kept (t : AtomTable) : List AtomId :=
  (List.range t.size).filter t.keeps

/-- The position of an atom among the kept ones: the number of kept ones before it. -/
def position (kept : List AtomId) (id : AtomId) : AtomId :=
  (kept.takeWhile (· < id)).length

def prune (t : AtomTable) : AtomTable :=
  let kept := t.kept
  { atoms := (kept.map fun id => (t.get id).renumber (position kept)).toArray
    root := position kept t.root }

end AtomTable

end Behavioral
