import Behavioral.Expr.Atom

/-!
# The value of an expression

Every atom is evaluated in order, each from the values of the earlier ones, and the expression's
value is the root's. Names get their values from outside. The first name that has none ends the
evaluation, whether the root needs it or not, and so does a function of a list that has no value.
-/

namespace Behavioral

/-- The values of names. -/
abbrev Bindings := String → Option Float

namespace AtomTable

def valueAt (values : Array Float) (id : AtomId) : Float :=
  values[id]?.getD 0

/-- The value of an atom of the table, from the values of the atoms before it. -/
def atomValue (t : AtomTable) (bindings : Bindings) (values : Array Float) :
    Atom → Except Fault Float
  | .sentinel => .ok 0
  | .element _ _ => .ok 0
  | .const value _ => .ok value
  | .name text =>
    match bindings text with
    | some value => .ok value
    | none => .error (.evaluation (.unbound text))
  | .apply (.list op) a b _ _ =>
    match op.apply ((t.listArguments a b).map (valueAt values)) with
    | some value => .ok value
    | none => .error (.breakdown .noSegment)
  | .apply op a none _ _ => .ok (op.apply1 (valueAt values a))
  | .apply op a (some b) _ _ => .ok (op.apply2 (valueAt values a) (valueAt values b))

def values (t : AtomTable) (bindings : Bindings) : Except Fault (Array Float) :=
  t.atoms.toList.foldlM (fun values atom => values.push <$> t.atomValue bindings values atom) #[]

def evaluate (t : AtomTable) (bindings : Bindings) : Except Fault Float :=
  (valueAt · t.root) <$> t.values bindings

end AtomTable

end Behavioral
