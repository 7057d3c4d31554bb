import Behavioral.Expr.Atom
import Behavioral.Machine.Function

/-!
# Messages

A compiled expression or a composed function is handed on as a row of messages: one that opens it,
one for each atom or instruction in order, and one that ends it.
-/

namespace Behavioral

/-- What a message says of the function that an instruction calls. -/
inductive Callee where
  | builtin (b : Builtin)
  | composed (name : String)

def Callee.of : Function → Callee
  | .builtin b => .builtin b
  | .composed c => .composed c.name

inductive Message where
  | beginExpression (name : String) (atomCount root : Nat)
  | atom (index : Nat) (atom : Atom)
  | endExpression (name : String)
  | beginFunction (name : String) (paramCount localCount fieldSize storageSize : Nat)
  | instruction (index : Nat) (callee : Callee) (operands : List Operand) (constants : List Float)
      (jump : Option Int)
  | endFunction (name : String)

def AtomTable.messages (t : AtomTable) (name : String) : List Message :=
  .beginExpression name t.size t.root ::
    t.atoms.toList.zipIdx.map (fun (atom, index) => .atom index atom) ++ [.endExpression name]

namespace Composition

def bodyMessages (body : List (Instruction Function)) : List Message :=
  body.zipIdx.map fun (i, index) =>
    .instruction index (Callee.of i.callee) i.operands i.constants i.jump

def messages (c : Composed) : List Message :=
  .beginFunction c.name c.paramCount c.localCount c.fieldSize c.storageSize ::
    bodyMessages c.body ++ [.endFunction c.name]

end Composition

end Behavioral
