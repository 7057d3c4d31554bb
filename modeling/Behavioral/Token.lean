/-!
# Tokens

What an expression's text is split into: numbers, names and symbols, each with the span of bytes it
came from. A node voltage and a branch current are names too, marked by their first character.
-/

namespace Behavioral

inductive Symbol where
  | plus | minus | times | divide | power
  | less | lessEqual | greater | greaterEqual | equal | notEqual
  | and | or | not
  | opening | closing | comma
deriving DecidableEq, Repr

inductive Token where
  | number (value : Float)
  | name (text : String)
  | symbol (s : Symbol)

/-- A value and the bytes `start … stop` it came from. -/
structure Spanned (α : Type) where
  start : Nat
  value : α
  stop : Nat

/-- The name under which the voltage of a node is read. -/
def voltageName (node : String) : String :=
  "@" ++ node

/-- The name under which the current through a component is read. -/
def currentName (component : String) : String :=
  "#" ++ component

/-- What a name refers to in the circuit. -/
inductive NameKind where
  | voltage
  | current
  | parameter
deriving DecidableEq, Repr

/-- The kind of a name, by its first character, and the name without its mark. -/
def classify (name : String) : NameKind × String :=
  match name.toList with
  | '@' :: node => (.voltage, String.ofList node)
  | '#' :: component => (.current, String.ofList component)
  | _ => (.parameter, name)

end Behavioral
