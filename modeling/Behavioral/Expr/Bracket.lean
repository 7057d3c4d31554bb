import Behavioral.Expr.Item
import Behavioral.Fault

/-!
# Brackets

Brackets match when no closing one comes too early and none stays open. Of brackets that stay open
the last opening one of the whole text is reported.
-/

namespace Behavioral.Item

/-- Checks the brackets of the items after a place where `depth` are open, the last of all having
opened at `last`. -/
def checkFrom : (depth last : Nat) → List (Spanned Item) → Except Fault Unit
  | 0, _, [] => .ok ()
  | _ + 1, last, [] => .error (.grammar (.neverClosed last))
  | depth, _, ⟨start, .opening, _⟩ :: rest => checkFrom (depth + 1) start rest
  | 0, _, ⟨start, .closing, _⟩ :: _ => .error (.grammar (.closedTooOften start))
  | depth + 1, last, ⟨_, .closing, _⟩ :: rest => checkFrom depth last rest
  | depth, last, _ :: rest => checkFrom depth last rest

def checkBrackets (items : List (Spanned Item)) : Except Fault Unit :=
  checkFrom 0 0 items

end Behavioral.Item
