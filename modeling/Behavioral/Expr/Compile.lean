import Behavioral.Expr.Assembly
import Behavioral.Expr.Bracket
import Behavioral.Expr.Folding
import Behavioral.Token.Scanner

/-!
# Compiling an expression

From text to a table of atoms: tokens, items with their signs settled, reduction to atoms, and then
folding and pruning as the settings say. Either the whole text compiles or nothing is kept.
-/

namespace Behavioral

/-- The items of a text that is not blank. -/
def itemsOf (text : String) (settings : Settings) : Except Fault (List (Spanned Item)) := do
  let tokens ← tokenize text settings
  if tokens.isEmpty then throw (.grammar (.emptyText text))
  else
    let items := Item.expandReciprocals (Item.ofTokens tokens)
    Item.checkBrackets items
    return items

/-- The atoms of items, as they are assembled. -/
def assemble (fold : Bool) (items : List (Spanned Item)) : Except Fault AtomTable := do
  let (root, table) ← (Reduction.run (Assembly.algebra fold) items).run AtomTable.empty
  return { table with root }

def AtomTable.optimize (settings : Settings) (t : AtomTable) : AtomTable :=
  let t := if settings.foldConstants then t.fold else t
  if settings.pruneConstants then t.prune else t

def compile (text : String) (settings : Settings) : Except Fault AtomTable := do
  let items ← itemsOf text settings
  let table ← assemble settings.foldConstants items
  return table.optimize settings

end Behavioral
