import Behavioral.Expr.Bracket
import Behavioral.Expr.Item
import Behavioral.Proofs.Tree

/-!
# The grammar of expressions

An operand is a mix of signs and negations in front of a number, a name, a bracket or a call, and
operands are joined level by level, each level to the left. `Parses` reads tokens so, and `Derives`
reads items, where a sign is settled already: it negates what follows it, or joins.

Spans take no part in either. Levels count from the operands, level 0, to the loosest operators,
level 7.
-/

namespace Behavioral

abbrev Tokens := List (Spanned Token)

abbrev Items := List (Spanned Item)

def Sign.symbol : Sign → Symbol
  | .plus => .plus
  | .minus => .minus

def BinaryOp.symbol : BinaryOp → Symbol
  | .pow => .power
  | .mul => .times
  | .div => .divide
  | .add => .plus
  | .sub => .minus
  | .lt => .less
  | .lte => .lessEqual
  | .gt => .greater
  | .gte => .greaterEqual
  | .eq => .equal
  | .neq => .notEqual
  | .and => .and
  | .or => .or

mutual

/-- The tokens are a phrase of the level with the given tree. -/
inductive Parses : Nat → Tokens → ParseTree → Prop
  | number {s t : Nat} {x : Float} : Parses 0 [⟨s, .number x, t⟩] (.number x)
  | name {s t : Nat} {n : String} : Parses 0 [⟨s, .name n, t⟩] (.name n)
  | sign {s t : Nat} {σ : Sign} {ts : Tokens} {a : ParseTree} : Parses 0 ts a →
      Parses 0 (⟨s, .symbol σ.symbol, t⟩ :: ts) (.sign σ a)
  | not {s t : Nat} {ts : Tokens} {a : ParseTree} : Parses 0 ts a →
      Parses 0 (⟨s, .symbol .not, t⟩ :: ts) (.not a)
  | bracket {s t s' t' : Nat} {ts : Tokens} {a : ParseTree} : Parses 7 ts a →
      Parses 0 (⟨s, .symbol .opening, t⟩ :: (ts ++ [⟨s', .symbol .closing, t'⟩])) (.bracket a)
  | call {s t s' t' s'' t'' : Nat} {f : String} {op : UnaryOp} {ts : Tokens} {a : ParseTree} :
      UnaryOp.ofFunctionName? f = some op → Parses 7 ts a →
      Parses 0 (⟨s, .name f, t⟩ :: ⟨s', .symbol .opening, t'⟩ ::
        (ts ++ [⟨s'', .symbol .closing, t''⟩])) (.call op a)
  | list {s t s' t' s'' t'' : Nat} {f : String} {op : ListOp} {ts : Tokens}
      {args : List ParseTree} :
      ListOp.ofName? f = some op → 3 ≤ args.length → op.takes args.length → ParsesList ts args →
      Parses 0 (⟨s, .name f, t⟩ :: ⟨s', .symbol .opening, t'⟩ ::
        (ts ++ [⟨s'', .symbol .closing, t''⟩])) (.list op args)
  | up {k : Nat} {ts : Tokens} {a : ParseTree} : Parses k ts a → Parses (k + 1) ts a
  | join {s t : Nat} {op : BinaryOp} {ts us : Tokens} {a b : ParseTree} :
      Parses (op.level + 1) ts a → Parses op.level us b →
      Parses (op.level + 1) (ts ++ ⟨s, .symbol op.symbol, t⟩ :: us) (.join op a b)

/-- The tokens are whole expressions between commas. -/
inductive ParsesList : Tokens → List ParseTree → Prop
  | last {ts : Tokens} {a : ParseTree} : Parses 7 ts a → ParsesList ts [a]
  | more {s t : Nat} {ts us : Tokens} {a : ParseTree} {rest : List ParseTree} : Parses 7 ts a →
      ParsesList us rest → ParsesList (ts ++ ⟨s, .symbol .comma, t⟩ :: us) (a :: rest)

end

/-- What a leading operator makes of its operand. -/
def LeadOp.tree : LeadOp → ParseTree → ParseTree
  | .not, a => .not a
  | .negate, a => .sign .minus a

mutual

/-- The items are a phrase of the level with the given tree. -/
inductive Derives : Nat → Items → ParseTree → Prop
  | number {s t : Nat} {x : Float} : Derives 0 [⟨s, .number x, t⟩] (.number x)
  | name {s t : Nat} {n : String} : Derives 0 [⟨s, .name n, t⟩] (.name n)
  | lead {s t : Nat} {op : LeadOp} {xs : Items} {a : ParseTree} : Derives 0 xs a →
      Derives 0 (⟨s, .lead op, t⟩ :: xs) (op.tree a)
  | bracket {s t s' t' : Nat} {xs : Items} {a : ParseTree} : Derives 7 xs a →
      Derives 0 (⟨s, .opening, t⟩ :: (xs ++ [⟨s', .closing, t'⟩])) a
  | call {s t s' t' s'' t'' : Nat} {f : String} {op : UnaryOp} {xs : Items} {a : ParseTree} :
      UnaryOp.ofFunctionName? f = some op → Derives 7 xs a →
      Derives 0 (⟨s, .name f, t⟩ :: ⟨s', .opening, t'⟩ :: (xs ++ [⟨s'', .closing, t''⟩]))
        (.call op a)
  | list {s t s' t' s'' t'' : Nat} {f : String} {op : ListOp} {xs : Items} {args : List ParseTree} :
      ListOp.ofName? f = some op → 3 ≤ args.length → op.takes args.length → DerivesList xs args →
      Derives 0 (⟨s, .name f, t⟩ :: ⟨s', .opening, t'⟩ :: (xs ++ [⟨s'', .closing, t''⟩]))
        (.list op args)
  | up {k : Nat} {xs : Items} {a : ParseTree} : Derives k xs a → Derives (k + 1) xs a
  | join {s t : Nat} {op : BinaryOp} {xs ys : Items} {a b : ParseTree} :
      Derives (op.level + 1) xs a → Derives op.level ys b →
      Derives (op.level + 1) (xs ++ ⟨s, .join op, t⟩ :: ys) (.join op a b)

/-- The items are whole expressions between commas. -/
inductive DerivesList : Items → List ParseTree → Prop
  | last {xs : Items} {a : ParseTree} : Derives 7 xs a → DerivesList xs [a]
  | more {s t : Nat} {xs ys : Items} {a : ParseTree} {rest : List ParseTree} : Derives 7 xs a →
      DerivesList ys rest → DerivesList (xs ++ ⟨s, .comma, t⟩ :: ys) (a :: rest)

end

theorem DerivesList.single {xs : Items} {a : ParseTree} : DerivesList xs [a] → Derives 7 xs a
  | .last h => h

end Behavioral
