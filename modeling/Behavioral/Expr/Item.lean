import Behavioral.Expr.Op
import Behavioral.Token

/-!
# Signs

A plus or a minus stands between two operands or in front of one; which of the two it is, the token
before it decides. In front of an operand only the parity of the minus signs counts. An odd run
negates a number that follows directly, and is otherwise a single negation with the span of its last
minus that no other cancels. `Item.ofTokens` settles this, so that an item is a sign of one kind
only.
-/

namespace Behavioral

/-- An operator in front of its operand. -/
inductive LeadOp where
  | not
  | negate
deriving DecidableEq, Repr

inductive Item where
  | number (value : Float)
  | name (text : String)
  | lead (op : LeadOp)
  | join (op : BinaryOp)
  | opening
  | closing
  | comma

namespace Item

/-- What a symbol is when signs stand between operands. -/
def ofSymbol : Symbol → Item
  | .plus => .join .add
  | .minus => .join .sub
  | .times => .join .mul
  | .divide => .join .div
  | .power => .join .pow
  | .less => .join .lt
  | .lessEqual => .join .lte
  | .greater => .join .gt
  | .greaterEqual => .join .gte
  | .equal => .join .eq
  | .notEqual => .join .neq
  | .and => .join .and
  | .or => .join .or
  | .not => .lead .not
  | .opening => .opening
  | .closing => .closing
  | .comma => .comma

def ofToken : Token → Item
  | .number value => .number value
  | .name text => .name text
  | .symbol s => ofSymbol s

/-- Whether a sign after the token is in front of an operand. -/
def leadsOn : Token → Bool
  | .symbol .closing => false
  | .symbol _ => true
  | _ => false

/-- The negation that a minus stands for when no number follows it. -/
def negation (minus : Option (Spanned Unit)) : List (Spanned Item) :=
  match minus with
  | some m => [⟨m.start, .lead .negate, m.stop⟩]
  | none => []

/-- Settles the signs of the tokens. `leading` tells whether a sign would be in front of an operand,
and `minus` is the minus in front of this place that nothing has cancelled. -/
def settle : Bool → Option (Spanned Unit) → List (Spanned Token) → List (Spanned Item)
  | _, minus, [] => negation minus
  | true, minus, ⟨_, .symbol .plus, _⟩ :: rest => settle true minus rest
  | true, none, ⟨start, .symbol .minus, stop⟩ :: rest => settle true (some ⟨start, (), stop⟩) rest
  | true, some _, ⟨_, .symbol .minus, _⟩ :: rest => settle true none rest
  | _, some m, ⟨_, .number value, stop⟩ :: rest =>
    ⟨m.start, .number (-value), stop⟩ :: settle false none rest
  | _, minus, ⟨start, token, stop⟩ :: rest =>
    negation minus ++ ⟨start, ofToken token, stop⟩ :: settle (leadsOn token) none rest

def ofTokens (tokens : List (Spanned Token)) : List (Spanned Item) :=
  settle true none tokens

/-- Whether a name is the reciprocal function's. -/
def isReciprocal (name : String) : Bool :=
  sameLetters name "INV" || sameLetters name ".INV"

/-- Replaces the reciprocal of a literal by its value. -/
def expandReciprocals : List (Spanned Item) → List (Spanned Item)
  | ⟨start, .name f, nameStop⟩ :: ⟨openStart, .opening, openStop⟩ :: ⟨numStart, .number value, numStop⟩ ::
      ⟨closeStart, .closing, stop⟩ :: rest =>
    if isReciprocal f then
      ⟨start, .number (inverse value), stop⟩ :: expandReciprocals rest
    else
      ⟨start, .name f, nameStop⟩ :: ⟨openStart, .opening, openStop⟩ :: ⟨numStart, .number value, numStop⟩ ::
        ⟨closeStart, .closing, stop⟩ :: expandReciprocals rest
  | item :: rest => item :: expandReciprocals rest
  | [] => []

end Item

end Behavioral
