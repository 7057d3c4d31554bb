import Behavioral.Number.Layout
import Behavioral.Text.Quoted

/-!
# Data as text

Messages and settings are written as JSON without blanks. Numbers that are not finite have no
notation there and are written as `null`.
-/

namespace Behavioral

inductive Json where
  | null
  | bool (b : Bool)
  | integer (n : Int)
  | number (x : Float)
  | string (s : String)
  | array (items : List Json)
  | object (fields : List (String × Json))

namespace Json

/-- Numbers are positional with up to 16 digits before the point or 4 zeros behind it. -/
def numberLayout : NumberLayout := ⟨16, 4, "null"⟩

def ofNat (n : Nat) : Json :=
  integer n

/-- `null` where there is nothing. -/
def ofOption {α : Type} (f : α → Json) : Option α → Json
  | none => null
  | some a => f a

mutual

def text : Json → String
  | null => "null"
  | bool b => if b then "true" else "false"
  | integer n => toString n
  | number x => numberLayout.text x
  | string s => Quoted.text s
  | array items => "[" ++ itemsText items ++ "]"
  | object fields => "\x7b" ++ fieldsText fields ++ "\x7d"

def itemsText : List Json → String
  | [] => ""
  | [item] => item.text
  | item :: rest => item.text ++ "," ++ itemsText rest

def fieldsText : List (String × Json) → String
  | [] => ""
  | [(key, value)] => Quoted.text key ++ ":" ++ value.text
  | (key, value) :: rest => Quoted.text key ++ ":" ++ value.text ++ "," ++ fieldsText rest

end

end Json

end Behavioral
