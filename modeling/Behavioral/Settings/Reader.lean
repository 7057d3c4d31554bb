import Behavioral.Fault
import Behavioral.Number.Decimal
import Behavioral.Settings
import Behavioral.Text.Json
import Behavioral.Text.JsonReader

/-!
# Settings as text

Settings are read from a JSON object whose fields may be missing, or from an array of the first few
fields in order. Fields that no setting has are ignored, but a setting's own may not be repeated. A
number is read as a word of 64 bits, digit by digit, and then scaled by powers of ten: digits that
no longer fit the word are dropped, so the answer may be a step off the nearest double. A number too
large for a double is refused.
-/

namespace Behavioral.Settings

open JsonReader (Numeral Tree)

/-- Takes digits while the number that they spell fits a word, and returns the rest. -/
def takeFitting : Nat → List Char → Nat × List Char
  | n, [] => (n, [])
  | n, c :: rest =>
    let m := 10 * n + (c.toNat - '0'.toNat)
    if m < 2 ^ 64 then takeFitting m rest else (n, c :: rest)

def powerOfTen (n : Nat) : Float :=
  Float.ofScientific 1 false n

/-- `x · 10 ^ power`, by at most one product and a few quotients; nothing if it is too large. -/
def scaled? : Nat → Float → Int → Option Float
  | 0, _, _ => some 0
  | fuel + 1, x, power =>
    if power.natAbs ≤ 308 then
      if 0 ≤ power then
        let y := x * powerOfTen power.toNat
        if y.isInf then none else some y
      else some (x / powerOfTen power.natAbs)
    else if x == 0 then some x
    else if 0 ≤ power then none
    else scaled? fuel (x / 1e308) (power + 308)

/-- The word that a numeral's digits fit into, and the power of ten that it is scaled by without the
written one. -/
def significand (n : Numeral) : Nat × Int :=
  let (word, whole) := takeFitting 0 n.whole
  let (word, fraction) := takeFitting word n.fraction
  (word, (whole.length : Int) - (n.fraction.length - fraction.length : Nat))

/-- Powers of ten are words of 32 bits. -/
def powerLimit : Nat := Nat.pow 2 31

def unsigned? (n : Numeral) : Option Float :=
  let (word, power) := significand n
  let written := digitsValue n.power
  if powerLimit ≤ written then
    if word ≠ 0 ∧ n.powerNegative = false then none else some 0
  else
    scaled? 4 (Float.ofNat word) (if n.powerNegative then power - written else power + written)

def float? : Tree → Option Float
  | .number n => (unsigned? n).map fun x => if n.negative then -x else x
  | _ => none

def bool? : Tree → Option Bool
  | .bool b => some b
  | _ => none

/-- The settings read so far; a field that has been read cannot be read again. -/
structure Partial where
  ambientTemperature : Option Float := none
  foldConstants : Option Bool := none
  pruneConstants : Option Bool := none
  relativeStep : Option Float := none

/-- A value for a field that has none yet. -/
def once? {α : Type} (present : Option α) (value : Option α) : Option (Option α) :=
  match present with
  | some _ => none
  | none => value.map some

def Partial.put? (p : Partial) (key : String) (value : Tree) : Option Partial :=
  match key with
  | "ambient_temperature" =>
    (once? p.ambientTemperature (float? value)).map fun v => { p with ambientTemperature := v }
  | "fold_constants" =>
    (once? p.foldConstants (bool? value)).map fun v => { p with foldConstants := v }
  | "prune_constants" =>
    (once? p.pruneConstants (bool? value)).map fun v => { p with pruneConstants := v }
  | "relative_step" =>
    (once? p.relativeStep (float? value)).map fun v => { p with relativeStep := v }
  | _ => some p

/-- The settings, with the defaults of `base` where nothing was read. -/
def Partial.settings (p : Partial) (base : Settings) : Settings where
  ambientTemperature := p.ambientTemperature.getD base.ambientTemperature
  foldConstants := p.foldConstants.getD base.foldConstants
  pruneConstants := p.pruneConstants.getD base.pruneConstants
  relativeStep := p.relativeStep.getD base.relativeStep

def fieldNames : List String :=
  ["ambient_temperature", "fold_constants", "prune_constants", "relative_step"]

def ofFields? : Partial → List (List JsonReader.Unit16 × Tree) → Option Partial
  | p, [] => some p
  | p, (key, value) :: rest => do
    let key ← JsonReader.decode? key
    let p ← p.put? (String.ofList key) value
    ofFields? p rest

/-- The items of an array are the fields in order. -/
def ofItems? : Partial → List String → List Tree → Option Partial
  | p, _, [] => some p
  | _, [], _ :: _ => none
  | p, name :: names, item :: items => do
    ofItems? (← p.put? name item) names items

def ofTree? : Tree → Option Partial
  | .object fields => ofFields? {} fields
  | .array items => ofItems? {} fieldNames items
  | _ => none

def ofJson (text : String) : Except Fault Settings :=
  match (JsonReader.read? text).bind ofTree? with
  | some p => .ok (p.settings {})
  | none => .error .settings

def toJson (s : Settings) : String :=
  (Json.object [
    ("ambient_temperature", .number s.ambientTemperature),
    ("fold_constants", .bool s.foldConstants),
    ("prune_constants", .bool s.pruneConstants),
    ("relative_step", .number s.relativeStep)]).text

end Behavioral.Settings
