import Behavioral.Text.Letters

/-!
# Reading JSON

A strict reader: blanks are space, tab and the line ends, nothing may follow the value, numbers and
escapes have the standard's forms only, and control characters do not stand in strings. A number is
kept as it is written and a string as its escapes, since a value that nobody asks for may be a
number of any size or hold half of a surrogate pair.
-/

namespace Behavioral.JsonReader

/-- A number as it is written. -/
structure Numeral where
  negative : Bool
  whole : List Char
  fraction : List Char
  powerNegative : Bool
  power : List Char

/-- A character of a string: itself, or a 16-bit unit of an escape. -/
inductive Unit16 where
  | char (c : Char)
  | escaped (code : Nat)

inductive Tree where
  | null
  | bool (b : Bool)
  | number (n : Numeral)
  | string (units : List Unit16)
  | array (items : List Tree)
  | object (fields : List (List Unit16 × Tree))

def isBlank (c : Char) : Bool :=
  c == ' ' || c == '\t' || c == '\n' || c == '\r'

def skipBlanks (text : List Char) : List Char :=
  text.dropWhile isBlank

/-- The rest of a text after the characters that it must start with. -/
def literal? : List Char → List Char → Option (List Char)
  | [], text => some text
  | c :: expected, d :: text => if c == d then literal? expected text else none
  | _ :: _, [] => none

def hexValue? (c : Char) : Option Nat :=
  if isAsciiDigit c then some (c.toNat - '0'.toNat)
  else if 'a' ≤ c && c ≤ 'f' then some (c.toNat - 'a'.toNat + 10)
  else if 'A' ≤ c && c ≤ 'F' then some (c.toNat - 'A'.toNat + 10)
  else none

def hexCode? (a b c d : Char) : Option Nat := do
  return ((← hexValue? a) * 4096 + (← hexValue? b) * 256) + ((← hexValue? c) * 16 + (← hexValue? d))

/-- The character that a letter after a backslash stands for. -/
def escapeLetter? : Char → Option Char
  | '"' => some '"'
  | '\\' => some '\\'
  | '/' => some '/'
  | 'b' => some '\x08'
  | 'f' => some '\x0c'
  | 'n' => some '\n'
  | 'r' => some '\r'
  | 't' => some '\t'
  | _ => none

/-- The rest of a string whose opening quote has been read. -/
def string? : List Char → Option (List Unit16 × List Char)
  | [] => none
  | '"' :: rest => some ([], rest)
  | '\\' :: 'u' :: a :: b :: c :: d :: rest => do
    let code ← hexCode? a b c d
    let (units, rest) ← string? rest
    return (.escaped code :: units, rest)
  | '\\' :: c :: rest => do
    let e ← escapeLetter? c
    let (units, rest) ← string? rest
    return (.char e :: units, rest)
  | c :: rest =>
    if c.toNat < 0x20 || c == '\\' then none
    else do
      let (units, rest) ← string? rest
      return (.char c :: units, rest)

/-- The text that units spell; nothing if a surrogate has no partner. -/
def decode? : List Unit16 → Option (List Char)
  | [] => some []
  | .char c :: rest => (decode? rest).map (c :: ·)
  | .escaped high :: .escaped low :: rest =>
    if 0xd800 ≤ high && high < 0xdc00 then
      if 0xdc00 ≤ low && low < 0xe000 then
        (decode? rest).map (Char.ofNat (0x10000 + (high - 0xd800) * 1024 + (low - 0xdc00)) :: ·)
      else none
    else if 0xdc00 ≤ high && high < 0xe000 then none
    else (decode? (.escaped low :: rest)).map (Char.ofNat high :: ·)
  | .escaped code :: rest =>
    if 0xd800 ≤ code && code < 0xe000 then none else (decode? rest).map (Char.ofNat code :: ·)

/-- One or more digits. -/
def digits? (text : List Char) : Option (List Char × List Char) :=
  match text.takeWhile isAsciiDigit with
  | [] => none
  | ds => some (ds, text.dropWhile isAsciiDigit)

/-- A zero stands alone in front of the point. -/
def whole? (text : List Char) : Option (List Char × List Char) := do
  let (ds, rest) ← digits? text
  match ds with
  | '0' :: _ :: _ => none
  | _ => return (ds, rest)

def fraction? (text : List Char) : Option (List Char × List Char) :=
  match text with
  | '.' :: rest => digits? rest
  | _ => some ([], text)

def power? (text : List Char) : Option (Bool × List Char × List Char) :=
  match text with
  | c :: rest =>
    if c == 'e' || c == 'E' then
      match rest with
      | '-' :: rest => (digits? rest).map fun (ds, rest) => (true, ds, rest)
      | '+' :: rest => (digits? rest).map fun (ds, rest) => (false, ds, rest)
      | _ => (digits? rest).map fun (ds, rest) => (false, ds, rest)
    else some (false, [], text)
  | [] => some (false, [], [])

def number? (text : List Char) : Option (Numeral × List Char) := do
  let (negative, text) :=
    match text with
    | '-' :: rest => (true, rest)
    | _ => (false, text)
  let (whole, text) ← whole? text
  let (fraction, text) ← fraction? text
  let (powerNegative, power, text) ← power? text
  return (⟨negative, whole, fraction, powerNegative, power⟩, text)

mutual

/-- A value at the start of a text without blanks in front; `fuel` bounds the steps. -/
def value? : Nat → List Char → Option (Tree × List Char)
  | 0, _ => none
  | fuel + 1, text =>
    match text with
    | 'n' :: _ => (literal? "null".toList text).map fun rest => (.null, rest)
    | 't' :: _ => (literal? "true".toList text).map fun rest => (.bool true, rest)
    | 'f' :: _ => (literal? "false".toList text).map fun rest => (.bool false, rest)
    | '"' :: rest => (string? rest).map fun (units, rest) => (.string units, rest)
    | '[' :: rest =>
      match skipBlanks rest with
      | ']' :: rest => some (.array [], rest)
      | rest => (items? fuel rest).map fun (items, rest) => (.array items, rest)
    | '\x7b' :: rest =>
      match skipBlanks rest with
      | '\x7d' :: rest => some (.object [], rest)
      | rest => (fields? fuel rest).map fun (fields, rest) => (.object fields, rest)
    | _ => (number? text).map fun (n, rest) => (.number n, rest)

/-- The values of an array, up to and with its closing bracket. -/
def items? : Nat → List Char → Option (List Tree × List Char)
  | 0, _ => none
  | fuel + 1, text => do
    let (item, rest) ← value? fuel text
    match skipBlanks rest with
    | ']' :: rest => return ([item], rest)
    | ',' :: rest =>
      let (items, rest) ← items? fuel (skipBlanks rest)
      return (item :: items, rest)
    | _ => none

/-- The fields of an object, up to and with its closing brace. -/
def fields? : Nat → List Char → Option (List (List Unit16 × Tree) × List Char)
  | 0, _ => none
  | fuel + 1, text =>
    match text with
    | '"' :: rest => do
      let (key, rest) ← string? rest
      match skipBlanks rest with
      | ':' :: rest =>
        let (value, rest) ← value? fuel (skipBlanks rest)
        match skipBlanks rest with
        | '\x7d' :: rest => return ([(key, value)], rest)
        | ',' :: rest =>
          let (fields, rest) ← fields? fuel (skipBlanks rest)
          return ((key, value) :: fields, rest)
        | _ => none
      | _ => none
    | _ => none

end

/-- The value that is all of a text but the blanks around it. -/
def read? (text : String) : Option Tree := do
  let chars := text.toList
  let (tree, rest) ← value? (2 * chars.length + 2) (skipBlanks chars)
  if (skipBlanks rest).isEmpty then return tree else none

end Behavioral.JsonReader
