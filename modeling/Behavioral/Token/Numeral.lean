import Behavioral.Number.Decimal
import Behavioral.Text.Letters

/-!
# Numerals

Digits with an optional point, an optional power of ten, and letters: an engineering suffix, which
scales the number, and any unit after it, which does not. `MEG` and `MIL` are suffixes of their own
and come before the milli that both start with. An `e` straight after the digits always starts a
power of ten, so it must have digits.
-/

namespace Behavioral

structure Numeral where
  whole : List Char
  fraction : List Char
  /-- The sign and the digits of the power of ten; the digits may be missing in the text. -/
  power : Option (Bool × List Char)
  letters : List Char
  /-- How many characters the numeral has. -/
  length : Nat

namespace Numeral

/-- What follows the digits: an optional sign and digits. -/
def scanPower : List Char → Bool × List Char × Nat
  | '-' :: rest => (true, rest.takeWhile isAsciiDigit, 1)
  | '+' :: rest => (false, rest.takeWhile isAsciiDigit, 1)
  | rest => (false, rest.takeWhile isAsciiDigit, 0)

def scanFraction (text : List Char) : List Char × Nat :=
  match text with
  | '.' :: rest => (rest.takeWhile isAsciiDigit, 1)
  | _ => ([], 0)

def scan (text : List Char) : Numeral :=
  let whole := text.takeWhile isAsciiDigit
  let afterWhole := text.drop whole.length
  let (fraction, point) := scanFraction afterWhole
  let mantissa := whole.length + point + fraction.length
  let (power, powerLength) :=
    match text.drop mantissa with
    | c :: rest =>
      if c == 'e' || c == 'E' then
        let (negative, digits, sign) := scanPower rest
        (some (negative, digits), 1 + sign + digits.length)
      else (none, 0)
    | [] => (none, 0)
  let letters := (text.drop (mantissa + powerLength)).takeWhile isAsciiLetter
  { whole, fraction, power, letters, length := mantissa + powerLength + letters.length }

/-- A numeral has at least its whole digits and its point. -/
theorem le_length_scan (text : List Char) :
    (text.takeWhile isAsciiDigit).length
      + (scanFraction (text.drop (text.takeWhile isAsciiDigit).length)).2
      ≤ (scan text).length := by
  simp only [scan]
  omega

def powerMissing (n : Numeral) : Bool :=
  match n.power with
  | some (_, []) => true
  | _ => false

def exponent (n : Numeral) : Int :=
  match n.power with
  | some (true, digits) => -(digitsValue digits : Int)
  | some (false, digits) => digitsValue digits
  | none => 0

def decimal (n : Numeral) : Decimal where
  digits := digitsValue (n.whole ++ n.fraction)
  place := n.exponent - n.fraction.length

/-- The scale that letters after a number stand for; other letters are a unit. -/
def scale (letters : List Char) : Float :=
  match letters.map capital with
  | 'M' :: 'E' :: 'G' :: _ => 1e6
  | 'M' :: 'I' :: 'L' :: _ => 25.4e-6
  | 'T' :: _ => 1e12
  | 'G' :: _ => 1e9
  | 'M' :: _ => 1e-3
  | 'K' :: _ => 1e3
  | 'U' :: _ => 1e-6
  | 'N' :: _ => 1e-9
  | 'P' :: _ => 1e-12
  | 'F' :: _ => 1e-15
  | _ => 1

def value (n : Numeral) : Float :=
  n.decimal.toFloat * scale n.letters

end Numeral

end Behavioral
